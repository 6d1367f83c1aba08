import Mathlib.Data.Int.Notation
import Mathlib.Data.List.Nodup

/-! A pointer that goes round a list: who comes before whom, while elements leave at the pointer and
others join at the end. -/
namespace El32.Turn
set_option autoImplicit false

variable {ι : Type} {v : List ι} {next : ℤ} {late : ℕ} {i p : ι}

/-- Where the pointer goes. -/
def turn (next : ℤ) (v : List ι) : ℤ := if next < v.length - 1 then next + 1 else 0

variable [DecidableEq ι]

/-- How many come before `i`, when the pointer is at `next` and up to `late` elements still join. -/
def ahead (next : ℤ) (v : List ι) (late : ℕ) (i : ι) : ℤ :=
  if next < v.idxOf i then v.idxOf i - next - 1 else v.length - 1 - next + v.idxOf i + late

theorem idxOf_of_getElem? (hv : v.Nodup) {k : ℕ} (h : v[k]? = some p) : v.idxOf p = k := by
  obtain ⟨hk, rfl⟩ := List.getElem?_eq_some_iff.mp h
  exact hv.idxOf_getElem k hk

theorem idxOf_erase (hp : p ∈ v) (hne : i ≠ p) :
    (v.erase p).idxOf i = if v.idxOf p < v.idxOf i then v.idxOf i - 1 else v.idxOf i := by
  obtain ⟨as, bs, rfl, hnot⟩ := List.eq_append_cons_of_mem hp
  rw [List.erase_append_right _ hnot, List.erase_cons_head, List.idxOf_append, List.idxOf_append,
    List.idxOf_append, if_neg hnot, List.idxOf_cons_self, List.idxOf_cons_ne bs hne.symm]
  by_cases hi : i ∈ as
  · have hlt := List.idxOf_lt_length_of_mem hi
    rw [if_pos hi, if_pos hi, if_neg (by omega)]
  · rw [if_neg hi, if_neg hi, if_pos (by omega)]
    omega

theorem ahead_nonneg (hlt : next < v.length) : 0 ≤ ahead next v late i := by
  unfold ahead
  split <;> omega

section Ahead
variable (hi : i ∈ v)
include hi

theorem ahead_le (hnext : -1 ≤ next) : ahead next v late i ≤ v.length - 1 + late := by
  have hpos := List.idxOf_lt_length_of_mem hi
  unfold ahead
  split <;> omega

/-- An element other than `i` is at the pointer. -/
theorem ahead_lt (hnext : 0 ≤ next) (hne : (v.idxOf i : ℤ) ≠ next) :
    ahead next v late i ≤ v.length - 2 + late := by
  have hpos := List.idxOf_lt_length_of_mem hi
  unfold ahead
  split <;> omega

theorem ahead_turn (hlt : next < v.length) (hne : (v.idxOf i : ℤ) ≠ turn next v) :
    ahead (turn next v) v late i + 1 ≤ ahead next v late i := by
  have hpos := List.idxOf_lt_length_of_mem hi
  unfold ahead turn at *
  by_cases hmore : next < v.length - 1
  · simp only [if_pos hmore] at hne ⊢
    split <;> split <;> omega
  · simp only [if_neg hmore] at hne ⊢
    rw [if_pos (by omega)]
    split <;> omega

/-- The element at the pointer leaves. -/
theorem ahead_erase (hp : p ∈ v) (hat : (v.idxOf p : ℤ) = next) (hne : i ≠ p) :
    ahead (next - 1) (v.erase p) late i = ahead next v late i := by
  have hlen := List.length_erase_of_mem hp
  have hpos := List.length_pos_of_mem hp
  have hother : v.idxOf i ≠ v.idxOf p := fun h => hne ((List.idxOf_inj hi).mp h)
  unfold ahead
  rw [idxOf_erase hp hne, hlen]
  split <;> split <;> omega

/-- Elements that were awaited join. -/
theorem ahead_append (next : ℤ) (u : List ι) :
    ahead next (v ++ u) late i = ahead next v (late + u.length) i := by
  unfold ahead
  rw [List.idxOf_append_of_mem hi, List.length_append]
  split <;> omega

end Ahead

end El32.Turn

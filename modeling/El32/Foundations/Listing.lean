import Mathlib.Algebra.Group.Nat.Defs
import Mathlib.Data.List.Basic

/-! The values 1, 2, 3 and so on in words of 64 bits, and lists of them in order. -/
namespace El32.Listing
set_option autoImplicit false

def word (k : ℕ) : UInt64 := UInt64.ofNat k

/-- The value at position `k`. -/
def item (k : ℕ) : UInt64 := word (k + 1)

theorem word_succ (k : ℕ) : word k + 1 = word (k + 1) := (UInt64.ofNat_add k 1).symm

theorem word_toNat {k : ℕ} (hk : k < 2 ^ 64) : (word k).toNat = k := by
  unfold word
  rw [UInt64.toNat_ofNat']
  exact Nat.mod_eq_of_lt hk

theorem listing_step {l l' : List UInt64} (h : l = (List.range l.length).map item)
    (h' : l' = l ∨ l' = l ++ [item l.length]) : l' = (List.range l'.length).map item := by
  rcases h' with rfl | rfl
  · exact h
  · rw [List.length_append, List.length_singleton, List.range_succ, List.map_append, ← h]
    rfl

theorem zeros_step {l l' : List UInt64} (h : ∀ c ∈ l, c = 0) (h' : l' = l ∨ l' = l ++ [0]) :
    ∀ c ∈ l', c = 0 := by
  rcases h' with rfl | rfl
  · exact h
  · intro c hc
    rcases List.mem_append.mp hc with hc | hc
    · exact h c hc
    · exact List.mem_singleton.mp hc

theorem toNat_of_listing {l : List UInt64} (h : l = (List.range l.length).map item)
    (hl : l.length < 2 ^ 64 - 1) : l.map UInt64.toNat = List.range' 1 l.length := by
  calc l.map UInt64.toNat
      = ((List.range l.length).map item).map UInt64.toNat := congrArg (List.map UInt64.toNat) h
    _ = List.range' 1 l.length := by
      rw [List.range'_eq_map_range, List.map_map]
      apply List.map_congr_left
      intro k hk
      have hk := List.mem_range.mp hk
      show (word (k + 1)).toNat = 1 + k
      rw [word_toNat (by omega), Nat.add_comm]

end El32.Listing

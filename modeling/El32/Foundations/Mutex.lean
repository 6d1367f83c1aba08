import El32.Foundations.Processes

/-! The rule of a binary semaphore over a list of processes.

The value of the semaphore and the processes inside its critical section add up to one. While
nobody is inside, `free` holds of the shared state; while a process is, `held` relates the two. -/
namespace El32.Mutex
open Processes
set_option autoImplicit false

section Mutex
variable {σ π : Type} (inside : π → Bool) (free : σ → Prop) (held : σ → π → Prop)

def load (p : π) : ℕ := (inside p).toNat

structure Guarded (value : ℕ) (s : σ) (ps : List π) : Prop where
  count : value + tally (load inside) ps = 1
  free : value = 1 → free s
  held : ∀ p ∈ ps, inside p → held s p

variable {inside free held}

theorem load_of_inside {p : π} (h : inside p = true) : load inside p = 1 := by simp [load, h]

theorem load_of_outside {p : π} (h : inside p = false) : load inside p = 0 := by simp [load, h]

namespace Guarded
variable {value : ℕ} {s s' : σ} {ps : List π} {i : ℕ} {p q : π}

theorem value_eq_zero (h : Guarded inside free held value s ps) (hp : p ∈ ps)
    (hin : inside p = true) : value = 0 := by
  have hle := le_tally (load inside) hp
  rw [load_of_inside hin] at hle
  have hc := h.count
  omega

theorem alone (h : Guarded inside free held value s ps) {j : ℕ} (hp : ps[i]? = some p)
    (hq : ps[j]? = some q) (hinp : inside p = true) (hinq : inside q = true) : i = j := by
  have hc := h.count
  exact eq_place_of_tally (w := load inside) (by omega) hp hq
    (by rw [load_of_inside hinp]; exact Nat.one_pos)
    (by rw [load_of_inside hinq]; exact Nat.one_pos)

theorem outside_of_free (h : Guarded inside free held 1 s ps) : ∀ p ∈ ps, inside p = false := by
  intro p hp
  by_contra hin
  exact absurd (h.value_eq_zero hp (by simpa using hin)) Nat.one_ne_zero

/-- When the process at `i` is the only one that can be inside, the others need no care. -/
theorem held_set (hp : ps[i]? = some p)
    (halone : ∀ j r, ps[j]? = some r → inside r = true → j = i)
    (hq : inside q = true → held s' q) : ∀ r ∈ ps.set i q, inside r = true → held s' r := by
  intro r hr hin
  obtain ⟨j, hj⟩ := List.getElem?_of_mem hr
  have hi : i < ps.length := (List.getElem?_eq_some_iff.mp hp).1
  by_cases hij : i = j
  · subst hij
    rw [List.getElem?_set_self hi] at hj
    obtain rfl := Option.some.inj hj
    exact hq hin
  · rw [List.getElem?_set_ne hij] at hj
    exact absurd (halone j r hj hin).symm hij

theorem enter (h : Guarded inside free held value s ps) (hp : ps[i]? = some p)
    (hinp : inside p = false) (hinq : inside q = true) (hv : 0 < value)
    (hheld : free s → held s' q) : Guarded inside free held (value - 1) s' (ps.set i q) := by
  have hc := h.count
  have hset := tally_set (load inside) hp q
  rw [load_of_inside hinq, load_of_outside hinp] at hset
  obtain rfl : value = 1 := by omega
  refine ⟨by omega, by simp, held_set hp ?_ fun _ => hheld (h.free rfl)⟩
  intro j r hr hin
  rw [h.outside_of_free r (List.mem_of_getElem? hr)] at hin
  exact absurd hin Bool.false_ne_true

theorem within (h : Guarded inside free held value s ps) (hp : ps[i]? = some p)
    (hinp : inside p = true) (hinq : inside q = true) (hheld : held s p → held s' q) :
    Guarded inside free held value s' (ps.set i q) := by
  have hc := h.count
  have hset := tally_set (load inside) hp q
  have hmem := List.mem_of_getElem? hp
  rw [load_of_inside hinq, load_of_inside hinp] at hset
  have hv := h.value_eq_zero hmem hinp
  refine ⟨by omega, by omega, held_set hp ?_ fun _ => hheld (h.held p hmem hinp)⟩
  intro j r hr hin
  exact h.alone hr hp hin hinp

theorem leave (h : Guarded inside free held value s ps) (hp : ps[i]? = some p)
    (hinp : inside p = true) (hinq : inside q = false) (hfree : held s p → free s') :
    Guarded inside free held (value + 1) s' (ps.set i q) := by
  have hc := h.count
  have hset := tally_set (load inside) hp q
  have hmem := List.mem_of_getElem? hp
  rw [load_of_outside hinq, load_of_inside hinp] at hset
  have hv := h.value_eq_zero hmem hinp
  refine ⟨by omega, fun _ => hfree (h.held p hmem hinp), held_set hp ?_ ?_⟩
  · intro j r hr hin
    exact h.alone hr hp hin hinp
  · intro hin
    rw [hinq] at hin
    exact absurd hin Bool.false_ne_true

theorem outside (h : Guarded inside free held value s ps) (hp : ps[i]? = some p)
    (hinp : inside p = false) (hinq : inside q = false) (hfree : free s → free s')
    (hheld : ∀ r ∈ ps, inside r = true → held s r → held s' r) :
    Guarded inside free held value s' (ps.set i q) := by
  have hc := h.count
  have hset := tally_set (load inside) hp q
  rw [load_of_outside hinq, load_of_outside hinp] at hset
  refine ⟨by omega, fun hv => hfree (h.free hv), ?_⟩
  refine forall_mem_set (fun r hr hin => hheld r hr hin (h.held r hr hin)) ?_
  intro hin
  rw [hinq] at hin
  exact absurd hin Bool.false_ne_true

theorem join (h : Guarded inside free held value s ps) (hinq : inside q = false) :
    Guarded inside free held value s (ps ++ [q]) := by
  have hc := h.count
  refine ⟨by rw [tally_concat, load_of_outside hinq]; exact hc, h.free, ?_⟩
  refine forall_mem_concat h.held ?_
  intro hin
  rw [hinq] at hin
  exact absurd hin Bool.false_ne_true

end Guarded

end Mutex

end El32.Mutex

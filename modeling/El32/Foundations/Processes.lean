import Mathlib.Algebra.BigOperators.Group.List.Basic
import Mathlib.Algebra.Order.BigOperators.Group.List
import Mathlib.Algebra.Order.Ring.Nat

/-! Processes that share a state and run one program, interleaved at every step.

`stepAt` lets the process at one place of the list take its next step. `tally` adds a weight up over
the processes; a step changes it by what it changes at its own place. -/
namespace El32.Processes
set_option autoImplicit false

section Steps
variable {σ π : Type}

def stepAt (prog : σ → π → Option (σ × π)) (s : σ) (ps : List π) (i : ℕ) : Option (σ × List π) :=
  match ps[i]? with
  | none => none
  | some p => (prog s p).map fun r => (r.1, ps.set i r.2)

theorem stepAt_eq_some {prog : σ → π → Option (σ × π)} {s s' : σ} {ps ps' : List π} {i : ℕ} :
    stepAt prog s ps i = some (s', ps') ↔
      ∃ p q, ps[i]? = some p ∧ prog s p = some (s', q) ∧ ps' = ps.set i q := by
  unfold stepAt
  cases hp : ps[i]? with
  | none => simp
  | some p =>
    simp only [Option.map_eq_some_iff, Prod.mk.injEq, Option.some.injEq]
    constructor
    · rintro ⟨⟨t, q⟩, hq, rfl, rfl⟩
      exact ⟨p, q, rfl, hq, rfl⟩
    · rintro ⟨_, q, rfl, hq, rfl⟩
      exact ⟨(s', q), hq, rfl, rfl⟩

theorem forall_mem_set {P : π → Prop} {ps : List π} {i : ℕ} {q : π} (h : ∀ p ∈ ps, P p)
    (hq : P q) : ∀ p ∈ ps.set i q, P p := by
  intro p hp
  rcases List.mem_or_eq_of_mem_set hp with hp | rfl
  · exact h p hp
  · exact hq

theorem forall_mem_concat {P : π → Prop} {ps : List π} {q : π} (h : ∀ p ∈ ps, P p) (hq : P q) :
    ∀ p ∈ ps ++ [q], P p := by
  intro p hp
  rcases List.mem_append.mp hp with hp | hp
  · exact h p hp
  · obtain rfl := List.mem_singleton.mp hp
    exact hq

/-- What some process has, some process still has when one takes a step that keeps it. -/
theorem exists_mem_set {P : π → Prop} {ps : List π} {i : ℕ} {p q : π} (hp : ps[i]? = some p)
    (h : ∃ r ∈ ps, P r) (hq : P p → P q) : ∃ r ∈ ps.set i q, P r := by
  obtain ⟨hi, hip⟩ := List.getElem?_eq_some_iff.mp hp
  obtain ⟨r, hr, hPr⟩ := h
  obtain ⟨j, hj, rfl⟩ := List.getElem_of_mem hr
  by_cases hij : i = j
  · subst hij
    rw [hip] at hPr
    exact ⟨q, List.mem_set hi q, hq hPr⟩
  · exact ⟨ps[j], List.mem_of_getElem? (i := j) (by simp [hij, hj]), hPr⟩

end Steps

/-! ## Tallies -/

section Tally
variable {π : Type}

def tally (w : π → ℕ) (ps : List π) : ℕ := (ps.map w).sum

variable {w v : π → ℕ} {ps : List π} {i : ℕ} {p : π}

theorem tally_concat (w : π → ℕ) (ps : List π) (p : π) :
    tally w (ps ++ [p]) = tally w ps + w p := by
  simp [tally]

theorem tally_set (w : π → ℕ) (hp : ps[i]? = some p) (q : π) :
    tally w (ps.set i q) + w p = tally w ps + w q := by
  unfold tally
  induction ps generalizing i with
  | nil => simp at hp
  | cons r ps ih =>
    cases i with
    | zero =>
      obtain rfl : r = p := by simpa using hp
      simp only [List.set_cons_zero, List.map_cons, List.sum_cons]
      omega
    | succ i =>
      have h := ih (by simpa using hp)
      simp only [List.set_cons_succ, List.map_cons, List.sum_cons]
      omega

theorem le_tally (w : π → ℕ) (hp : p ∈ ps) : w p ≤ tally w ps :=
  List.le_sum_of_mem (List.mem_map_of_mem hp)

theorem tally_add (w v : π → ℕ) (ps : List π) :
    tally (fun p => w p + v p) ps = tally w ps + tally v ps :=
  List.sum_map_add

theorem tally_eq_zero : tally w ps = 0 ↔ ∀ p ∈ ps, w p = 0 := by
  simp [tally, List.sum_eq_zero_iff]

/-- Of two processes with a weight, only one is there when the weights add up to one. -/
theorem eq_place_of_tally {j : ℕ} {q : π} (h : tally w ps ≤ 1) (hp : ps[i]? = some p)
    (hq : ps[j]? = some q) (hwp : 0 < w p) (hwq : 0 < w q) : i = j := by
  induction ps generalizing i j with
  | nil => simp at hp
  | cons r ps ih =>
    have hcons : tally w (r :: ps) = w r + tally w ps := by simp [tally]
    have hsum : w r + tally w ps ≤ 1 := hcons ▸ h
    cases i with
    | zero =>
      cases j with
      | zero => rfl
      | succ j =>
        obtain rfl : r = p := by simpa using hp
        have hle := le_tally w (List.mem_of_getElem? (by simpa using hq : ps[j]? = some q))
        omega
    | succ i =>
      cases j with
      | zero =>
        obtain rfl : r = q := by simpa using hq
        have hle := le_tally w (List.mem_of_getElem? (by simpa using hp : ps[i]? = some p))
        omega
      | succ j =>
        have hp' : ps[i]? = some p := by simpa using hp
        have hq' : ps[j]? = some q := by simpa using hq
        exact congrArg Nat.succ (ih (by omega) hp' hq')

end Tally

end El32.Processes

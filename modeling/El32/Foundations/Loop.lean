import Mathlib.Data.Nat.Notation
import Mathlib.Data.Option.Basic

/-! `while` loops whose body may have no value and lowers a measure in every round. -/
namespace El32.Loop
set_option autoImplicit false

section Loop
variable {σ : Type} (cond : σ → Bool) (body : σ → Option σ)

/-- The loop cut off after `k` rounds. -/
def rounds : ℕ → σ → Option σ
  | 0, s => if cond s then none else some s
  | k + 1, s => if cond s then (body s).bind (rounds k) else some s

/-- `while (cond) body`; `μ` bounds the rounds that are still to come. -/
def whileLoop (μ : σ → ℕ) (s : σ) : Option σ := rounds cond body (μ s) s

def Lowers (μ : σ → ℕ) : Prop := ∀ s s', cond s → body s = some s' → μ s' < μ s

variable {cond body} {μ : σ → ℕ}

theorem rounds_succ (k : ℕ) (s : σ) :
    rounds cond body (k + 1) s = if cond s then (body s).bind (rounds cond body k) else some s :=
  rfl

theorem rounds_of_not {s : σ} (h : cond s = false) (k : ℕ) : rounds cond body k s = some s := by
  cases k <;> simp [rounds, h]

theorem rounds_congr (hμ : Lowers cond body μ) {j k : ℕ} {s : σ} (hj : μ s ≤ j) (hk : μ s ≤ k) :
    rounds cond body j s = rounds cond body k s := by
  induction j generalizing k s with
  | zero =>
    cases hc : cond s with
    | false => rw [rounds_of_not hc, rounds_of_not hc]
    | true =>
      cases k with
      | zero => rfl
      | succ k =>
        cases hb : body s with
        | none => simp [rounds, hc, hb]
        | some s' =>
          have hlt := hμ s s' hc hb
          omega
  | succ j ih =>
    cases hc : cond s with
    | false => rw [rounds_of_not hc, rounds_of_not hc]
    | true =>
      cases hb : body s with
      | none => cases k <;> simp [rounds, hc, hb]
      | some s' =>
        have hlt := hμ s s' hc hb
        cases k with
        | zero => omega
        | succ k =>
          rw [rounds_succ, rounds_succ, if_pos hc, if_pos hc, hb]
          exact ih (by omega) (by omega)

theorem eq_of_rounds {k : ℕ} {s t : σ} (hc : cond s = false)
    (h : rounds cond body k s = some t) : s = t := by
  rw [rounds_of_not hc] at h
  exact Option.some.inj h

theorem rounds_invariant {I : σ → Prop} (hI : ∀ s s', I s → cond s → body s = some s' → I s')
    {k : ℕ} {s t : σ} (hs : I s) (h : rounds cond body k s = some t) : I t ∧ cond t = false := by
  induction k generalizing s with
  | zero =>
    cases hc : cond s with
    | false =>
      obtain rfl := eq_of_rounds hc h
      exact ⟨hs, hc⟩
    | true => simp [rounds, hc] at h
  | succ k ih =>
    cases hc : cond s with
    | false =>
      obtain rfl := eq_of_rounds hc h
      exact ⟨hs, hc⟩
    | true =>
      rw [rounds_succ, if_pos hc] at h
      obtain ⟨s', hb, h⟩ := Option.bind_eq_some_iff.mp h
      exact ih (hI s s' hs hc hb) h

/-- A loop whose rounds keep `I` and lower `μ` is left. -/
theorem rounds_returns {I : σ → Prop} (μ : σ → ℕ)
    (hI : ∀ s, I s → cond s → ∃ s', body s = some s' ∧ I s' ∧ μ s' < μ s) {k : ℕ} {s : σ}
    (hs : I s) (hk : μ s ≤ k) : ∃ t, rounds cond body k s = some t := by
  induction k generalizing s with
  | zero =>
    cases hc : cond s with
    | false => exact ⟨s, rounds_of_not hc 0⟩
    | true =>
      obtain ⟨s', -, -, hlt⟩ := hI s hs hc
      omega
  | succ k ih =>
    cases hc : cond s with
    | false => exact ⟨s, rounds_of_not hc (k + 1)⟩
    | true =>
      obtain ⟨s', hb, hs', hlt⟩ := hI s hs hc
      rw [rounds_succ, if_pos hc, hb]
      exact ih hs' (by omega)

theorem whileLoop_done {s : σ} (h : cond s = false) : whileLoop cond body μ s = some s :=
  rounds_of_not h _

theorem whileLoop_next (hμ : Lowers cond body μ) {s : σ} (h : cond s) :
    whileLoop cond body μ s = (body s).bind (whileLoop cond body μ) := by
  rw [whileLoop, rounds_congr hμ (Nat.le_refl _) (Nat.le_succ (μ s)), rounds_succ, if_pos h]
  cases hb : body s with
  | none => rfl
  | some s' => exact rounds_congr hμ (Nat.le_of_lt (hμ s s' h hb)) (Nat.le_refl _)

/-- What every round keeps holds when the loop is left. -/
theorem whileLoop_invariant {I : σ → Prop}
    (hI : ∀ s s', I s → cond s → body s = some s' → I s') {s t : σ} (hs : I s)
    (h : whileLoop cond body μ s = some t) : I t ∧ cond t = false :=
  rounds_invariant hI hs h

end Loop

end El32.Loop

import Mathlib.Computability.StateTransition
import Mathlib.Data.List.Basic

/-! Transition systems given by a partial step function, and properties along their runs.

A run is a list of labels from a state; a label that is not enabled ends it. -/
namespace El32.Transition
set_option autoImplicit false

section Runs
variable {σ l : Type} (step : σ → l → Option σ)

def after (s : σ) (ls : List l) : Option σ := ls.foldlM step s

def AllStates (P : σ → Prop) : σ → List l → Prop
  | s, [] => P s
  | s, a :: ls => P s ∧ ∀ s', step s a = some s' → AllStates P s' ls

def AllSteps (G : σ → l → Prop) : σ → List l → Prop
  | _, [] => True
  | s, a :: ls => ∀ s', step s a = some s' → G s a ∧ AllSteps G s' ls

instance decidableAllSteps (G : σ → l → Prop) [∀ s a, Decidable (G s a)] :
    (s : σ) → (ls : List l) → Decidable (AllSteps step G s ls)
  | _, [] => inferInstanceAs (Decidable True)
  | s, a :: ls =>
    match h : step s a with
    | none => .isTrue fun _ hs => absurd (h.symm.trans hs) nofun
    | some s' =>
      have := decidableAllSteps G s' ls
      decidable_of_iff (G s a ∧ AllSteps step G s' ls)
        ⟨fun hg _ ht => Option.some.inj (h.symm.trans ht) ▸ hg, fun hg => hg s' h⟩

variable {step} {I P : σ → Prop} {G : σ → l → Prop}

theorem after_cons {s s' : σ} {a : l} (h : step s a = some s') (ls : List l) :
    after step s (a :: ls) = after step s' ls := by
  simp [after, h]

theorem after_append {s s' : σ} {ks : List l} (h : after step s ks = some s') (ls : List l) :
    after step s (ks ++ ls) = after step s' ls := by
  rw [after] at h
  rw [after, List.foldlM_append, h]
  rfl

theorem AllStates.after {s s' : σ} {ls : List l} (hP : AllStates step P s ls)
    (h : after step s ls = some s') : P s' := by
  induction ls generalizing s with
  | nil =>
    obtain rfl : s = s' := by simpa [Transition.after] using h
    exact hP
  | cons a ls ih =>
    cases ha : step s a with
    | none => simp [Transition.after, ha] at h
    | some s₁ =>
      rw [after_cons ha] at h
      exact ih (hP.2 s₁ ha) h

/-- What every step keeps holds after every run. -/
theorem invariant_after (hI : ∀ s a s', I s → step s a = some s' → I s') {s s' : σ}
    {ls : List l} (hs : I s) (h : after step s ls = some s') : I s' := by
  induction ls generalizing s with
  | nil =>
    obtain rfl : s = s' := by simpa [after] using h
    exact hs
  | cons a ls ih =>
    cases ha : step s a with
    | none => simp [after, ha] at h
    | some s₁ =>
      rw [after_cons ha] at h
      exact ih (hI s a s₁ hs ha) h

/-- A run whose every state has one next state is known from its length. -/
theorem after_determined {pos : ℕ → σ} (hpos : ∀ t a s', step (pos t) a = some s' → s' = pos (t + 1))
    {t : ℕ} {ls : List l} {s : σ} (h : after step (pos t) ls = some s) : s = pos (t + ls.length) := by
  induction ls generalizing t with
  | nil =>
    obtain rfl : pos t = s := by simpa [after] using h
    rfl
  | cons a ls ih =>
    cases ha : step (pos t) a with
    | none => simp [after, ha] at h
    | some s₁ =>
      obtain rfl := hpos t a s₁ ha
      rw [after_cons ha] at h
      have hs := ih h
      rw [hs, List.length_cons]
      congr 1
      omega

/-- Where exactly the steps that meet `G` keep `P`, it holds along a run exactly when all steps meet
`G`. -/
theorem allStates_iff_allSteps (hI : ∀ s a s', I s → step s a = some s' → I s')
    (hP : ∀ s a s', I s → P s → step s a = some s' → (P s' ↔ G s a)) {s : σ} (hs : I s) (hp : P s)
    (ls : List l) : AllStates step P s ls ↔ AllSteps step G s ls := by
  induction ls generalizing s with
  | nil => exact iff_of_true hp trivial
  | cons a ls ih =>
    rw [AllStates, AllSteps, and_iff_right hp]
    refine forall_congr' fun s' => forall_congr' fun h => ?_
    have hG := hP s a s' hs hp h
    constructor
    · intro hall
      have hp' : P s' := by
        cases ls with
        | nil => exact hall
        | cons b ls => exact hall.1
      exact ⟨hG.mp hp', (ih (hI s a s' hs h) hp').mp hall⟩
    · rintro ⟨hg, hall⟩
      exact (ih (hI s a s' hs h) (hG.mpr hg)).mpr hall

theorem allSteps_of_invariant (hI : ∀ s a s', I s → step s a = some s' → G s a ∧ I s') {s : σ}
    (hs : I s) (ls : List l) : AllSteps step G s ls := by
  induction ls generalizing s with
  | nil => trivial
  | cons a ls ih =>
    intro s' hstep
    obtain ⟨hg, hs'⟩ := hI s a s' hs hstep
    exact ⟨hg, ih hs'⟩

/-- What is left of a run after its first steps. -/
theorem AllSteps.append {s s' : σ} {ks ls : List l} (h : AllSteps step G s (ks ++ ls))
    (hk : Transition.after step s ks = some s') : AllSteps step G s' ls := by
  induction ks generalizing s with
  | nil =>
    obtain rfl : s = s' := by simpa [Transition.after] using hk
    exact h
  | cons a ks ih =>
    cases ha : step s a with
    | none => simp [Transition.after, ha] at hk
    | some s₁ =>
      rw [after_cons ha] at hk
      exact ih (h s₁ ha).2 hk

theorem allSteps_congr {H : σ → l → Prop} (hI : ∀ s a s', I s → step s a = some s' → I s')
    (hGH : ∀ s a s', I s → step s a = some s' → (G s a ↔ H s a)) {s : σ} (hs : I s)
    (ls : List l) : AllSteps step G s ls ↔ AllSteps step H s ls := by
  induction ls generalizing s with
  | nil => exact Iff.rfl
  | cons a ls ih =>
    refine forall_congr' fun s' => forall_congr' fun h => ?_
    exact and_congr (hGH s a s' hs h) (ih (hI s a s' hs h))

/-- What the steps that meet `G` keep holds along a run of them. -/
theorem allStates_of_allSteps (hI : ∀ s a s', I s → G s a → step s a = some s' → I s')
    (hP : ∀ s, I s → P s) {s : σ} (hs : I s) {ls : List l} (h : AllSteps step G s ls) :
    AllStates step P s ls := by
  induction ls generalizing s with
  | nil => exact hP s hs
  | cons a ls ih =>
    refine ⟨hP s hs, fun s' hstep => ?_⟩
    obtain ⟨hg, hrest⟩ := h s' hstep
    exact ih (hI s a s' hs hg hstep) hrest

/-! ### What a run has passed -/

theorem after_concat (s : σ) (ls : List l) (a : l) :
    after step s (ls ++ [a]) = (after step s ls).bind fun u => step u a := by
  rw [after, List.foldlM_append]
  cases h : ls.foldlM step s with
  | none => simp [after, h]
  | some u => simp [after, h]

/-- Induction along a run from `s`: `Q ls u` says of the state `u` after `ls` what may depend on
all the labels. -/
theorem after_induction {Q : List l → σ → Prop} {s t : σ} {ls : List l} (h0 : Q [] s)
    (hstep : ∀ ks u a u', after step s ks = some u → Q ks u → step u a = some u' →
      Q (ks ++ [a]) u') (h : after step s ls = some t) : Q ls t := by
  induction ls using List.reverseRecOn generalizing t with
  | nil =>
    obtain rfl : s = t := by simpa [after] using h
    exact h0
  | append_singleton ks a ih =>
    rw [after_concat] at h
    obtain ⟨u, hu, ha⟩ := Option.bind_eq_some_iff.mp h
    exact hstep ks u a t hu (ih hu) ha

/-- The run along `ls` from `s` passes `u`. -/
def Passes (step : σ → l → Option σ) (s : σ) (ls : List l) (u : σ) : Prop :=
  ∃ ks, ks <+: ls ∧ after step s ks = some u

theorem passes_end {s t : σ} {ls : List l} (h : after step s ls = some t) : Passes step s ls t :=
  ⟨ls, List.prefix_refl ls, h⟩

theorem Passes.append {s u : σ} {ls : List l} (h : Passes step s ls u) (ks : List l) :
    Passes step s (ls ++ ks) u := by
  obtain ⟨js, hpre, hjs⟩ := h
  exact ⟨js, hpre.trans (List.prefix_append ls ks), hjs⟩

/-! ### What every run comes to -/

/-- Every run from `s` comes to a state with `P`: in a state without it some label is enabled, and
the run comes there whichever is taken. -/
inductive Inevitable (step : σ → l → Option σ) (P : σ → Prop) : σ → Prop
  | here {s : σ} : P s → Inevitable step P s
  | next {s : σ} : (∃ a s', step s a = some s') →
      (∀ a s', step s a = some s' → Inevitable step P s') → Inevitable step P s

theorem inevitable_of_measure (hI : ∀ s a s', I s → step s a = some s' → I s') (μ : σ → ℕ)
    (hμ : ∀ s a s', step s a = some s' → μ s' < μ s)
    (hP : ∀ s, I s → ¬ P s → ∃ a s', step s a = some s') {s : σ} (hs : I s) :
    Inevitable step P s := by
  induction hm : μ s using Nat.strong_induction_on generalizing s with
  | _ m ih =>
    by_cases h : P s
    · exact .here h
    · refine .next (hP s hs h) fun a s' hstep => ?_
      exact ih (μ s') (hm ▸ hμ s a s' hstep) (hI s a s' hs hstep) rfl

end Runs

/-! ## Programs that run by themselves -/

section Arrives
variable {σ : Type} {f : σ → Option σ} {P : σ → Prop} {s s' : σ}

/-- Started in `s` the program comes to a state with `P`. -/
def Arrives (f : σ → Option σ) (P : σ → Prop) (s : σ) : Prop :=
  ∃ t, StateTransition.Reaches f s t ∧ P t

theorem arrives_here (h : P s) : Arrives f P s := ⟨s, .refl, h⟩

theorem arrives_step (h : f s = some s') (hs : ¬ P s) : Arrives f P s ↔ Arrives f P s' := by
  constructor
  · rintro ⟨t, hreach, ht⟩
    obtain rfl | ⟨u, hu, hut⟩ := hreach.cases_head
    · exact absurd ht hs
    · obtain rfl := Option.mem_unique h hu
      exact ⟨t, hut, ht⟩
  · rintro ⟨t, hreach, ht⟩
    exact ⟨t, .head h hreach, ht⟩

theorem not_arrives_stuck (h : f s = none) (hs : ¬ P s) : ¬ Arrives f P s := by
  rintro ⟨t, hreach, ht⟩
  obtain rfl | ⟨u, hu, -⟩ := hreach.cases_head
  · exact hs ht
  · rw [h] at hu
    cases hu

/-- A loop that changes nothing never ends. -/
theorem not_arrives_spin (h : f s = some s) (hs : ¬ P s) : ¬ Arrives f P s := by
  rintro ⟨t, hreach, ht⟩
  have hstay : ∀ {u}, StateTransition.Reaches f s u → u = s := by
    intro u hu
    induction hu with
    | refl => rfl
    | tail _ hstep ih =>
      rw [ih] at hstep
      exact Option.mem_unique hstep h
  rw [hstay hreach] at ht
  exact hs ht

end Arrives

end El32.Transition

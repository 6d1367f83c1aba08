import Mathlib.Data.List.Basic

/-! Traces that grow at the end, and conditions on each event that look back at what came before. -/
namespace El32.Trace
set_option autoImplicit false

section Trace
variable {α : Type}

def Each (Q : List α → α → Prop) (es : List α) : Prop :=
  ∀ pre e post, es = pre ++ e :: post → Q pre e

variable {Q : List α → α → Prop} {es : List α} {e : α}

theorem each_nil : Each Q [] := by
  intro pre e post h
  simp at h

theorem each_concat : Each Q (es ++ [e]) ↔ Each Q es ∧ Q es e := by
  constructor
  · intro h
    refine ⟨fun pre d post hes => h pre d (post ++ [e]) (by simp [hes]), h es e [] rfl⟩
  · intro h pre d post hes
    obtain ⟨hes', he⟩ := h
    rcases List.eq_nil_or_concat post with rfl | ⟨post, c, rfl⟩
    · obtain ⟨rfl, hd⟩ := List.append_inj' hes rfl
      obtain rfl : e = d := by simpa using hd
      exact he
    · have hlast : es ++ [e] = (pre ++ d :: post) ++ [c] := by simpa using hes
      obtain ⟨rfl, -⟩ := List.append_inj' hlast rfl
      exact hes' pre d post rfl

end Trace

end El32.Trace

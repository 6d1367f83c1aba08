import Mathlib.Data.List.Basic
import Mathlib.Data.Nat.Notation

/-! Two parties that hand a turn to and fro: each waits for its turn, does the next of its items and
passes the turn on.

A place counts the actions of a party, three for each round. Whose turn it is fixes the order of the
rounds, so the items come out in one order whatever the interleaving. -/
namespace El32.Alternation
set_option autoImplicit false

/-- The places of the two parties, whose turn it is, and what was done. -/
@[ext]
structure State (α : Type) where
  first : ℕ
  second : ℕ
  turn : Bool
  out : List α

section Steps
variable {α : Type} (a b : ℕ → α)

/-- The action at a place: wait for the turn, do the item of the round, pass the turn. -/
def act (mine : Bool) (item : ℕ → α) (place : ℕ) (turn : Bool) (out : List α) :
    Option (Bool × List α) :=
  match place % 3 with
  | 0 => if turn = mine then some (turn, out) else none
  | 1 => some (turn, out ++ [item (place / 3)])
  | _ => some (!mine, out)

def stepFirst (s : State α) : Option (State α) :=
  (act false a s.first s.turn s.out).map fun r => ⟨s.first + 1, s.second, r.1, r.2⟩

def stepSecond (s : State α) : Option (State α) :=
  (act true b s.second s.turn s.out).map fun r => ⟨s.first, s.second + 1, r.1, r.2⟩

/-- The items in the order of the rounds. -/
def merged (k : ℕ) : α := if k % 2 = 0 then a (k / 2) else b (k / 2)

/-- Who does not have the turn is at a wait; with the turn the second party is one round behind. -/
structure Ordered (s : State α) : Prop where
  mine : s.turn = false → s.second % 3 = 0 ∧ s.first / 3 = s.second / 3
  yours : s.turn = true → s.first % 3 = 0 ∧ s.first / 3 = s.second / 3 + 1
  out : s.out = (List.range ((s.first + 1) / 3 + (s.second + 1) / 3)).map (merged a b)

end Steps

section Runs
variable {α : Type} {a b : ℕ → α} {s s' : State α}

theorem act_cases {mine turn turn' : Bool} {item : ℕ → α} {place : ℕ} {out out' : List α}
    (h : act mine item place turn out = some (turn', out')) :
    (place % 3 = 0 ∧ turn = mine ∧ turn' = turn ∧ out' = out) ∨
      (place % 3 = 1 ∧ turn' = turn ∧ out' = out ++ [item (place / 3)]) ∨
      (place % 3 = 2 ∧ turn' = !mine ∧ out' = out) := by
  unfold act at h
  split at h
  · next h0 =>
    split at h
    · next hturn =>
      cases h
      exact .inl ⟨h0, hturn, rfl, rfl⟩
    · exact nomatch h
  · next h1 =>
    cases h
    exact .inr (.inl ⟨h1, rfl, rfl⟩)
  · next h0 h1 =>
    cases h
    have hlt := Nat.mod_lt place (by decide : 0 < 3)
    have h0' : place % 3 ≠ 0 := fun h => h0 h
    have h1' : place % 3 ≠ 1 := fun h => h1 h
    exact .inr (.inr ⟨by omega, rfl, rfl⟩)

theorem act_isSome {mine turn : Bool} (item : ℕ → α) (place : ℕ) (out : List α) :
    (act mine item place turn out).isSome ↔ place % 3 = 0 → turn = mine := by
  unfold act
  split
  · next h0 => by_cases h : turn = mine <;> simp [h, h0]
  · next h1 => simp [h1]
  · next h0 h1 => simpa using fun h => absurd h h0

theorem map_range_concat (n : ℕ) (f : ℕ → α) :
    (List.range n).map f ++ [f n] = (List.range (n + 1)).map f := by
  rw [List.range_succ, List.map_append, List.map_singleton]

theorem ordered_start : Ordered a b ⟨0, 0, false, []⟩ := ⟨fun _ => ⟨rfl, rfl⟩, nofun, by simp⟩

theorem ordered_mk {first second : ℕ} {turn : Bool} {out : List α}
    (hmine : turn = false → second % 3 = 0 ∧ first / 3 = second / 3)
    (hyours : turn = true → first % 3 = 0 ∧ first / 3 = second / 3 + 1) (n : ℕ)
    (hn : (first + 1) / 3 + (second + 1) / 3 = n) (hout : out = (List.range n).map (merged a b)) :
    Ordered a b ⟨first, second, turn, out⟩ := ⟨hmine, hyours, by rw [hout, ← hn]⟩

theorem Ordered.turn_first (h : Ordered a b s) (hplace : s.first % 3 ≠ 0) : s.turn = false := by
  by_contra ht
  exact hplace (h.yours (by simpa using ht)).1

theorem Ordered.turn_second (h : Ordered a b s) (hplace : s.second % 3 ≠ 0) : s.turn = true := by
  by_contra ht
  exact hplace (h.mine (by simpa using ht)).1

theorem Ordered.first_step (h : Ordered a b s) (hstep : stepFirst a s = some s') :
    Ordered a b s' := by
  obtain ⟨⟨turn, out⟩, hact, rfl⟩ := Option.map_eq_some_iff.mp hstep
  have hout := h.out
  obtain ⟨h0, hturn, rfl, rfl⟩ | ⟨h1, rfl, rfl⟩ | ⟨h2, rfl, rfl⟩ := act_cases hact
  · have hm := h.mine hturn
    refine ordered_mk (fun _ => ⟨hm.1, by omega⟩) (fun ht => ?_) _ (by omega) hout
    exact nomatch hturn.symm.trans ht
  · have hturn := h.turn_first (by omega)
    have hm := h.mine hturn
    -- both sides have done as many items
    have hitem : merged a b ((s.first + 1) / 3 + (s.second + 1) / 3) = a (s.first / 3) := by
      have hhalf : ((s.first + 1) / 3 + (s.second + 1) / 3) / 2 = s.first / 3 := by omega
      rw [merged, if_pos (by omega), hhalf]
    refine ordered_mk (fun _ => ⟨hm.1, by omega⟩) (fun ht => ?_)
      ((s.first + 1) / 3 + (s.second + 1) / 3 + 1) (by omega) ?_
    · exact nomatch hturn.symm.trans ht
    · rw [hout, ← hitem, map_range_concat]
  · have hm := h.mine (h.turn_first (by omega))
    exact ordered_mk nofun (fun _ => ⟨by omega, by omega⟩) _ (by omega) hout

theorem Ordered.second_step (h : Ordered a b s) (hstep : stepSecond b s = some s') :
    Ordered a b s' := by
  obtain ⟨⟨turn, out⟩, hact, rfl⟩ := Option.map_eq_some_iff.mp hstep
  have hout := h.out
  obtain ⟨h0, hturn, rfl, rfl⟩ | ⟨h1, rfl, rfl⟩ | ⟨h2, rfl, rfl⟩ := act_cases hact
  · have hy := h.yours hturn
    refine ordered_mk (fun ht => ?_) (fun _ => ⟨hy.1, by omega⟩) _ (by omega) hout
    exact nomatch hturn.symm.trans ht
  · have hturn := h.turn_second (by omega)
    have hy := h.yours hturn
    -- the first side has done one item more
    have hitem : merged a b ((s.first + 1) / 3 + (s.second + 1) / 3) = b (s.second / 3) := by
      have hhalf : ((s.first + 1) / 3 + (s.second + 1) / 3) / 2 = s.second / 3 := by omega
      rw [merged, if_neg (by omega), hhalf]
    refine ordered_mk (fun ht => ?_) (fun _ => ⟨hy.1, by omega⟩)
      ((s.first + 1) / 3 + (s.second + 1) / 3 + 1) (by omega) ?_
    · exact nomatch hturn.symm.trans ht
    · rw [hout, ← hitem, map_range_concat]
  · have hy := h.yours (h.turn_second (by omega))
    exact ordered_mk (fun _ => ⟨by omega, by omega⟩) nofun _ (by omega) hout

/-- Exactly the party that has the turn can act. -/
theorem Ordered.first_enabled (h : Ordered a b s) :
    (stepFirst a s).isSome ↔ s.turn = false := by
  rw [stepFirst, Option.isSome_map, act_isSome]
  refine ⟨fun hw => ?_, fun ht _ => ht⟩
  by_contra ht
  have ht' : s.turn = true := by simpa using ht
  exact ht (hw (h.yours ht').1)

theorem Ordered.second_enabled (h : Ordered a b s) :
    (stepSecond b s).isSome ↔ s.turn = true := by
  rw [stepSecond, Option.isSome_map, act_isSome]
  refine ⟨fun hw => ?_, fun ht _ => ht⟩
  by_contra ht
  have ht' : s.turn = false := by simpa using ht
  exact ht (hw (h.mine ht').1)

end Runs

end El32.Alternation

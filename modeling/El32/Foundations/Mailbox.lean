import Mathlib.Data.List.Forall2

/-! A bounded mailbox: senders wait while it is full, the receiver takes the oldest message.

`Exchange` relates what was sent, what waits and what came of the messages that were taken. -/
namespace El32.Mailbox
set_option autoImplicit false

structure Bounded (α : Type) (cap : ℕ) where
  waiting : List α
  fits : waiting.length ≤ cap

variable {α : Type} {cap : ℕ}

def empty : Bounded α cap := ⟨[], Nat.zero_le cap⟩

/-- The contents after a send, when there is room for them. -/
def accept (waiting : List α) : Option (Bounded α cap) :=
  if h : waiting.length ≤ cap then some ⟨waiting, h⟩ else none

def Bounded.take (m : Bounded α cap) : Option (α × Bounded α cap) :=
  match m with
  | ⟨[], _⟩ => none
  | ⟨a :: waiting, h⟩ => some (a, ⟨waiting, Nat.le_of_succ_le h⟩)

theorem accept_waiting (m : Bounded α cap) : accept m.waiting = some m := dif_pos m.fits

theorem accept_eq_some {waiting : List α} {m : Bounded α cap} :
    accept waiting = some m ↔ m.waiting = waiting := by
  constructor
  · intro h
    unfold accept at h
    split at h
    · obtain rfl := Option.some.inj h
      rfl
    · exact nomatch h
  · rintro rfl
    exact accept_waiting m

theorem exists_accept {waiting : List α} :
    (∃ m : Bounded α cap, accept waiting = some m) ↔ waiting.length ≤ cap := by
  constructor
  · rintro ⟨m, hm⟩
    rw [← accept_eq_some.mp hm]
    exact m.fits
  · exact fun h => ⟨⟨waiting, h⟩, dif_pos h⟩

theorem take_eq_some {m m' : Bounded α cap} {a : α} :
    m.take = some (a, m') ↔ m.waiting = a :: m'.waiting := by
  obtain ⟨waiting, h⟩ := m
  obtain ⟨waiting', h'⟩ := m'
  cases waiting with
  | nil => simp [Bounded.take]
  | cons b waiting => simp [Bounded.take]

theorem take_isSome {m : Bounded α cap} (h : m.waiting ≠ []) :
    ∃ a m', m.take = some (a, m') := by
  obtain ⟨waiting, hfits⟩ := m
  cases waiting with
  | nil => exact absurd rfl h
  | cons a waiting => exact ⟨a, _, rfl⟩

/-! ## What was sent and what came of it -/

section Exchange
variable {ω β : Type} {R : ω → α → Prop} {Q : ω → β → Prop} {sent : List ω} {waiting : List α}
  {got : List β}

/-- Everything sent, in order: first what has led to a result, then what waits as a message. -/
def Exchange (R : ω → α → Prop) (Q : ω → β → Prop) (sent : List ω) (waiting : List α)
    (got : List β) : Prop :=
  ∃ done rest, sent = done ++ rest ∧ List.Forall₂ Q done got ∧ List.Forall₂ R rest waiting

theorem exchange_empty : Exchange R Q [] [] [] := ⟨[], [], rfl, .nil, .nil⟩

theorem Exchange.send (h : Exchange R Q sent waiting got) {o : ω} {a : α} (hR : R o a) :
    Exchange R Q (sent ++ [o]) (waiting ++ [a]) got := by
  obtain ⟨done, rest, rfl, hdone, hrest⟩ := h
  exact ⟨done, rest ++ [o], List.append_assoc _ _ _, hdone,
    List.rel_append hrest (.cons hR .nil)⟩

theorem Exchange.receive {a : α} {b : β} (h : Exchange R Q sent (a :: waiting) got)
    (hQ : ∀ o, R o a → Q o b) : Exchange R Q sent waiting (got ++ [b]) := by
  obtain ⟨done, rest, rfl, hdone, hrest⟩ := h
  cases hrest with
  | cons ho hrest =>
    exact ⟨done ++ [_], _, by simp, List.rel_append hdone (.cons (hQ _ ho) .nil), hrest⟩

/-- Somebody sent the message that waits first. -/
theorem Exchange.head {a : α} (h : Exchange R Q sent (a :: waiting) got) : ∃ o, R o a := by
  obtain ⟨done, rest, -, -, hrest⟩ := h
  cases hrest with
  | cons ho hrest => exact ⟨_, ho⟩

/-- Nothing is lost or doubled. -/
theorem Exchange.length (h : Exchange R Q sent waiting got) :
    sent.length = got.length + waiting.length := by
  obtain ⟨done, rest, rfl, hdone, hrest⟩ := h
  rw [List.length_append, hdone.length_eq, hrest.length_eq]

/-- The results follow the order of sending. -/
theorem Exchange.results (h : Exchange R Q sent waiting got) :
    List.Forall₂ Q (sent.take got.length) got := by
  obtain ⟨done, rest, rfl, hdone, -⟩ := h
  rwa [← hdone.length_eq, List.take_left]

end Exchange

end El32.Mailbox

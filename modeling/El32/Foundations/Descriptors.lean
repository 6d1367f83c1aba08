import Mathlib.Data.List.Perm.Basic
import Mathlib.Data.Nat.Notation

/-! The descriptor table of a process: the open files under their numbers.

A new descriptor has the lowest number that is free; a process that is forked gets a copy of the
table. -/
namespace El32.Descriptors
set_option autoImplicit false

/-- One element of a list is replaced by one that the function leaves out. -/
theorem filterMap_set_none {α β : Type} {f : α → Option β} {l : List α} {i : ℕ} {a b : α} {x : β}
    (hi : l[i]? = some a) (ha : f a = some x) (hb : f b = none) :
    (l.filterMap f).Perm (x :: (l.set i b).filterMap f) := by
  induction l generalizing i with
  | nil => cases hi
  | cons c l ih =>
    cases i with
    | zero =>
      obtain rfl : c = a := Option.some.inj hi
      rw [List.set_cons_zero, List.filterMap_cons_some ha, List.filterMap_cons_none hb]
    | succ i =>
      have hperm := ih (i := i) hi
      rw [List.set_cons_succ]
      cases hc : f c with
      | none => rwa [List.filterMap_cons_none hc, List.filterMap_cons_none hc]
      | some y =>
        rw [List.filterMap_cons_some hc, List.filterMap_cons_some hc]
        exact (hperm.cons y).trans (List.Perm.swap x y _)

/-- One element of a list is replaced by one of which the function makes the same. -/
theorem filterMap_set_same {α β : Type} {f : α → Option β} {l : List α} {i : ℕ} {a b : α}
    (hi : l[i]? = some a) (hab : f b = f a) : (l.set i b).filterMap f = l.filterMap f := by
  induction l generalizing i with
  | nil => rfl
  | cons c l ih =>
    cases i with
    | zero =>
      obtain rfl : c = a := Option.some.inj hi
      rw [List.set_cons_zero, List.filterMap_cons, List.filterMap_cons, hab]
    | succ i => rw [List.set_cons_succ, List.filterMap_cons, List.filterMap_cons, ih (i := i) hi]

abbrev Table (α : Type) := List (Option α)

namespace Table
variable {α : Type}

def opened (t : Table α) : List α := t.filterMap id

def lowest : Table α → ℕ
  | [] | none :: _ => 0
  | some _ :: t => lowest t + 1

def allot (a : α) : Table α → Table α
  | [] => [some a]
  | none :: t => some a :: t
  | some b :: t => some b :: allot a t

def close (t : Table α) (fd : ℕ) : Table α := t.set fd none

theorem opened_allot (a : α) (t : Table α) : (opened (allot a t)).Perm (a :: opened t) := by
  induction t with
  | nil => rfl
  | cons o t ih =>
    cases o with
    | none => rfl
    | some b => exact (ih.cons b).trans (List.Perm.swap a b _)

theorem allot_lowest (a : α) (t : Table α) : (allot a t)[lowest t]? = some (some a) := by
  induction t with
  | nil => rfl
  | cons o t ih =>
    cases o with
    | none => rfl
    | some b => exact ih

theorem allot_other (a : α) {t : Table α} {fd : ℕ} {b : α} (h : t[fd]? = some (some b)) :
    (allot a t)[fd]? = some (some b) := by
  induction t generalizing fd with
  | nil => cases h
  | cons o t ih =>
    cases fd with
    | zero =>
      obtain rfl : o = some b := Option.some.inj h
      rfl
    | succ fd =>
      cases o with
      | none => exact h
      | some c =>
        have hrest : t[fd]? = some (some b) := h
        exact ih hrest

theorem opened_close {t : Table α} {fd : ℕ} {a : α} (h : t[fd]? = some (some a)) :
    (opened t).Perm (a :: opened (close t fd)) :=
  filterMap_set_none h rfl rfl

/-- Another file stays open under its number. -/
theorem close_other {t : Table α} {fd fd' : ℕ} {a b : α} (ha : t[fd]? = some (some a))
    (hb : t[fd']? = some (some b)) (hab : a ≠ b) : (close t fd)[fd']? = some (some b) := by
  have hne : fd ≠ fd' := by
    rintro rfl
    rw [ha] at hb
    exact hab (Option.some.inj (Option.some.inj hb))
  rw [close, List.getElem?_set_ne hne]
  exact hb

end Table

end El32.Descriptors

import Mathlib.Data.Finset.Basic
import Mathlib.Data.Finset.Dedup
import Mathlib.Data.Finset.Lattice.Lemmas
import Mathlib.Data.List.Basic

/-! A ledger of resources: what is held after a sequence of acquisitions and releases.

`Along` says that every event meets a condition on what is held at its moment. Two conditions are of
interest: nothing held is acquired again, and nothing is released that is not held. -/
namespace El32.Ledger
set_option autoImplicit false

inductive Event (α : Type) where
  | acquire (a : α)
  | release (a : α)
deriving DecidableEq

section Ledger
variable {α : Type} [DecidableEq α]

def next (held : Finset α) : Event α → Finset α
  | .acquire a => insert a held
  | .release a => held.erase a

def heldFrom (held : Finset α) (es : List (Event α)) : Finset α := es.foldl next held

def Along (P : Finset α → Event α → Prop) : Finset α → List (Event α) → Prop
  | _, [] => True
  | held, e :: es => P held e ∧ Along P (next held e) es

def Fresh (held : Finset α) : Event α → Prop
  | .acquire a => a ∉ held
  | .release _ => True

def Proper (held : Finset α) : Event α → Prop
  | .acquire _ => True
  | .release a => a ∈ held

instance (held : Finset α) : (e : Event α) → Decidable (Fresh held e)
  | .acquire a => inferInstanceAs (Decidable (a ∉ held))
  | .release _ => inferInstanceAs (Decidable True)

instance decidableAlong (P : Finset α → Event α → Prop) [∀ held e, Decidable (P held e)] :
    (held : Finset α) → (es : List (Event α)) → Decidable (Along P held es)
  | _, [] => inferInstanceAs (Decidable True)
  | held, e :: es =>
    have := decidableAlong P (next held e) es
    inferInstanceAs (Decidable (P held e ∧ Along P (next held e) es))

/-! ## Sequences -/

variable {P : Finset α → Event α → Prop} {held : Finset α}

theorem heldFrom_append (es fs : List (Event α)) :
    heldFrom held (es ++ fs) = heldFrom (heldFrom held es) fs := List.foldl_append

theorem along_append (es fs : List (Event α)) :
    Along P held (es ++ fs) ↔ Along P held es ∧ Along P (heldFrom held es) fs := by
  induction es generalizing held with
  | nil => simp [Along, heldFrom]
  | cons e es ih =>
    rw [List.cons_append, Along, Along, ih, and_assoc]
    rfl

theorem heldFrom_acquires (l : List α) :
    heldFrom held (l.map .acquire) = held ∪ l.toFinset := by
  induction l generalizing held with
  | nil => simp [heldFrom]
  | cons a l ih =>
    have h : heldFrom held ((a :: l).map .acquire) =
        heldFrom (insert a held) (l.map .acquire) := rfl
    rw [h, ih, List.toFinset_cons, Finset.insert_union, Finset.union_insert]

theorem heldFrom_releases (l : List α) :
    heldFrom held (l.map .release) = held \ l.toFinset := by
  induction l generalizing held with
  | nil => simp [heldFrom]
  | cons a l ih =>
    have h : heldFrom held ((a :: l).map .release) =
        heldFrom (held.erase a) (l.map .release) := rfl
    rw [h, ih, List.toFinset_cons]
    ext x
    simp only [Finset.mem_sdiff, Finset.mem_erase, Finset.mem_insert, not_or]
    tauto

theorem along_fresh_acquires (l : List α) :
    Along Fresh held (l.map .acquire) ↔ l.Nodup ∧ ∀ a ∈ l, a ∉ held := by
  induction l generalizing held with
  | nil => simp [Along]
  | cons a l ih =>
    rw [List.map_cons, Along, next, ih, List.nodup_cons, List.forall_mem_cons]
    simp only [Fresh, Finset.mem_insert, not_or]
    constructor
    · rintro ⟨ha, hnd, hl⟩
      exact ⟨⟨fun hm => (hl a hm).1 rfl, hnd⟩, ha, fun b hb => (hl b hb).2⟩
    · rintro ⟨⟨hal, hnd⟩, ha, hl⟩
      exact ⟨ha, hnd, fun b hb => ⟨fun h => hal (h ▸ hb), hl b hb⟩⟩

theorem along_proper_acquires (l : List α) : Along Proper held (l.map .acquire) := by
  induction l generalizing held with
  | nil => trivial
  | cons a l ih => exact ⟨trivial, ih⟩

theorem along_proper_releases {l : List α} (hnd : l.Nodup) (h : ∀ a ∈ l, a ∈ held) :
    Along Proper held (l.map .release) := by
  induction l generalizing held with
  | nil => trivial
  | cons a l ih =>
    obtain ⟨hal, hnd⟩ := List.nodup_cons.mp hnd
    refine ⟨h a List.mem_cons_self, ih hnd fun b hb => ?_⟩
    exact Finset.mem_erase.mpr ⟨fun hba => hal (hba ▸ hb), h b (List.mem_cons_of_mem a hb)⟩

/-- A turnover: of the `kept` and `gone` things held, those gone are released after new ones were
acquired. -/
theorem turnover {all kept gone new : List α} (hperm : all.Perm (kept ++ gone))
    (hall : all.Nodup) (hfresh : Along Fresh all.toFinset (new.map .acquire)) :
    (kept ++ new).Nodup ∧
      heldFrom all.toFinset (new.map .acquire ++ gone.map .release) = (kept ++ new).toFinset ∧
      Along Proper all.toFinset (new.map .acquire ++ gone.map .release) := by
  obtain ⟨hnew, hout⟩ := (along_fresh_acquires new).mp hfresh
  have hmem : ∀ a, a ∈ all ↔ a ∈ kept ∨ a ∈ gone := fun a => by
    rw [hperm.mem_iff, List.mem_append]
  obtain ⟨hkept, hgone, hdisj⟩ := List.nodup_append.mp (hperm.nodup_iff.mp hall)
  have hnewall : ∀ a ∈ new, a ∉ all := fun a ha h => hout a ha (List.mem_toFinset.mpr h)
  refine ⟨List.nodup_append.mpr ⟨hkept, hnew, ?_⟩, ?_, ?_⟩
  · rintro a ha b hb rfl
    exact hnewall a hb ((hmem a).mpr (.inl ha))
  · rw [heldFrom_append, heldFrom_acquires, heldFrom_releases]
    ext a
    simp only [Finset.mem_sdiff, Finset.mem_union, List.mem_toFinset, List.mem_append, hmem]
    constructor
    · rintro ⟨(ha | ha) | ha, hng⟩
      · exact .inl ha
      · exact absurd ha hng
      · exact .inr ha
    · rintro (ha | ha)
      · exact ⟨.inl (.inl ha), fun hg => hdisj a ha a hg rfl⟩
      · exact ⟨.inr ha, fun hg => hnewall a ha ((hmem a).mpr (.inr hg))⟩
  · refine (along_append _ _).mpr ⟨along_proper_acquires new, along_proper_releases hgone ?_⟩
    intro a ha
    rw [heldFrom_acquires]
    exact Finset.mem_union_left _ (List.mem_toFinset.mpr ((hmem a).mpr (.inr ha)))

/-! ## No second release -/

theorem not_mem_heldFrom {a : α} {es : List (Event α)} (h : a ∉ held)
    (hes : Event.acquire a ∉ es) : a ∉ heldFrom held es := by
  induction es generalizing held with
  | nil => exact h
  | cons e es ih =>
    obtain ⟨he, hes⟩ : Event.acquire a ≠ e ∧ Event.acquire a ∉ es := by simpa using hes
    refine ih ?_ hes
    cases e with
    | acquire b =>
      have hab : a ≠ b := fun hab => he (by rw [hab])
      simp [next, hab, h]
    | release b => simp [next, h]

/-- Where only what is held is released, two releases have an acquisition between them. -/
theorem acquire_between {a : α} {es fs gs : List (Event α)}
    (h : Along Proper held (es ++ .release a :: (fs ++ .release a :: gs))) :
    Event.acquire a ∈ fs := by
  obtain ⟨-, hrest⟩ := (along_append _ _).mp h
  obtain ⟨-, hrest⟩ := hrest
  obtain ⟨-, hlast⟩ := (along_append _ _).mp hrest
  by_contra hfs
  exact not_mem_heldFrom (Finset.notMem_erase a _) hfs hlast.1

end Ledger

end El32.Ledger

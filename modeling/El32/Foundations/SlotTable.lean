import Mathlib.Data.List.FinRange
import Mathlib.Data.List.Nodup
import Mathlib.Data.List.Perm.Subperm
import Mathlib.Data.Fin.Basic
import Mathlib.Logic.Function.Basic

/-! A table of `n` slots, each empty or holding a value under a key; no key is in two slots.

`refresh` is one update from a list of the keys that are present now: slots of other keys are
emptied, and the keys that are new come, in the order of the list, each into the lowest empty
slot. -/
namespace El32
set_option autoImplicit false

structure SlotTable (n : ℕ) (κ η : Type) where
  slot : Fin n → Option (κ × η)
  key_inj : ∀ {i j : Fin n} {a b : κ × η}, slot i = some a → slot j = some b → a.1 = b.1 → i = j

namespace SlotTable

section Table
variable {n : ℕ} {κ η : Type} (t : SlotTable n κ η)

def Has (k : κ) : Prop := ∃ i v, t.slot i = some (k, v)

def empty : SlotTable n κ η := ⟨fun _ => none, fun h => absurd h (by simp)⟩

def free : List (Fin n) := (List.finRange n).filter fun i => (t.slot i).isNone

def entries : List (κ × η) := (List.finRange n).filterMap t.slot

def keep (p : κ → Bool) : SlotTable n κ η where
  slot i := (t.slot i).filter fun a => p a.1
  key_inj ha hb := t.key_inj (Option.filter_eq_some_iff.mp ha).1 (Option.filter_eq_some_iff.mp hb).1

def clear (i : Fin n) : SlotTable n κ η where
  slot := Function.update t.slot i none
  key_inj {j k a b} ha hb := by
    by_cases hj : j = i
    · rw [hj, Function.update_self] at ha
      exact absurd ha (by simp)
    by_cases hk : k = i
    · rw [hk, Function.update_self] at hb
      exact absurd hb (by simp)
    rw [Function.update_of_ne hj] at ha
    rw [Function.update_of_ne hk] at hb
    exact t.key_inj ha hb

variable {t}

theorem has_of_clear {i : Fin n} {k : κ} (h : (t.clear i).Has k) : t.Has k := by
  obtain ⟨j, v, hj⟩ := h
  change Function.update t.slot i none j = _ at hj
  by_cases hji : j = i
  · rw [hji, Function.update_self] at hj
    exact absurd hj (by simp)
  · rw [Function.update_of_ne hji] at hj
    exact ⟨j, v, hj⟩

theorem mem_entries {a : κ × η} : a ∈ t.entries ↔ ∃ i, t.slot i = some a := by
  simp [entries]

theorem has_iff {k : κ} : t.Has k ↔ k ∈ t.entries.map Prod.fst := by
  simp only [Has, List.mem_map, mem_entries]
  constructor
  · rintro ⟨i, v, h⟩
    exact ⟨(k, v), ⟨i, h⟩, rfl⟩
  · rintro ⟨a, ⟨i, h⟩, rfl⟩
    exact ⟨i, a.2, h⟩

instance [DecidableEq κ] (k : κ) : Decidable (t.Has k) := decidable_of_iff' _ has_iff

theorem keys_nodup : (t.entries.map Prod.fst).Nodup := by
  rw [entries, List.map_filterMap]
  refine List.Nodup.filterMap ?_ (List.nodup_finRange n)
  intro i j k hi hj
  obtain ⟨a, ha, rfl⟩ := Option.map_eq_some_iff.mp hi
  obtain ⟨b, hb, hk⟩ := Option.map_eq_some_iff.mp hj
  exact t.key_inj ha hb hk.symm

theorem mem_free {i : Fin n} : i ∈ t.free ↔ t.slot i = none := by simp [free]

theorem free_nodup : t.free.Nodup := (List.nodup_finRange n).filter _

theorem length_entries_add_free : t.entries.length + t.free.length = n := by
  have h : ∀ l : List (Fin n),
      (l.filterMap t.slot).length + (l.filter fun i => (t.slot i).isNone).length = l.length := by
    intro l
    induction l with
    | nil => rfl
    | cons i l ih =>
      cases hi : t.slot i with
      | none => simp [hi]; omega
      | some a => simp [hi]; omega
  have hn := h (List.finRange n)
  rwa [List.length_finRange] at hn

theorem keep_slot_some {p : κ → Bool} {i : Fin n} {a : κ × η} :
    (t.keep p).slot i = some a ↔ t.slot i = some a ∧ p a.1 = true :=
  Option.filter_eq_some_iff

theorem has_keep {p : κ → Bool} {k : κ} : (t.keep p).Has k ↔ t.Has k ∧ p k = true := by
  simp only [Has, keep_slot_some]
  constructor
  · rintro ⟨i, v, h, hp⟩
    exact ⟨⟨i, v, h⟩, hp⟩
  · rintro ⟨⟨i, v, h⟩, hp⟩
    exact ⟨i, v, h, hp⟩

theorem entries_keep (p : κ → Bool) : (t.keep p).entries = t.entries.filter fun a => p a.1 := by
  rw [entries, entries, List.filter_filterMap]
  rfl

theorem keep_congr {p q : κ → Bool} (h : ∀ k, t.Has k → (p k = true ↔ q k = true)) :
    t.keep p = t.keep q := by
  have hslot : (t.keep p).slot = (t.keep q).slot := by
    funext i
    cases hs : t.slot i with
    | none => simp [keep, hs]
    | some a =>
      have hpq : p a.1 = q a.1 := Bool.eq_iff_iff.mpr (h a.1 ⟨i, a.2, hs⟩)
      simp [keep, hs, Option.filter_some, hpq]
  cases hp : t.keep p
  cases hq : t.keep q
  rw [hp, hq] at hslot
  simpa using hslot

/-- Pigeonhole: new entries with keys from a list of at most `n`, which has all keys of the table,
find room. -/
theorem room {ks : List κ} (hlen : ks.length ≤ n) (hks : ∀ k, t.Has k → k ∈ ks)
    {es : List (κ × η)} (hnd : (es.map Prod.fst).Nodup) (hes : ∀ e ∈ es, e.1 ∈ ks)
    (hnew : ∀ e ∈ es, ¬ t.Has e.1) : es.length ≤ t.free.length := by
  have hall : (t.entries.map Prod.fst ++ es.map Prod.fst).Nodup := by
    refine List.Nodup.append keys_nodup hnd ?_
    intro k hk hk'
    obtain ⟨e, he, rfl⟩ := List.mem_map.mp hk'
    exact hnew e he (has_iff.mpr hk)
  have hsub : t.entries.map Prod.fst ++ es.map Prod.fst ⊆ ks := by
    intro k hk
    rcases List.mem_append.mp hk with h | h
    · exact hks k (has_iff.mpr h)
    · obtain ⟨e, he, rfl⟩ := List.mem_map.mp h
      exact hes e he
  have hle := (List.subperm_of_subset hall hsub).length_le
  rw [List.length_append, List.length_map, List.length_map] at hle
  have := t.length_entries_add_free
  omega

theorem filterMap_update {l : List (Fin n)} (hnd : l.Nodup) {i : Fin n} (hi : i ∈ l)
    {f : Fin n → Option (κ × η)} (hf : f i = none) (e : κ × η) :
    (l.filterMap (Function.update f i (some e))).Perm (e :: l.filterMap f) := by
  induction l with
  | nil => simp at hi
  | cons j l ih =>
    obtain ⟨hjl, hnd⟩ := List.nodup_cons.mp hnd
    by_cases hj : j = i
    · subst hj
      have hcongr : l.filterMap (Function.update f j (some e)) = l.filterMap f :=
        List.filterMap_congr fun k hk => by
          have hkj : k ≠ j := by rintro rfl; exact hjl hk
          exact Function.update_of_ne hkj ..
      rw [List.filterMap_cons_some (Function.update_self ..), List.filterMap_cons_none hf, hcongr]
    · have hil : i ∈ l := (List.mem_cons.mp hi).resolve_left (Ne.symm hj)
      have hju : Function.update f i (some e) j = f j := Function.update_of_ne hj ..
      cases hfj : f j with
      | none =>
        rw [List.filterMap_cons_none (hju.trans hfj), List.filterMap_cons_none hfj]
        exact ih hnd hil
      | some a =>
        rw [List.filterMap_cons_some (hju.trans hfj), List.filterMap_cons_some hfj]
        exact ((ih hnd hil).cons a).trans (List.Perm.swap e a _)

/-! ## Placing -/

variable [DecidableEq κ]

/-- Into the lowest empty slot, unless the key is there or no slot is empty. -/
def place (t : SlotTable n κ η) (e : κ × η) : SlotTable n κ η :=
  if h : t.Has e.1 then t
  else match t.free.head? with
    | none => t
    | some i =>
      { slot := Function.update t.slot i (some e)
        key_inj := by
          intro j k a b ha hb hab
          by_cases hj : j = i <;> by_cases hk : k = i
          · rw [hj, hk]
          · subst hj
            rw [Function.update_self] at ha
            rw [Function.update_of_ne hk] at hb
            exact absurd ⟨k, b.2, by rw [hb, Option.some.inj ha, hab]⟩ h
          · subst hk
            rw [Function.update_self] at hb
            rw [Function.update_of_ne hj] at ha
            exact absurd ⟨j, a.2, by rw [ha, Option.some.inj hb, ← hab]⟩ h
          · rw [Function.update_of_ne hj] at ha
            rw [Function.update_of_ne hk] at hb
            exact t.key_inj ha hb hab }

def placeAll (t : SlotTable n κ η) (es : List (κ × η)) : SlotTable n κ η := es.foldl place t

theorem place_slot {e : κ × η} (h : ¬ t.Has e.1) {i : Fin n} {r : List (Fin n)}
    (hf : t.free = i :: r) : (t.place e).slot = Function.update t.slot i (some e) := by
  rw [place, dif_neg h, hf]
  rfl

theorem free_place {e : κ × η} (h : ¬ t.Has e.1) {i : Fin n} {r : List (Fin n)}
    (hf : t.free = i :: r) : (t.place e).free = r := by
  have hnd : (i :: r).Nodup := hf ▸ free_nodup
  obtain ⟨hir, -⟩ := List.nodup_cons.mp hnd
  have hfun : (fun j => ((t.place e).slot j).isNone) =
      fun j => (t.slot j).isNone && decide (j ≠ i) := by
    funext j
    rw [place_slot h hf]
    by_cases hj : j = i
    · subst hj; simp
    · simp [hj]
  have hfilter : (t.place e).free = t.free.filter fun j => decide (j ≠ i) := by
    rw [SlotTable.free, hfun, SlotTable.free, List.filter_filter]
    exact List.filter_congr fun j _ => Bool.and_comm ..
  rw [hfilter, hf, List.filter_cons_of_neg (by simp)]
  exact List.filter_eq_self.mpr fun j hj => by
    have : j ≠ i := fun hji => hir (hji ▸ hj)
    simpa using this

theorem entries_place {e : κ × η} (h : ¬ t.Has e.1) {i : Fin n} {r : List (Fin n)}
    (hf : t.free = i :: r) : (t.place e).entries.Perm (e :: t.entries) := by
  have hi : t.slot i = none := mem_free.mp (hf ▸ List.mem_cons_self)
  rw [entries, place_slot h hf]
  exact filterMap_update (List.nodup_finRange n) (List.mem_finRange i) hi e

theorem has_place {e : κ × η} (h : ¬ t.Has e.1) {i : Fin n} {r : List (Fin n)}
    (hf : t.free = i :: r) {k : κ} : (t.place e).Has k ↔ k = e.1 ∨ t.Has k := by
  rw [has_iff, has_iff, ((entries_place h hf).map Prod.fst).mem_iff, List.map_cons,
    List.mem_cons]

theorem place_cases (t : SlotTable n κ η) (e : κ × η) :
    t.place e = t ∨
      ∃ i, t.slot i = none ∧ (t.place e).slot = Function.update t.slot i (some e) := by
  by_cases h : t.Has e.1
  · exact .inl (dif_pos h)
  · cases hf : t.free with
    | nil => exact .inl (by rw [place, dif_neg h, hf]; rfl)
    | cons i r =>
      exact .inr ⟨i, mem_free.mp (hf ▸ List.mem_cons_self), place_slot h hf⟩

/-- Entries that are placed leave the others, and nothing else comes into the table. -/
theorem placeAll_slot (es : List (κ × η)) :
    (∀ i a, t.slot i = some a → (t.placeAll es).slot i = some a) ∧
      ∀ i a, (t.placeAll es).slot i = some a → t.slot i = some a ∨ a ∈ es := by
  induction es generalizing t with
  | nil => exact ⟨fun _ _ h => h, fun _ _ h => .inl h⟩
  | cons e es ih =>
    obtain ⟨hkept, hcame⟩ := ih (t := t.place e)
    have hplaced : t.placeAll (e :: es) = (t.place e).placeAll es := rfl
    rw [hplaced]
    rcases t.place_cases e with hsame | ⟨j, hj, hslot⟩
    · rw [hsame] at hkept hcame ⊢
      exact ⟨hkept, fun i a h => (hcame i a h).imp_right (List.mem_cons_of_mem e)⟩
    · rw [hslot] at hkept hcame
      constructor
      · intro i a h
        have hne : i ≠ j := by
          rintro rfl
          rw [hj] at h
          exact absurd h (by simp)
        exact hkept i a (by rw [Function.update_of_ne hne, h])
      · intro i a h
        rcases hcame i a h with h | h
        · by_cases hij : i = j
          · rw [hij, Function.update_self] at h
            exact .inr (Option.some.inj h ▸ List.mem_cons_self)
          · rw [Function.update_of_ne hij] at h
            exact .inl h
        · exact .inr (List.mem_cons_of_mem e h)

/-- New entries of distinct keys, and an empty slot for each. -/
structure Fits (t : SlotTable n κ η) (es : List (κ × η)) : Prop where
  nodup : (es.map Prod.fst).Nodup
  new : ∀ e ∈ es, ¬ t.Has e.1
  room : es.length ≤ t.free.length

theorem Fits.step {e : κ × η} {es : List (κ × η)} (h : Fits t (e :: es)) :
    ¬ t.Has e.1 ∧ (∃ i r, t.free = i :: r) ∧ Fits (t.place e) es := by
  obtain ⟨hees, hnd⟩ := List.nodup_cons.mp h.nodup
  have he := h.new e List.mem_cons_self
  obtain ⟨i, r, hf⟩ : ∃ i r, t.free = i :: r := by
    apply List.exists_cons_of_ne_nil
    intro hnil
    have hroom := h.room
    rw [hnil] at hroom
    simp at hroom
  refine ⟨he, ⟨i, r, hf⟩, hnd, fun e' he' hhas => ?_, ?_⟩
  · rcases (has_place he hf).mp hhas with hk | hk
    · exact hees (hk ▸ List.mem_map_of_mem he')
    · exact h.new e' (List.mem_cons_of_mem e he') hk
  · have hroom := h.room
    rw [hf, List.length_cons, List.length_cons] at hroom
    rw [free_place he hf]
    omega

/-- What a list of new entries does to a table that they fit. -/
structure Placed (t t' : SlotTable n κ η) (es : List (κ × η)) : Prop where
  occupied : ∀ i, t.slot i ≠ none → t'.slot i = t.slot i
  /-- The `m`-th new entry is in the `m`-th lowest empty slot. -/
  inOrder : ∀ (m : ℕ) (i : Fin n), t.free[m]? = some i → t'.slot i = es[m]?
  entries : t'.entries.Perm (t.entries ++ es)

theorem Fits.placed {es : List (κ × η)} (h : Fits t es) : Placed t (t.placeAll es) es := by
  induction es generalizing t with
  | nil =>
    refine ⟨fun _ _ => rfl, fun m i hi => ?_, by simp [placeAll]⟩
    have hfree : t.slot i = none := mem_free.mp (List.mem_of_getElem? hi)
    simpa [placeAll] using hfree
  | cons e es ih =>
    obtain ⟨he, ⟨i0, r, hf⟩, hfits⟩ := h.step
    have hi0 : t.slot i0 = none := mem_free.mp (hf ▸ List.mem_cons_self)
    have hslot := place_slot he hf
    obtain ⟨hocc, hplaced, hperm⟩ := ih hfits
    have hstep : t.placeAll (e :: es) = (t.place e).placeAll es := rfl
    rw [hstep]
    refine ⟨fun i hi => ?_, fun m i hm => ?_, ?_⟩
    · have hne : i ≠ i0 := fun h => hi (h ▸ hi0)
      have hsame : (t.place e).slot i = t.slot i := by rw [hslot, Function.update_of_ne hne]
      rw [hocc i (by rwa [hsame]), hsame]
    · rw [hf] at hm
      cases m with
      | zero =>
        obtain rfl : i0 = i := by simpa using hm
        have hself : (t.place e).slot i0 = some e := by rw [hslot, Function.update_self]
        rw [hocc i0 (by simp [hself]), hself]
        rfl
      | succ m => exact hplaced m i (by rw [free_place he hf]; simpa using hm)
    · refine hperm.trans (((entries_place he hf).append_right es).trans ?_)
      have hmid : (t.entries ++ e :: es).Perm (e :: (t.entries ++ es)) := List.perm_middle
      simpa using hmid.symm

/-! ## Refreshing -/

/-- An offer that the table lacks and that comes with a value. -/
def newOf (t : SlotTable n κ η) (o : κ × Option η) : Option (κ × η) :=
  if t.Has o.1 then none else o.2.map fun v => (o.1, v)

def fresh (t : SlotTable n κ η) (offers : List (κ × Option η)) : List (κ × η) :=
  offers.filterMap t.newOf

def keepOffered (t : SlotTable n κ η) (offers : List (κ × Option η)) : SlotTable n κ η :=
  t.keep fun k => k ∈ offers.map Prod.fst

def dropped (t : SlotTable n κ η) (offers : List (κ × Option η)) : List (κ × η) :=
  t.entries.filter fun e => e.1 ∉ offers.map Prod.fst

def refresh (t : SlotTable n κ η) (offers : List (κ × Option η)) : SlotTable n κ η :=
  (t.keepOffered offers).placeAll (t.fresh offers)

section Refresh
variable {offers : List (κ × Option η)}

theorem newOf_eq_some {o : κ × Option η} {e : κ × η} :
    t.newOf o = some e ↔ o = (e.1, some e.2) ∧ ¬ t.Has e.1 := by
  obtain ⟨k, v⟩ := o
  obtain ⟨k', v'⟩ := e
  by_cases h : t.Has k
  · simp only [newOf, if_pos h, Prod.mk.injEq]
    refine iff_of_false (by simp) ?_
    rintro ⟨⟨rfl, -⟩, hn⟩
    exact hn h
  · simp only [newOf, if_neg h, Option.map_eq_some_iff, Prod.mk.injEq]
    constructor
    · rintro ⟨w, rfl, rfl, rfl⟩
      exact ⟨⟨rfl, rfl⟩, h⟩
    · rintro ⟨⟨rfl, rfl⟩, -⟩
      exact ⟨v', rfl, rfl, rfl⟩

theorem fresh_cons (o : κ × Option η) :
    t.fresh (o :: offers) = (t.newOf o).toList ++ t.fresh offers := by
  cases h : t.newOf o with
  | none => exact List.filterMap_cons_none h
  | some e => exact List.filterMap_cons_some h

theorem mem_fresh {e : κ × η} :
    e ∈ t.fresh offers ↔ (e.1, some e.2) ∈ offers ∧ ¬ t.Has e.1 := by
  simp only [fresh, List.mem_filterMap, newOf_eq_some]
  constructor
  · rintro ⟨o, ho, rfl, h⟩
    exact ⟨ho, h⟩
  · rintro ⟨ho, h⟩
    exact ⟨_, ho, rfl, h⟩

theorem fresh_keys_sublist : ((t.fresh offers).map Prod.fst).Sublist (offers.map Prod.fst) := by
  induction offers with
  | nil => exact List.Sublist.slnil
  | cons o offers ih =>
    rw [fresh_cons]
    cases ho : t.newOf o with
    | none => exact ih.cons _
    | some e =>
      rw [(newOf_eq_some.mp ho).1]
      exact ih.cons_cons _

theorem has_keepOffered {k : κ} :
    (t.keepOffered offers).Has k ↔ t.Has k ∧ k ∈ offers.map Prod.fst := by
  rw [keepOffered, has_keep, decide_eq_true_iff]

theorem keepOffered_slot_some {i : Fin n} {e : κ × η} :
    (t.keepOffered offers).slot i = some e ↔ t.slot i = some e ∧ e.1 ∈ offers.map Prod.fst := by
  rw [keepOffered, keep_slot_some, decide_eq_true_iff]

theorem keep_eq_keepOffered {p : κ → Bool}
    (h : ∀ k, t.Has k → (p k = true ↔ k ∈ offers.map Prod.fst)) :
    t.keep p = t.keepOffered offers :=
  keep_congr fun k hk => (h k hk).trans decide_eq_true_iff.symm

theorem filter_eq_dropped {p : κ → Bool}
    (h : ∀ k, t.Has k → (p k = true ↔ k ∈ offers.map Prod.fst)) :
    (t.entries.filter fun e => !p e.1) = t.dropped offers := by
  apply List.filter_congr
  intro e he
  have hk := h e.1 (has_iff.mpr (List.mem_map_of_mem he))
  rw [Bool.eq_iff_iff, Bool.not_eq_true', decide_eq_true_iff, ← hk, Bool.not_eq_true]

theorem entries_perm_dropped :
    t.entries.Perm ((t.keepOffered offers).entries ++ t.dropped offers) := by
  rw [keepOffered, entries_keep, ← filter_eq_dropped fun _ _ => decide_eq_true_iff]
  exact (List.filter_append_perm _ _).symm

theorem mem_dropped {e : κ × η} :
    e ∈ t.dropped offers ↔ e ∈ t.entries ∧ e.1 ∉ offers.map Prod.fst := by
  rw [dropped, List.mem_filter, decide_eq_true_iff]

/-- With at most `n` offers of distinct keys, everything new finds its slot. -/
theorem fits_fresh (hnd : (offers.map Prod.fst).Nodup) (hlen : offers.length ≤ n) :
    Fits (t.keepOffered offers) (t.fresh offers) := by
  have hnd' : ((t.fresh offers).map Prod.fst).Nodup := fresh_keys_sublist.nodup hnd
  have hnew : ∀ e ∈ t.fresh offers, ¬ (t.keepOffered offers).Has e.1 :=
    fun e he h => (mem_fresh.mp he).2 (has_keepOffered.mp h).1
  have hlen' : (offers.map Prod.fst).length ≤ n := by rwa [List.length_map]
  exact ⟨hnd', hnew, room hlen'
    (fun k hk => (has_keepOffered.mp hk).2) hnd'
    (fun e he => fresh_keys_sublist.subset (List.mem_map_of_mem he)) hnew⟩

end Refresh

end Table

end SlotTable

end El32

import Mathlib.Data.List.Basic

/-! A text cut into groups of one size from the right, with a separator between the groups.

The text is built from the right, so an item goes to the front, after a separator where the items so
far fill up their groups. -/
namespace El32.Grouping
set_option autoImplicit false

section Groups
variable {α : Type}

/-- `text` is `items` with `sep` between the groups: all have `g` items, but the first may be
shorter. -/
structure Cut (g : ℕ) (sep : α) (items text first : List α) (rest : List (List α)) : Prop where
  items : items = first ++ rest.flatten
  text : text = first ++ rest.flatMap (sep :: ·)
  pos : 0 < first.length
  le : first.length ≤ g
  full : ∀ c ∈ rest, c.length = g

def Grouped (g : ℕ) (sep : α) (items text : List α) : Prop :=
  ∃ first rest, Cut g sep items text first rest

/-- The text with an item more, when `count` items stand in it. -/
def extend (g : ℕ) (sep d : α) (count : ℕ) (text : List α) : List α :=
  d :: if count % g = 0 ∧ count ≠ 0 then sep :: text else text

variable {g : ℕ} {sep d : α} {items text first : List α} {rest : List (List α)}

theorem flatten_length (h : ∀ c ∈ rest, c.length = g) : rest.flatten.length = rest.length * g := by
  induction rest with
  | nil => simp
  | cons c rest ih =>
    rw [List.flatten_cons, List.length_append, h c List.mem_cons_self,
      ih fun c hc => h c (List.mem_cons_of_mem _ hc), List.length_cons, Nat.succ_mul, Nat.add_comm]

theorem flatMap_length (rest : List (List α)) :
    (rest.flatMap (sep :: ·)).length = rest.flatten.length + rest.length := by
  induction rest with
  | nil => rfl
  | cons c rest ih =>
    simp only [List.flatMap_cons, List.flatten_cons, List.length_append, List.length_cons, ih]
    omega

theorem Cut.count (h : Cut g sep items text first rest) :
    items.length = first.length + rest.length * g := by
  rw [h.items, List.length_append, flatten_length h.full]

theorem grouped_single (hg : 0 < g) (sep d : α) : Grouped g sep [d] [d] :=
  ⟨[d], [], rfl, rfl, Nat.one_pos, hg, nofun⟩

/-- The first group has room exactly when the groups are not all full. -/
theorem Cut.room (h : Cut g sep items text first rest) :
    first.length < g ↔ items.length % g ≠ 0 := by
  rw [h.count, Nat.add_mul_mod_self_right]
  obtain hlt | heq := Nat.lt_or_eq_of_le h.le
  · rw [Nat.mod_eq_of_lt hlt]
    exact iff_of_true hlt (Nat.pos_iff_ne_zero.mp h.pos)
  · rw [heq, Nat.mod_self]
    exact iff_of_false (Nat.lt_irrefl g) (not_not_intro rfl)

theorem Grouped.extend (hg : 0 < g) (h : Grouped g sep items text) (d : α) :
    Grouped g sep (d :: items) (extend g sep d items.length text) := by
  obtain ⟨first, rest, h⟩ := h
  have hne : items.length ≠ 0 := by
    rw [h.count]
    exact Nat.ne_of_gt (Nat.add_pos_left h.pos _)
  unfold Grouping.extend
  by_cases hroom : first.length < g
  · rw [if_neg fun hc => h.room.mp hroom hc.1]
    exact ⟨d :: first, rest, by rw [h.items]; rfl, by rw [h.text]; rfl, Nat.succ_pos _, hroom,
      h.full⟩
  · rw [if_pos ⟨not_not.mp fun hc => hroom (h.room.mpr hc), hne⟩]
    refine ⟨[d], first :: rest, by rw [h.items]; rfl, by rw [h.text]; rfl, Nat.one_pos, hg, ?_⟩
    rw [List.forall_mem_cons]
    exact ⟨Nat.le_antisymm h.le (Nat.le_of_not_lt hroom), h.full⟩

/-- A text has fewer separators than one for each `g` items. -/
theorem Grouped.length (h : Grouped g sep items text) :
    ∃ k, text.length = items.length + k ∧ k * g < items.length := by
  obtain ⟨first, rest, h⟩ := h
  refine ⟨rest.length, ?_, ?_⟩
  · rw [h.text, h.items, List.length_append, List.length_append, flatMap_length, Nat.add_assoc]
  · rw [h.count]
    exact Nat.lt_add_of_pos_left h.pos

theorem Grouped.mem (h : Grouped g sep items text) {c : α} (hc : c ∈ text) : c = sep ∨ c ∈ items := by
  obtain ⟨first, rest, h⟩ := h
  rw [h.text] at hc
  rw [h.items]
  rcases List.mem_append.mp hc with hc | hc
  · exact .inr (List.mem_append_left _ hc)
  · obtain ⟨group, hgroup, hc⟩ := List.mem_flatMap.mp hc
    refine (List.mem_cons.mp hc).imp id fun hc => List.mem_append_right _ ?_
    exact List.mem_flatten.mpr ⟨group, hgroup, hc⟩

/-- Without the separators the items are left. -/
theorem Grouped.filter [DecidableEq α] (h : Grouped g sep items text) (hsep : sep ∉ items) :
    text.filter (· ≠ sep) = items := by
  obtain ⟨first, rest, h⟩ := h
  have hkeep : ∀ l : List α, sep ∉ l → l.filter (· ≠ sep) = l := fun l hl =>
    List.filter_eq_self.mpr fun c hc => decide_eq_true fun heq => hl (heq ▸ hc)
  have hrest : ∀ rest : List (List α), sep ∉ rest.flatten →
      (rest.flatMap (sep :: ·)).filter (· ≠ sep) = rest.flatten := by
    intro rest hr
    induction rest with
    | nil => rfl
    | cons c rest ih =>
      rw [List.flatten_cons, List.mem_append, not_or] at hr
      rw [List.flatMap_cons, List.filter_append, ih hr.2, List.filter_cons_of_neg (by simp),
        hkeep c hr.1, List.flatten_cons]
  rw [h.items, List.mem_append, not_or] at hsep
  rw [h.text, h.items, List.filter_append, hkeep first hsep.1, hrest rest hsep.2]

end Groups

end El32.Grouping

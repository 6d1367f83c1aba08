import El32.Foundations.Transition

/-! Where the size of the ring buffer lives: in the argument of a producer, in its variable `size`,
in the length of the shared object and in the semaphore `e`.

The choice `o` of `baproducer.c` maps the object with the size of the argument, which truncates it,
and only then measures it; `baconsumer.c` maps what is there. -/
namespace El32.RingSize
open Transition
set_option autoImplicit false

/-- The object, the value `e` was created with, and `size` in every process attached. `discarded` are
the stored values that a truncation cut off. -/
structure Buffer where
  words : List UInt64
  e : ℕ
  sizes : List ℕ
  discarded : List UInt64
deriving DecidableEq

/-- The check of the argument in `main`. -/
def Legal (size : ℕ) : Prop := 1 ≤ size ∧ size ≤ 10000

instance decidableLegal (size : ℕ) : Decidable (Legal size) :=
  inferInstanceAs (Decidable (1 ≤ size ∧ size ≤ 10000))

/-- The object after `ftruncate` to `size` words. -/
def truncate (words : List UInt64) (size : ℕ) : List UInt64 :=
  words.take size ++ List.replicate (size - words.length) 0

inductive Label where
  | create (size : ℕ)
  | openProducer (size : ℕ)
  | openConsumer
  | store (p i : ℕ) (v : UInt64)
deriving DecidableEq

/-- `store` is any assignment of process `p` to a cell. A process that finds the object missing, or
there already when it creates, does not attach. -/
def step : Option Buffer → Label → Option (Option Buffer)
  | none, .create size =>
    if Legal size then some (some ⟨truncate [] size, size, [size], []⟩) else none
  | some b, .openProducer size =>
    if Legal size then
      let words := truncate b.words size
      some (some { b with
        words := words
        sizes := b.sizes ++ [words.length]
        discarded := b.discarded ++ (b.words.drop size).filter (· ≠ 0) })
    else none
  | some b, .openConsumer => some (some { b with sizes := b.sizes ++ [b.words.length] })
  | some b, .store p i v =>
    b.sizes[p]?.map fun size => some { b with words := b.words.set (i % size) v }
  | _, _ => none

/-- All processes work with the modulus that `e` was created with and the object has, and no stored
value was discarded. -/
def Agree (s : Option Buffer) : Prop :=
  ∀ b ∈ s, (∀ size ∈ b.sizes, size = b.e ∧ size = b.words.length) ∧ b.discarded = []

/-- The condition on a step: the buffer is opened with the size of its creator. -/
def Guard (s : Option Buffer) : Label → Prop
  | .openProducer size => ∀ b ∈ s, size = b.e
  | _ => True

theorem length_truncate (words : List UInt64) (size : ℕ) :
    (truncate words size).length = size := by
  unfold truncate
  rw [List.length_append, List.length_take, List.length_replicate]
  omega

theorem truncate_length (words : List UInt64) : truncate words words.length = words := by
  simp [truncate]

def Attached (s : Option Buffer) : Prop := ∀ b ∈ s, b.sizes ≠ []

/-- What a step does for each label. -/
inductive Does : Option Buffer → Label → Option Buffer → Prop
  | create {size : ℕ} : Legal size →
      Does none (.create size) (some ⟨truncate [] size, size, [size], []⟩)
  | openProducer {b : Buffer} {size : ℕ} : Legal size →
      Does (some b) (.openProducer size) (some { b with
        words := truncate b.words size
        sizes := b.sizes ++ [(truncate b.words size).length]
        discarded := b.discarded ++ (b.words.drop size).filter (· ≠ 0) })
  | openConsumer {b : Buffer} :
      Does (some b) .openConsumer (some { b with sizes := b.sizes ++ [b.words.length] })
  | store {b : Buffer} {p i size : ℕ} {v : UInt64} : b.sizes[p]? = some size →
      Does (some b) (.store p i v) (some { b with words := b.words.set (i % size) v })

theorem step_cases {s s' : Option Buffer} {a : Label} (h : step s a = some s') : Does s a s' := by
  cases s with
  | none =>
    cases a with
    | create size =>
      obtain ⟨hlegal, rfl⟩ := by simpa [step] using h
      exact .create hlegal
    | openProducer size | openConsumer | store p i v => simp [step] at h
  | some b =>
    cases a with
    | create size => simp [step] at h
    | openProducer size =>
      obtain ⟨hlegal, h⟩ := Option.ite_none_right_eq_some.mp h
      obtain rfl := Option.some.inj h
      exact .openProducer hlegal
    | openConsumer =>
      obtain rfl := by simpa [step] using h
      exact .openConsumer
    | store p i v =>
      obtain ⟨size, hsize, rfl⟩ := Option.map_eq_some_iff.mp h
      exact .store hsize

theorem attached_step (s : Option Buffer) (a : Label) (s' : Option Buffer) (h : Attached s)
    (hstep : step s a = some s') : Attached s' := by
  intro b' hb'
  obtain rfl : s' = some b' := hb'
  cases step_cases hstep with
  | create => exact List.cons_ne_nil _ _
  | openProducer | openConsumer =>
    exact List.append_ne_nil_of_right_ne_nil _ (List.cons_ne_nil _ _)
  | @store b => exact h b rfl

theorem Agree.length {b : Buffer} (h : Agree (some b)) (hb : Attached (some b)) :
    b.words.length = b.e := by
  obtain ⟨size, hsize⟩ := List.exists_mem_of_ne_nil _ (hb b rfl)
  obtain ⟨he, hlen⟩ := (h b rfl).1 size hsize
  rw [← hlen, he]

/-- A step keeps the agreement exactly when it meets the condition. -/
theorem agree_step (s : Option Buffer) (a : Label) (s' : Option Buffer) (hb : Attached s)
    (h : Agree s) (hstep : step s a = some s') : Agree s' ↔ Guard s a := by
  cases step_cases hstep with
  | @create size =>
    refine iff_of_true (fun b hb => ?_) trivial
    obtain rfl := Option.some.inj hb
    refine ⟨List.forall_mem_singleton.mpr ⟨rfl, ?_⟩, rfl⟩
    exact (length_truncate [] size).symm
  | @openProducer b size =>
    have hlen := h.length hb
    obtain ⟨hsizes, hdiscarded⟩ := h b rfl
    constructor
    · intro hagree b' hb'
      obtain rfl := Option.some.inj hb'
      obtain ⟨he, -⟩ := (hagree _ rfl).1 _ (List.mem_append_right _ List.mem_cons_self)
      rw [← he, length_truncate]
    · intro hguard b' hb'
      obtain rfl := Option.some.inj hb'
      obtain rfl : size = b.words.length := (hguard b rfl).trans hlen.symm
      rw [truncate_length]
      refine ⟨?_, by simp [hdiscarded]⟩
      exact List.forall_mem_append.mpr ⟨hsizes, List.forall_mem_singleton.mpr ⟨hlen, rfl⟩⟩
  | @openConsumer b =>
    have hlen := h.length hb
    obtain ⟨hsizes, hdiscarded⟩ := h b rfl
    refine iff_of_true (fun b' hb' => ?_) trivial
    obtain rfl := Option.some.inj hb'
    exact ⟨List.forall_mem_append.mpr ⟨hsizes, List.forall_mem_singleton.mpr ⟨hlen, rfl⟩⟩,
      hdiscarded⟩
  | @store b =>
    obtain ⟨hsizes, hdiscarded⟩ := h b rfl
    refine iff_of_true (fun b' hb' => ?_) trivial
    obtain rfl := Option.some.inj hb'
    refine ⟨fun size hsize => ?_, hdiscarded⟩
    rw [List.length_set]
    exact hsizes size hsize

theorem attached_none : Attached none := nofun

theorem agree_none : Agree none := nofun

/-- **All processes agree on the size in every state of a run exactly when every producer opens the
buffer with the size of its creator.** -/
theorem sizes_agree_iff (ls : List Label) :
    AllStates step Agree none ls ↔ AllSteps step Guard none ls :=
  allStates_iff_allSteps attached_step agree_step attached_none agree_none ls

/-- A buffer of four cells with a value in the last one is opened with size 2. -/
def shrunk : List Label := [.create 4, .store 0 3 4, .openProducer 2]

theorem after_shrunk : after step none shrunk = some (some ⟨[0, 0], 4, [4, 2], [4]⟩) := by decide

theorem shrunk_disagree : ¬ AllStates step Agree none shrunk := by
  intro h
  obtain ⟨-, hdiscarded⟩ := h.after after_shrunk _ rfl
  exact List.cons_ne_nil _ _ hdiscarded

end El32.RingSize

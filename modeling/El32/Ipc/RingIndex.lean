import El32.Foundations.CString
import El32.Foundations.Transition
import El32.Foundations.WrapCounter
import Mathlib.Data.List.Count

/-! The positions that `append` of `producer.c` and `take` of `consumer.c` use, in runs of the two
`work` loops of any length.

The counters are `int` and wrap around. A round of `work` is one step: it holds `s` while it touches
the cells. What is only printed, the delay and the menu are left out. -/
namespace El32.RingIndex
open CString Transition WrapCounter
set_option autoImplicit false

structure Producer where
  inn : ℤ
  data : UInt64

structure Consumer where
  out : ℤ
  data : UInt64

/-- The semaphores, the memory around `shm_buffer` by index, the globals of the two processes, and
the positions they have used. An index outside the buffer reads and writes what lies beside it. -/
structure State where
  e : ℕ
  n : ℕ
  s : ℕ
  buffer : ℤ → UInt64
  producer : Producer
  consumer : Consumer
  appendIdxs : List ℤ
  takeIdxs : List ℤ

/-- A round of `work` in one of the processes. -/
inductive Label where
  | produce
  | consume
deriving DecidableEq

def semWait (value : ℕ) : Option ℕ := if 0 < value then some (value - 1) else none

section Program
variable (size : ℕ)

def initial : State where
  e := size
  n := 0
  s := 1
  buffer := fun _ => 0
  producer := ⟨0, 0⟩
  consumer := ⟨0, 0⟩
  appendIdxs := []
  takeIdxs := []

def append (m : State) : State :=
  let idx := m.producer.inn.tmod size
  let data := m.producer.data + 1
  { m with
    buffer := Function.update m.buffer idx data
    producer := ⟨intOf (m.producer.inn + 1), data⟩
    appendIdxs := m.appendIdxs ++ [idx] }

def take (m : State) : State :=
  let idx := m.consumer.out.tmod size
  { m with
    buffer := Function.update m.buffer idx 0
    consumer := ⟨intOf (m.consumer.out + 1), m.buffer idx⟩
    takeIdxs := m.takeIdxs ++ [idx] }

/-- `work` of the producer. -/
def produce (m : State) : Option State :=
  (semWait m.e).bind fun e =>
  (semWait m.s).bind fun s =>
    let m := append size { m with e := e, s := s }
    some { m with s := m.s + 1, n := m.n + 1 }

/-- `work` of the consumer. -/
def consume (m : State) : Option State :=
  (semWait m.n).bind fun n =>
  (semWait m.s).bind fun s =>
    let m := take size { m with n := n, s := s }
    some { m with s := m.s + 1, e := m.e + 1 }

def step (m : State) : Label → Option State
  | .produce => produce size m
  | .consume => consume size m

end Program

/-- The number of non-negative values of an `int`. -/
def half : ℕ := 2147483648

/-! ## Runs -/

section Runs
variable {size : ℕ} {m m' : State}

/-- The processes after `a` appends and `t` takes. -/
structure At (size a t : ℕ) (m : State) : Prop where
  inn : m.producer.inn = counter half a
  appended : m.appendIdxs = (List.range a).map (ringIndex half size)
  out : m.consumer.out = counter half t
  taken : m.takeIdxs = (List.range t).map (ringIndex half size)

theorem at_initial (size : ℕ) : At size 0 0 (initial size) where
  inn := counter_zero.symm
  appended := rfl
  out := counter_zero.symm
  taken := rfl

theorem intOf_counter (j : ℕ) : intOf (counter half j + 1) = counter half (j + 1) := counter_succ j

theorem range_map_succ (f : ℕ → ℤ) (k : ℕ) :
    (List.range (k + 1)).map f = (List.range k).map f ++ [f k] := by
  rw [List.range_succ, List.map_append, List.map_singleton]

theorem produce_cases (h : produce size m = some m') :
    ∃ e s, m' = { append size { m with e := e, s := s } with s := s + 1, n := m.n + 1 } := by
  obtain ⟨e, -, h⟩ := Option.bind_eq_some_iff.mp h
  obtain ⟨s, -, h⟩ := Option.bind_eq_some_iff.mp h
  exact ⟨e, s, (Option.some.inj h).symm⟩

theorem consume_cases (h : consume size m = some m') :
    ∃ n s, m' = { take size { m with n := n, s := s } with s := s + 1, e := m.e + 1 } := by
  obtain ⟨n, -, h⟩ := Option.bind_eq_some_iff.mp h
  obtain ⟨s, -, h⟩ := Option.bind_eq_some_iff.mp h
  exact ⟨n, s, (Option.some.inj h).symm⟩

theorem At.produce {a t : ℕ} (hat : At size a t m) (h : produce size m = some m') :
    At size (a + 1) t m' := by
  obtain ⟨e, s, rfl⟩ := produce_cases h
  refine ⟨?_, ?_, hat.out, hat.taken⟩
  · show intOf (m.producer.inn + 1) = _
    rw [hat.inn, intOf_counter]
  · show m.appendIdxs ++ [m.producer.inn.tmod size] = _
    rw [hat.appended, hat.inn, range_map_succ]
    rfl

theorem At.consume {a t : ℕ} (hat : At size a t m) (h : consume size m = some m') :
    At size a (t + 1) m' := by
  obtain ⟨n, s, rfl⟩ := consume_cases h
  refine ⟨hat.inn, hat.appended, ?_, ?_⟩
  · show intOf (m.consumer.out + 1) = _
    rw [hat.out, intOf_counter]
  · show m.takeIdxs ++ [m.consumer.out.tmod size] = _
    rw [hat.taken, hat.out, range_map_succ]
    rfl

theorem At.after {a t : ℕ} {ls : List Label} (hat : At size a t m)
    (h : after (step size) m ls = some m') :
    At size (a + ls.count .produce) (t + ls.count .consume) m' := by
  induction ls generalizing m a t with
  | nil =>
    obtain rfl : m = m' := by simpa [Transition.after] using h
    exact hat
  | cons l ls ih =>
    cases hstep : step size m l with
    | none => simp [Transition.after, hstep] at h
    | some m₁ =>
      rw [after_cons hstep] at h
      cases l with
      | produce =>
        have hrest := ih (hat.produce hstep) h
        rw [List.count_cons_self, List.count_cons_of_ne (by decide)]
        rwa [Nat.add_right_comm, Nat.add_assoc] at hrest
      | consume =>
        have hrest := ih (hat.consume hstep) h
        rw [List.count_cons_self, List.count_cons_of_ne (by decide)]
        rwa [Nat.add_right_comm t, Nat.add_assoc t] at hrest

end Runs

/-! ## Runs that take what is appended -/

section Rounds
variable {size : ℕ} {m m' : State}

def rounds : ℕ → List Label
  | 0 => []
  | k + 1 => [.produce, .consume] ++ rounds k

theorem count_rounds (k : ℕ) : (rounds k).count .produce = k := by
  induction k with
  | zero => rfl
  | succ k ih =>
    rw [rounds, List.count_append, ih]
    exact Nat.add_comm 1 k

theorem produce_ready (he : 0 < m.e) (hs : 0 < m.s) :
    ∃ m', produce size m = some m' ∧ 0 < m'.n ∧ 0 < m'.s := by
  rw [produce, semWait, if_pos he, semWait, if_pos hs]
  exact ⟨_, rfl, Nat.succ_pos _, Nat.succ_pos _⟩

theorem consume_ready (hn : 0 < m.n) (hs : 0 < m.s) :
    ∃ m', consume size m = some m' ∧ 0 < m'.e ∧ 0 < m'.s := by
  rw [consume, semWait, if_pos hn, semWait, if_pos hs]
  exact ⟨_, rfl, Nat.succ_pos _, Nat.succ_pos _⟩

/-- A take after each append finds both processes ready again. -/
theorem rounds_enabled (k : ℕ) (he : 0 < m.e) (hs : 0 < m.s) :
    ∃ m', after (step size) m (rounds k) = some m' := by
  induction k generalizing m with
  | zero => exact ⟨m, rfl⟩
  | succ k ih =>
    obtain ⟨m₁, h₁, hn₁, hs₁⟩ := @produce_ready size m he hs
    obtain ⟨m₂, h₂, he₂, hs₂⟩ := @consume_ready size m₁ hn₁ hs₁
    obtain ⟨m', h'⟩ := ih he₂ hs₂
    have hp : step size m .produce = some m₁ := h₁
    have hc : step size m₁ .consume = some m₂ := h₂
    refine ⟨m', ?_⟩
    rw [rounds, List.cons_append, List.singleton_append, after_cons hp, after_cons hc, h']

theorem rounds_from_start (hpos : 0 < size) (k : ℕ) :
    ∃ m, after (step size) (initial size) (rounds k) = some m :=
  rounds_enabled k hpos Nat.one_pos

/-- **The positions stay in the ring until a counter has wrapped.** Only in a buffer of one cell do
they stay in it for ever. -/
theorem ringOrder_iff_rounds (hpos : 1 ≤ size) (hmax : size ≤ 10000) {ls : List Label}
    (h : after (step size) (initial size) ls = some m) :
    RingOrder size m.appendIdxs ∧ RingOrder size m.takeIdxs ↔
      size = 1 ∨
        ls.count .produce ≤ lastGood half size ∧ ls.count .consume ≤ lastGood half size := by
  have hat := (at_initial size).after h
  have hhalf : size ≤ half := by
    unfold half
    omega
  rw [hat.appended, hat.taken, ringOrder_iff hpos hhalf, ringOrder_iff hpos hhalf, Nat.zero_add,
    Nat.zero_add, ← or_and_left]

theorem ringOrder_iff_rounds_two :
    ∃ m, after (step 2) (initial 2) (rounds 5) = some m ∧
      (RingOrder 2 m.appendIdxs ∧ RingOrder 2 m.takeIdxs ↔
        2 = 1 ∨ (rounds 5).count .produce ≤ lastGood half 2 ∧
          (rounds 5).count .consume ≤ lastGood half 2) := by
  obtain ⟨m, hm⟩ := @rounds_from_start 2 Nat.two_pos 5
  exact ⟨m, hm, ringOrder_iff_rounds (by decide) (by decide) hm⟩

end Rounds

/-! ## A run that wraps -/

theorem wrapped_index : ringIndex half 3 half = -2 := ringIndex_wrap (by decide)

/-- After 2^31 rounds with three cells the next `append` writes two cells before the buffer. -/
theorem append_before_buffer :
    ∃ m, after (step 3) (initial 3) (rounds (half + 1)) = some m ∧ -2 ∈ m.appendIdxs ∧
      ¬ (RingOrder 3 m.appendIdxs ∧ RingOrder 3 m.takeIdxs) := by
  obtain ⟨m, hm⟩ := @rounds_from_start 3 (Nat.succ_pos 2) (half + 1)
  have hat := (at_initial 3).after hm
  have hmem : -2 ∈ m.appendIdxs := by
    rw [hat.appended, count_rounds, Nat.zero_add, ← wrapped_index]
    exact List.mem_map_of_mem (List.mem_range.mpr (Nat.lt_succ_self half))
  refine ⟨m, hm, hmem, fun h => ?_⟩
  have hrange := h.1.in_range (-2) hmem
  omega

end El32.RingIndex

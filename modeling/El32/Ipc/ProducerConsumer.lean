import Mathlib.Data.Nat.Notation
import Mathlib.Logic.Function.Basic

/-! `producer.c` and the `consumer.c` processes that work with it, one after the other.

Every semaphore operation and every access to a cell is a step of its own; the menu choices are
labels. The indices are `int`: a step that would overflow one has no value. What is only printed, the
delay, and the clean-up when the producer quits are left out. -/
namespace El32.ProducerConsumer
set_option autoImplicit false

/-- Where the producer is: at its menu, in `work` and `append`, at the check for a key after it, or
in `resetAll`. -/
inductive ProducerPc where
  | menu
  | waitE
  | waitS
  | readCell
  | writeCell
  | postS
  | postN
  | poll
  | clear (i : ℕ)
  | zero
deriving DecidableEq

/-- Where a consumer is: at its menu, in `work` and `take`, or at the check for a key after it. -/
inductive ConsumerPc where
  | menu
  | waitN
  | waitS
  | readCell
  | clearCell
  | postS
  | postE
  | poll
deriving DecidableEq

structure Producer where
  pc : ProducerPc
  inn : ℕ
  data : UInt64
deriving DecidableEq

structure Consumer where
  pc : ConsumerPc
  out : ℕ
  idx : ℕ
  data : UInt64
deriving DecidableEq

/-- The semaphores and the cells, the processes, and what they have done since the last reset: what
the appends found at their position, the values they wrote, and the values the takes returned. -/
structure State where
  e : ℕ
  n : ℕ
  s : ℕ
  buffer : ℕ → UInt64
  producer : Producer
  consumer : Option Consumer
  found : List UInt64
  appended : List UInt64
  taken : List UInt64

inductive Label where
  | start
  | pause
  | dump
  | reset
  | produce
  | consumerOpen
  | consumerStart
  | consumerPause
  | consumerQuit
  | consume
deriving DecidableEq

def intMax : ℕ := 2147483647

section Program
variable (size : ℕ)

/-- After the producer has created the objects. -/
def initial : State where
  e := size
  n := 0
  s := 1
  buffer := fun _ => 0
  producer := ⟨.menu, 0, 0⟩
  consumer := none
  found := []
  appended := []
  taken := []

/-- The next step of the producer, which goes on at `poll` when no `p` was typed. -/
def produce (m : State) : Option State :=
  let p := m.producer
  match p.pc with
  | .waitE =>
    if 0 < m.e then some { m with e := m.e - 1, producer := { p with pc := .waitS } } else none
  | .waitS =>
    if 0 < m.s then some { m with s := m.s - 1, producer := { p with pc := .readCell } } else none
  | .readCell =>
    some { m with
      found := m.found ++ [m.buffer (p.inn % size)]
      producer := { p with pc := .writeCell } }
  | .writeCell =>
    if p.inn < intMax then
      some { m with
        buffer := Function.update m.buffer (p.inn % size) (p.data + 1)
        appended := m.appended ++ [p.data + 1]
        producer := ⟨.postS, p.inn + 1, p.data + 1⟩ }
    else none
  | .postS => some { m with s := m.s + 1, producer := { p with pc := .postN } }
  | .postN => some { m with n := m.n + 1, producer := { p with pc := .poll } }
  | .poll => some { m with producer := { p with pc := .waitE } }
  | .clear i =>
    if i < size then
      some { m with
        buffer := Function.update m.buffer i 0
        producer := { p with pc := .clear (i + 1) } }
    else some { m with producer := { p with pc := .zero } }
  | .zero => some { m with producer := ⟨.menu, 0, 0⟩ }
  | .menu => none

def consume (m : State) (c : Consumer) : Option State :=
  match c.pc with
  | .waitN =>
    if 0 < m.n then some { m with n := m.n - 1, consumer := some { c with pc := .waitS } } else none
  | .waitS =>
    if 0 < m.s then some { m with s := m.s - 1, consumer := some { c with pc := .readCell } }
    else none
  | .readCell =>
    if c.out < intMax then
      some { m with
        consumer := some ⟨.clearCell, c.out + 1, c.out % size, m.buffer (c.out % size)⟩ }
    else none
  | .clearCell =>
    some { m with
      buffer := Function.update m.buffer c.idx 0
      taken := m.taken ++ [c.data]
      consumer := some { c with pc := .postS } }
  | .postS => some { m with s := m.s + 1, consumer := some { c with pc := .postE } }
  | .postE => some { m with e := m.e + 1, consumer := some { c with pc := .poll } }
  | .poll => some { m with consumer := some { c with pc := .waitN } }
  | .menu => none

/-- A consumer starts with the globals of a new process. -/
def step (m : State) : Label → Option State
  | .start =>
    if m.producer.pc = .menu then some { m with producer := { m.producer with pc := .waitE } }
    else none
  | .pause =>
    if m.producer.pc = .poll then some { m with producer := { m.producer with pc := .menu } }
    else none
  | .dump => if m.producer.pc = .menu then some m else none
  | .reset =>
    if m.producer.pc = .menu then
      some { m with
        producer := { m.producer with pc := .clear 0 }
        found := []
        appended := []
        taken := [] }
    else none
  | .produce => produce size m
  | .consumerOpen =>
    match m.consumer with
    | none => some { m with consumer := some ⟨.menu, 0, 0, 0⟩ }
    | some _ => none
  | .consumerStart =>
    match m.consumer with
    | some c => if c.pc = .menu then some { m with consumer := some { c with pc := .waitN } } else none
    | none => none
  | .consumerPause =>
    match m.consumer with
    | some c => if c.pc = .poll then some { m with consumer := some { c with pc := .menu } } else none
    | none => none
  | .consumerQuit =>
    match m.consumer with
    | some c => if c.pc = .menu then some { m with consumer := none } else none
    | none => none
  | .consume => m.consumer.bind (consume size m)

end Program

end El32.ProducerConsumer

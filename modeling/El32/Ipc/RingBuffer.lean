import El32.Foundations.Processes
import Mathlib.Logic.Function.Basic

/-! The ring buffer of `baproducer.c` and `baconsumer.c`, shared by any number of processes.

Every semaphore operation and every read or write of a shared word is a step of its own; what a
process only prints is left out. All processes have the same `size`. -/
namespace El32.RingBuffer
open Processes
set_option autoImplicit false

/-- Where a producer is in `work` and its `append`. -/
inductive ProducerPc where
  | waitE
  | waitS
  | readIn
  | readData
  | readCell
  | writeCell
  | writeData
  | writeIn
  | postS
  | postN
  | left
deriving DecidableEq

/-- Where a consumer is in `work` and its `take`. -/
inductive ConsumerPc where
  | waitN
  | waitS
  | readOut
  | readCell
  | clearCell
  | writeOut
  | postS
  | postE
  | left
deriving DecidableEq

/-- The locals of `append`. -/
structure Producer where
  pc : ProducerPc
  inn : UInt64
  new : UInt64
  current : UInt64
deriving DecidableEq

/-- The locals of `take`. -/
structure Consumer where
  pc : ConsumerPc
  out : UInt64
  current : UInt64
deriving DecidableEq

inductive Proc where
  | producer (p : Producer)
  | consumer (c : Consumer)
deriving DecidableEq

def Proc.startProducer : Proc := .producer ⟨.waitE, 0, 0, 0⟩

def Proc.startConsumer : Proc := .consumer ⟨.waitN, 0, 0⟩

/-- The words `shm_pc[0]`, `shm_pc[1]` and `shm_pc[2]` and the cells; then what the appends found at
their position, the values they wrote, and the values taken. -/
structure Memory where
  data : UInt64
  inn : UInt64
  out : UInt64
  buffer : ℕ → UInt64
  found : List UInt64
  appended : List UInt64
  taken : List UInt64

structure Shared where
  e : ℕ
  n : ℕ
  s : ℕ
  mem : Memory

section Program
variable (size : ℕ)

def append (m : Memory) (p : Producer) : Option (Memory × Producer) :=
  match p.pc with
  | .readIn => some (m, { p with inn := m.inn, pc := .readData })
  | .readData => some (m, { p with new := m.data + 1, pc := .readCell })
  | .readCell =>
    let current := m.buffer (p.inn.toNat % size)
    some ({ m with found := m.found ++ [current] }, { p with current := current, pc := .writeCell })
  | .writeCell =>
    some ({ m with
        buffer := Function.update m.buffer (p.inn.toNat % size) p.new
        appended := m.appended ++ [p.new] },
      { p with inn := p.inn + 1, pc := .writeData })
  | .writeData => some ({ m with data := p.new }, { p with pc := .writeIn })
  | .writeIn => some ({ m with inn := p.inn }, { p with pc := .postS })
  | _ => none

def take (m : Memory) (c : Consumer) : Option (Memory × Consumer) :=
  match c.pc with
  | .readOut => some (m, { c with out := m.out, pc := .readCell })
  | .readCell =>
    let current := m.buffer (c.out.toNat % size)
    some ({ m with taken := m.taken ++ [current] }, { c with current := current, pc := .clearCell })
  | .clearCell =>
    some ({ m with buffer := Function.update m.buffer (c.out.toNat % size) 0 },
      { c with out := c.out + 1, pc := .writeOut })
  | .writeOut => some ({ m with out := c.out }, { c with pc := .postS })
  | _ => none

def Producer.work (m : Shared) (p : Producer) : Option (Shared × Producer) :=
  match p.pc with
  | .waitE => if 0 < m.e then some ({ m with e := m.e - 1 }, { p with pc := .waitS }) else none
  | .waitS => if 0 < m.s then some ({ m with s := m.s - 1 }, { p with pc := .readIn }) else none
  | .postS => some ({ m with s := m.s + 1 }, { p with pc := .postN })
  | .postN => some ({ m with n := m.n + 1 }, { p with pc := .waitE })
  | _ => (append size m.mem p).map fun r => ({ m with mem := r.1 }, r.2)

def Consumer.work (m : Shared) (c : Consumer) : Option (Shared × Consumer) :=
  match c.pc with
  | .waitN => if 0 < m.n then some ({ m with n := m.n - 1 }, { c with pc := .waitS }) else none
  | .waitS => if 0 < m.s then some ({ m with s := m.s - 1 }, { c with pc := .readOut }) else none
  | .postS => some ({ m with s := m.s + 1 }, { c with pc := .postE })
  | .postE => some ({ m with e := m.e + 1 }, { c with pc := .waitN })
  | _ => (take size m.mem c).map fun r => ({ m with mem := r.1 }, r.2)

def prog (m : Shared) : Proc → Option (Shared × Proc)
  | .producer p => (p.work size m).map fun r => (r.1, .producer r.2)
  | .consumer c => (c.work size m).map fun r => (r.1, .consumer r.2)

/-- A process leaves between two calls of `work`. -/
def leave : Proc → Option Proc
  | .producer p => if p.pc = .waitE then some (.producer { p with pc := .left }) else none
  | .consumer c => if c.pc = .waitN then some (.consumer { c with pc := .left }) else none

structure State where
  shared : Shared
  procs : List Proc

/-- After one producer has created the objects. -/
def initial : State where
  shared := ⟨size, 0, 1, ⟨0, 0, 0, fun _ => 0, [], [], []⟩⟩
  procs := [.startProducer]

inductive Label where
  | joinProducer
  | joinConsumer
  | leave (i : ℕ)
  | act (i : ℕ)
deriving DecidableEq

def step (s : State) : Label → Option State
  | .joinProducer => some { s with procs := s.procs ++ [.startProducer] }
  | .joinConsumer => some { s with procs := s.procs ++ [.startConsumer] }
  | .leave i => (s.procs[i]?.bind leave).map fun q => { s with procs := s.procs.set i q }
  | .act i => (stepAt (prog size) s.shared s.procs i).map fun r => ⟨r.1, r.2⟩

theorem step_act {s s' : State} {i : ℕ} :
    step size s (.act i) = some s' ↔ ∃ p q, s.procs[i]? = some p ∧
      prog size s.shared p = some (s'.shared, q) ∧ s'.procs = s.procs.set i q := by
  obtain ⟨shared, procs⟩ := s'
  rw [← stepAt_eq_some]
  simp [step]

theorem step_leave {s s' : State} {i : ℕ} :
    step size s (.leave i) = some s' ↔ ∃ p q, s.procs[i]? = some p ∧ leave p = some q ∧
      s' = { s with procs := s.procs.set i q } := by
  simp only [step, Option.map_eq_some_iff, Option.bind_eq_some_iff]
  constructor
  · rintro ⟨q, ⟨p, hp, hq⟩, rfl⟩
    exact ⟨p, q, hp, hq, rfl⟩
  · rintro ⟨p, q, hp, hq, rfl⟩
    exact ⟨q, ⟨p, hp, hq⟩, rfl⟩

end Program

end El32.RingBuffer

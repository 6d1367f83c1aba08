import El32.Foundations.Processes
import Mathlib.Data.Int.Notation

/-! The rendezvous of `rendez.c`: processes that meet between `statement_1` and `statement_2`.

Every semaphore operation and every access to the shared flag byte is a step of its own. Process 0
has created the semaphores and the byte; the others open them. What a process removes at its end are
the names, not the objects that the others have open. -/
namespace El32.Rendez
open Processes
set_option autoImplicit false

/-- Where a process is in `main`, after its mask was made. In the branch on the flags, `pass` posts
and `wait` waits. -/
inductive Pc where
  | statement1
  | lock
  | read
  | mask
  | write
  | unlock
  | check
  | pass
  | wait
  | post
  | statement2
  | cleanup
deriving DecidableEq

def createMask (pid : ℤ) (mask : UInt8) : UInt8 :=
  match pid with
  | 0 => 0x1
  | 1 => 0x2
  | 2 => 0x4
  | 3 => 0x8
  | _ => mask

structure Proc where
  pid : ℤ
  mask : UInt8
  flags : UInt8
  pc : Pc
deriving DecidableEq

/-- The globals are zero until they are assigned. -/
def Proc.start (pid : ℤ) : Proc := ⟨pid, createMask pid 0, 0, .statement1⟩

inductive Statement where
  | first
  | second
deriving DecidableEq

/-- The semaphores, the byte, and the lines printed by all processes. -/
structure Shared where
  semFlags : ℕ
  semSync : ℕ
  store : UInt8
  printed : List (Statement × ℤ)
deriving DecidableEq

def prog (s : Shared) (p : Proc) : Option (Shared × Proc) :=
  match p.pc with
  | .statement1 =>
    some ({ s with printed := s.printed ++ [(.first, p.pid)] }, { p with pc := .lock })
  | .lock =>
    if 0 < s.semFlags then some ({ s with semFlags := s.semFlags - 1 }, { p with pc := .read })
    else none
  | .read => some (s, { p with flags := s.store, pc := .mask })
  | .mask => some (s, { p with flags := p.flags ||| p.mask, pc := .write })
  | .write => some ({ s with store := p.flags }, { p with pc := .unlock })
  | .unlock => some ({ s with semFlags := s.semFlags + 1 }, { p with pc := .check })
  | .check => some (s, { p with pc := if p.flags = 0x0F then .pass else .wait })
  | .pass => some ({ s with semSync := s.semSync + 1 }, { p with pc := .post })
  | .wait =>
    if 0 < s.semSync then some ({ s with semSync := s.semSync - 1 }, { p with pc := .post })
    else none
  | .post => some ({ s with semSync := s.semSync + 1 }, { p with pc := .statement2 })
  | .statement2 =>
    some ({ s with printed := s.printed ++ [(.second, p.pid)] }, { p with pc := .cleanup })
  | .cleanup => none

structure State where
  shared : Shared
  procs : List Proc
deriving DecidableEq

/-- After process 0 has run `initSemSHM`. -/
def initial : State := ⟨⟨1, 0, 0, []⟩, [Proc.start 0]⟩

inductive Label where
  | join (pid : ℤ)
  | act (i : ℕ)
deriving DecidableEq

/-- A process joins when it has run `openSemSHM`. -/
def step (s : State) : Label → Option State
  | .join pid => if pid ≠ 0 then some { s with procs := s.procs ++ [Proc.start pid] } else none
  | .act i => (stepAt prog s.shared s.procs i).map fun r => ⟨r.1, r.2⟩

theorem step_act {s s' : State} {i : ℕ} :
    step s (.act i) = some s' ↔ ∃ p q, s.procs[i]? = some p ∧
      prog s.shared p = some (s'.shared, q) ∧ s'.procs = s.procs.set i q := by
  obtain ⟨shared, procs⟩ := s'
  rw [← stepAt_eq_some]
  simp [step]

end El32.Rendez

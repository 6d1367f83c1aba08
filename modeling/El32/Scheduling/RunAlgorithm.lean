import El32.Foundations.JavaInt
import El32.Foundations.Loop
import Mathlib.Data.Int.Notation
import Mathlib.Logic.Function.Basic

/-! The simulation of a processor by `runAlgorithm`, with `Scheduler` and `process`.

The objects of class `process` are referred to by the elements of a type `ι`. Times are `int`s and
wrap around; `interval` counts to the quantum and `next` stays within the ready queue. A call on `null`
or with an index outside a vector ends the thread and has no value. What is only shown, the status
lines, and the sleeps are left out, and memory is taken as large enough for the grid. -/
namespace El32.Scheduling
open JavaInt Loop
set_option autoImplicit false

structure Process where
  name : String
  arrivalTime : ℤ
  serviceTime : ℤ
  finishTime : ℤ
  timeLeft : ℤ
  tq : ℤ
  tqs : ℤ
  processNum : ℕ
deriving DecidableEq

namespace Process

/-- The constructor. -/
def create (n : String) (a s : ℤ) (processNum : ℕ) : Process := ⟨n, a, s, 0, s, 0, 0, processNum⟩

def servicing (p : Process) : Process := { p with timeLeft := wrap (p.timeLeft - 1) }

/-- `Math.round` is given a quotient of `int`s. A process is only reported after its service, so the
divisor is positive: without any, its time left would have to go round all `int`s first. -/
def report (p : Process) (t : ℤ) : Process :=
  let tq := wrap (t - p.arrivalTime)
  { p with
    finishTime := t
    tq := tq
    tqs := mathRound (tq.tdiv p.serviceTime) }

end Process

/-- The fields of the scheduler, the locals of `run` and the `grid` of the applet. `slots` are the
processes that the iterations served, `none` in an idle one. -/
structure State (ι : Type) where
  heap : ι → Process
  q : List ι
  readyQ : List ι
  finishQ : List ι
  clock : ℤ
  p : Option ι
  idle : Bool
  interval : ℤ
  next : ℤ
  interrupt : Bool
  grid : List ℕ
  slots : List (Option ι)

section Run
variable {ι : Type} [DecidableEq ι]

/-! ## Vectors -/

/-- `elementAt`. -/
def elementAt (v : List ι) (i : ℤ) : Option ι := if 0 ≤ i then v[i.toNat]? else none

/-- The search of `SPN` and `SRT`: the first of the elements with the smallest key. -/
def smallest (key : ι → ℤ) : List ι → Option ι
  | [] => none
  | j :: js => some (js.foldl (fun best k => if key best > key k then k else best) j)

namespace State

/-! ## Processes that become ready -/

def processready (s : State ι) (tick : ℤ) : Option ι :=
  s.q.find? fun j => (s.heap j).arrivalTime ≤ tick

def moveReady (s : State ι) : Option (State ι) :=
  (s.processready s.clock).map fun t => { s with readyQ := s.readyQ ++ [t], q := s.q.erase t }

/-- The loop at the start of an iteration. -/
def readyLoop (s : State ι) : Option (State ι) :=
  whileLoop (fun s => (s.processready s.clock).isSome) moveReady (·.q.length) s

/-! ## A unit of service -/

/-- `continue`. -/
def pass (s : State ι) : State ι := { s with slots := s.slots ++ [none] }

/-- `P.servicing()` and `drawbar`. -/
def serve (s : State ι) (p : ι) : State ι :=
  { s with
    heap := Function.update s.heap p (s.heap p).servicing
    grid := s.grid ++ [(s.heap p).processNum]
    slots := s.slots ++ [some p] }

/-- `P.report` and its entry in the finish queue. -/
def finish (s : State ι) (p : ι) : State ι :=
  { s with
    heap := Function.update s.heap p ((s.heap p).report (wrap (s.clock + 1)))
    finishQ := s.finishQ ++ [p] }

/-! ## The branches -/

def serveToEnd (s : State ι) : Option (State ι) :=
  s.p.map fun p =>
    let s := s.serve p
    if (s.heap p).timeLeft = 0 then { s.finish p with idle := true } else s

/-- The branches `FCFS` and `SPN`, which take the process they serve out of the ready queue. -/
def runToEnd (choose : State ι → Option ι) (s : State ι) : Option (State ι) :=
  if s.idle then
    if s.readyQ.length = 0 then some s.pass
    else (choose s).bind fun p =>
      { s with idle := false, p := some p, readyQ := s.readyQ.erase p }.serveToEnd
  else s.serveToEnd

def serveQuantum (quantum : ℤ) (s : State ι) : Option (State ι) :=
  s.p.map fun p =>
    let s := { s.serve p with interval := s.interval + 1 }
    if (s.heap p).timeLeft = 0 then
      { s.finish p with
        readyQ := s.readyQ.erase p
        next := s.next - 1
        idle := true
        interval := 0 }
    else if s.interval = quantum then { s with interrupt := true } else s

def clearInterrupt (s : State ι) : State ι :=
  if s.interrupt then { s with interrupt := false, interval := 0 } else s

def advance (s : State ι) : State ι :=
  { s with next := if s.next < s.readyQ.length - 1 then s.next + 1 else 0 }

/-- The branches `RR1`, `RR4` and `SRT`, which leave the process they serve in the ready queue. -/
def runQuantum (quantum : ℤ) (choose : State ι → Option ι) (s : State ι) : Option (State ι) :=
  if s.idle || s.interrupt then
    let s := s.clearInterrupt
    if s.readyQ.length = 0 then some s.pass
    else (choose s.advance).bind fun p =>
      { s.advance with p := some p, idle := false }.serveQuantum quantum
  else s.serveQuantum quantum

def atNext (s : State ι) : Option ι := elementAt s.readyQ s.next

def fcfs : State ι → Option (State ι) := runToEnd fun s => s.readyQ.head?

def spn : State ι → Option (State ι) :=
  runToEnd fun s => smallest (fun j => (s.heap j).serviceTime) s.readyQ

def rr1 : State ι → Option (State ι) := runQuantum 1 atNext

def rr4 : State ι → Option (State ι) := runQuantum 4 atNext

def srt : State ι → Option (State ι) :=
  runQuantum 1 fun s => smallest (fun j => (s.heap j).timeLeft) s.readyQ

end State

/-! ## The run -/

inductive Algorithm where
  | fcfs
  | rr1
  | rr4
  | spn
  | srt
deriving DecidableEq

def Algorithm.branch : Algorithm → State ι → Option (State ι)
  | .fcfs => State.fcfs
  | .rr1 => State.rr1
  | .rr4 => State.rr4
  | .spn => State.spn
  | .srt => State.srt

/-- One round of the loop of `run`. -/
def iteration (a : Algorithm) (s : State ι) : Option (State ι) :=
  { s with clock := wrap (s.clock + 1) }.readyLoop.bind a.branch

/-- The constructor of `Scheduler` and the locals of `run`. -/
def start (heap : ι → Process) (q : List ι) (c : ℤ) : State ι where
  heap := heap
  q := q
  readyQ := []
  finishQ := []
  clock := wrap (c - 1)
  p := none
  idle := true
  interval := 0
  next := 0
  interrupt := false
  grid := []
  slots := []

def unfinishedQ (all : ℕ) (s : State ι) : Bool := s.finishQ.length < all

/-- `run` returns in `s'`. The body comes before the test; `k` is the number of rounds after the
first. -/
def Returns (a : Algorithm) (s s' : State ι) : Prop :=
  ∃ k s₁, iteration a s = some s₁ ∧ rounds (unfinishedQ s.q.length) (iteration a) k s₁ = some s'

end Run

end El32.Scheduling

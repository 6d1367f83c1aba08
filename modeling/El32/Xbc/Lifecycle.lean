import El32.Foundations.Transition

/-! Starts and stops of the daemon, and the names they leave in the system.

`initButtonSHM` creates the shared memory and the semaphore exclusively, `initQueue` removes an old
queue first; `closeAndExit` unlinks all three, and nothing else does. No call fails but for a name
that exists. -/
namespace El32.Lifecycle
open Transition
set_option autoImplicit false

/-- The next call of the daemon: in `initButtonSHM` and `initQueue`, in the loop of `main`, or in
`closeAndExit`. -/
inductive Pc where
  | shmOpen
  | mmap
  | semOpen
  | mqUnlinkOld
  | mqOpen
  | running
  | munmap
  | close
  | shmUnlink
  | semClose
  | semUnlink
  | mqClose
  | mqUnlink
  | exit
deriving DecidableEq

structure Daemon where
  pc : Pc
  mapped : Bool
  sem : Bool
  queue : Bool
deriving DecidableEq

def Daemon.start : Daemon := ⟨.shmOpen, false, false, false⟩

/-- The names that exist, and the daemon. -/
structure State where
  shm : Bool
  sem : Bool
  mq : Bool
  daemon : Option Daemon
deriving DecidableEq

def initial : State := ⟨false, false, false, none⟩

/-- `kill` is the SIGTERM of the init script, or a crash. -/
inductive Label where
  | start
  | act
  | interrupt
  | kill
deriving DecidableEq

def act (s : State) (d : Daemon) : State :=
  match d.pc with
  | .shmOpen =>
    if s.shm then { s with daemon := some { d with pc := .mqUnlinkOld } }
    else { s with shm := true, daemon := some { d with pc := .mmap } }
  | .mmap => { s with daemon := some { d with mapped := true, pc := .semOpen } }
  | .semOpen =>
    if s.sem then { s with daemon := some { d with pc := .mqUnlinkOld } }
    else { s with sem := true, daemon := some { d with sem := true, pc := .mqUnlinkOld } }
  | .mqUnlinkOld => { s with mq := false, daemon := some { d with pc := .mqOpen } }
  | .mqOpen => { s with mq := true, daemon := some { d with queue := true, pc := .running } }
  | .running => s
  | .munmap => { s with daemon := some { d with mapped := false, pc := .close } }
  | .close => { s with daemon := some { d with pc := .shmUnlink } }
  | .shmUnlink => { s with shm := false, daemon := some { d with pc := .semClose } }
  | .semClose => { s with daemon := some { d with sem := false, pc := .semUnlink } }
  | .semUnlink => { s with sem := false, daemon := some { d with pc := .mqClose } }
  | .mqClose => { s with daemon := some { d with queue := false, pc := .mqUnlink } }
  | .mqUnlink => { s with mq := false, daemon := some { d with pc := .exit } }
  | .exit => { s with daemon := none }

/-- The daemon is in `closeAndExit`, where a second interrupt is blocked. -/
def Pc.closing : Pc → Bool
  | .shmOpen | .mmap | .semOpen | .mqUnlinkOld | .mqOpen | .running => false
  | _ => true

def step (s : State) : Label → Option State
  | .start =>
    match s.daemon with
    | none => some { s with daemon := some .start }
    | some _ => none
  | .act => s.daemon.map (act s)
  | .interrupt =>
    match s.daemon with
    | some d => if d.pc.closing then none
      else some { s with daemon := some { d with pc := .munmap } }
    | none => none
  | .kill => s.daemon.map fun _ => { s with daemon := none }

/-- A daemon that is through its initialisation has everything open. -/
def Started (s : State) : Prop :=
  ∀ d ∈ s.daemon, d.pc = .running → d.mapped = true ∧ d.sem = true ∧ d.queue = true

/-- The condition on a step: a daemon is killed only while neither the shared memory nor the semaphore
has its name. -/
def Guard (s : State) : Label → Prop
  | .kill => s.shm = false ∧ s.sem = false
  | _ => True

instance decidableGuard (s : State) : (a : Label) → Decidable (Guard s a)
  | .kill => inferInstanceAs (Decidable (s.shm = false ∧ s.sem = false))
  | .start | .act | .interrupt => inferInstanceAs (Decidable True)

/-- A daemon that is through its initialisation has everything open, and where none runs, one that is
started and left alone is there in five steps. -/
structure StartsUp (s : State) : Prop where
  started : Started s
  restarts : s.daemon = none → ∃ t, after step s (.start :: List.replicate 5 .act) = some t ∧
    t.daemon = some ⟨.running, true, true, true⟩

theorem start_opens (mq : Bool) :
    after step ⟨false, false, mq, none⟩ (.start :: List.replicate 5 .act) =
      some ⟨true, true, true, some ⟨.running, true, true, true⟩⟩ := rfl

/-- A single start comes to the loop with everything open exactly when neither name exists. -/
theorem start_iff (shm sem mq : Bool) :
    ∃ n s d, after step ⟨shm, sem, mq, none⟩ (.start :: List.replicate n .act) = some s ∧
      s.daemon = some d ∧ d.pc = .running ∧ (Started s ↔ shm = false ∧ sem = false) := by
  cases shm with
  | false =>
    cases sem with
    | false =>
      refine ⟨5, ⟨true, true, true, _⟩, ⟨.running, true, true, true⟩, start_opens mq, rfl, rfl, ?_⟩
      refine iff_of_true (fun d hd _ => ?_) ⟨rfl, rfl⟩
      obtain rfl := Option.some.inj hd
      exact ⟨rfl, rfl, rfl⟩
    | true =>
      refine ⟨5, ⟨true, true, true, _⟩, ⟨.running, true, false, true⟩, rfl, rfl, rfl, ?_⟩
      refine iff_of_false (fun h => ?_) (by simp)
      exact Bool.false_ne_true (h _ rfl rfl).2.1
  | true =>
    refine ⟨3, ⟨true, sem, true, _⟩, ⟨.running, false, false, true⟩, rfl, rfl, rfl, ?_⟩
    refine iff_of_false (fun h => ?_) (by simp)
    exact Bool.false_ne_true (h _ rfl rfl).1

/-! ## What a step keeps -/

/-- What the names and the daemon have in common, by its place. -/
def Consistent (s : State) : Prop :=
  match s.daemon with
  | none => s.shm = false ∧ s.sem = false
  | some d =>
    match d.pc with
    | .shmOpen => s.shm = false ∧ s.sem = false
    | .mmap => s.sem = false
    | .semOpen => s.sem = false ∧ d.mapped = true
    | .mqUnlinkOld | .mqOpen => d.mapped = true ∧ d.sem = true
    | .running => d.mapped = true ∧ d.sem = true ∧ d.queue = true
    | .munmap | .close | .shmUnlink => True
    | .semClose | .semUnlink => s.shm = false
    | .mqClose | .mqUnlink | .exit => s.shm = false ∧ s.sem = false

theorem consistent_act {s : State} {d : Daemon} (hd : s.daemon = some d) (h : Consistent s) :
    Consistent (act s d) := by
  obtain ⟨shm, sem, mq, daemon⟩ := s
  obtain rfl : daemon = some d := hd
  obtain ⟨pc, mapped, semd, queue⟩ := d
  cases pc with
  | shmOpen =>
    obtain ⟨rfl, rfl⟩ : shm = false ∧ sem = false := h
    rfl
  | mmap =>
    obtain rfl : sem = false := h
    exact ⟨rfl, rfl⟩
  | semOpen =>
    obtain ⟨rfl, rfl⟩ : sem = false ∧ mapped = true := h
    exact ⟨rfl, rfl⟩
  | mqUnlinkOld => exact h
  | mqOpen =>
    obtain ⟨hmapped, hsem⟩ : mapped = true ∧ semd = true := h
    exact ⟨hmapped, hsem, rfl⟩
  | running => exact h
  | munmap | close => trivial
  | shmUnlink => rfl
  | semClose => exact h
  | semUnlink =>
    obtain rfl : shm = false := h
    exact ⟨rfl, rfl⟩
  | mqClose | mqUnlink | exit => exact h

theorem consistent_step (s : State) (a : Label) (s' : State) (h : Consistent s) (hg : Guard s a)
    (hstep : step s a = some s') : Consistent s' := by
  cases hd : s.daemon with
  | none =>
    cases a with
    | start =>
      obtain rfl := by simpa [step, hd] using hstep
      unfold Consistent at h
      rw [hd] at h
      exact h
    | act | interrupt | kill => simp [step, hd] at hstep
  | some d =>
    cases a with
    | start => simp [step, hd] at hstep
    | act =>
      obtain rfl := by simpa [step, hd] using hstep
      exact consistent_act hd h
    | interrupt =>
      obtain ⟨-, rfl⟩ := by simpa [step, hd] using hstep
      trivial
    | kill =>
      obtain rfl := by simpa [step, hd] using hstep
      exact hg

theorem consistent_initial : Consistent initial := ⟨rfl, rfl⟩

theorem Consistent.started {s : State} (h : Consistent s) : Started s := by
  intro d hd hpc
  unfold Consistent at h
  rw [show s.daemon = some d from hd] at h
  simpa only [hpc] using h

theorem Consistent.startsUp {s : State} (h : Consistent s) : StartsUp s where
  started := h.started
  restarts hnone := by
    obtain ⟨shm, sem, mq, daemon⟩ := s
    obtain rfl : daemon = none := hnone
    obtain ⟨rfl, rfl⟩ : shm = false ∧ sem = false := h
    exact ⟨_, start_opens mq, rfl⟩

/-- **Where no kill leaves a name of the memory or the semaphore, every start of the daemon ends with
everything open.** -/
theorem starts_again {ls : List Label} (h : AllSteps step Guard initial ls) :
    AllStates step StartsUp initial ls :=
  allStates_of_allSteps consistent_step (fun _ => Consistent.startsUp) consistent_initial h

/-- A start, an interrupt that runs to its end, and a kill in the middle of another one. -/
def stopped : List Label :=
  [[.start], .replicate 5 .act, [.interrupt], .replicate 8 .act, [.start], .replicate 5 .act,
    [.interrupt], .replicate 5 .act, [.kill, .start], .replicate 5 .act].flatten

theorem stopped_guarded : AllSteps step Guard initial stopped := by decide +kernel

theorem starts_again_stopped : AllStates step StartsUp initial stopped :=
  starts_again stopped_guarded

/-- The init script stops the daemon and starts it again. -/
def restarted : List Label :=
  [[.start], .replicate 5 .act, [.kill, .start], .replicate 3 .act].flatten

theorem after_restarted : after step initial restarted =
    some ⟨true, true, true, some ⟨.running, false, false, true⟩⟩ := by decide +kernel

theorem restarted_not_started : ¬ AllStates step StartsUp initial restarted := by
  intro h
  obtain ⟨hmapped, -, -⟩ := (h.after after_restarted).started _ rfl rfl
  exact Bool.false_ne_true hmapped

end El32.Lifecycle

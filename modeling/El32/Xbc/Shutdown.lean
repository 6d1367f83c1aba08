import El32.Foundations.Transition
import El32.Xbc.Listener

/-! The control flow of the daemon's four threads while it shuts down.

A receive blocks while the open queue is empty, a join until the thread has returned, and a lookup
while the polling thread holds the mutex; every other call returns. A message is given by the call
that the listener makes of it, if any; a receive that fails leaves the last one. -/
namespace El32.Shutdown
open Controller Listener Transition
set_option autoImplicit false

/-! ## The threads -/

/-- `main` in its loop, or in `closeAndExit`. -/
inductive MainPc where
  | loop
  | clear
  | joinCmd
  | joinBtn
  | closeButtonSHM
  | stopPolling
  | joinPolling
  | closeHandles
  | closeQueue
  | exited
deriving DecidableEq

inductive ListenerPc where
  | check
  | receive
  | dispatch
  | lookup (call : ControllerCall)
  | transfer
  | returned
deriving DecidableEq

inductive ReaderPc where
  | check
  | lookup (i : Fin maxDevs)
  | transfer (i : Fin maxDevs)
  | write (i : Fin maxDevs)
  | returned
deriving DecidableEq

/-- In `claim` the polling thread holds the mutex. -/
inductive PollerPc where
  | check
  | scan
  | clean
  | update
  | claim
  | sleep
  | returned
deriving DecidableEq

abbrev Message := Option ControllerCall

/-- `running` is the flag of `main.c`, `polling` the one of `devices.c`; a queue that is not open is
`none`. -/
structure State where
  running : Bool
  polling : Bool
  queue : Option (List Message)
  last : Message
  main : MainPc
  listener : ListenerPc
  reader : ReaderPc
  poller : PollerPc
deriving DecidableEq

def initial (queue : Option (List Message)) (last : Message) : State :=
  ⟨true, true, queue, last, .loop, .check, .check, .check⟩

inductive Label where
  | send (m : Message)
  | interrupt
  | main
  | listener
  | reader
  | poller (adds : Bool)
deriving DecidableEq

def stepMain (s : State) : Option State :=
  match s.main with
  | .loop => none
  | .clear => some { s with running := false, main := .joinCmd }
  | .joinCmd => if s.listener = .returned then some { s with main := .joinBtn } else none
  | .joinBtn => if s.reader = .returned then some { s with main := .closeButtonSHM } else none
  | .closeButtonSHM => some { s with main := .stopPolling }
  | .stopPolling => some { s with polling := false, main := .joinPolling }
  | .joinPolling => if s.poller = .returned then some { s with main := .closeHandles } else none
  | .closeHandles => some { s with main := .closeQueue }
  | .closeQueue => some { s with queue := none, main := .exited }
  | .exited => none

def stepListener (s : State) : Option State :=
  match s.listener with
  | .check => some { s with listener := if s.running then .receive else .returned }
  | .receive =>
    match s.queue with
    | none => some { s with listener := .dispatch }
    | some [] => none
    | some (m :: q) => some { s with queue := some q, last := m, listener := .dispatch }
  | .dispatch =>
    match s.last with
    | some call => some { s with listener := .lookup call }
    | none => some { s with listener := .check }
  | .lookup call =>
    -- an id out of range takes no lock
    if s.poller ≠ .claim ∨ maxDevs ≤ call.id.toNat then some { s with listener := .transfer }
    else none
  | .transfer => some { s with listener := .check }
  | .returned => none

def nextSlot (i : Fin maxDevs) : ReaderPc :=
  if h : i.val + 1 < maxDevs then .lookup ⟨i.val + 1, h⟩ else .check

def stepReader (s : State) : Option State :=
  match s.reader with
  | .check => some { s with reader := if s.running then .lookup ⟨0, maxDevs_pos⟩ else .returned }
  | .lookup i => if s.poller ≠ .claim then some { s with reader := .transfer i } else none
  | .transfer i => some { s with reader := .write i }
  | .write i => some { s with reader := nextSlot i }
  | .returned => none

/-- `adds` says whether the update puts another device into the table. -/
def stepPoller (s : State) (adds : Bool) : Option State :=
  match s.poller with
  | .check => some { s with poller := if s.polling then .scan else .returned }
  | .scan => some { s with poller := .clean }
  | .clean => some { s with poller := .update }
  | .update => some { s with poller := if adds then .claim else .sleep }
  | .claim => some { s with poller := .update }
  | .sleep => some { s with poller := .check }
  | .returned => none

def step (s : State) (a : Label) : Option State :=
  if s.main = .exited then none
  else match a with
    | .send m => s.queue.map fun q => { s with queue := some (q ++ [m]) }
    | .interrupt => if s.main = .loop then some { s with main := .clear } else none
    | .main => stepMain s
    | .listener => stepListener s
    | .reader => stepReader s
    | .poller adds => stepPoller s adds

/-! ## Shutting down -/

/-- The steps that are part of shutting down: those of `closeAndExit`, those of a thread whose flag is
cleared, and the one that gives the mutex back. -/
def Shutting (s : State) : Label → Prop
  | .main => True
  | .listener | .reader => s.running = false
  | .poller _ => s.polling = false ∨ s.poller = .claim
  | .send _ | .interrupt => False

def Label.isSend : Label → Bool
  | .send _ => true
  | _ => false

/-- A run without further commands leads from `s` to `t`. -/
def Leads (s t : State) : Prop :=
  ∃ ls, (∀ a ∈ ls, a.isSend = false) ∧ after step s ls = some t

/-- Wherever the threads get without further commands, a step of shutting down is possible. -/
def NeverStuck (s : State) : Prop :=
  ∀ t, Leads s t → t.main ≠ .exited → ∃ a, Shutting t a ∧ (step t a).isSome = true

/-- The listener does not wait for a command any more, nor comes to do so. -/
def Released (s : State) : Prop :=
  s.queue = none ∨ s.running = false ∧ (s.listener = .receive → s.queue ≠ some [])

/-! ## What every step keeps -/

def MainPc.rank : MainPc → ℕ
  | .loop => 0
  | .clear => 1
  | .joinCmd => 2
  | .joinBtn => 3
  | .closeButtonSHM => 4
  | .stopPolling => 5
  | .joinPolling => 6
  | .closeHandles => 7
  | .closeQueue => 8
  | .exited => 9

structure Inv (s : State) : Prop where
  running : s.running = decide (s.main.rank < 2)
  polling : s.polling = decide (s.main.rank < 6)
  returned : s.listener = .returned → 2 ≤ s.main.rank
  joined : 3 ≤ s.main.rank → s.listener = .returned

theorem inv_main {s s' : State} (h : Inv s) (hstep : stepMain s = some s') : Inv s' := by
  obtain ⟨running, polling, queue, last, main, listener, reader, poller⟩ := s
  have hrunning : running = decide (main.rank < 2) := h.running
  have hpolling : polling = decide (main.rank < 6) := h.polling
  have hjoined : 3 ≤ main.rank → listener = .returned := h.joined
  cases main with
  | loop | exited => simp [stepMain] at hstep
  | clear =>
    obtain rfl := by simpa [stepMain] using hstep
    exact ⟨rfl, hpolling, fun _ => le_rfl, fun hr => absurd (show 3 ≤ 2 from hr) (by decide)⟩
  | joinCmd =>
    obtain ⟨hret, rfl⟩ := by simpa [stepMain] using hstep
    exact ⟨hrunning, hpolling, fun _ => (by decide : 2 ≤ 3), fun _ => hret⟩
  | joinBtn =>
    obtain ⟨-, rfl⟩ := by simpa [stepMain] using hstep
    exact ⟨hrunning, hpolling, fun _ => (by decide : 2 ≤ 4), fun _ => hjoined (by decide)⟩
  | closeButtonSHM =>
    obtain rfl := by simpa [stepMain] using hstep
    exact ⟨hrunning, hpolling, fun _ => (by decide : 2 ≤ 5), fun _ => hjoined (by decide)⟩
  | stopPolling =>
    obtain rfl := by simpa [stepMain] using hstep
    exact ⟨hrunning, rfl, fun _ => (by decide : 2 ≤ 6), fun _ => hjoined (by decide)⟩
  | joinPolling =>
    obtain ⟨-, rfl⟩ := by simpa [stepMain] using hstep
    exact ⟨hrunning, hpolling, fun _ => (by decide : 2 ≤ 7), fun _ => hjoined (by decide)⟩
  | closeHandles =>
    obtain rfl := by simpa [stepMain] using hstep
    exact ⟨hrunning, hpolling, fun _ => (by decide : 2 ≤ 8), fun _ => hjoined (by decide)⟩
  | closeQueue =>
    obtain rfl := by simpa [stepMain] using hstep
    exact ⟨hrunning, hpolling, fun _ => (by decide : 2 ≤ 9), fun _ => hjoined (by decide)⟩

theorem stepMain_frame {s s' : State} (h : stepMain s = some s') :
    s'.main ≠ .loop ∧ s'.listener = s.listener ∧ (s'.running = false ∨ s'.running = s.running) ∧
      (s'.queue = none ∨ s'.queue = s.queue) := by
  obtain ⟨running, polling, queue, last, main, listener, reader, poller⟩ := s
  cases main with
  | loop | exited => simp [stepMain] at h
  | joinCmd | joinBtn | joinPolling =>
    obtain ⟨-, rfl⟩ := by simpa [stepMain] using h
    simp
  | clear | closeButtonSHM | stopPolling | closeHandles | closeQueue =>
    obtain rfl := by simpa [stepMain] using h
    simp

theorem stepListener_frame {s s' : State} (h : stepListener s = some s') :
    s' = { s with queue := s'.queue, last := s'.last, listener := s'.listener } ∧
      s.listener ≠ .returned ∧ (s'.listener = .returned → s.running = false) ∧
      (s'.listener = .receive → s.running = true) ∧ (s.queue = none → s'.queue = none) := by
  obtain ⟨running, polling, queue, last, main, listener, reader, poller⟩ := s
  cases listener with
  | check =>
    obtain rfl := by simpa [stepListener] using h
    cases running <;> simp
  | receive =>
    match queue with
    | none =>
      obtain rfl := by simpa [stepListener] using h
      simp
    | some [] => simp [stepListener] at h
    | some (m :: q) =>
      obtain rfl := by simpa [stepListener] using h
      simp
  | dispatch =>
    match last with
    | some call =>
      obtain rfl := by simpa [stepListener] using h
      simp
    | none =>
      obtain rfl := by simpa [stepListener] using h
      simp
  | lookup call =>
    obtain ⟨-, rfl⟩ : _ ∧ _ = s' := by simpa [stepListener] using h
    simp
  | transfer =>
    obtain rfl := by simpa [stepListener] using h
    simp
  | returned => simp [stepListener] at h

theorem stepReader_frame {s s' : State} (h : stepReader s = some s') :
    s' = { s with reader := s'.reader } := by
  obtain ⟨running, polling, queue, last, main, listener, reader, poller⟩ := s
  cases reader with
  | check | transfer i | write i =>
    obtain rfl := by simpa [stepReader] using h
    rfl
  | lookup i =>
    obtain ⟨-, rfl⟩ : _ ∧ _ = s' := by simpa [stepReader] using h
    rfl
  | returned => simp [stepReader] at h

theorem stepPoller_frame {s s' : State} {adds : Bool} (h : stepPoller s adds = some s') :
    s' = { s with poller := s'.poller } := by
  obtain ⟨running, polling, queue, last, main, listener, reader, poller⟩ := s
  cases poller with
  | check | scan | clean | update | claim | sleep =>
    obtain rfl := by simpa [stepPoller] using h
    rfl
  | returned => simp [stepPoller] at h

theorem step_of_not_exited {s : State} (h : s.main ≠ .exited) (a : Label) :
    step s a = match a with
      | .send m => s.queue.map fun q => { s with queue := some (q ++ [m]) }
      | .interrupt => if s.main = .loop then some { s with main := .clear } else none
      | .main => stepMain s
      | .listener => stepListener s
      | .reader => stepReader s
      | .poller adds => stepPoller s adds := by
  unfold step
  rw [if_neg h]

theorem not_exited_of_step {s s' : State} {a : Label} (h : step s a = some s') :
    s.main ≠ .exited := by
  intro he
  simp [step, he] at h

theorem inv_step (s : State) (a : Label) (s' : State) (h : Inv s) (hstep : step s a = some s') :
    Inv s' := by
  rw [step_of_not_exited (not_exited_of_step hstep)] at hstep
  cases a with
  | send m =>
    obtain ⟨q, -, rfl⟩ := Option.map_eq_some_iff.mp hstep
    exact ⟨h.running, h.polling, h.returned, h.joined⟩
  | interrupt =>
    obtain ⟨hmain, rfl⟩ := by simpa using hstep
    have hrunning := h.running
    have hpolling := h.polling
    have hreturned := h.returned
    rw [hmain] at hrunning hpolling hreturned
    exact ⟨hrunning, hpolling, fun hr => absurd (hreturned hr) (by decide),
      fun hr => absurd (show 3 ≤ 1 from hr) (by decide)⟩
  | main => exact inv_main h hstep
  | listener =>
    obtain ⟨hs', hnot, hreturned, -, -⟩ := stepListener_frame hstep
    rw [hs']
    refine ⟨h.running, h.polling, fun hr => ?_, fun hr => absurd (h.joined hr) hnot⟩
    have hrunning := hreturned hr
    rw [h.running, decide_eq_false_iff_not] at hrunning
    exact Nat.not_lt.mp hrunning
  | reader =>
    rw [stepReader_frame hstep]
    exact ⟨h.running, h.polling, h.returned, h.joined⟩
  | poller adds =>
    rw [stepPoller_frame hstep]
    exact ⟨h.running, h.polling, h.returned, h.joined⟩

theorem inv_initial (queue : Option (List Message)) (last : Message) :
    Inv (initial queue last) :=
  ⟨rfl, rfl, nofun, fun h => absurd (show 3 ≤ 0 from h) (by decide)⟩

theorem inv_reachable {queue : Option (List Message)} {last : Message} {ls : List Label} {s : State}
    (h : after step (initial queue last) ls = some s) : Inv s :=
  invariant_after inv_step (inv_initial queue last) h

/-! ## A released listener lets the shutdown go on -/

theorem released_step {s s' : State} {a : Label} (hstarted : s.main ≠ .loop)
    (h : Released s) (hsend : a.isSend = false) (hstep : step s a = some s') :
    s'.main ≠ .loop ∧ Released s' := by
  have hexit := not_exited_of_step hstep
  rw [step_of_not_exited hexit] at hstep
  cases a with
  | send m => simp [Label.isSend] at hsend
  | interrupt =>
    obtain ⟨hmain, -⟩ := by simpa using hstep
    exact absurd hmain hstarted
  | main =>
    obtain ⟨hmain, hlistener, hrunning, hqueue⟩ := stepMain_frame hstep
    refine ⟨hmain, ?_⟩
    rcases hqueue with hqueue | hqueue
    · exact .inl hqueue
    · unfold Released at *
      rw [hqueue, hlistener]
      refine h.imp_right fun hr => ⟨?_, hr.2⟩
      rcases hrunning with hrunning | hrunning
      · exact hrunning
      · rw [hrunning]
        exact hr.1
  | listener =>
    obtain ⟨hs', -, -, hreceive, hqueue⟩ := stepListener_frame hstep
    have hmain : s'.main = s.main := by rw [hs']
    have hrunning : s'.running = s.running := by rw [hs']
    refine ⟨by rw [hmain]; exact hstarted, ?_⟩
    rcases h with h | ⟨h, -⟩
    · exact .inl (hqueue h)
    · refine .inr ⟨hrunning.trans h, fun hr => ?_⟩
      exact absurd (h.symm.trans (hreceive hr)) Bool.false_ne_true
  | reader =>
    rw [stepReader_frame hstep]
    exact ⟨hstarted, h⟩
  | poller adds =>
    rw [stepPoller_frame hstep]
    exact ⟨hstarted, h⟩

theorem listener_goes_on {s : State} (hret : s.listener ≠ .returned)
    (hreceive : s.listener = .receive → s.queue ≠ some []) :
    (stepListener s).isSome = true ∨ s.poller = .claim := by
  unfold stepListener
  cases hl : s.listener with
  | check | transfer => exact .inl rfl
  | receive =>
    match hq : s.queue with
    | none => exact .inl rfl
    | some [] => exact absurd hq (hreceive hl)
    | some (m :: q) => exact .inl rfl
  | dispatch =>
    cases s.last with
    | none => exact .inl rfl
    | some call => exact .inl rfl
  | lookup call =>
    by_cases hp : s.poller = .claim
    · exact .inr hp
    · simp [hp]
  | returned => exact absurd hl hret

theorem reader_goes_on {s : State} (hret : s.reader ≠ .returned) :
    (stepReader s).isSome = true ∨ s.poller = .claim := by
  unfold stepReader
  cases hr : s.reader with
  | check | transfer i | write i => exact .inl rfl
  | lookup i =>
    by_cases hp : s.poller = .claim
    · exact .inr hp
    · simp [hp]
  | returned => exact absurd hr hret

theorem poller_goes_on {s : State} (hret : s.poller ≠ .returned) (adds : Bool) :
    (stepPoller s adds).isSome = true := by
  unfold stepPoller
  cases hp : s.poller with
  | check | scan | clean | update | claim | sleep => rfl
  | returned => exact absurd hp hret

theorem exists_shutting {s : State} (hinv : Inv s) (hstarted : s.main ≠ .loop)
    (hexit : s.main ≠ .exited) (h : Released s) :
    ∃ a, Shutting s a ∧ (step s a).isSome = true := by
  have hstep := step_of_not_exited hexit
  have hmain : (stepMain s).isSome = true → ∃ a, Shutting s a ∧ (step s a).isSome = true :=
    fun hm => ⟨.main, trivial, by rw [hstep]; exact hm⟩
  have hclaim : s.poller = .claim → ∃ a, Shutting s a ∧ (step s a).isSome = true := by
    intro hp
    refine ⟨.poller false, .inr hp, ?_⟩
    rw [hstep]
    exact poller_goes_on (by simp [hp]) false
  cases hm : s.main with
  | loop => exact absurd hm hstarted
  | exited => exact absurd hm hexit
  | clear | closeButtonSHM | stopPolling | closeHandles | closeQueue =>
    exact hmain (by simp [stepMain, hm])
  | joinCmd =>
    by_cases hret : s.listener = .returned
    · exact hmain (by simp [stepMain, hm, hret])
    · have hrunning : s.running = false := by
        rw [hinv.running, hm]
        rfl
      have hreceive : s.listener = .receive → s.queue ≠ some [] := by
        intro hr hq
        rcases h with h | ⟨-, h⟩
        · exact absurd (h.symm.trans hq) (by simp)
        · exact h hr hq
      rcases listener_goes_on hret hreceive with hl | hp
      · exact ⟨.listener, hrunning, by rw [hstep]; exact hl⟩
      · exact hclaim hp
  | joinBtn =>
    by_cases hret : s.reader = .returned
    · exact hmain (by simp [stepMain, hm, hret])
    · have hrunning : s.running = false := by
        rw [hinv.running, hm]
        rfl
      rcases reader_goes_on hret with hr | hp
      · exact ⟨.reader, hrunning, by rw [hstep]; exact hr⟩
      · exact hclaim hp
  | joinPolling =>
    by_cases hret : s.poller = .returned
    · exact hmain (by simp [stepMain, hm, hret])
    · have hpolling : s.polling = false := by
        rw [hinv.polling, hm]
        rfl
      exact ⟨.poller false, .inl hpolling, by rw [hstep]; exact poller_goes_on hret false⟩

theorem released_leads {ls : List Label} {s t : State} (hinv : Inv s)
    (hstarted : s.main ≠ .loop) (h : Released s) (hsend : ∀ a ∈ ls, a.isSend = false)
    (hls : after step s ls = some t) :
    Inv t ∧ t.main ≠ .loop ∧ Released t := by
  induction ls generalizing s with
  | nil =>
    obtain rfl : s = t := by simpa [after] using hls
    exact ⟨hinv, hstarted, h⟩
  | cons a ls ih =>
    cases ha : step s a with
    | none => simp [after, ha] at hls
    | some s₁ =>
      rw [after_cons ha] at hls
      obtain ⟨hstarted', h'⟩ := released_step hstarted h (hsend a List.mem_cons_self) ha
      exact ih (inv_step s a s₁ hinv ha) hstarted' h'
        (fun b hb => hsend b (List.mem_cons_of_mem a hb)) hls

theorem neverStuck_of_released {s : State} (hinv : Inv s) (hstarted : s.main ≠ .loop)
    (h : Released s) : NeverStuck s := by
  intro t hlead hexit
  obtain ⟨ls, hsend, hls⟩ := hlead
  obtain ⟨hinv', hstarted', h'⟩ := released_leads hinv hstarted h hsend hls
  exact exists_shutting hinv' hstarted' hexit h'

/-! ## A listener that waits holds everything up -/

theorem Leads.refl (s : State) : Leads s s := ⟨[], by simp, rfl⟩

theorem Leads.head {s r t : State} (a : Label) (hsend : a.isSend = false)
    (hstep : step s a = some r) (h : Leads r t) : Leads s t := by
  obtain ⟨ls, hls, hafter⟩ := h
  exact ⟨a :: ls, List.forall_mem_cons.mpr ⟨hsend, hls⟩, by rw [after_cons hstep]; exact hafter⟩

theorem Leads.trans {s t u : State} (h : Leads s t) (h' : Leads t u) : Leads s u := by
  obtain ⟨ls, hls, hafter⟩ := h
  obtain ⟨ks, hks, hafter'⟩ := h'
  exact ⟨ls ++ ks, List.forall_mem_append.mpr ⟨hls, hks⟩, by rw [after_append hafter, hafter']⟩

theorem leads_unlock {s : State} (hexit : s.main ≠ .exited) :
    ∃ p, p ≠ .claim ∧ Leads s { s with poller := p } := by
  by_cases hp : s.poller = .claim
  · refine ⟨.update, by simp, .head (.poller false) rfl ?_ (.refl _)⟩
    simp [step, hexit, stepPoller, hp]
  · exact ⟨s.poller, hp, .refl s⟩

theorem leads_receive {s : State} (hexit : s.main ≠ .exited) (hrunning : s.running = true)
    (hp : s.poller ≠ .claim) (hret : s.listener ≠ .returned) :
    Leads s { s with listener := .receive } := by
  have hcheck : Leads { s with listener := .check } { s with listener := .receive } := by
    refine .head .listener rfl ?_ (.refl _)
    simp [step, hexit, stepListener, hrunning]
  have htransfer : Leads { s with listener := .transfer } { s with listener := .receive } := by
    refine .head .listener rfl ?_ hcheck
    simp [step, hexit, stepListener]
  have hlookup : ∀ call, Leads { s with listener := .lookup call }
      { s with listener := .receive } := by
    intro call
    refine .head .listener rfl ?_ htransfer
    simp [step, hexit, stepListener, hp]
  obtain ⟨running, polling, queue, last, main, listener, reader, poller⟩ := s
  cases listener with
  | check => exact hcheck
  | receive => exact .refl _
  | dispatch =>
    cases last with
    | none =>
      refine .head .listener rfl ?_ hcheck
      simpa [step, stepListener] using hexit
    | some call =>
      refine .head .listener rfl ?_ (hlookup call)
      simpa [step, stepListener] using hexit
  | lookup call => exact hlookup call
  | transfer => exact htransfer
  | returned => exact absurd rfl hret

/-- While the flag is set the listener takes the whole queue and comes to wait for more. -/
theorem leads_drained {q : List Message} {s : State} (hexit : s.main ≠ .exited)
    (hrunning : s.running = true) (hp : s.poller ≠ .claim) (hret : s.listener ≠ .returned)
    (hq : s.queue = some q) :
    ∃ last, Leads s { s with queue := some [], last := last, listener := .receive } := by
  induction q generalizing s with
  | nil =>
    refine ⟨s.last, ?_⟩
    have h := leads_receive hexit hrunning hp hret
    rwa [← hq]
  | cons m q ih =>
    obtain ⟨last, h⟩ := ih (s := { s with queue := some q, last := m, listener := .dispatch })
      hexit hrunning hp (by simp) rfl
    refine ⟨last, (leads_receive hexit hrunning hp hret).trans (.head .listener rfl ?_ h)⟩
    simp [step, hexit, stepListener, hq]

theorem leads_check {s : State} (hexit : s.main ≠ .exited) (hp : s.poller ≠ .claim)
    (i : Fin maxDevs) : Leads { s with reader := .lookup i } { s with reader := .check } := by
  induction hk : maxDevs - i.val generalizing i with
  | zero => exact absurd i.isLt (by omega)
  | succ k ih =>
    have hnext : Leads { s with reader := nextSlot i } { s with reader := .check } := by
      unfold nextSlot
      split
      · rename_i hi
        exact ih ⟨i.val + 1, hi⟩ (by simp only; omega)
      · exact .refl _
    refine .head .reader rfl (r := { s with reader := .transfer i }) ?_ ?_
    · simp [step, hexit, stepReader, hp]
    · refine .head .reader rfl (r := { s with reader := .write i }) ?_ ?_
      · simp [step, hexit, stepReader]
      · refine .head .reader rfl ?_ hnext
        simp [step, hexit, stepReader]

theorem leads_returned {s : State} (hexit : s.main ≠ .exited) (hrunning : s.running = false)
    (hp : s.poller ≠ .claim) : Leads s { s with reader := .returned } := by
  have hcheck : Leads { s with reader := .check } { s with reader := .returned } := by
    refine .head .reader rfl ?_ (.refl _)
    simp [step, hexit, stepReader, hrunning]
  have hnext : ∀ i, Leads { s with reader := nextSlot i } { s with reader := .returned } := by
    intro i
    unfold nextSlot
    split
    · exact (leads_check hexit hp _).trans hcheck
    · exact hcheck
  have hwrite : ∀ i, Leads { s with reader := .write i } { s with reader := .returned } := by
    intro i
    refine .head .reader rfl ?_ (hnext i)
    simp [step, hexit, stepReader]
  obtain ⟨running, polling, queue, last, main, listener, reader, poller⟩ := s
  cases reader with
  | check => exact hcheck
  | lookup i => exact (leads_check hexit hp i).trans hcheck
  | transfer i =>
    refine .head .reader rfl ?_ (hwrite i)
    simpa [step, stepReader] using hexit
  | write i => exact hwrite i
  | returned => exact .refl _

theorem stuck_of_waiting {s : State} (hinv : Inv s) (hmain : s.main = .joinCmd)
    (hl : s.listener = .receive) (hq : s.queue = some []) : ¬ NeverStuck s := by
  intro h
  have hexit : s.main ≠ .exited := by rw [hmain]; decide
  have hrunning : s.running = false := by
    rw [hinv.running, hmain]
    rfl
  have hpolling : s.polling = true := by
    rw [hinv.polling, hmain]
    rfl
  obtain ⟨p, hp, hlead⟩ := leads_unlock hexit
  have hlead' := hlead.trans (leads_returned (s := { s with poller := p }) hexit hrunning hp)
  obtain ⟨a, hshut, hsome⟩ := h _ hlead' hexit
  cases a with
  | send m | interrupt => exact hshut
  | main => simp [step, stepMain, hmain, hl] at hsome
  | listener => simp [step, stepListener, hmain, hl, hq] at hsome
  | reader => simp [step, stepReader, hmain] at hsome
  | poller adds =>
    rcases hshut with hshut | hshut
    · exact absurd (hpolling.symm.trans hshut) (by decide)
    · exact hp hshut

theorem NeverStuck.of_leads {s t : State} (h : NeverStuck s) (hlead : Leads s t) : NeverStuck t :=
  fun u hu hexit => h u (hlead.trans hu) hexit

theorem released_of_neverStuck {s : State} (hinv : Inv s) (hstarted : s.main ≠ .loop)
    (h : NeverStuck s) : Released s := by
  cases hq : s.queue with
  | none => exact .inl hq
  | some q =>
    cases hrunning : s.running with
    | false =>
      refine .inr ⟨hrunning, fun hl hempty => ?_⟩
      have hmain : s.main = .joinCmd := by
        have hge : ¬ s.main.rank < 2 := by
          have hr := hinv.running
          rw [hrunning] at hr
          exact of_decide_eq_false hr.symm
        have hle : ¬ 3 ≤ s.main.rank := fun h3 => by
          have hret := hinv.joined h3
          rw [hl] at hret
          exact absurd hret (by simp)
        cases hm : s.main <;> simp [hm, MainPc.rank] at hge hle
        rfl
      exact stuck_of_waiting hinv hmain hl hempty h
    | true =>
      have hmain : s.main = .clear := by
        have hlt : s.main.rank < 2 := by
          have hr := hinv.running
          rw [hrunning] at hr
          exact of_decide_eq_true hr.symm
        cases hm : s.main <;> simp [hm, MainPc.rank] at hlt
        · exact absurd hm hstarted
        · rfl
      have hexit : s.main ≠ .exited := by rw [hmain]; decide
      have hret : s.listener ≠ .returned := by
        intro hret
        have h2 := hinv.returned hret
        rw [hmain] at h2
        exact absurd h2 (by decide)
      obtain ⟨p, hp, hunlock⟩ := leads_unlock hexit
      obtain ⟨last, hdrain⟩ :=
        leads_drained (s := { s with poller := p }) hexit hrunning hp hret hq
      have hclear : Leads { s with poller := p, queue := some [], last := last, listener := .receive }
          { s with
            poller := p, queue := some [], last := last, listener := .receive
            running := false, main := .joinCmd } := by
        refine .head .main rfl ?_ (.refl _)
        simp [step, stepMain, hmain]
      have hlead := (hunlock.trans hdrain).trans hclear
      have hnever := h.of_leads hlead
      obtain ⟨ls, -, hls⟩ := hlead
      exact absurd hnever (stuck_of_waiting (invariant_after inv_step hinv hls) rfl rfl rfl)

/-- **A shutdown that was started cannot get stuck exactly when the listener is released**: there is
no open queue, or the flag is cleared and the listener does not wait at an empty one. -/
theorem neverStuck_iff {queue : Option (List Message)} {last : Message} {ls : List Label} {s : State}
    (h : after step (initial queue last) ls = some s) (hstarted : s.main ≠ .loop) :
    NeverStuck s ↔ s.queue = none ∨
      s.running = false ∧ (s.listener = .receive → s.queue ≠ some []) := by
  have hinv := inv_reachable h
  constructor
  · intro hnever
    exact released_of_neverStuck hinv hstarted hnever
  · intro hreleased
    exact neverStuck_of_released hinv hstarted hreleased

/-- The signal arrives while a command is in the queue. -/
def pending : State :=
  ⟨false, true, some [none], none, .joinCmd, .receive, .check, .check⟩

theorem after_pending : after step (initial (some []) none)
    [.listener, .send none, .interrupt, .main] = some pending := by decide

theorem neverStuck_pending : NeverStuck pending :=
  (neverStuck_iff after_pending (by decide)).mpr (.inr ⟨rfl, fun _ => by decide⟩)

/-- The signal arrives while the listener waits for a command. -/
def waiting : State :=
  ⟨false, true, some [], none, .joinCmd, .receive, .check, .check⟩

theorem after_waiting : after step (initial (some []) none) [.listener, .interrupt, .main] =
    some waiting := by decide

theorem waiting_stuck : ∃ ls, after step (initial (some []) none) ls = some waiting ∧
    waiting.main ≠ .loop ∧ ¬ NeverStuck waiting :=
  ⟨_, after_waiting, by decide, stuck_of_waiting (inv_reachable after_waiting) rfl rfl rfl⟩

end El32.Shutdown

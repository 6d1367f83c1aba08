import El32.Foundations.Mutex
import El32.Foundations.Transition
import El32.Xbc.Shm

/-! The button store with one writer and any number of readers, its records copied field by field.

Both functions of `common/shm.c` are called with a slot number, which their range check lets pass.
What is left of a call is `sem_wait`, the copy, and `sem_post`; each field is a step of its own. -/
namespace El32.ShmAccess
open Controller Processes Mutex Transition
set_option autoImplicit false

/-! ## Copies -/

/-- The assignments of a record copy: the second record's field goes into the first. -/
def fields : List (Button → Button → Button) :=
  [fun d s => { d with avail := s.avail }, fun d s => { d with dUp := s.dUp },
   fun d s => { d with dDn := s.dDn }, fun d s => { d with dLeft := s.dLeft },
   fun d s => { d with dRight := s.dRight }, fun d s => { d with start := s.start },
   fun d s => { d with back := s.back }, fun d s => { d with lsPress := s.lsPress },
   fun d s => { d with rsPress := s.rsPress }, fun d s => { d with lb := s.lb },
   fun d s => { d with rb := s.rb }, fun d s => { d with logo := s.logo },
   fun d s => { d with spare := s.spare }, fun d s => { d with a := s.a },
   fun d s => { d with b := s.b }, fun d s => { d with x := s.x },
   fun d s => { d with y := s.y }, fun d s => { d with leftTrigger := s.leftTrigger },
   fun d s => { d with rightTrigger := s.rightTrigger },
   fun d s => { d with leftStickX := s.leftStickX },
   fun d s => { d with leftStickY := s.leftStickY },
   fun d s => { d with rightStickX := s.rightStickX },
   fun d s => { d with rightStickY := s.rightStickY }]

/-- The destination after the first `k` fields. -/
def copied (k : ℕ) (d s : Button) : Button := (fields.take k).foldl (fun d f => f d s) d

theorem copied_succ {k : ℕ} {f : Button → Button → Button} (hf : fields[k]? = some f)
    (d s : Button) : copied (k + 1) d s = f (copied k d s) s := by
  unfold copied
  rw [List.take_add_one, hf, List.foldl_append]
  rfl

theorem copied_all {k : ℕ} (hk : fields[k]? = none) (d s : Button) : copied k d s = s := by
  unfold copied
  rw [List.take_of_length_le (List.getElem?_eq_none_iff.mp hk)]
  rfl

/-! ## The processes -/

inductive Role where
  | daemon
  | web
deriving DecidableEq

/-- Where a process is in its call. -/
inductive Pc where
  | lock
  | copy (k : ℕ)
  | unlock
  | done
deriving DecidableEq

abbrev Log := List (Fin maxDevs × Button)

/-- `b` is the record handed to `witeButtonToSHM`, or the one `readButtonFromSHM` fills. `before` is
what had been written when the process last took the semaphore. -/
structure Proc where
  role : Role
  id : Fin maxDevs
  b : Button
  pc : Pc
  before : Log
deriving DecidableEq

/-- `written` are the calls of `witeButtonToSHM` whose copy is complete. -/
structure Shared where
  sem : ℕ
  map : Shm.Map
  written : Log

def prog (s : Shared) (p : Proc) : Option (Shared × Proc) :=
  match p.pc with
  | .lock =>
    if 0 < s.sem then
      some ({ s with sem := s.sem - 1 }, { p with pc := .copy 0, before := s.written })
    else none
  | .copy k =>
    match p.role, fields[k]? with
    | .daemon, some f =>
      some ({ s with map := Function.update s.map p.id (f (s.map p.id) p.b) },
        { p with pc := .copy (k + 1) })
    | .daemon, none =>
      some ({ s with written := s.written ++ [(p.id, p.b)] }, { p with pc := .unlock })
    | .web, some f => some (s, { p with b := f p.b (s.map p.id), pc := .copy (k + 1) })
    | .web, none => some (s, { p with pc := .unlock })
  | .unlock => some ({ s with sem := s.sem + 1 }, { p with pc := .done })
  | .done => none

structure State where
  shared : Shared
  procs : List Proc

/-- After `initButtonSHM`, with the daemon between two calls. -/
def initial : State where
  shared := ⟨1, fun _ => default, []⟩
  procs := [⟨.daemon, ⟨0, maxDevs_pos⟩, default, .done, []⟩]

inductive Label where
  | call (id : Fin maxDevs) (b : Button)
  | request (id : Fin maxDevs) (b : Button)
  | act (i : ℕ)

/-- The daemon makes one call after the other; a request starts a process of xbcweb, whose record is
not initialised. -/
def step (s : State) : Label → Option State
  | .call id b =>
    match s.procs with
    | p :: ps =>
      if p.role = .daemon ∧ p.pc = .done then
        some { s with procs := { p with id := id, b := b, pc := .lock } :: ps }
      else none
    | [] => none
  | .request id b => some { s with procs := s.procs ++ [⟨.web, id, b, .lock, []⟩] }
  | .act i => (stepAt prog s.shared s.procs i).map fun r => ⟨r.1, r.2⟩

theorem step_act {s s' : State} {i : ℕ} :
    step s (.act i) = some s' ↔ ∃ p q, s.procs[i]? = some p ∧
      prog s.shared p = some (s'.shared, q) ∧ s'.procs = s.procs.set i q := by
  obtain ⟨shared, procs⟩ := s'
  rw [← stepAt_eq_some]
  simp [step]

/-! ## The last record -/

/-- The record of the last call for `id`, the zero record if there was none. -/
def lastRecord (es : Log) (id : Fin maxDevs) : Button :=
  ((es.reverse.find? fun e => e.1 = id).map Prod.snd).getD default

theorem lastRecord_concat (es : Log) (id : Fin maxDevs) (b : Button) :
    lastRecord (es ++ [(id, b)]) = Function.update (lastRecord es) id b := by
  funext j
  unfold lastRecord
  rw [List.reverse_append, List.reverse_singleton, List.singleton_append]
  by_cases hj : id = j
  · subst hj
    simp
  · rw [Function.update_of_ne (Ne.symm hj)]
    simp [hj]

theorem witeButtonToSHM_lastRecord (es : Log) (id : Fin maxDevs) (b : Button) :
    Shm.witeButtonToSHM (some (lastRecord es)) b (UInt8.ofNat id) =
      some (some (lastRecord (es ++ [(id, b)]))) := by
  rw [Shm.witeButtonToSHM_slot, lastRecord_concat]

theorem readButtonFromSHM_lastRecord (es : Log) (id : Fin maxDevs) (b : Button) :
    Shm.readButtonFromSHM (some (lastRecord es)) b (UInt8.ofNat id) = some (lastRecord es id) := by
  have hid : (UInt8.ofNat id).toNat = id := slot_toNat id
  have hlt : (UInt8.ofNat id).toNat < maxDevs := by rw [hid]; exact id.isLt
  rw [Shm.readButtonFromSHM_slot _ _ _ hlt]
  exact congrArg (fun i => some (lastRecord es i)) (Fin.ext hid)

/-! ## Mutual exclusion -/

def inside (p : Proc) : Bool :=
  match p.pc with
  | .copy _ | .unlock => true
  | .lock | .done => false

def Free (s : Shared) : Prop := s.map = lastRecord s.written

/-- What the process inside has done. -/
def Held (s : Shared) (p : Proc) : Prop :=
  match p.role, p.pc with
  | .daemon, .copy k => s.map = Function.update (lastRecord s.written) p.id
      (copied k (lastRecord s.written p.id) p.b)
  | .web, .copy k => Free s ∧ p.before = s.written ∧ ∃ d, p.b = copied k d (s.map p.id)
  | .daemon, .unlock => Free s
  | .web, .unlock => Free s ∧ p.before = s.written ∧ p.b = s.map p.id
  | _, _ => True

def Returned (p : Proc) : Prop :=
  p.role = .web → p.pc = .done → p.b = lastRecord p.before p.id

structure Inv (s : State) : Prop where
  guarded : Guarded inside Free Held s.shared.sem s.shared s.procs
  returned : ∀ p ∈ s.procs, Returned p

section Act
variable {s s' : Shared} {ps : List Proc} {i : ℕ} {p q : Proc}

/-- What a step does at each place; `field` and `last` are the copy of a field and the end of the
copy. -/
inductive Does (s : Shared) (id : Fin maxDevs) (b : Button) (before : Log) :
    Role → Pc → Shared → Proc → Prop
  | lock {role : Role} : 0 < s.sem → Does s id b before role .lock
      { s with sem := s.sem - 1 } ⟨role, id, b, .copy 0, s.written⟩
  | daemonField {k : ℕ} {f : Button → Button → Button} : fields[k]? = some f →
      Does s id b before .daemon (.copy k)
        { s with map := Function.update s.map id (f (s.map id) b) }
        ⟨.daemon, id, b, .copy (k + 1), before⟩
  | daemonLast {k : ℕ} : fields[k]? = none → Does s id b before .daemon (.copy k)
      { s with written := s.written ++ [(id, b)] } ⟨.daemon, id, b, .unlock, before⟩
  | webField {k : ℕ} {f : Button → Button → Button} : fields[k]? = some f →
      Does s id b before .web (.copy k) s ⟨.web, id, f b (s.map id), .copy (k + 1), before⟩
  | webLast {k : ℕ} : fields[k]? = none →
      Does s id b before .web (.copy k) s ⟨.web, id, b, .unlock, before⟩
  | unlock {role : Role} : Does s id b before role .unlock
      { s with sem := s.sem + 1 } ⟨role, id, b, .done, before⟩

theorem prog_cases {role : Role} {id : Fin maxDevs} {b : Button} {pc : Pc} {before : Log}
    (h : prog s ⟨role, id, b, pc, before⟩ = some (s', q)) : Does s id b before role pc s' q := by
  cases pc with
  | lock =>
    obtain ⟨hpos, rfl, rfl⟩ := by simpa [prog] using h
    exact .lock hpos
  | copy k =>
    cases role <;> cases hf : fields[k]? <;> obtain ⟨rfl, rfl⟩ := by simpa [prog, hf] using h
    · exact .daemonLast hf
    · exact .daemonField hf
    · exact .webLast hf
    · exact .webField hf
  | unlock =>
    obtain ⟨rfl, rfl⟩ := by simpa [prog] using h
    exact .unlock
  | done => simp [prog] at h

theorem guarded_daemon (h : Guarded inside Free Held s.sem s ps) (hp : ps[i]? = some p)
    (hrole : p.role = .daemon) (hstep : prog s p = some (s', q)) :
    Guarded inside Free Held s'.sem s' (ps.set i q) := by
  obtain ⟨role, id, b, pc, before⟩ := p
  obtain rfl : role = .daemon := hrole
  cases prog_cases hstep with
  | lock hpos =>
    refine h.enter hp rfl rfl hpos fun hfree => ?_
    show s.map = Function.update (lastRecord s.written) id (lastRecord s.written id)
    rw [Function.update_eq_self]
    exact hfree
  | @daemonField k f hf =>
    refine h.within hp rfl rfl fun hh => ?_
    change s.map = Function.update (lastRecord s.written) id
      (copied k (lastRecord s.written id) b) at hh
    show Function.update s.map id (f (s.map id) b) =
      Function.update (lastRecord s.written) id (copied (k + 1) (lastRecord s.written id) b)
    rw [hh, Function.update_idem, Function.update_self, copied_succ hf]
  | @daemonLast k hf =>
    refine h.within hp rfl rfl fun hh => ?_
    change s.map = Function.update (lastRecord s.written) id
      (copied k (lastRecord s.written id) b) at hh
    show s.map = lastRecord (s.written ++ [(id, b)])
    rw [hh, copied_all hf, lastRecord_concat]
  | unlock => exact h.leave hp rfl rfl fun hfree => hfree

theorem guarded_web (h : Guarded inside Free Held s.sem s ps) (hp : ps[i]? = some p)
    (hrole : p.role = .web) (hstep : prog s p = some (s', q)) :
    Guarded inside Free Held s'.sem s' (ps.set i q) := by
  obtain ⟨role, id, b, pc, before⟩ := p
  obtain rfl : role = .web := hrole
  cases prog_cases hstep with
  | lock hpos => exact h.enter hp rfl rfl hpos fun hfree => ⟨hfree, rfl, b, rfl⟩
  | @webField k f hf =>
    refine h.within hp rfl rfl fun hh => ?_
    obtain ⟨hfree, hbefore, d, hb⟩ := hh
    refine ⟨hfree, hbefore, d, ?_⟩
    show f b (s.map id) = copied (k + 1) d (s.map id)
    rw [copied_succ hf, ← show b = copied k d (s.map id) from hb]
  | @webLast k hf =>
    refine h.within hp rfl rfl fun hh => ?_
    obtain ⟨hfree, hbefore, d, hb⟩ := hh
    refine ⟨hfree, hbefore, ?_⟩
    show b = s.map id
    rw [show b = copied k d (s.map id) from hb, copied_all hf]
  | unlock => exact h.leave hp rfl rfl fun hh => hh.1

theorem returned_step (hh : inside p = true → Held s p) (hstep : prog s p = some (s', q)) :
    Returned q := by
  intro hrole hpc
  obtain ⟨role, id, b, pc, before⟩ := p
  cases prog_cases hstep with
  | unlock =>
    obtain rfl : role = .web := hrole
    obtain ⟨hfree, hbefore, hb⟩ := hh rfl
    show b = lastRecord before id
    rw [show before = s.written from hbefore, show b = s.map id from hb]
    exact congrFun hfree id
  | lock | daemonField | daemonLast | webField | webLast => exact absurd hpc (by simp)

end Act

theorem inv_initial : Inv initial where
  guarded := ⟨rfl, fun _ => rfl, by simp [initial, inside]⟩
  returned := List.forall_mem_singleton.mpr nofun

theorem inv_step (s : State) (a : Label) (s' : State) (h : Inv s) (hstep : step s a = some s') :
    Inv s' := by
  cases a with
  | call id b =>
    obtain ⟨shared, procs⟩ := s
    cases procs with
    | nil => simp [step] at hstep
    | cons p ps =>
      obtain ⟨⟨-, hpc⟩, rfl⟩ := by simpa [step] using hstep
      have hp : (p :: ps)[0]? = some p := rfl
      have hin : inside p = false := by unfold inside; rw [hpc]
      exact ⟨h.guarded.outside hp hin rfl (fun hfree => hfree) fun _ _ _ hr => hr,
        forall_mem_set (i := 0) h.returned nofun⟩
  | request id b =>
    obtain rfl := by simpa [step] using hstep
    exact ⟨h.guarded.join rfl, forall_mem_concat h.returned nofun⟩
  | act i =>
    obtain ⟨p, q, hp, hprog, hprocs⟩ := step_act.mp hstep
    obtain ⟨shared, procs⟩ := s'
    obtain rfl : procs = s.procs.set i q := hprocs
    have hmem := List.mem_of_getElem? hp
    refine ⟨?_, forall_mem_set h.returned (returned_step (h.guarded.held p hmem) hprog)⟩
    cases hrole : p.role with
    | daemon => exact guarded_daemon h.guarded hp hrole hprog
    | web => exact guarded_web h.guarded hp hrole hprog

def pressed : Button := { (default : Button) with avail := true, a := true, leftStickX := -5 }

end El32.ShmAccess

import El32.Xbc.Shm

/-! The set-up of the button store when system calls fail, and the calls that use it afterwards.

Neither `initButtonSHM` nor `startButtonSHM` tells its caller what it obtained, and `witeButtonToSHM`
and `readButtonFromSHM` use the static variables as they were left. -/
namespace El32.ShmSetup
open Controller Shm
set_option autoImplicit false

/-- The static variable `map`: its initial null pointer, `MAP_FAILED`, or a mapping. -/
inductive MapVar where
  | null
  | failed
  | mapped
deriving DecidableEq

/-- The static variable `sem`; `SEM_FAILED` is also its initial value. -/
inductive SemVar where
  | failed
  | opened
deriving DecidableEq

/-- The static variables of `shm.c`; `fd` is -1 when false. -/
structure Statics where
  fd : Bool
  map : MapVar
  sem : SemVar
deriving DecidableEq

def Statics.initial : Statics := ⟨false, .null, .failed⟩

/-- Whether the named objects exist. -/
structure Names where
  shm : Bool
  sem : Bool
deriving DecidableEq

/-! ## Setting up -/

/-- Which calls of `initButtonSHM` succeed; an exclusive create also fails when the name exists. -/
structure InitCalls where
  shmOpen : Bool
  ftruncate : Bool
  mmap : Bool
  mlock : Bool
  semOpen : Bool
deriving DecidableEq

def initButtonSHM (c : InitCalls) (n : Names) (s : Statics) : Names × Statics :=
  if c.shmOpen = true ∧ n.shm = false then
    let n := { n with shm := true }
    let s := { s with fd := true }
    if c.ftruncate then
      if c.mmap then
        let s := { s with map := .mapped }
        if c.mlock then
          if c.semOpen = true ∧ n.sem = false then
            ({ n with sem := true }, { s with sem := .opened })
          else (n, { s with sem := .failed })
        else (n, s)
      else (n, { s with map := .failed })
    else (n, s)
  else (n, { s with fd := false })

/-- Which calls of `startButtonSHM` succeed; an open also fails when there is no such name. -/
structure StartCalls where
  shmOpen : Bool
  lseek : Bool
  mmap : Bool
  semOpen : Bool
deriving DecidableEq

/-- A failing `lseek` is only logged. -/
def startButtonSHM (c : StartCalls) (n : Names) (s : Statics) : Statics :=
  if c.shmOpen = true ∧ n.shm = true then
    let s := { s with fd := true }
    if c.mmap then
      let s := { s with map := .mapped }
      if c.semOpen = true ∧ n.sem = true then { s with sem := .opened }
      else { s with sem := .failed }
    else { s with map := .failed }
  else { s with fd := false }

/-- The daemon or xbcweb sets the store up. -/
inductive Setup where
  | init (c : InitCalls)
  | start (c : StartCalls)
deriving DecidableEq

/-- The set-up is the first one of its process. -/
def Setup.run (n : Names) : Setup → Names × Statics
  | .init c => initButtonSHM c n .initial
  | .start c => (n, startButtonSHM c n .initial)

/-! ## Using the store -/

/-- What a call uses, with the variable it finds it in. -/
inductive Touch where
  | semWait (sem : SemVar)
  | access (map : MapVar)
  | semPost (sem : SemVar)
deriving DecidableEq

/-- What `witeButtonToSHM` and `readButtonFromSHM` use for an id. -/
def touches (s : Statics) (id : UInt8) : List Touch :=
  if maxDevs < id.toNat then [] else [.semWait s.sem, .access s.map, .semPost s.sem]

def Statics.Obtained (s : Statics) : Prop := s.map = .mapped ∧ s.sem = .opened

instance decidableObtained (s : Statics) : Decidable s.Obtained :=
  inferInstanceAs (Decidable (_ ∧ _))

/-- The store as `witeButtonToSHM` and `readButtonFromSHM` find it. -/
def Statics.store (s : Statics) (map : Map) : Option Map := if s.Obtained then some map else none

theorem touches_eq_nil {s : Statics} {id : UInt8} : touches s id = [] ↔ maxDevs < id.toNat := by
  by_cases h : maxDevs < id.toNat <;> simp [touches, h]

/-! ## Failures -/

/-- `initButtonSHM` creates the shared memory object. -/
def InitCalls.Creates (c : InitCalls) (n : Names) : Prop := c.shmOpen = true ∧ n.shm = false

def InitCalls.Succeed (c : InitCalls) (n : Names) : Prop :=
  c.Creates n ∧ c.ftruncate = true ∧ c.mmap = true ∧ c.mlock = true ∧
    c.semOpen = true ∧ n.sem = false

def StartCalls.Succeed (c : StartCalls) (n : Names) : Prop :=
  (c.shmOpen = true ∧ n.shm = true) ∧ c.mmap = true ∧ c.semOpen = true ∧ n.sem = true

instance decidableInitCreates (c : InitCalls) (n : Names) : Decidable (c.Creates n) :=
  inferInstanceAs (Decidable (_ ∧ _))

instance decidableInitSucceed (c : InitCalls) (n : Names) : Decidable (c.Succeed n) :=
  inferInstanceAs (Decidable (_ ∧ _))

section Setup
variable {c : InitCalls} {n : Names}

/-- What `initButtonSHM` can do: nothing, all of it, or create the shared memory and fail later. -/
theorem initButtonSHM_cases (c : InitCalls) (n : Names) :
    (¬ c.Creates n ∧ initButtonSHM c n .initial = (n, .initial)) ∨
    (c.Succeed n ∧ initButtonSHM c n .initial = (⟨true, true⟩, ⟨true, .mapped, .opened⟩)) ∨
    (c.Creates n ∧ ¬ c.Succeed n ∧ (initButtonSHM c n .initial).1 = { n with shm := true } ∧
      ¬ (initButtonSHM c n .initial).2.Obtained) := by
  unfold initButtonSHM InitCalls.Succeed InitCalls.Creates
  by_cases hopen : c.shmOpen = true ∧ n.shm = false
  · rw [if_pos hopen]
    by_cases hsize : c.ftruncate = true
    · by_cases hmap : c.mmap = true
      · by_cases hlock : c.mlock = true
        · by_cases hsem : c.semOpen = true ∧ n.sem = false
          · simp [hopen, hsize, hmap, hlock, hsem]
          · simp [hopen, hsize, hmap, hlock, hsem, Statics.Obtained]
        · simp [hopen, hsize, hmap, hlock, Statics.Obtained, Statics.initial]
      · simp [hopen, hsize, hmap, Statics.Obtained]
    · simp [hopen, hsize, Statics.Obtained, Statics.initial]
  · rw [if_neg hopen]
    exact .inl ⟨hopen, rfl⟩

theorem initButtonSHM_obtained (c : InitCalls) (n : Names) :
    (initButtonSHM c n .initial).2.Obtained ↔ c.Succeed n := by
  rcases initButtonSHM_cases c n with ⟨hopen, heq⟩ | ⟨hs, heq⟩ | ⟨-, hs, -, hnot⟩
  · have hnot : ¬ Statics.initial.Obtained := by decide
    rw [heq]
    exact iff_of_false hnot fun hs => hopen hs.1
  · rw [heq]
    exact iff_of_true ⟨rfl, rfl⟩ hs
  · exact iff_of_false hnot hs

/-- What was created stays behind, wherever the failure is. -/
theorem initButtonSHM_names (h : ¬ c.Succeed n) :
    (initButtonSHM c n .initial).1 = n ↔ ¬ c.Creates n := by
  rcases initButtonSHM_cases c n with ⟨hopen, heq⟩ | ⟨hs, -⟩ | ⟨hopen, -, heq, -⟩
  · rw [heq]
    exact iff_of_true rfl hopen
  · exact absurd hs h
  · refine iff_of_false (fun hsame => ?_) (not_not.mpr hopen)
    have hshm := congrArg Names.shm (heq.symm.trans hsame)
    rw [hopen.2] at hshm
    exact Bool.false_ne_true hshm.symm

theorem startButtonSHM_obtained (c : StartCalls) (n : Names) :
    (startButtonSHM c n .initial).Obtained ↔ c.Succeed n := by
  unfold startButtonSHM StartCalls.Succeed
  by_cases hopen : c.shmOpen = true ∧ n.shm = true
  · rw [if_pos hopen]
    by_cases hmap : c.mmap = true
    · by_cases hsem : c.semOpen = true ∧ n.sem = true
      · simp [hopen, hmap, hsem, Statics.Obtained]
      · simp [hmap, hsem, Statics.Obtained]
    · simp [hmap, Statics.Obtained]
  · rw [if_neg hopen]
    simp [hopen, Statics.Obtained, Statics.initial]

/-- Only `initButtonSHM` creates names. -/
def Setup.FailsPartWay (n : Names) : Setup → Prop
  | .init c => ¬ c.Succeed n
  | .start _ => False

/-- The set-up and the later calls with the given ids: they use the mapping and the semaphore only
when both were obtained, and a set-up that fails leaves the names as they were. -/
structure SetupContained (n : Names) (setup : Setup) (ids : List UInt8) : Prop where
  guarded : ∀ id ∈ ids, touches (setup.run n).2 id ≠ [] → (setup.run n).2.Obtained
  restored : setup.FailsPartWay n → (setup.run n).1 = n

/-- No later call passes the range check. -/
def OutOfRange (ids : List UInt8) : Prop := ∀ id ∈ ids, maxDevs < id.toNat

def Contains (n : Names) (ids : List UInt8) : Setup → Prop
  | .init c => c.Succeed n ∨ ¬ c.Creates n ∧ OutOfRange ids
  | .start c => c.Succeed n ∨ OutOfRange ids

theorem guarded_iff (s : Statics) (ids : List UInt8) :
    (∀ id ∈ ids, touches s id ≠ [] → s.Obtained) ↔ s.Obtained ∨ OutOfRange ids := by
  simp only [Ne, touches_eq_nil]
  by_cases hs : s.Obtained
  · simp [hs]
  · rw [or_iff_right hs]
    refine forall_congr' fun id => forall_congr' fun _ => ⟨fun h => ?_, fun h hin => absurd h hin⟩
    by_contra hin
    exact hs (h hin)

/-- **A failing set-up is contained exactly when nothing fails, or when nothing was created and no
later call passes the range check.** For xbcweb, which creates nothing, the range check is enough. -/
theorem setupContained_iff (n : Names) (setup : Setup) (ids : List UInt8) :
    SetupContained n setup ids ↔ Contains n ids setup := by
  cases setup with
  | init c =>
    constructor
    · intro h
      by_cases hs : c.Succeed n
      · exact .inl hs
      · have hkept := (initButtonSHM_names hs).mp (h.restored hs)
        rcases (guarded_iff _ ids).mp h.guarded with hobtained | hout
        · exact absurd ((initButtonSHM_obtained c n).mp hobtained) hs
        · exact .inr ⟨hkept, hout⟩
    · rintro (hs | ⟨hkept, hout⟩)
      · exact ⟨(guarded_iff _ ids).mpr (.inl ((initButtonSHM_obtained c n).mpr hs)),
          fun hfails => absurd hs hfails⟩
      · exact ⟨(guarded_iff _ ids).mpr (.inr hout),
          fun hfails => (initButtonSHM_names hfails).mpr hkept⟩
  | start c =>
    constructor
    · intro h
      exact ((guarded_iff _ ids).mp h.guarded).imp_left (startButtonSHM_obtained c n).mp
    · intro h
      exact ⟨(guarded_iff _ ids).mpr (h.imp_left (startButtonSHM_obtained c n).mpr), False.elim⟩

end Setup

/-- The semaphore is left over from an earlier daemon. -/
def semaphoreLeft : Names := ⟨false, true⟩

/-- The daemon creates the shared memory, fails on the semaphore, and publishes a record. -/
theorem semaphoreLeft_not_contained :
    ¬ SetupContained semaphoreLeft (.init ⟨true, true, true, true, true⟩) [0] := by
  intro h
  have hrestored := h.restored (by show ¬ InitCalls.Succeed _ _; decide)
  revert hrestored
  decide

end El32.ShmSetup

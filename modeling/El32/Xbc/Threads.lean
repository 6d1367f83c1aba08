import El32.Foundations.Transition
import El32.Xbc.HandleAccounting
import El32.Xbc.Listener

/-! The three threads of the daemon, interleaved.

The polling thread runs the functions of `Devices` in their atomic parts: the scan, the close, the
emptying of a slot under the mutex, the writing of a slot, and the claim, with the mutex held from
the writing to the claim. The reader and the listener look up a handle under the mutex and use it in
a later step. Run alone, the steps of the polling thread are the iterations of `Devices`. -/
namespace El32.Threads
open Controller Devices Listener Ledger Transition
set_option autoImplicit false

/-! ## The step relation -/

/-- Where the polling thread is. In `clear` the device is closed and its slot not yet emptied; in
`claim` the mutex is held. -/
inductive Pc where
  | scan
  | clean (i : Fin maxDevs)
  | clear (i : Fin maxDevs) (dev : Device)
  | update (i : Fin maxDevs)
  | claim (i : Fin maxDevs) (h : Handle)
deriving DecidableEq

def firstSlot : Fin maxDevs := ⟨0, maxDevs_pos⟩

def afterClean (i : Fin maxDevs) : Pc :=
  if h : i.val + 1 < maxDevs then .clean ⟨i.val + 1, h⟩ else .update firstSlot

def afterUpdate (i : Fin maxDevs) : Pc :=
  if h : i.val + 1 < maxDevs then .update ⟨i.val + 1, h⟩ else .scan

/-- `claimed` are the handles whose interface was claimed successfully since they were opened.
`reader` and `listener` are the handles looked up and not yet used, `slot` the slot that the reader
comes to. -/
structure State where
  poller : Poller
  pc : Pc
  claimed : Finset Handle
  slot : Fin maxDevs
  reader : Option (Option Handle)
  listener : Option (ControllerCall × Option Handle)

def initial (vendorId productId : UInt16) : State where
  poller := initDevices vendorId productId
  pc := .scan
  claimed := ∅
  slot := firstSlot
  reader := none
  listener := none

inductive Label where
  | scan (scan : Scan)
  | clean
  | clear
  | add
  | claim (ok : Bool)
  | readerLookup
  | readerTransfer
  | listenerLookup (call : ControllerCall)
  | listenerTransfer (usb : ℤ)

def Pc.locked : Pc → Bool
  | .claim _ _ => true
  | _ => false

/-- The scan step; libusb keeps to its lists and opens only handles that are not open. -/
def scanStep (s : State) (scan : Scan) : Option State := do
  guard (ScanOk scan)
  let p ← getDevices s.poller scan
  guard (OpensFresh p.calls)
  let opened := openHandles p.calls \ openHandles s.poller.calls
  return { s with poller := p, pc := .clean firstSlot, claimed := s.claimed \ opened }

/-- One slot of `listClean`, up to the close. -/
def cleanStep (s : State) (i : Fin maxDevs) : State :=
  let dev := s.poller.devices i
  if dev.Gone s.poller.tmp then
    { s with poller := s.poller.closeHandle dev, pc := .clear i dev }
  else { s with pc := afterClean i }

/-- One entry of `listUpdateDevices`, up to the claim. -/
def addStep (s : State) (i : Fin maxDevs) : State :=
  match addTarget s.poller.devices (s.poller.tmp i) with
  | none => { s with pc := afterUpdate i }
  | some (k, h) => { s with poller := s.poller.setSlot k (s.poller.tmp i), pc := .claim i h }

/-- The claim; its result is known to libusb and not to the program. -/
def claimStep (s : State) (i : Fin maxDevs) (h : Handle) (ok : Bool) : State :=
  { s with
    poller := claimHandle s.poller h
    pc := afterUpdate i
    claimed := if ok then insert h s.claimed else s.claimed }

def nextSlot (i : Fin maxDevs) : Fin maxDevs := ⟨(i.val + 1) % maxDevs, Nat.mod_lt _ maxDevs_pos⟩

/-- What happens in a step, from the polling thread's place or the other thread's. -/
def step (s : State) : Label → Option State
  | .scan scan => if s.pc = .scan then scanStep s scan else none
  | .clean =>
    match s.pc with
    | .clean i => some (cleanStep s i)
    | _ => none
  | .clear =>
    match s.pc with
    | .clear i dev => some { s with poller := s.poller.clearSlot dev, pc := afterClean i }
    | _ => none
  | .add =>
    match s.pc with
    | .update i => some (addStep s i)
    | _ => none
  | .claim ok =>
    match s.pc with
    | .claim i h => some (claimStep s i h ok)
    | _ => none
  | .readerLookup =>
    if s.pc.locked = false ∧ s.reader = none then
      some { s with reader := some (getDeviceHandle s.poller.devices (UInt8.ofNat s.slot)) }
    else none
  | .readerTransfer =>
    match s.reader with
    | some _ => some { s with reader := none, slot := nextSlot s.slot }
    | none => none
  | .listenerLookup call =>
    -- an id out of range takes no lock
    if (s.pc.locked = false ∨ maxDevs ≤ call.id.toNat) ∧ s.listener = none then
      some { s with listener := some (call, getDeviceHandle s.poller.devices call.id) }
    else none
  | .listenerTransfer _ =>
    match s.listener with
    | some _ => some { s with listener := none }
    | none => none

def transferHandles (s : State) : Label → List Handle
  | .readerTransfer => (s.reader.getD none).toList
  | .listenerTransfer usb =>
    match s.listener with
    | some (call, handle) => (call.onHandle handle usb).2.map OutTransfer.handle
    | none => []
  | _ => []

def Live (s : State) (h : Handle) : Prop := h ∈ openHandles s.poller.calls ∧ h ∈ s.claimed

/-- Every transfer that can be made uses a handle that is open and claimed. -/
def TransfersLive (s : State) : Prop := ∀ a, ∀ h ∈ transferHandles s a, Live s h

/-- A thread has looked the handle up and not yet used it. -/
def Holds (s : State) (h : Handle) : Prop :=
  s.reader = some (some h) ∨ ∃ call, s.listener = some (call, some h)

/-- The slot can be looked up: its claim succeeded, and its device is not closed already. -/
def Usable (s : State) (i : Fin maxDevs) : Prop :=
  ∀ h, (s.poller.devices i).handle = some h → h ∈ s.claimed ∧ ∀ dev, s.pc ≠ .clear i dev

/-- The condition on a step. Slots are looked up only when usable, and a handle is closed only while
no thread is between its lookup and its transfer. -/
def Guard (s : State) : Label → Prop
  | .clean => ∀ i h, s.pc = .clean i → (s.poller.devices i).Gone s.poller.tmp →
      (s.poller.devices i).handle = some h → ¬ Holds s h
  | .readerLookup => Usable s s.slot
  | .listenerLookup call => ∀ i : Fin maxDevs, call.id.toNat = i.val → Usable s i
  | _ => True

/-! ## The polling thread alone -/

/-- The polling thread alone comes from `s` to its place `pc` with the variables `p`. -/
def PollerReaches (s : State) (p : Poller) (pc : Pc) : Prop :=
  ∃ ls claimed, after step s ls = some { s with poller := p, pc := pc, claimed := claimed }

theorem PollerReaches.trans {s : State} {p q : Poller} {pc pc' : Pc} (h : PollerReaches s p pc)
    (hnext : ∀ t : State, t.poller = p → t.pc = pc → PollerReaches t q pc') :
    PollerReaches s q pc' := by
  obtain ⟨ls, c, hls⟩ := h
  obtain ⟨ks, c', hks⟩ := hnext { s with poller := p, pc := pc, claimed := c } rfl rfl
  exact ⟨ls ++ ks, c', by rw [after_append hls, hks]⟩

theorem pollerReaches_clean {s : State} {i : Fin maxDevs} (hpc : s.pc = .clean i) :
    PollerReaches s (listCleanAt s.poller i) (afterClean i) := by
  by_cases hg : (s.poller.devices i).Gone s.poller.tmp
  · refine ⟨[.clean, .clear], s.claimed, ?_⟩
    simp [after, step, hpc, cleanStep, listCleanAt, listTryRemove, hg]
  · refine ⟨[.clean], s.claimed, ?_⟩
    simp [after, step, hpc, cleanStep, listCleanAt, hg]

theorem pollerReaches_add {s : State} {i : Fin maxDevs} (hpc : s.pc = .update i) :
    PollerReaches s (listTryAdd s.poller (s.poller.tmp i)) (afterUpdate i) := by
  cases ht : addTarget s.poller.devices (s.poller.tmp i) with
  | none =>
    refine ⟨[.add], s.claimed, ?_⟩
    simp [after, step, hpc, addStep, listTryAdd, ht]
  | some target =>
    refine ⟨[.add, .claim true], insert target.2 s.claimed, ?_⟩
    simp [after, step, hpc, addStep, listTryAdd, ht, claimStep]

/-- A loop over the slots from `i` on, given its body. -/
theorem pollerReaches_loop (place : Fin maxDevs → Pc) (next : Fin maxDevs → Pc) (done : Pc)
    (body : Poller → Fin maxDevs → Poller)
    (hnext : ∀ i, next i = if h : i.val + 1 < maxDevs then place ⟨i.val + 1, h⟩ else done)
    (hbody : ∀ (s : State) i, s.pc = place i → PollerReaches s (body s.poller i) (next i))
    (i : Fin maxDevs) {s : State} (hpc : s.pc = place i) :
    PollerReaches s (((List.finRange maxDevs).drop i).foldl body s.poller) done := by
  induction hk : maxDevs - i.val generalizing i s with
  | zero => exact absurd i.isLt (by omega)
  | succ k ih =>
    have hdrop : (List.finRange maxDevs).drop i =
        i :: (List.finRange maxDevs).drop (i.val + 1) := by
      rw [List.drop_eq_getElem_cons (by simp), List.getElem_finRange]
      rfl
    rw [hdrop, List.foldl_cons]
    refine (hbody s i hpc).trans fun t htp htpc => ?_
    rw [hnext] at htpc
    rw [← htp]
    by_cases hi : i.val + 1 < maxDevs
    · rw [dif_pos hi] at htpc
      exact ih ⟨i.val + 1, hi⟩ htpc (by simp only; omega)
    · rw [dif_neg hi] at htpc
      rw [List.drop_of_length_le (by simp; omega), ← htpc]
      exact ⟨[], t.claimed, rfl⟩

/-- **An iteration of the polling thread is a run of its steps.** -/
theorem pollerReaches_iteration {s : State} {scan : Scan} {p : Poller} (hpc : s.pc = .scan)
    (hok : ScanOk scan) (hget : getDevices s.poller scan = some p) (hfresh : OpensFresh p.calls) :
    PollerReaches s (listUpdateDevices (listClean p)) .scan := by
  have hscan : PollerReaches s p (.clean firstSlot) := by
    refine ⟨[.scan scan], s.claimed \ (openHandles p.calls \ openHandles s.poller.calls), ?_⟩
    simp [after, step, hpc, scanStep, hok, hget, hfresh, guard]
  have hclean : PollerReaches s (listClean p) (.update firstSlot) := by
    refine hscan.trans fun t htp htpc => ?_
    rw [← htp]
    exact pollerReaches_loop .clean afterClean (.update firstSlot) listCleanAt (fun _ => rfl)
      (fun _ _ => pollerReaches_clean) firstSlot htpc
  refine hclean.trans fun t htp htpc => ?_
  rw [← htp]
  exact pollerReaches_loop .update afterUpdate .scan (fun q i => listTryAdd q (q.tmp i))
    (fun _ => rfl) (fun _ _ => pollerReaches_add) firstSlot htpc

end El32.Threads

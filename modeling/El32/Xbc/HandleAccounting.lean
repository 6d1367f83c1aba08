import El32.Foundations.Ledger
import El32.Xbc.DeviceScan

/-! The handles of the polling thread over whole runs.

A run is any sequence of iterations in which libusb opens only handles that are not open. The
invariant is that the array represents a table whose handles are distinct and are exactly those the
ledger of calls holds; an iteration keeps it, whatever descriptor read or open fails in it. Only a
failed list call ends the accounts, since `getDevices` frees a pointer that was never set. -/
namespace El32.Devices
open Controller Ledger
set_option autoImplicit false

/-! ## The ledger of the calls -/

def UsbCall.event : UsbCall → Option (Event Handle)
  | .openDevice _ _ handle => handle.map .acquire
  | .claimInterface _ => none
  | .closeHandle h => some (.release h)

def events (calls : List UsbCall) : List (Event Handle) := calls.filterMap UsbCall.event

def openHandles (calls : List UsbCall) : Finset Handle := heldFrom ∅ (events calls)

/-- `libusb_open` returned only handles that were not open. -/
def OpensFresh (calls : List UsbCall) : Prop := Along Fresh ∅ (events calls)

def ClosesOpen (calls : List UsbCall) : Prop := Along Proper ∅ (events calls)

instance (calls : List UsbCall) : Decidable (OpensFresh calls) :=
  inferInstanceAs (Decidable (Along Fresh ∅ (events calls)))

theorem events_append (cs ds : List UsbCall) : events (cs ++ ds) = events cs ++ events ds :=
  List.filterMap_append

theorem events_closes (hs : List Handle) :
    events (hs.map .closeHandle) = hs.map .release := by
  simp [events, List.filterMap_map, Function.comp_def, UsbCall.event]

theorem events_claims (hs : List Handle) : events (hs.map .claimInterface) = [] := by
  simp [events, List.filterMap_map, Function.comp_def, UsbCall.event]

/-- Between two closes of one handle it was opened again. -/
theorem ClosesOpen.opened_between {h : Handle} {cs ds es : List UsbCall}
    (hc : ClosesOpen (cs ++ .closeHandle h :: (ds ++ .closeHandle h :: es))) :
    ∃ b a, .openDevice b a (some h) ∈ ds := by
  have hev : events (cs ++ .closeHandle h :: (ds ++ .closeHandle h :: es)) =
      events cs ++ .release h :: (events ds ++ .release h :: events es) := by
    simp [events, UsbCall.event]
  rw [ClosesOpen, hev] at hc
  obtain ⟨c, hmem, hc⟩ := List.mem_filterMap.mp (acquire_between hc)
  cases c with
  | openDevice b a handle =>
    obtain ⟨v, rfl, hv⟩ := Option.map_eq_some_iff.mp hc
    obtain rfl := Event.acquire.inj hv
    exact ⟨b, a, hmem⟩
  | claimInterface v => simp [UsbCall.event] at hc
  | closeHandle v => simp [UsbCall.event] at hc

/-! ## Runs -/

/-- The states between two iterations of `pollingThread`. -/
inductive Reachable (vendorId productId : UInt16) : Poller → Prop
  | init : Reachable vendorId productId (initDevices vendorId productId)
  | poll {p p' : Poller} {scan : Scan} : Reachable vendorId productId p → ScanOk scan →
      pollIteration p scan = some p' → OpensFresh p'.calls → Reachable vendorId productId p'

/-- The array represents `t`, whose handles are distinct and exactly those that are open. -/
structure Accounts (p : Poller) (t : SlotTable maxDevs Location Handle) : Prop where
  table : Represents p.devices t
  distinct : (t.entries.map Prod.snd).Nodup
  held : openHandles p.calls = (t.entries.map Prod.snd).toFinset
  proper : ClosesOpen p.calls

section Step
variable {p : Poller} {t : SlotTable maxDevs Location Handle} {ds : List UsbDevice}

theorem events_openOf (devices : Table) (ds : List UsbDevice) :
    events (ds.filterMap (openOf devices)) =
      (ds.filterMap fun dev => (entry devices dev).handle).map .acquire := by
  rw [events, List.filterMap_filterMap, List.map_filterMap]
  apply List.filterMap_congr
  intro dev _
  by_cases hk : known devices dev.location = true
  · simp [openOf, entry, hk]
  · simp [openOf, entry, hk, UsbCall.event]

theorem Represents.events_opens (h : Represents p.devices t)
    (hv : ∀ dev ∈ ds, Valid dev.location) :
    events (ds.filterMap (openOf p.devices)) =
      ((t.fresh (offers ds)).map Prod.snd).map .acquire := by
  have hfilter : (ds.filterMap fun dev => (entry p.devices dev).handle) =
      ((ds.map (entry p.devices)).filter (·.handle.isSome)).filterMap Device.handle := by
    rw [List.filterMap_filter, List.filterMap_map]
    apply List.filterMap_congr
    intro dev _
    cases hh : (entry p.devices dev).handle <;> simp [hh]
  rw [events_openOf, hfilter, h.filter_entry hv, List.filterMap_map]
  congr 1
  rw [← List.filterMap_eq_map]
  rfl

theorem listed_of_pollIteration {scan : Scan} {p' : Poller}
    (h : pollIteration p scan = some p') : scan ≠ none := by
  obtain ⟨q, hq, -⟩ := Option.bind_eq_some_iff.mp h
  exact listed_of_getDevices hq

theorem Accounts.poll (h : Accounts p t) {scan : Scan} (hs : ScanOk scan) {p' : Poller}
    (hp : pollIteration p scan = some p') (hfresh : OpensFresh p'.calls) :
    Accounts p' (t.refresh (offers (collected p scan))) := by
  obtain ⟨devices, hrep, hpoll⟩ :=
    represents_pollIteration h.table hs (listed_of_pollIteration hp) rfl
  rw [hp] at hpoll
  obtain rfl := Option.some.inj hpoll
  obtain ⟨hnd, hv⟩ := hs.collected p
  have hlen := collected_length p scan
  generalize collected p scan = ds at *
  have hplaced := placed_offers t hnd hlen
  have hentries : ((t.refresh (offers ds)).entries.map Prod.snd).Perm
      ((t.keepOffered (offers ds)).entries.map Prod.snd ++ (t.fresh (offers ds)).map Prod.snd) := by
    rw [← List.map_append]
    exact hplaced.entries.map Prod.snd
  have hkept : (t.entries.map Prod.snd).Perm
      ((t.keepOffered (offers ds)).entries.map Prod.snd ++
        (t.dropped (offers ds)).map Prod.snd) := by
    rw [← List.map_append]
    exact SlotTable.entries_perm_dropped.map Prod.snd
  have hev : events (p.calls ++ (ds.filterMap (openOf p.devices) ++ closesOf t ds ++
      claimsOf t ds)) = events p.calls ++ (((t.fresh (offers ds)).map Prod.snd).map .acquire ++
        ((t.dropped (offers ds)).map Prod.snd).map .release) := by
    rw [events_append, events_append, events_append, h.table.events_opens hv, closesOf, claimsOf,
      events_closes, events_claims, List.append_nil]
  have hnew : Along Fresh (t.entries.map Prod.snd).toFinset
      (((t.fresh (offers ds)).map Prod.snd).map .acquire) := by
    rw [OpensFresh, hev] at hfresh
    have hrest := ((along_append _ _).mp hfresh).2
    rw [← h.held]
    exact ((along_append _ _).mp hrest).1
  obtain ⟨hdistinct, hheld, hproper⟩ := turnover hkept h.distinct hnew
  refine ⟨hrep, hentries.nodup_iff.mpr hdistinct, ?_, ?_⟩
  · rw [openHandles, hev, heldFrom_append, ← openHandles, h.held, hheld]
    exact (List.toFinset_eq_of_perm _ _ hentries).symm
  · rw [ClosesOpen, hev]
    refine (along_append _ _).mpr ⟨h.proper, ?_⟩
    rw [← openHandles, h.held]
    exact hproper

theorem accounts_init (vendorId productId : UInt16) :
    Accounts (initDevices vendorId productId) SlotTable.empty := by
  have hnil : (SlotTable.empty : SlotTable maxDevs Location Handle).entries = [] :=
    List.eq_nil_iff_forall_not_mem.mpr fun a ha => by
      obtain ⟨i, hi⟩ := SlotTable.mem_entries.mp ha
      exact absurd hi (by simp [SlotTable.empty])
  refine ⟨represents_empty, ?_, ?_, trivial⟩
  · rw [hnil]
    exact List.nodup_nil
  · rw [hnil]
    rfl

theorem Reachable.accounts {vendorId productId : UInt16} (h : Reachable vendorId productId p) :
    ∃ t, Accounts p t := by
  induction h with
  | init => exact ⟨_, accounts_init vendorId productId⟩
  | poll _ hs hp hfresh ih =>
    obtain ⟨t, ht⟩ := ih
    exact ⟨_, ht.poll hs hp hfresh⟩

end Step

/-! ## Shutting down -/

section Close
variable {p : Poller} {t : SlotTable maxDevs Location Handle}

theorem foldl_closeAt {is : List (Fin maxDevs)} (hnd : is.Nodup) (p : Poller) :
    (is.foldl closeAt p).calls =
      p.calls ++ (is.filterMap fun i => (p.devices i).handle).map .closeHandle := by
  induction is generalizing p with
  | nil => simp
  | cons i is ih =>
    obtain ⟨hi, hnd⟩ := List.nodup_cons.mp hnd
    rw [List.foldl_cons, ih hnd]
    cases hh : (p.devices i).handle with
    | none => simp [closeAt, hh]
    | some h =>
      have hcongr : (is.filterMap fun j => ((closeAt p i).devices j).handle) =
          is.filterMap fun j => (p.devices j).handle := by
        apply List.filterMap_congr
        intro j hj
        have hne : j ≠ i := fun hji => hi (hji ▸ hj)
        simp [closeAt, hh, Poller.setSlot, Poller.log, hne]
      rw [hcongr]
      simp [closeAt, hh, Poller.setSlot, Poller.log]

theorem Represents.handles (h : Represents p.devices t) :
    ((List.finRange maxDevs).filterMap fun i => (p.devices i).handle) =
      t.entries.map Prod.snd := by
  rw [SlotTable.entries, List.map_filterMap]
  apply List.filterMap_congr
  intro i _
  rw [h.slot i]
  cases t.slot i <;> rfl

theorem Accounts.closeDevices (h : Accounts p t) :
    openHandles (closeDevices p).calls = ∅ ∧ ClosesOpen (closeDevices p).calls := by
  have hcalls : events (Devices.closeDevices p).calls =
      events p.calls ++ (t.entries.map Prod.snd).map .release := by
    rw [Devices.closeDevices, foldl_closeAt (List.nodup_finRange maxDevs), h.table.handles,
      events_append, events_closes]
  constructor
  · rw [openHandles, hcalls, heldFrom_append, ← openHandles, h.held, heldFrom_releases,
      Finset.sdiff_self]
  · rw [ClosesOpen, hcalls]
    refine (along_append _ _).mpr ⟨h.proper, along_proper_releases h.distinct fun a ha => ?_⟩
    rw [← openHandles, h.held]
    exact List.mem_toFinset.mpr ha

end Close

/-! ## The accounts of a run -/

def Device.Filled (dev : Device) : Prop := dev.bus ≠ -1 ∧ dev.address ≠ -1 ∧ dev.handle ≠ none

structure Accounted (p : Poller) : Prop where
  slots : ∀ i, p.devices i = Device.empty ∨ (p.devices i).Filled
  locations : ∀ i j, (p.devices i).Filled → (p.devices j).Filled →
    compareDevices (p.devices i) (p.devices j) = true → i = j
  handles : ∀ i j h, (p.devices i).handle = some h → (p.devices j).handle = some h → i = j
  stored : ∀ h, h ∈ openHandles p.calls ↔ ∃ i, (p.devices i).handle = some h
  closesOpen : ClosesOpen p.calls
  notTwice : ∀ h cs ds es, p.calls = cs ++ .closeHandle h :: (ds ++ .closeHandle h :: es) →
    ∃ b a, .openDevice b a (some h) ∈ ds

section Accounted
variable {p : Poller} {t : SlotTable maxDevs Location Handle}

theorem Represents.handle_eq_some (h : Represents p.devices t) {i : Fin maxDevs} {v : Handle} :
    (p.devices i).handle = some v ↔ ∃ k, t.slot i = some (k, v) := by
  rw [h.slot i]
  cases t.slot i with
  | none => simp [toDevice, Device.empty]
  | some e =>
    obtain ⟨k, w⟩ := e
    simp [toDevice]

theorem Accounts.accounted (h : Accounts p t) : Accounted p where
  slots i := by
    rw [h.table.slot i]
    cases hs : t.slot i with
    | none => exact .inl rfl
    | some e =>
      have hv : Valid e.1 := h.table.valid_slot hs
      exact .inr ⟨hv.1, hv.2, Option.some_ne_none _⟩
  locations i j _ hj hcmp := h.table.apart j i hj.1 hcmp
  handles i j v hi hj := by
    obtain ⟨k, hi⟩ := h.table.handle_eq_some.mp hi
    obtain ⟨k', hj⟩ := h.table.handle_eq_some.mp hj
    have hkk := List.inj_on_of_nodup_map h.distinct (SlotTable.mem_entries.mpr ⟨i, hi⟩)
      (SlotTable.mem_entries.mpr ⟨j, hj⟩) rfl
    exact t.key_inj hi hj (congrArg Prod.fst hkk)
  stored v := by
    rw [h.held, List.mem_toFinset, List.mem_map]
    constructor
    · rintro ⟨⟨k, w⟩, he, rfl⟩
      obtain ⟨i, hi⟩ := SlotTable.mem_entries.mp he
      exact ⟨i, h.table.handle_eq_some.mpr ⟨k, hi⟩⟩
    · rintro ⟨i, hi⟩
      obtain ⟨k, hi⟩ := h.table.handle_eq_some.mp hi
      exact ⟨(k, v), SlotTable.mem_entries.mpr ⟨i, hi⟩, rfl⟩
  closesOpen := h.proper
  notTwice v cs ds es hcalls := by
    have hc := h.proper
    rw [hcalls] at hc
    exact hc.opened_between

end Accounted

/-- What is assumed of libusb along a run: its lists are sound, and it opens only handles that are
not open. -/
def Allowed (p : Poller) : List Scan → Prop
  | [] => True
  | scan :: scans => ScanOk scan ∧
    match pollIteration p scan with
    | none => True
    | some p' => OpensFresh p'.calls ∧ Allowed p' scans

instance decidableAllowed : (p : Poller) → (scans : List Scan) → Decidable (Allowed p scans)
  | _, [] => .isTrue trivial
  | p, scan :: scans =>
    have : Decidable (match pollIteration p scan with
        | none => True
        | some p' => OpensFresh p'.calls ∧ Allowed p' scans) :=
      match pollIteration p scan with
      | none => .isTrue trivial
      | some p' =>
        have := decidableAllowed p' scans
        inferInstanceAs (Decidable (_ ∧ _))
    inferInstanceAs (Decidable (_ ∧ _))

/-- The accounts hold in `p` and after every iteration of the run, each of which has a result, and
`closeDevices` would leave no handle open. -/
def AccountedRun (p : Poller) : List Scan → Prop
  | [] => Accounted p ∧ openHandles (closeDevices p).calls = ∅ ∧ ClosesOpen (closeDevices p).calls
  | scan :: scans =>
    (Accounted p ∧ openHandles (closeDevices p).calls = ∅ ∧ ClosesOpen (closeDevices p).calls) ∧
      ∃ p', pollIteration p scan = some p' ∧ AccountedRun p' scans

section Runs
variable {vendorId productId : UInt16} {p : Poller} {scans : List Scan}

theorem Reachable.accounted (h : Reachable vendorId productId p) : Accounted p ∧
    openHandles (closeDevices p).calls = ∅ ∧ ClosesOpen (closeDevices p).calls := by
  obtain ⟨t, ht⟩ := h.accounts
  exact ⟨ht.accounted, ht.closeDevices⟩

/-- An iteration whose list call succeeds ends in a reachable state. -/
theorem Reachable.next (h : Reachable vendorId productId p) {scan : Scan}
    (hallowed : Allowed p (scan :: scans)) (hlist : scan ≠ none) :
    ∃ p', pollIteration p scan = some p' ∧ Reachable vendorId productId p' ∧ Allowed p' scans := by
  obtain ⟨hs, hrest⟩ := hallowed
  obtain ⟨t, ht⟩ := h.accounts
  obtain ⟨devices, -, hpoll⟩ := represents_pollIteration ht.table hs hlist rfl
  rw [hpoll] at hrest
  exact ⟨_, hpoll, .poll h hs hpoll hrest.1, hrest.2⟩

theorem Reachable.accountedRun (h : Reachable vendorId productId p) (hallowed : Allowed p scans)
    (hlists : none ∉ scans) : AccountedRun p scans := by
  induction scans generalizing p with
  | nil => exact h.accounted
  | cons scan scans ih =>
    obtain ⟨p', hpoll, hp', hallowed'⟩ :=
      h.next hallowed (List.ne_of_not_mem_cons hlists).symm
    exact ⟨h.accounted, p', hpoll, ih hp' hallowed' (List.not_mem_of_not_mem_cons hlists)⟩

theorem AccountedRun.listed (h : AccountedRun p scans) : none ∉ scans := by
  induction scans generalizing p with
  | nil => exact List.not_mem_nil
  | cons scan scans ih =>
    obtain ⟨-, p', hpoll, hrest⟩ := h
    exact List.not_mem_cons_of_ne_of_not_mem (listed_of_pollIteration hpoll).symm (ih hrest)

end Runs

/-- **The handles are accounted for along a run exactly when no list call of it fails**, whatever
descriptors cannot be read and whatever opens fail. -/
theorem handle_accounting_iff {vendorId productId : UInt16} {scans : List Scan}
    (h : Allowed (initDevices vendorId productId) scans) :
    AccountedRun (initDevices vendorId productId) scans ↔ none ∉ scans :=
  ⟨AccountedRun.listed, Reachable.accountedRun .init h⟩

/-! ## A concrete run -/

def controllerAt (deviceAddress : UInt8) (h : Handle) : UsbDevice :=
  ⟨some (0x045e, 0x028e), 1, deviceAddress, some h⟩

def pluggedIn : Poller :=
  (pollIteration (initDevices 0x045e 0x028e) (some [controllerAt 2 10, controllerAt 3 11])).get
    (by decide)

theorem reachable_pluggedIn : Reachable 0x045e 0x028e pluggedIn :=
  .poll .init (by decide : ScanOk (some [controllerAt 2 10, controllerAt 3 11]))
    (Option.some_get _).symm (by decide)

/-- Two controllers are plugged in, a descriptor between them fails, and both are unplugged. -/
def plugRun : List Scan :=
  [some [controllerAt 2 10, controllerAt 3 11],
    some [controllerAt 2 12, ⟨none, 1, 9, none⟩, controllerAt 3 13], some []]

theorem handle_accounting_plugRun : AccountedRun (initDevices 0x045e 0x028e) plugRun :=
  (handle_accounting_iff (by decide)).mpr (by decide)

/-- The first list call fails. -/
theorem handle_accounting_listFails : Allowed (initDevices 0x045e 0x028e) [none] ∧
    ¬ AccountedRun (initDevices 0x045e 0x028e) [none] :=
  ⟨⟨trivial, trivial⟩, fun h => h.listed (List.mem_singleton_self none)⟩

end El32.Devices

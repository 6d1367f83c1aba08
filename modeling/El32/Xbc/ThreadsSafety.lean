import El32.Xbc.Threads

/-! When no transfer uses a dead or an unclaimed handle.

`Core` is what the polling thread's steps keep in any interleaving: every handle has one owner, a
slot or an entry of `tmp` still to be added, and is open unless its slot is about to be emptied. On
top of it, exactly the steps that meet `Guard` keep the other threads' handles live. -/
namespace El32.Threads
open Controller Devices Listener Ledger Transition
set_option autoImplicit false

/-! ## The invariant of the polling thread -/

/-- The entry of `tmp` is still to be added. -/
def Pending : Pc → Fin maxDevs → Prop
  | .scan, _ => False
  | .clean _, _ => True
  | .clear _ _, _ => True
  | .update i, j => i ≤ j
  | .claim i _, j => i < j

/-- A slot of `devices`, or an entry of `tmp`. -/
abbrev Owner := Fin maxDevs ⊕ Fin maxDevs

def Owns (p : Poller) (pc : Pc) : Owner → Handle → Prop
  | .inl i, h => (p.devices i).handle = some h
  | .inr j, h => Pending pc j ∧ (p.tmp j).handle = some h

def Closing (pc : Pc) : Owner → Prop
  | .inl i => ∃ dev, pc = .clear i dev
  | .inr _ => False

structure Core (p : Poller) (pc : Pc) : Prop where
  table : ∃ t, Represents p.devices t
  tmpValid : ∀ j h, (p.tmp j).handle = some h → Valid ((p.tmp j).bus, (p.tmp j).address)
  distinct : ∀ a b h, Owns p pc a h → Owns p pc b h → a = b
  opened : ∀ a h, Owns p pc a h → (h ∈ openHandles p.calls ↔ ¬ Closing pc a)
  clearing : ∀ i dev, pc = .clear i dev → dev = p.devices i ∧ dev.bus ≠ -1

/-! ## Places of the polling thread -/

theorem not_closing_of {pc : Pc} (h : ∀ i dev, pc ≠ .clear i dev) (a : Owner) : ¬ Closing pc a := by
  cases a with
  | inl i =>
    rintro ⟨dev, hdev⟩
    exact h i dev hdev
  | inr j => exact id

theorem afterClean_ne_clear (i k : Fin maxDevs) (dev : Device) : afterClean i ≠ .clear k dev := by
  rw [afterClean]
  split <;> simp

theorem afterUpdate_ne_clear (i k : Fin maxDevs) (dev : Device) : afterUpdate i ≠ .clear k dev := by
  rw [afterUpdate]
  split <;> simp

theorem lt_of_pending_afterUpdate {i j : Fin maxDevs} (h : Pending (afterUpdate i) j) : i < j := by
  rw [afterUpdate] at h
  split at h
  · rename_i hi
    have hj : (⟨i.val + 1, hi⟩ : Fin maxDevs) ≤ j := h
    have hj' : i.val + 1 ≤ j.val := hj
    exact Fin.lt_def.mpr (by omega)
  · exact absurd h id

/-! ## Handles and calls -/

theorem openHandles_close (calls : List UsbCall) (h : Handle) :
    openHandles (calls ++ [.closeHandle h]) = (openHandles calls).erase h := by
  rw [openHandles, events_append, heldFrom_append]
  rfl

theorem openHandles_claim (calls : List UsbCall) (h : Handle) :
    openHandles (calls ++ [.claimInterface h]) = openHandles calls := by
  rw [openHandles, events_append, heldFrom_append]
  rfl

section Core
variable {p p' : Poller} {pc pc' : Pc}

/-- A step that moves handles between owners and neither opens nor closes any. -/
theorem Core.move (h : Core p pc) (φ : Owner → Owner)
    (howns : ∀ a v, Owns p' pc' a v → Owns p pc (φ a) v)
    (hinj : ∀ a b v, Owns p' pc' a v → Owns p' pc' b v → φ a = φ b → a = b)
    (hopen : openHandles p'.calls = openHandles p.calls) (htmp : p'.tmp = p.tmp)
    (htable : ∃ t, Represents p'.devices t)
    (hclosing : ∀ a v, Owns p' pc' a v → ¬ Closing pc (φ a))
    (hpc' : ∀ i dev, pc' ≠ .clear i dev) : Core p' pc' where
  table := htable
  tmpValid := by
    rw [htmp]
    exact h.tmpValid
  distinct a b v ha hb := hinj a b v ha hb (h.distinct _ _ v (howns a v ha) (howns b v hb))
  opened a v ha := by
    rw [hopen, h.opened (φ a) v (howns a v ha)]
    exact iff_of_true (hclosing a v ha) (not_closing_of hpc' a)
  clearing i dev hdev := absurd hdev (hpc' i dev)

/-- A step of the thread that leaves the array. -/
theorem Core.pass (h : Core p pc) (hdev : p'.devices = p.devices) (htmp : p'.tmp = p.tmp)
    (hopen : openHandles p'.calls = openHandles p.calls)
    (hpending : ∀ j, Pending pc' j → Pending pc j) (hpc : ∀ i dev, pc ≠ .clear i dev)
    (hpc' : ∀ i dev, pc' ≠ .clear i dev) : Core p' pc' := by
  refine h.move id ?_ (fun _ _ _ _ _ hab => hab) hopen htmp (by rw [hdev]; exact h.table)
    (fun a _ _ => not_closing_of hpc a) hpc'
  intro a v ha
  cases a with
  | inl i =>
    change (p'.devices i).handle = some v at ha
    rw [hdev] at ha
    exact ha
  | inr j =>
    obtain ⟨hj, ha⟩ := ha
    rw [htmp] at ha
    exact ⟨hpending j hj, ha⟩

theorem core_skip {i : Fin maxDevs} (h : Core p (.clean i)) : Core p (afterClean i) :=
  h.pass rfl rfl rfl (fun _ _ => trivial) (by simp) (afterClean_ne_clear i)

theorem core_pass {i : Fin maxDevs} (h : Core p (.update i)) : Core p (afterUpdate i) :=
  h.pass rfl rfl rfl (fun _ hj => (lt_of_pending_afterUpdate hj).le) (by simp)
    (afterUpdate_ne_clear i)

theorem core_claim {i : Fin maxDevs} {v : Handle} (h : Core p (.claim i v)) (w : Handle) :
    Core (claimHandle p w) (afterUpdate i) :=
  h.pass rfl rfl (openHandles_claim p.calls w) (fun _ hj => lt_of_pending_afterUpdate hj) (by simp)
    (afterUpdate_ne_clear i)

theorem Core.handle_of_bus (h : Core p pc) {i : Fin maxDevs} (hi : (p.devices i).bus ≠ -1) :
    ∃ v, (p.devices i).handle = some v := by
  obtain ⟨t, ht⟩ := h.table
  rw [ht.slot i] at hi ⊢
  cases hs : t.slot i with
  | none =>
    rw [hs] at hi
    exact absurd rfl hi
  | some e => exact ⟨e.2, rfl⟩

theorem core_close {i : Fin maxDevs} (h : Core p (.clean i)) (hg : (p.devices i).Gone p.tmp) :
    Core (p.closeHandle (p.devices i)) (.clear i (p.devices i)) := by
  obtain ⟨v, hv⟩ := h.handle_of_bus hg.1.1
  have hp : p.closeHandle (p.devices i) = p.log (.closeHandle v) := by rw [Poller.closeHandle, hv]
  have hopen : openHandles (p.log (.closeHandle v)).calls = (openHandles p.calls).erase v :=
    openHandles_close p.calls v
  have howns : ∀ a w, Owns (p.log (.closeHandle v)) (.clear i (p.devices i)) a w →
      Owns p (.clean i) a w := by
    intro a w ha
    cases a with
    | inl k => exact ha
    | inr j => exact ha
  have hi : Owns p (.clean i) (.inl i) v := hv
  rw [hp]
  refine ⟨h.table, h.tmpValid, fun a b w ha hb => h.distinct a b w (howns a w ha) (howns b w hb),
    fun a w ha => ?_, ?_⟩
  · rw [hopen, Finset.mem_erase]
    by_cases hai : a = .inl i
    · subst hai
      obtain rfl : v = w := Option.some.inj (hv.symm.trans ha)
      exact iff_of_false (fun hm => hm.1 rfl) fun hn => hn ⟨_, rfl⟩
    · have hwv : w ≠ v := by
        rintro rfl
        exact hai (h.distinct _ _ w (howns a w ha) hi)
      rw [and_iff_right hwv, h.opened a w (howns a w ha)]
      refine iff_of_true (not_closing_of (by simp) a) ?_
      cases a with
      | inl k =>
        rintro ⟨dev, hdev⟩
        exact hai (congrArg Sum.inl (Pc.clear.inj hdev).1.symm)
      | inr j => exact id
  · rintro k dev hdev
    obtain ⟨rfl, rfl⟩ := Pc.clear.inj hdev
    exact ⟨rfl, hg.1.1⟩

theorem core_clear {i : Fin maxDevs} {dev : Device} (h : Core p (.clear i dev)) :
    Core (p.clearSlot dev) (afterClean i) := by
  obtain ⟨rfl, hbus⟩ := h.clearing i dev rfl
  obtain ⟨t, ht⟩ := h.table
  have hp : p.clearSlot (p.devices i) =
      { p with devices := Function.update p.devices i Device.empty } := by
    rw [Poller.clearSlot, ht.apart.find_slot hbus]
  have hne : ∀ k v, Owns (p.clearSlot (p.devices i)) (afterClean i) (.inl k) v →
      k ≠ i ∧ (p.devices k).handle = some v := by
    intro k v hk
    rw [hp] at hk
    change (Function.update p.devices i Device.empty k).handle = some v at hk
    by_cases hki : k = i
    · rw [hki, Function.update_self] at hk
      exact absurd hk (by simp [Device.empty])
    · rw [Function.update_of_ne hki] at hk
      exact ⟨hki, hk⟩
  refine h.move id ?_ (fun _ _ _ _ _ hab => hab) (by rw [hp]) (by rw [hp]) ?_ ?_
    (afterClean_ne_clear i)
  · intro a v ha
    cases a with
    | inl k => exact (hne k v ha).2
    | inr j =>
      obtain ⟨-, ha⟩ := ha
      rw [hp] at ha
      exact ⟨trivial, ha⟩
  · rw [hp]
    exact ⟨_, ht.clearSlot i⟩
  · intro a v ha
    cases a with
    | inl k =>
      rintro ⟨dev, hdev⟩
      exact (hne k v ha).1 (Pc.clear.inj hdev).1.symm
    | inr j => exact id

theorem Core.addTarget (h : Core p pc) {i k : Fin maxDevs} {v : Handle}
    (ht : Devices.addTarget p.devices (p.tmp i) = some (k, v)) :
    (p.tmp i).handle = some v ∧ (p.devices k).handle = none ∧
      ∃ t, Represents (p.setSlot k (p.tmp i)).devices t := by
  obtain ⟨w, hw⟩ : ∃ w, (p.tmp i).handle = some w := by
    cases hh : (p.tmp i).handle with
    | none =>
      rw [Devices.addTarget, hh] at ht
      split at ht <;> simp at ht
    | some w => exact ⟨w, rfl⟩
  have hdev : p.tmp i = toDevice (some (((p.tmp i).bus, (p.tmp i).address), w)) := by
    rw [toDevice, ← hw]
  have hv := h.tmpValid i w hw
  obtain ⟨t, hrep⟩ := h.table
  rw [hdev, hrep.addTarget_eq hv] at ht
  by_cases hhas : t.Has ((p.tmp i).bus, (p.tmp i).address)
  · rw [if_pos hhas] at ht
    exact absurd ht (by simp)
  rw [if_neg hhas] at ht
  obtain ⟨k', hk', hkv⟩ := Option.map_eq_some_iff.mp ht
  obtain ⟨rfl, rfl⟩ := Prod.mk.inj hkv
  obtain ⟨r, hr⟩ := List.head?_eq_some_iff.mp hk'
  have hslot : t.slot k' = none := SlotTable.mem_free.mp (hr ▸ List.mem_cons_self)
  refine ⟨hw, by rw [hrep.slot k', hslot]; rfl, t.place (((p.tmp i).bus, (p.tmp i).address), w), ?_⟩
  have hset := hrep.setSlot (e := (((p.tmp i).bus, (p.tmp i).address), w)) hv hhas hr
  rwa [← hdev] at hset

theorem core_add {i k : Fin maxDevs} {v : Handle} (h : Core p (.update i))
    (ht : Devices.addTarget p.devices (p.tmp i) = some (k, v)) :
    Core (p.setSlot k (p.tmp i)) (.claim i v) := by
  obtain ⟨hv, hk, htable⟩ := h.addTarget ht
  -- the handle moves from the entry to the slot
  let φ : Owner → Owner := fun a => if a = .inl k then .inr i else a
  have hnot : ∀ w, ¬ Owns (p.setSlot k (p.tmp i)) (.claim i v) (.inr i) w :=
    fun w hw => absurd hw.1 (lt_irrefl i)
  refine h.move φ ?_ ?_ rfl rfl htable (fun a _ _ => not_closing_of (by simp) (φ a)) (by simp)
  · intro a w ha
    cases a with
    | inl j =>
      change (Function.update p.devices k (p.tmp i) j).handle = some w at ha
      by_cases hj : j = k
      · subst hj
        rw [Function.update_self] at ha
        simp only [φ, if_true]
        exact ⟨le_refl i, ha⟩
      · rw [Function.update_of_ne hj] at ha
        have hφ : φ (.inl j) = .inl j := if_neg fun hjk => hj (Sum.inl.inj hjk)
        rw [hφ]
        exact ha
    | inr j =>
      have hφ : φ (.inr j) = .inr j := if_neg (by simp)
      rw [hφ]
      have hlt : i < j := ha.1
      exact ⟨hlt.le, ha.2⟩
  · intro a b w ha hb hab
    by_cases hak : a = .inl k <;> by_cases hbk : b = .inl k
    · rw [hak, hbk]
    · simp only [φ, if_pos hak, if_neg hbk] at hab
      exact absurd (hab ▸ hb) (hnot w)
    · simp only [φ, if_neg hak, if_pos hbk] at hab
      exact absurd (hab ▸ ha) (hnot w)
    · simpa only [φ, if_neg hak, if_neg hbk] using hab

/-! ## The scan -/

/-- The handles that a scan with the entries `ds` opens, in the order of the list. -/
def openedBy (devices : Table) (ds : List UsbDevice) : List Handle :=
  ds.filterMap fun dev => (entry devices dev).handle

theorem events_scanned (p : Poller) (ds : List UsbDevice) : events (p.scanned ds).calls =
    events p.calls ++ (openedBy p.devices ds).map .acquire := by
  rw [openedBy, ← events_openOf]
  exact events_append _ _

theorem openHandles_scanned (p : Poller) (ds : List UsbDevice) : openHandles (p.scanned ds).calls =
    openHandles p.calls ∪ (openedBy p.devices ds).toFinset := by
  rw [openHandles, events_scanned, heldFrom_append, heldFrom_acquires]
  rfl

theorem opensFresh_scanned {ds : List UsbDevice} (h : OpensFresh (p.scanned ds).calls) :
    (openedBy p.devices ds).Nodup ∧ ∀ v ∈ openedBy p.devices ds, v ∉ openHandles p.calls := by
  rw [OpensFresh, events_scanned] at h
  exact (along_fresh_acquires _).mp ((along_append _ _).mp h).2

theorem scanTable_handle {devices : Table} {ds : List UsbDevice} {j : Fin maxDevs} {v : Handle}
    (h : (scanTable devices ds j).handle = some v) :
    ∃ dev, ds[j.val]? = some dev ∧ scanTable devices ds j = entry devices dev ∧
      (entry devices dev).handle = some v := by
  cases hd : ds[j.val]? with
  | none =>
    rw [scanTable, hd] at h
    exact absurd h (by simp [Device.empty])
  | some dev =>
    have htab : scanTable devices ds j = entry devices dev := by rw [scanTable, hd]; rfl
    exact ⟨dev, rfl, htab, by rwa [htab] at h⟩

theorem mem_openedBy {devices : Table} {ds : List UsbDevice} {j : Fin maxDevs} {v : Handle}
    (h : (scanTable devices ds j).handle = some v) : v ∈ openedBy devices ds := by
  obtain ⟨dev, hd, -, hv⟩ := scanTable_handle h
  exact List.mem_filterMap.mpr ⟨dev, List.mem_of_getElem? hd, hv⟩

theorem scanTable_inj {devices : Table} {ds : List UsbDevice} (hnd : (openedBy devices ds).Nodup)
    {i j : Fin maxDevs} {v : Handle} (hi : (scanTable devices ds i).handle = some v)
    (hj : (scanTable devices ds j).handle = some v) : i = j := by
  have hpair := List.pairwise_iff_getElem.mp (List.pairwise_filterMap.mp hnd)
  have hlt : ∀ {i j : Fin maxDevs}, (scanTable devices ds i).handle = some v →
      (scanTable devices ds j).handle = some v → ¬ i.val < j.val := by
    intro i j hi hj hij
    obtain ⟨d, hd, -, hdv⟩ := scanTable_handle hi
    obtain ⟨d', hd', -, hdv'⟩ := scanTable_handle hj
    obtain ⟨hil, rfl⟩ := List.getElem?_eq_some_iff.mp hd
    obtain ⟨hjl, rfl⟩ := List.getElem?_eq_some_iff.mp hd'
    exact hpair i.val j.val hil hjl hij v hdv v hdv' rfl
  exact Fin.ext (Nat.le_antisymm (Nat.le_of_not_lt (hlt hj hi)) (Nat.le_of_not_lt (hlt hi hj)))

theorem Core.slot_open (h : Core p .scan) {i : Fin maxDevs} {v : Handle}
    (hi : (p.devices i).handle = some v) : v ∈ openHandles p.calls :=
  (h.opened (.inl i) v hi).mpr (not_closing_of (by simp) _)

theorem core_scanned (h : Core p .scan) {ds : List UsbDevice} (hv : ∀ dev ∈ ds, Valid dev.location)
    (hfresh : OpensFresh (p.scanned ds).calls) : Core (p.scanned ds) (.clean firstSlot) := by
  obtain ⟨hnd, hnew⟩ := opensFresh_scanned hfresh
  refine ⟨h.table, ?_, ?_, ?_, by simp⟩
  · intro j v hj
    obtain ⟨d, hd, htab, -⟩ := scanTable_handle hj
    have hloc : (p.scanned ds).tmp j = entry p.devices d := htab
    rw [hloc]
    exact hv d (List.mem_of_getElem? hd)
  · intro a b v ha hb
    -- a handle just opened is in no slot
    have hsep : ∀ {i j : Fin maxDevs}, (p.devices i).handle = some v →
        (scanTable p.devices ds j).handle = some v → False :=
      fun hi hj => hnew v (mem_openedBy hj) (h.slot_open hi)
    cases a with
    | inl i =>
      cases b with
      | inl j => exact h.distinct (.inl i) (.inl j) v ha hb
      | inr j => exact (hsep ha hb.2).elim
    | inr i =>
      cases b with
      | inl j => exact (hsep hb ha.2).elim
      | inr j => rw [scanTable_inj hnd ha.2 hb.2]
  · intro a v ha
    refine iff_of_true ?_ (not_closing_of (by simp) a)
    rw [openHandles_scanned]
    cases a with
    | inl i => exact Finset.mem_union_left _ (h.slot_open ha)
    | inr j => exact Finset.mem_union_right _ (List.mem_toFinset.mpr (mem_openedBy ha.2))

theorem core_scan (h : Core p .scan) {scan : Scan} (hs : ScanOk scan)
    (hget : getDevices p scan = some p') (hfresh : OpensFresh p'.calls) :
    Core p' (.clean firstSlot) ∧ openHandles p.calls ⊆ openHandles p'.calls := by
  obtain rfl := Option.some.inj (hget.symm.trans (getDevices_eq p (listed_of_getDevices hget) hs.short))
  refine ⟨core_scanned h (hs.collected p).2 hfresh, ?_⟩
  rw [openHandles_scanned]
  exact Finset.subset_union_left

end Core

/-! ## Steps -/

theorem scanStep_eq_some {s s' : State} {scan : Scan} (h : scanStep s scan = some s') :
    ∃ p, ScanOk scan ∧ getDevices s.poller scan = some p ∧ OpensFresh p.calls ∧
      s' = { s with
        poller := p
        pc := .clean firstSlot
        claimed := s.claimed \ (openHandles p.calls \ openHandles s.poller.calls) } := by
  by_cases hok : ScanOk scan
  · cases hget : getDevices s.poller scan with
    | none => simp [scanStep, hget] at h
    | some p =>
      by_cases hfresh : OpensFresh p.calls
      · refine ⟨p, hok, rfl, hfresh, ?_⟩
        simpa [scanStep, hok, hget, hfresh, guard] using h.symm
      · simp [scanStep, hok, hget, hfresh, guard] at h
  · simp [scanStep, hok, guard] at h

inductive Steps (s : State) : Label → State → Prop
  | scan {scan : Scan} {p : Poller} : s.pc = .scan → ScanOk scan →
      getDevices s.poller scan = some p → OpensFresh p.calls →
      Steps s (.scan scan) { s with
        poller := p
        pc := .clean firstSlot
        claimed := s.claimed \ (openHandles p.calls \ openHandles s.poller.calls) }
  | keep {i : Fin maxDevs} : s.pc = .clean i → ¬ (s.poller.devices i).Gone s.poller.tmp →
      Steps s .clean { s with pc := afterClean i }
  | close {i : Fin maxDevs} : s.pc = .clean i → (s.poller.devices i).Gone s.poller.tmp →
      Steps s .clean { s with
        poller := s.poller.closeHandle (s.poller.devices i)
        pc := .clear i (s.poller.devices i) }
  | clear {i : Fin maxDevs} {dev : Device} : s.pc = .clear i dev →
      Steps s .clear { s with poller := s.poller.clearSlot dev, pc := afterClean i }
  | pass {i : Fin maxDevs} : s.pc = .update i → Steps s .add { s with pc := afterUpdate i }
  | add {i k : Fin maxDevs} {h : Handle} : s.pc = .update i →
      addTarget s.poller.devices (s.poller.tmp i) = some (k, h) →
      Steps s .add { s with poller := s.poller.setSlot k (s.poller.tmp i), pc := .claim i h }
  | claim {i : Fin maxDevs} {h : Handle} {ok : Bool} : s.pc = .claim i h →
      Steps s (.claim ok) (claimStep s i h ok)
  | readerLookup : s.reader = none → Steps s .readerLookup { s with
      reader := some (getDeviceHandle s.poller.devices (UInt8.ofNat s.slot)) }
  | readerTransfer : Steps s .readerTransfer { s with reader := none, slot := nextSlot s.slot }
  | listenerLookup {call : ControllerCall} : s.listener = none →
      Steps s (.listenerLookup call) { s with
        listener := some (call, getDeviceHandle s.poller.devices call.id) }
  | listenerTransfer {usb : ℤ} : Steps s (.listenerTransfer usb) { s with listener := none }

theorem step_cases {s s' : State} {a : Label} (h : step s a = some s') : Steps s a s' := by
  cases a with
  | scan scan =>
    by_cases hpc : s.pc = .scan
    · rw [step, if_pos hpc] at h
      obtain ⟨p, hok, hget, hfresh, rfl⟩ := scanStep_eq_some h
      exact .scan hpc hok hget hfresh
    · rw [step, if_neg hpc] at h
      exact absurd h (by simp)
  | clean =>
    cases hpc : s.pc <;> simp only [step, hpc, reduceCtorEq, Option.some.injEq] at h
    rename_i i
    by_cases hg : (s.poller.devices i).Gone s.poller.tmp
    · rw [cleanStep, if_pos hg] at h
      exact h ▸ .close hpc hg
    · rw [cleanStep, if_neg hg] at h
      exact h ▸ .keep hpc hg
  | clear =>
    cases hpc : s.pc <;> simp only [step, hpc, reduceCtorEq, Option.some.injEq] at h
    exact h ▸ .clear hpc
  | add =>
    cases hpc : s.pc <;> simp only [step, hpc, reduceCtorEq, Option.some.injEq] at h
    rename_i i
    rw [addStep] at h
    cases ht : addTarget s.poller.devices (s.poller.tmp i) with
    | none =>
      rw [ht] at h
      exact h ▸ .pass hpc
    | some target =>
      rw [ht] at h
      exact h ▸ .add hpc ht
  | claim ok =>
    cases hpc : s.pc <;> simp only [step, hpc, reduceCtorEq, Option.some.injEq] at h
    exact h ▸ .claim hpc
  | readerLookup =>
    by_cases hr : s.pc.locked = false ∧ s.reader = none
    · rw [step, if_pos hr, Option.some.injEq] at h
      exact h ▸ .readerLookup hr.2
    · rw [step, if_neg hr] at h
      exact absurd h (by simp)
  | readerTransfer =>
    cases hr : s.reader <;> simp only [step, hr, reduceCtorEq, Option.some.injEq] at h
    exact h ▸ .readerTransfer
  | listenerLookup call =>
    by_cases hr : (s.pc.locked = false ∨ maxDevs ≤ call.id.toNat) ∧ s.listener = none
    · rw [step, if_pos hr, Option.some.injEq] at h
      exact h ▸ .listenerLookup hr.2
    · rw [step, if_neg hr] at h
      exact absurd h (by simp)
  | listenerTransfer usb =>
    cases hr : s.listener <;> simp only [step, hr, reduceCtorEq, Option.some.injEq] at h
    exact h ▸ .listenerTransfer

theorem core_step {s s' : State} {a : Label} (h : Core s.poller s.pc) (hs : step s a = some s') :
    Core s'.poller s'.pc := by
  cases step_cases hs with
  | scan hpc hok hget hfresh => exact (core_scan (hpc ▸ h) hok hget hfresh).1
  | keep hpc hg => exact core_skip (hpc ▸ h)
  | close hpc hg => exact core_close (hpc ▸ h) hg
  | clear hpc => exact core_clear (hpc ▸ h)
  | pass hpc => exact core_pass (hpc ▸ h)
  | add hpc ht => exact core_add (hpc ▸ h) ht
  | claim hpc => exact core_claim (hpc ▸ h) _
  | readerLookup hr => exact h
  | readerTransfer => exact h
  | listenerLookup hr => exact h
  | listenerTransfer => exact h

theorem core_initial (vendorId productId : UInt16) :
    Core (initDevices vendorId productId) .scan := by
  refine ⟨⟨_, represents_empty⟩, ?_, ?_, ?_, by simp⟩
  · exact fun j v hj => absurd hj (by simp [initDevices, Device.empty])
  · intro a b v ha _
    cases a with
    | inl i => exact absurd ha (by simp [Owns, initDevices, Device.empty])
    | inr j => exact absurd ha.1 id
  · intro a v ha
    cases a with
    | inl i => exact absurd ha (by simp [Owns, initDevices, Device.empty])
    | inr j => exact absurd ha.1 id

/-- In any interleaving a handle is in one slot only, and is open until its slot is about to be
emptied. -/
theorem core_after {vendorId productId : UInt16} {ls : List Label} {s : State}
    (h : after step (initial vendorId productId) ls = some s) : Core s.poller s.pc :=
  invariant_after (I := fun s => Core s.poller s.pc) (fun _ _ _ hc hs => core_step hc hs)
    (core_initial vendorId productId) h

/-! ## The handles of the other threads -/

theorem onHandle_none (call : ControllerCall) (usb : ℤ) : (call.onHandle none usb).2 = [] := by
  cases call <;> rfl

theorem onHandle_some (call : ControllerCall) (h : Handle) (usb : ℤ) :
    (call.onHandle (some h) usb).2.map OutTransfer.handle = [h] := by
  cases call <;> rfl

theorem transfersLive_iff_holds (s : State) : TransfersLive s ↔ ∀ h, Holds s h → Live s h := by
  constructor
  · rintro hl h (hr | ⟨call, hr⟩)
    · exact hl .readerTransfer h (by simp [transferHandles, hr])
    · refine hl (.listenerTransfer 0) h ?_
      simp only [transferHandles, hr, onHandle_some, List.mem_singleton]
  · intro hl a h hmem
    cases a with
    | readerTransfer =>
      refine hl h (.inl ?_)
      cases hr : s.reader with
      | none => simp [transferHandles, hr] at hmem
      | some handle =>
        cases handle with
        | none => simp [transferHandles, hr] at hmem
        | some v =>
          simp only [transferHandles, hr, Option.getD_some, Option.toList_some,
            List.mem_singleton] at hmem
          rw [hmem]
    | listenerTransfer usb =>
      cases hr : s.listener with
      | none => simp [transferHandles, hr] at hmem
      | some held =>
        obtain ⟨call, handle⟩ := held
        cases handle with
        | none => simp [transferHandles, hr, onHandle_none] at hmem
        | some v =>
          simp only [transferHandles, hr, onHandle_some, List.mem_singleton] at hmem
          exact hl h (.inr ⟨call, by rw [hmem, hr]⟩)
    | _ => simp [transferHandles] at hmem

theorem usable_iff {s : State} (h : Core s.poller s.pc) (i : Fin maxDevs) :
    Usable s i ↔ ∀ v, (s.poller.devices i).handle = some v → Live s v := by
  refine forall_congr' fun v => forall_congr' fun hv => ?_
  have hopen := h.opened (.inl i) v hv
  have hclosing : ¬ Closing s.pc (.inl i) ↔ ∀ dev, s.pc ≠ .clear i dev := not_exists
  rw [Live, hopen, hclosing, and_comm]

section Guard
variable {s s' : State}

theorem live_of_le (hp : TransfersLive s) (hholds : ∀ v, Holds s' v → Holds s v)
    (hlive : ∀ v, Live s v → Live s' v) : TransfersLive s' :=
  (transfersLive_iff_holds s').mpr fun v hv =>
    hlive v ((transfersLive_iff_holds s).mp hp v (hholds v hv))

theorem live_of_lookup (hp : TransfersLive s) {handle : Option Handle}
    (hholds : ∀ v, Holds s' v ↔ Holds s v ∨ handle = some v)
    (hlive : ∀ v, Live s' v ↔ Live s v) : TransfersLive s' ↔ ∀ v, handle = some v → Live s v := by
  rw [transfersLive_iff_holds]
  constructor
  · exact fun hl v hv => (hlive v).mp (hl v ((hholds v).mpr (.inr hv)))
  · intro hl v hv
    rw [hlive v]
    rcases (hholds v).mp hv with hv | hv
    · exact (transfersLive_iff_holds s).mp hp v hv
    · exact hl v hv

theorem transfersLive_close {i : Fin maxDevs} (h : Core s.poller s.pc) (hp : TransfersLive s)
    (hpc : s.pc = .clean i) (hg : (s.poller.devices i).Gone s.poller.tmp) :
    TransfersLive { s with
      poller := s.poller.closeHandle (s.poller.devices i)
      pc := .clear i (s.poller.devices i) } ↔ Guard s .clean := by
  obtain ⟨v, hv⟩ := h.handle_of_bus hg.1.1
  have hclose : s.poller.closeHandle (s.poller.devices i) = s.poller.log (.closeHandle v) := by
    rw [Poller.closeHandle, hv]
  have hguard : Guard s .clean ↔ ¬ Holds s v := by
    constructor
    · exact fun hg' => hg' i v hpc hg hv
    · intro hn k w hk _ hw
      rw [hpc] at hk
      obtain rfl := Pc.clean.inj hk
      rwa [← Option.some.inj (hv.symm.trans hw)]
  have hlive : ∀ w, Live { s with
      poller := s.poller.closeHandle (s.poller.devices i)
      pc := .clear i (s.poller.devices i) } w ↔ w ≠ v ∧ Live s w := by
    intro w
    have hopen : openHandles (s.poller.log (.closeHandle v)).calls =
        (openHandles s.poller.calls).erase v := openHandles_close _ v
    simp only [Live, hclose, hopen, Finset.mem_erase, and_assoc]
  rw [hguard, transfersLive_iff_holds]
  constructor
  · intro hl hheld
    exact ((hlive v).mp (hl v hheld)).1 rfl
  · intro hn w hw
    refine (hlive w).mpr ⟨?_, (transfersLive_iff_holds s).mp hp w hw⟩
    rintro rfl
    exact hn hw

theorem transfersLive_readerLookup (h : Core s.poller s.pc) (hp : TransfersLive s)
    (hr : s.reader = none) :
    TransfersLive { s with
      reader := some (getDeviceHandle s.poller.devices (UInt8.ofNat s.slot)) } ↔
      Guard s .readerLookup := by
  have hguard : Guard s .readerLookup ↔ ∀ v, (s.poller.devices s.slot).handle = some v →
      Live s v := usable_iff h s.slot
  rw [hguard]
  refine live_of_lookup hp (fun v => ?_) fun _ => Iff.rfl
  rw [← getDeviceHandle_slot s.poller.devices s.slot (slot_toNat s.slot)]
  simp [Holds, hr, or_comm]

theorem transfersLive_listenerLookup (h : Core s.poller s.pc) (hp : TransfersLive s)
    (hr : s.listener = none) (call : ControllerCall) :
    TransfersLive { s with
      listener := some (call, getDeviceHandle s.poller.devices call.id) } ↔
      Guard s (.listenerLookup call) := by
  have hholds : ∀ v, Holds { s with
      listener := some (call, getDeviceHandle s.poller.devices call.id) } v ↔
        Holds s v ∨ getDeviceHandle s.poller.devices call.id = some v := by
    intro v
    simp [Holds, hr]
  rw [live_of_lookup hp hholds fun _ => Iff.rfl]
  by_cases hid : call.id.toNat < maxDevs
  · have hval : call.id.toNat = (⟨call.id.toNat, hid⟩ : Fin maxDevs).val := rfl
    rw [getDeviceHandle_slot s.poller.devices ⟨call.id.toNat, hid⟩ hval, ← usable_iff h]
    constructor
    · intro hu i hi
      obtain rfl : i = ⟨call.id.toNat, hid⟩ := Fin.ext hi.symm
      exact hu
    · exact fun hg => hg _ rfl
  · have hget : getDeviceHandle s.poller.devices call.id = none := dif_neg hid
    rw [hget]
    refine iff_of_true (fun v hv => absurd hv (by simp)) fun i hi => ?_
    exact absurd (hi ▸ i.isLt) hid

/-- Exactly the guarded steps keep the held handles live. -/
theorem transfersLive_step {a : Label} (h : Core s.poller s.pc) (hp : TransfersLive s)
    (hs : step s a = some s') : TransfersLive s' ↔ Guard s a := by
  cases step_cases hs with
  | scan hpc hok hget hfresh =>
    have hsub := (core_scan (hpc ▸ h) hok hget hfresh).2
    refine iff_of_true (live_of_le hp (fun _ hv => hv) fun v hv => ⟨hsub hv.1, ?_⟩) trivial
    exact Finset.mem_sdiff.mpr ⟨hv.2, fun hm => (Finset.mem_sdiff.mp hm).2 hv.1⟩
  | keep hpc hg =>
    refine iff_of_true (live_of_le hp (fun _ hv => hv) fun _ hv => hv) ?_
    intro i v hi hgone _
    rw [hpc] at hi
    obtain rfl := Pc.clean.inj hi
    exact absurd hgone hg
  | close hpc hg => exact transfersLive_close h hp hpc hg
  | @clear i dev hpc =>
    have hcalls : (s.poller.clearSlot dev).calls = s.poller.calls := by
      rw [Poller.clearSlot]
      split <;> rfl
    refine iff_of_true (live_of_le hp (fun _ hv => hv) fun v hv => ⟨?_, hv.2⟩) trivial
    rw [hcalls]
    exact hv.1
  | pass hpc => exact iff_of_true (live_of_le hp (fun _ hv => hv) fun _ hv => hv) trivial
  | add hpc ht => exact iff_of_true (live_of_le hp (fun _ hv => hv) fun _ hv => hv) trivial
  | @claim i w ok hpc =>
    refine iff_of_true (live_of_le hp (fun _ hv => hv) fun v hv => ⟨?_, ?_⟩) trivial
    · have hopen : openHandles (claimHandle s.poller w).calls = openHandles s.poller.calls :=
        openHandles_claim _ w
      exact hopen ▸ hv.1
    · cases ok with
      | true => exact Finset.mem_insert_of_mem hv.2
      | false => exact hv.2
  | readerLookup hr => exact transfersLive_readerLookup h hp hr
  | readerTransfer =>
    refine iff_of_true (live_of_le hp (fun v hv => ?_) fun _ hv => hv) trivial
    rcases hv with hv | hv
    · exact absurd hv (by simp)
    · exact .inr hv
  | @listenerLookup call hr => exact transfersLive_listenerLookup h hp hr call
  | listenerTransfer =>
    refine iff_of_true (live_of_le hp (fun v hv => ?_) fun _ hv => hv) trivial
    rcases hv with hv | ⟨call, hv⟩
    · exact .inl hv
    · exact absurd hv (by simp)

end Guard

/-- **No transfer on a dead or unclaimed handle** comes in a run exactly when all its steps are
guarded. -/
theorem transfersLive_iff_guard (vendorId productId : UInt16) (ls : List Label) :
    AllStates step TransfersLive (initial vendorId productId) ls ↔
      AllSteps step Guard (initial vendorId productId) ls := by
  refine allStates_iff_allSteps (I := fun s => Core s.poller s.pc)
    (fun s a s' h hs => core_step h hs) (fun s a s' h hp hs => transfersLive_step h hp hs)
    (core_initial vendorId productId) ?_ ls
  rw [transfersLive_iff_holds]
  rintro h (hr | ⟨call, hr⟩)
  · exact absurd hr (by simp [initial])
  · exact absurd hr (by simp [initial])

/-- The reader looks up a controller that the next iteration closes before the transfer. -/
def unpluggedRun : List Label :=
  [.scan (some [controllerAt 2 10]), .clean, .clean, .clean, .clean, .add, .claim true, .add, .add,
    .add, .readerLookup, .scan (some []), .clean]

theorem not_transfersLive_unplugged :
    ∃ s, after step (initial 0x045e 0x028e) unpluggedRun = some s ∧ ¬ TransfersLive s := by
  refine ⟨(after step (initial 0x045e 0x028e) unpluggedRun).get (by decide),
    (Option.some_get _).symm, fun hl => ?_⟩
  exact absurd (hl .readerTransfer 10 (by decide)).1 (by decide)

end El32.Threads

import El32.Xbc.HandleAccounting
import Mathlib.Data.List.TakeWhile

/-! One poll cycle on a successful scan, against the table it is meant to keep.

The slots of devices that are still there stay, the others are emptied and their handles closed,
and the new devices come, in the order of the list, into the lowest empty slots. -/
namespace El32.Devices
open Controller
set_option autoImplicit false

def Device.location (dev : Device) : Location := (dev.bus, dev.address)

def emptySlots (devices : Table) : List (Fin maxDevs) :=
  (List.finRange maxDevs).filter fun i => devices i = Device.empty

/-- The devices of the scan that are not in the table and whose open succeeded. -/
def newDevices (devices : Table) (S : List UsbDevice) : List Device :=
  (S.map (entry devices)).filter (·.handle.isSome)

def AllReadable (devs : List UsbDevice) : Prop := ∀ dev ∈ devs, dev.descriptor ≠ none

/-- The first `MAX_DEVS` entries with the wanted ids. -/
def wanted (p : Poller) (devs : List UsbDevice) : List UsbDevice :=
  (devs.filter fun dev => p.Wanted dev).take maxDevs

/-- One cycle from `p` on a scan with the wanted entries `S`: `p₁` is the state after `listClean`,
`p₂` the one after `listUpdateDevices`, and `added` are the calls of the cycle. -/
structure Cycle (p p₁ p₂ : Poller) (S : List UsbDevice) (added : List UsbCall) : Prop where
  refines : ∃ t, Represents p.devices t ∧ Represents p₂.devices (t.refresh (offers S))
  kept : ∀ i, (p.devices i).location ∈ S.map UsbDevice.location →
    p₁.devices i = p.devices i ∧ p₂.devices i = p.devices i
  emptied : ∀ i, (p.devices i).location ∉ S.map UsbDevice.location →
    p₁.devices i = Device.empty
  closed : ∀ i h, (p.devices i).handle = some h → added.count (.closeHandle h) =
    if (p.devices i).location ∈ S.map UsbDevice.location then 0 else 1
  /-- Nothing is dropped: there is an empty slot for every new device. -/
  room : (newDevices p.devices S).length ≤ (emptySlots p₁.devices).length
  placed : ∀ (m : ℕ) (i : Fin maxDevs), (emptySlots p₁.devices)[m]? = some i →
    p₂.devices i = ((newDevices p.devices S)[m]?).getD Device.empty
  unchanged : ∀ i, p₁.devices i ≠ Device.empty → p₂.devices i = p₁.devices i
  calls : p₂.calls = p.calls ++ added
  notReopened : ∀ b a r, .openDevice b a r ∈ added →
    known p.devices (b.toInt8, a.toInt8) = false

section Cycle
variable {p : Poller} {t : SlotTable maxDevs Location Handle} {S : List UsbDevice}
  {devices₁ devices₂ : Table}

theorem collected_of_allReadable {devs : List UsbDevice} (h : AllReadable devs) :
    collected p (some devs) = wanted p devs := by
  have hread : readable devs = devs :=
    List.takeWhile_eq_self_iff.mpr fun dev hdev => Option.isSome_iff_ne_none.mpr (h dev hdev)
  rw [collected, hread, wanted]

theorem toDevice_eq_empty {o : Option (Location × Handle)} :
    toDevice o = Device.empty ↔ o = none := by
  cases o with
  | none => simp [toDevice]
  | some e => simp [toDevice, Device.empty]

theorem Represents.emptySlots_eq {devices : Table} (h : Represents devices t) :
    emptySlots devices = t.free := by
  apply List.filter_congr
  intro i _
  rw [h.slot i, Bool.eq_iff_iff, decide_eq_true_iff, toDevice_eq_empty, Option.isNone_iff_eq_none]

theorem Represents.location_mem (h : Represents p.devices t) {ks : List Location}
    (hks : ∀ k ∈ ks, Valid k) {i : Fin maxDevs} (hi : (p.devices i).location ∈ ks) :
    ∃ e, t.slot i = some e ∧ e.1 ∈ ks := by
  rw [h.slot i] at hi
  cases hs : t.slot i with
  | none =>
    rw [hs] at hi
    exact absurd rfl (hks _ hi).1
  | some e =>
    rw [hs] at hi
    exact ⟨e, rfl, hi⟩

theorem keepOffered_slot_some {i : Fin maxDevs} {e : Location × Handle} :
    (t.keepOffered (offers S)).slot i = some e ↔
      t.slot i = some e ∧ e.1 ∈ S.map UsbDevice.location := by
  rw [SlotTable.keepOffered_slot_some, map_fst_offers]

theorem slot_kept (h : Represents p.devices t)
    (hrep₁ : Represents devices₁ (t.keepOffered (offers S)))
    (hrep₂ : Represents devices₂ (t.refresh (offers S)))
    (hplaced : SlotTable.Placed (t.keepOffered (offers S)) (t.refresh (offers S))
      (t.fresh (offers S))) (hks : ∀ k ∈ S.map UsbDevice.location, Valid k) {i : Fin maxDevs}
    (hi : (p.devices i).location ∈ S.map UsbDevice.location) :
    devices₁ i = p.devices i ∧ devices₂ i = p.devices i := by
  obtain ⟨e, he, hmem⟩ := h.location_mem hks hi
  have hkeep := keepOffered_slot_some.mpr ⟨he, hmem⟩
  rw [hrep₁.slot i, hrep₂.slot i, hplaced.occupied i (by simp [hkeep]), hkeep, h.slot i, he]
  exact ⟨rfl, rfl⟩

theorem slot_emptied (h : Represents p.devices t)
    (hrep₁ : Represents devices₁ (t.keepOffered (offers S))) {i : Fin maxDevs}
    (hi : (p.devices i).location ∉ S.map UsbDevice.location) : devices₁ i = Device.empty := by
  rw [hrep₁.slot i, toDevice_eq_empty]
  by_contra hne
  obtain ⟨e, he⟩ := Option.ne_none_iff_exists'.mp hne
  obtain ⟨hs, hmem⟩ := keepOffered_slot_some.mp he
  rw [h.slot i, hs] at hi
  exact hi hmem

theorem openCall_mem {b a : UInt8} {r : Option Handle}
    (h : .openDevice b a r ∈ S.filterMap (openOf p.devices)) :
    known p.devices (b.toInt8, a.toInt8) = false := by
  obtain ⟨dev, hk, hc⟩ := mem_opens h
  obtain ⟨rfl, rfl, -⟩ := UsbCall.openDevice.inj hc
  exact hk

theorem count_close (h : Accounts p t) {k : Location} {v : Handle} {i : Fin maxDevs}
    (hs : t.slot i = some (k, v)) :
    (S.filterMap (openOf p.devices) ++ closesOf t S ++ claimsOf t S).count (.closeHandle v) =
      if k ∈ S.map UsbDevice.location then 0 else 1 := by
  have hopen : (S.filterMap (openOf p.devices)).count (.closeHandle v) = 0 :=
    List.count_eq_zero.mpr (closeHandle_not_mem_opens p.devices S v)
  have hclaim : (claimsOf t S).count (.closeHandle v) = 0 :=
    List.count_eq_zero.mpr (closeHandle_not_mem_claims _ v)
  have hinj : Function.Injective UsbCall.closeHandle := fun _ _ hab => UsbCall.closeHandle.inj hab
  rw [List.count_append, List.count_append, hopen, hclaim, closesOf,
    List.count_map_of_injective _ _ hinj, Nat.zero_add, Nat.add_zero]
  have hmem : (k, v) ∈ t.entries := SlotTable.mem_entries.mpr ⟨i, hs⟩
  have hsub : ((t.dropped (offers S)).map Prod.snd).Sublist (t.entries.map Prod.snd) :=
    List.filter_sublist.map _
  split
  · rename_i hk
    apply List.count_eq_zero.mpr
    intro hv
    obtain ⟨e, he, hev⟩ := List.mem_map.mp hv
    obtain ⟨he, hne⟩ := SlotTable.mem_dropped.mp he
    have hek := List.inj_on_of_nodup_map h.distinct he hmem hev
    rw [hek, map_fst_offers] at hne
    exact hne hk
  · rename_i hk
    refine List.count_eq_one_of_mem (hsub.nodup h.distinct) (List.mem_map.mpr ⟨(k, v), ?_, rfl⟩)
    exact SlotTable.mem_dropped.mpr ⟨hmem, by rwa [map_fst_offers]⟩

/-- **One poll cycle refines the table.** -/
theorem poll_cycle {vendorId productId : UInt16} (hp : Reachable vendorId productId p)
    {devs : List UsbDevice} (hs : ScanOk (some devs)) (hread : AllReadable devs) :
    ∃ q p₂ added, getDevices p (some devs) = some q ∧ pollIteration p (some devs) = some p₂ ∧
      Cycle p (listClean q) p₂ (wanted p devs) added := by
  obtain ⟨t, ht⟩ := hp.accounts
  have hS := collected_of_allReadable (p := p) hread
  have hlen := collected_length p (some devs)
  obtain ⟨hnd, hv⟩ := hs.collected p
  have hlist : some devs ≠ none := Option.some_ne_none devs
  have hget := getDevices_eq p hlist hs.short
  obtain ⟨devices₂, hrep₂, hpoll⟩ := represents_pollIteration ht.table hs hlist hS
  rw [hS] at hlen hnd hv hget
  generalize wanted p devs = S at *
  obtain ⟨devices₁, hrep₁, hclean⟩ := represents_listClean_scanned ht.table hlen
  have hplaced := placed_offers t hnd hlen
  have hks : ∀ k ∈ S.map UsbDevice.location, Valid k := by
    intro k hk
    obtain ⟨dev, hdev, rfl⟩ := List.mem_map.mp hk
    exact hv dev hdev
  have hnew : newDevices p.devices S = (t.fresh (offers S)).map fun e => toDevice (some e) :=
    ht.table.filter_entry hv
  refine ⟨_, _, S.filterMap (openOf p.devices) ++ closesOf t S ++ claimsOf t S, hget, hpoll, ?_⟩
  rw [hclean]
  exact {
    refines := ⟨t, ht.table, hrep₂⟩
    kept := fun i hi => slot_kept ht.table hrep₁ hrep₂ hplaced hks hi
    emptied := fun i hi => slot_emptied ht.table hrep₁ hi
    closed := by
      intro i v hi
      obtain ⟨k, hk⟩ := ht.table.handle_eq_some.mp hi
      have hloc : (p.devices i).location = k := by
        rw [ht.table.slot i, hk]
        rfl
      rw [count_close ht hk, hloc]
    room := by
      rw [hnew, hrep₁.emptySlots_eq, List.length_map]
      exact (fits_offers t hnd hlen).room
    placed := by
      intro m i hm
      rw [hrep₁.emptySlots_eq] at hm
      have hslot := hplaced.inOrder m i hm
      rw [hnew, List.getElem?_map]
      show devices₂ i = _
      rw [hrep₂.slot i, hslot]
      cases (t.fresh (offers S))[m]? <;> rfl
    unchanged := by
      intro i hi
      change devices₁ i ≠ Device.empty at hi
      show devices₂ i = devices₁ i
      rw [hrep₁.slot i, Ne, toDevice_eq_empty] at hi
      rw [hrep₁.slot i, hrep₂.slot i, hplaced.occupied i hi]
    calls := rfl
    notReopened := by
      intro b a r hmem
      rcases List.mem_append.mp hmem with hmem | hmem
      · rcases List.mem_append.mp hmem with hmem | hmem
        · exact openCall_mem hmem
        · obtain ⟨w, -, hw⟩ := List.mem_map.mp hmem
          exact absurd hw (by simp)
      · obtain ⟨w, -, hw⟩ := List.mem_map.mp hmem
        exact absurd hw (by simp) }

end Cycle

/-- The second of two controllers is unplugged and another one plugged in. -/
def swapScan : List UsbDevice := [controllerAt 3 12, controllerAt 4 13]

theorem poll_cycle_swapScan :
    ∃ q p₂ added, getDevices pluggedIn (some swapScan) = some q ∧
      pollIteration pluggedIn (some swapScan) = some p₂ ∧
      Cycle pluggedIn (listClean q) p₂ (wanted pluggedIn swapScan) added :=
  poll_cycle reachable_pluggedIn (by decide) (by unfold AllReadable; decide)

end El32.Devices

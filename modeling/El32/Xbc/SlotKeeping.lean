import El32.Foundations.Transition
import El32.Xbc.PollCycle

/-! When a connected controller keeps its slot.

A scan looks at the first `MAX_DEVS` controllers of the list, and `listClean` takes every other one
for unplugged. The list may be of any length: the 8-bit index of the scan sees its first 256
entries, and goes round them until the limit is reached. -/
namespace El32.Devices
open Controller Transition
set_option autoImplicit false

/-! ## A scan of any length -/

def matching (p : Poller) (devs : List UsbDevice) : List UsbDevice :=
  devs.filter fun dev => p.Wanted dev

/-- The entries that the index of the scan can reach. -/
def seen (devs : List UsbDevice) : List UsbDevice := devs.take 256

/-- What the scan has collected when its index is `i`: in its first round the controllers before
`i`, later all of them, some more than once, and they are too few. -/
def Collected (p : Poller) (devs : List UsbDevice) (i : UInt8) (ds : List UsbDevice) : Prop :=
  ds = matching p (devs.take i.toNat) ∨
    (∀ dev, dev ∈ ds ↔ dev ∈ matching p (seen devs)) ∧ (matching p (seen devs)).length < maxDevs

section Scan
variable {p : Poller} {devs ds : List UsbDevice} {i : UInt8} {dev : UsbDevice}

theorem matching_append (p : Poller) (devs devs' : List UsbDevice) :
    matching p (devs ++ devs') = matching p devs ++ matching p devs' := List.filter_append ..

theorem matching_prefix (p : Poller) (devs : List UsbDevice) {k : ℕ} (h : k ≤ 256) :
    matching p (devs.take k) <+: matching p (seen devs) := by
  obtain ⟨r, hr⟩ := List.take_prefix_take_left (l := devs) h
  exact ⟨matching p r, by rw [seen, ← hr, matching_append]⟩

theorem matching_take_succ {k : ℕ} (h : devs[k]? = some dev) :
    matching p (devs.take (k + 1)) = matching p (devs.take k) ++ matching p [dev] := by
  rw [List.take_add_one, h, matching_append]
  rfl

theorem mem_seen (h : devs[i.toNat]? = some dev) : dev ∈ seen devs := by
  have hget : (seen devs)[i.toNat]? = some dev := by
    rw [seen, List.getElem?_take_of_lt i.toNat_lt, h]
  exact List.mem_of_getElem? hget

theorem mem_wanted_of_few (h : (matching p devs).length < maxDevs) :
    dev ∈ wanted p devs ↔ dev ∈ matching p devs := by
  have hall : wanted p devs = matching p devs := List.take_of_length_le (Nat.le_of_lt h)
  rw [hall]

/-- A later round meets no controller that is not collected. -/
theorem mem_append_matching (hsome : devs[i.toNat]? = some dev)
    (hall : ∀ dev, dev ∈ ds ↔ dev ∈ matching p (seen devs)) {d : UsbDevice} :
    d ∈ ds ++ matching p [dev] ↔ d ∈ ds := by
  rw [List.mem_append]
  refine or_iff_left_of_imp fun hd => ?_
  obtain ⟨hd, hw⟩ := List.mem_filter.mp hd
  obtain rfl := List.mem_singleton.mp hd
  exact (hall d).mpr (List.mem_filter.mpr ⟨mem_seen hsome, hw⟩)

theorem Collected.next (h : Collected p devs i ds) (hsome : devs[i.toNat]? = some dev)
    (hroom : (ds ++ matching p [dev]).length < maxDevs) :
    Collected p devs (i + 1) (ds ++ matching p [dev]) := by
  have hi := i.toNat_lt
  rcases h with rfl | ⟨hall, hfew⟩
  · rw [← matching_take_succ hsome] at hroom ⊢
    by_cases hlast : i.toNat = 255
    · rw [hlast] at hroom ⊢
      exact .inr ⟨fun _ => Iff.rfl, hroom⟩
    · have hnext : (i + 1).toNat = i.toNat + 1 := by
        rw [UInt8.toNat_add]
        exact Nat.mod_eq_of_lt (show i.toNat + 1 < 256 by omega)
      exact .inl (by rw [hnext])
  · exact .inr ⟨fun d => by rw [mem_append_matching hsome hall, hall], hfew⟩

theorem Collected.done (h : Collected p devs i ds) (hnone : devs[i.toNat]? = none)
    (hroom : ds.length < maxDevs) : dev ∈ ds ↔ dev ∈ wanted p (seen devs) := by
  have hi := i.toNat_lt
  have hend : devs.length ≤ i.toNat := List.getElem?_eq_none_iff.mp hnone
  rcases h with rfl | ⟨hall, hfew⟩
  · have hwhole : seen devs = devs.take i.toNat := by
      rw [seen, List.take_of_length_le (by omega), List.take_of_length_le hend]
    rw [hwhole, mem_wanted_of_few hroom]
  · rw [mem_wanted_of_few hfew, hall]

theorem Collected.full (h : Collected p devs i ds) (hsome : devs[i.toNat]? = some dev)
    (hlen : (ds ++ matching p [dev]).length = maxDevs) {d : UsbDevice} :
    d ∈ ds ++ matching p [dev] ↔ d ∈ wanted p (seen devs) := by
  rcases h with rfl | ⟨hall, hfew⟩
  · rw [← matching_take_succ hsome] at hlen ⊢
    have hpre := matching_prefix p devs (show i.toNat + 1 ≤ 256 from i.toNat_lt)
    rw [List.prefix_iff_eq_take.mp hpre, hlen]
    rfl
  · rw [mem_wanted_of_few hfew, mem_append_matching hsome hall, hall]

/-- A scan that is done has collected the first `MAX_DEVS` controllers that it saw. -/
theorem scanLoop_collected (hread : AllReadable devs) {fuel : ℕ} {id : Fin maxDevs} {q : Poller}
    (hid : ds.length = id.val) (hc : Collected p devs i ds)
    (h : scanLoop devs fuel i id (p.scanned ds) = some q) :
    ∃ ds', q = p.scanned ds' ∧ ds'.length ≤ maxDevs ∧
      ∀ dev, dev ∈ ds' ↔ dev ∈ wanted p (seen devs) := by
  induction fuel generalizing i id ds with
  | zero => simp [scanLoop] at h
  | succ fuel ih =>
    cases hsome : devs[i.toNat]? with
    | none =>
      obtain rfl : p.scanned ds = q := by simpa [scanLoop, hsome] using h
      exact ⟨ds, rfl, by omega, fun dev => hc.done hsome (by omega)⟩
    | some dev =>
      have hdesc : dev.descriptor ≠ none := hread dev (List.mem_of_getElem? hsome)
      by_cases hw : p.Wanted dev
      · have hone : matching p [dev] = [dev] := List.filter_cons_of_pos (by simpa using hw)
        have hlen : (ds ++ [dev]).length = id.val + 1 := by simp [hid]
        rw [scanLoop_wanted fuel hsome hw hid] at h
        by_cases hfull : id.val + 1 < maxDevs
        · rw [dif_pos hfull] at h
          have hnext := hc.next hsome (by rw [hone]; omega)
          rw [hone] at hnext
          exact ih hlen hnext h
        · rw [dif_neg hfull] at h
          refine ⟨ds ++ [dev], (Option.some.inj h).symm, by omega, fun d => ?_⟩
          rw [← hone]
          exact hc.full hsome (by rw [hone]; omega)
      · have hnone : matching p [dev] = [] := List.filter_cons_of_neg (by simpa using hw)
        rw [scanLoop_other fuel hsome hdesc hw] at h
        have hnext := hc.next hsome (by rw [hnone, List.append_nil]; omega)
        rw [hnone, List.append_nil] at hnext
        exact ih hid hnext h

theorem getDevices_collected (hread : AllReadable devs) {q : Poller}
    (h : getDevices p (some devs) = some q) :
    ∃ ds, q = p.scanned ds ∧ ds.length ≤ maxDevs ∧
      ∀ dev, dev ∈ ds ↔ dev ∈ wanted p (seen devs) := by
  simp only [getDevices, start_scanned] at h
  have hid : ([] : List UsbDevice).length = (⟨0, maxDevs_pos⟩ : Fin maxDevs).val := rfl
  exact scanLoop_collected hread hid (.inl rfl) h

end Scan

/-! ## Slots that are kept -/

/-- Where the list has a controller. -/
def present (p : Poller) (devs : List UsbDevice) : List Location :=
  (matching p devs).map UsbDevice.location

/-- A controller that has a slot and is in the list keeps its slot and its handle. -/
def KeepsSlots (p : Poller) (devs : List UsbDevice) (p' : Poller) : Prop :=
  ∀ i, (p.devices i).location ∈ present p devs → p'.devices i = p.devices i

/-- A controller that has a slot and is in the list is among the first `MAX_DEVS` that the scan can
see. -/
def WithinLimit (p : Poller) (devs : List UsbDevice) : Prop :=
  ∀ i, (p.devices i).location ∈ present p devs →
    (p.devices i).location ∈ (wanted p (seen devs)).map UsbDevice.location

/-- No bus and no address has the number that is -1 in 8 bits. -/
def Numbered (devs : List UsbDevice) : Prop := ∀ dev ∈ devs, Valid dev.location

instance decidableValid (k : Location) : Decidable (Valid k) :=
  inferInstanceAs (Decidable (k.1 ≠ -1 ∧ k.2 ≠ -1))

instance decidableNumbered (devs : List UsbDevice) : Decidable (Numbered devs) :=
  inferInstanceAs (Decidable (∀ dev ∈ devs, Valid dev.location))

instance decidableAllReadable (devs : List UsbDevice) : Decidable (AllReadable devs) :=
  inferInstanceAs (Decidable (∀ dev ∈ devs, dev.descriptor ≠ none))

instance decidableKeepsSlots (p : Poller) (devs : List UsbDevice) (p' : Poller) :
    Decidable (KeepsSlots p devs p') :=
  inferInstanceAs (Decidable (∀ i, (p.devices i).location ∈ present p devs →
    p'.devices i = p.devices i))

/-- One iteration of the polling thread on a successful scan. -/
def cycle (p : Poller) (devs : List UsbDevice) : Option Poller :=
  if Numbered devs ∧ AllReadable devs then pollIteration p (some devs) else none

def Table.IsSlotTable (devices : Table) : Prop := ∃ t, Represents devices t

section Keeping
variable {p p' : Poller} {devs ds : List UsbDevice} {t : SlotTable maxDevs Location Handle}

theorem Represents.listTryAdd_place (h : Represents p.devices t) {e : Location × Handle}
    (hv : Valid e.1) : Represents (listTryAdd p (toDevice (some e))).devices (t.place e) := by
  have htarget := h.addTarget_eq hv
  by_cases hhas : t.Has e.1
  · have hsame : t.place e = t := dif_pos hhas
    rw [if_pos hhas] at htarget
    rw [listTryAdd, htarget, hsame]
    exact h
  · cases hf : t.free with
    | nil =>
      have hsame : t.place e = t := by
        rw [SlotTable.place, dif_neg hhas, hf]
        rfl
      rw [if_neg hhas, hf] at htarget
      rw [listTryAdd, htarget, hsame]
      exact h
    | cons i r =>
      obtain ⟨devices, hrep, hadd⟩ := h.listTryAdd_new hv hhas hf
      rw [hadd]
      exact hrep

/-- Adding places the devices that have a handle, those of them that are new and find room. -/
theorem Represents.foldl_listTryAdd_place (h : Represents p.devices t) {list : List Device}
    (hv : ∀ dev ∈ list, dev.handle ≠ none → Valid dev.location) :
    ∃ es, (∀ e ∈ es, toDevice (some e) ∈ list) ∧
      Represents (list.foldl listTryAdd p).devices (t.placeAll es) := by
  induction list generalizing p t with
  | nil => exact ⟨[], by simp, h⟩
  | cons dev list ih =>
    have hv' : ∀ d ∈ list, d.handle ≠ none → Valid d.location :=
      fun d hd => hv d (List.mem_cons_of_mem dev hd)
    rw [List.foldl_cons]
    cases hh : dev.handle with
    | none =>
      rw [listTryAdd_no_handle p hh]
      obtain ⟨es, hes, hrep⟩ := ih h hv'
      exact ⟨es, fun e he => List.mem_cons_of_mem dev (hes e he), hrep⟩
    | some v =>
      have hdev : dev = toDevice (some (dev.location, v)) := by
        rw [toDevice, ← hh]
        rfl
      have hvalid : Valid dev.location := hv dev List.mem_cons_self (by simp [hh])
      have hplace := h.listTryAdd_place (e := (dev.location, v)) hvalid
      rw [← hdev] at hplace
      obtain ⟨es, hes, hrep⟩ := ih hplace hv'
      refine ⟨(dev.location, v) :: es, ?_, hrep⟩
      intro e he
      rcases List.mem_cons.mp he with rfl | he
      · rw [← hdev]
        exact List.mem_cons_self
      · exact List.mem_cons_of_mem dev (hes e he)

/-- The table after an iteration: what was collected of it, and more of what was collected. -/
theorem represents_update (h : Represents p.devices t) (hlen : ds.length ≤ maxDevs)
    (hv : ∀ dev ∈ ds, Valid dev.location) :
    ∃ es, (∀ e ∈ es, e.1 ∈ ds.map UsbDevice.location) ∧
      Represents (listUpdateDevices (listClean (p.scanned ds))).devices
        ((t.keepOffered (offers ds)).placeAll es) := by
  obtain ⟨devices, hrep, hclean⟩ := represents_listClean_scanned h hlen
  rw [hclean, listUpdateDevices_eq]
  have hentry : ∀ dev ∈ (List.finRange maxDevs).map (scanTable p.devices ds),
      dev.handle ≠ none → dev.location ∈ ds.map UsbDevice.location := by
    intro dev hdev hh
    rw [map_scanTable p.devices hlen, List.mem_append] at hdev
    rcases hdev with hdev | hdev
    · obtain ⟨d, hd, rfl⟩ := List.mem_map.mp hdev
      exact List.mem_map_of_mem hd
    · rw [List.eq_of_mem_replicate hdev] at hh
      exact absurd rfl hh
  have hvalid : ∀ dev ∈ (List.finRange maxDevs).map (scanTable p.devices ds),
      dev.handle ≠ none → Valid dev.location := by
    intro dev hdev hh
    obtain ⟨d, hd, hloc⟩ := List.mem_map.mp (hentry dev hdev hh)
    rw [← hloc]
    exact hv d hd
  obtain ⟨es, hes, hplaced⟩ := Represents.foldl_listTryAdd_place
    (p := { p.scanned ds with
      devices := devices, calls := (p.scanned ds).calls ++ closesOf t ds }) hrep hvalid
  exact ⟨es, fun e he => hentry _ (hes e he) (by simp [toDevice]), hplaced⟩

theorem cycle_eq_some :
    cycle p devs = some p' ↔
      (Numbered devs ∧ AllReadable devs) ∧ pollIteration p (some devs) = some p' := by
  unfold cycle
  by_cases h : Numbered devs ∧ AllReadable devs
  · rw [if_pos h, and_iff_right h]
  · rw [if_neg h]
    exact iff_of_false (by simp) fun hh => h hh.1

/-- What a cycle does to a table: with `ks`, the locations of the controllers that the scan saw
within the limit, it empties the slots of others and fills empty slots from `ks` alone. -/
theorem represents_cycle (h : Represents p.devices t) (hcycle : cycle p devs = some p') :
    ∃ t', Represents p'.devices t' ∧
      (∀ i e, t.slot i = some e → e.1 ∈ (wanted p (seen devs)).map UsbDevice.location →
        t'.slot i = some e) ∧
      ∀ i e, t'.slot i = some e → e.1 ∈ (wanted p (seen devs)).map UsbDevice.location := by
  obtain ⟨⟨hnum, hread⟩, hpoll⟩ := cycle_eq_some.mp hcycle
  obtain ⟨q, hq, hp'⟩ := Option.bind_eq_some_iff.mp hpoll
  obtain ⟨ds, rfl, hlen, hds⟩ := getDevices_collected hread hq
  obtain rfl : listUpdateDevices (listClean (p.scanned ds)) = p' := by simpa using hp'
  have hsub : ∀ dev ∈ ds, dev ∈ devs := fun dev hdev =>
    List.mem_of_mem_take (List.mem_filter.mp (List.mem_of_mem_take ((hds dev).mp hdev))).1
  have hks : ∀ k, k ∈ ds.map UsbDevice.location ↔
      k ∈ (wanted p (seen devs)).map UsbDevice.location := by
    intro k
    simp only [List.mem_map, hds]
  obtain ⟨es, hes, hrep⟩ := represents_update h hlen fun dev hdev => hnum dev (hsub dev hdev)
  obtain ⟨hkept, hcame⟩ := SlotTable.placeAll_slot (t := t.keepOffered (offers ds)) es
  refine ⟨_, hrep, fun i e he hk => ?_, fun i e he => ?_⟩
  · exact hkept i e (keepOffered_slot_some.mpr ⟨he, (hks e.1).mpr hk⟩)
  · rcases hcame i e he with he | he
    · exact (hks e.1).mp (keepOffered_slot_some.mp he).2
    · exact (hks e.1).mp (hes e he)

theorem isSlotTable_cycle (p : Poller) (devs : List UsbDevice) (p' : Poller)
    (h : p.devices.IsSlotTable) (hcycle : cycle p devs = some p') : p'.devices.IsSlotTable := by
  obtain ⟨t, ht⟩ := h
  obtain ⟨t', ht', -⟩ := represents_cycle ht hcycle
  exact ⟨t', ht'⟩

/-- In one cycle the slots are kept exactly when the limit cuts off none of them. -/
theorem keepsSlots_iff (h : p.devices.IsSlotTable) (hcycle : cycle p devs = some p') :
    KeepsSlots p devs p' ↔ WithinLimit p devs := by
  obtain ⟨t, ht⟩ := h
  obtain ⟨t', ht', hkept, hcame⟩ := represents_cycle ht hcycle
  have hvalid : ∀ k ∈ present p devs, Valid k := by
    intro k hk
    obtain ⟨dev, hdev, rfl⟩ := List.mem_map.mp hk
    exact (cycle_eq_some.mp hcycle).1.1 dev (List.mem_filter.mp hdev).1
  refine forall_congr' fun i => forall_congr' fun hi => ?_
  obtain ⟨e, he, -⟩ := ht.location_mem hvalid hi
  have hloc : (p.devices i).location = e.1 := by
    rw [ht.slot i, he]
    rfl
  rw [hloc]
  constructor
  · intro hkeep
    rw [ht.slot i, ht'.slot i, he] at hkeep
    cases hs : t'.slot i with
    | none =>
      rw [hs] at hkeep
      exact absurd (toDevice_eq_empty.mp hkeep.symm) (by simp)
    | some e' =>
      rw [hs] at hkeep
      have hloc' : e'.1 = e.1 := congrArg Device.location hkeep
      rw [← hloc']
      exact hcame i e' hs
  · intro hk
    rw [ht.slot i, ht'.slot i, he, hkept i e he hk]

end Keeping

/-- **A run of successful scans keeps the slot of every connected controller exactly when no scan
cuts off one that has a slot.** -/
theorem slots_kept_iff (vendorId productId : UInt16) (scans : List (List UsbDevice)) :
    AllSteps cycle (fun p devs => ∀ p', cycle p devs = some p' → KeepsSlots p devs p')
        (initDevices vendorId productId) scans ↔
      AllSteps cycle WithinLimit (initDevices vendorId productId) scans := by
  apply allSteps_congr isSlotTable_cycle _ ⟨SlotTable.empty, represents_empty⟩
  intro p devs p' hp h
  constructor
  · intro hkeep
    exact (keepsSlots_iff hp h).mp (hkeep p' h)
  · intro hlimit p₂ h₂
    exact (keepsSlots_iff hp h₂).mpr hlimit

/-- Five controllers; the one that found no slot comes first in the second list. -/
def fiveScans : List (List UsbDevice) :=
  [[controllerAt 2 10, controllerAt 3 11, controllerAt 4 12, controllerAt 5 13, controllerAt 6 14],
    [controllerAt 6 15, controllerAt 2 16, controllerAt 3 17, controllerAt 4 18,
      controllerAt 5 19]]

theorem fiveScans_cut : ¬ AllSteps cycle
    (fun p devs => ∀ p', cycle p devs = some p' → KeepsSlots p devs p')
    (initDevices 0x045e 0x028e) fiveScans := by
  intro h
  have hkeep : AllSteps cycle (fun p devs => ∀ p' ∈ cycle p devs, KeepsSlots p devs p')
      (initDevices 0x045e 0x028e) fiveScans := h
  revert hkeep
  decide +kernel

end El32.Devices

import El32.Xbc.DeviceTable

/-! What a scan collects, and what one iteration of the polling thread does with it.

The scan takes the wanted entries before the first one that cannot be read, at most `MAX_DEVS`; the
iteration refreshes the table with them. -/
namespace El32.Devices
open Controller
set_option autoImplicit false

/-! ## Scanning -/

def UsbDevice.location (dev : UsbDevice) : Location :=
  (dev.busNumber.toInt8, dev.deviceAddress.toInt8)

def readable (devs : List UsbDevice) : List UsbDevice :=
  devs.takeWhile fun dev => dev.descriptor.isSome

def Poller.Wanted (p : Poller) (dev : UsbDevice) : Prop :=
  dev.descriptor = some (p.vendorId, p.productId)

instance (p : Poller) (dev : UsbDevice) : Decidable (p.Wanted dev) :=
  inferInstanceAs (Decidable (_ = _))

/-- What a scan collects: the wanted entries before the first one that cannot be read, and of these
the first `MAX_DEVS`. -/
def collected (p : Poller) : Scan → List UsbDevice
  | none => []
  | some devs => ((readable devs).filter fun dev => p.Wanted dev).take maxDevs

/-- The entry of `tmp` for a device: opened unless it is in the table. -/
def entry (devices : Table) (dev : UsbDevice) : Device :=
  ⟨dev.location.1, dev.location.2, if known devices dev.location then none else dev.opened⟩

def openOf (devices : Table) (dev : UsbDevice) : Option UsbCall :=
  if known devices dev.location then none
  else some (.openDevice dev.busNumber dev.deviceAddress dev.opened)

def scanTable (devices : Table) (ds : List UsbDevice) : Table :=
  fun i => (ds[i.val]?).elim Device.empty (entry devices)

def Poller.scanned (p : Poller) (ds : List UsbDevice) : Poller :=
  { p with
    tmp := scanTable p.devices ds
    calls := p.calls ++ ds.filterMap (openOf p.devices) }

/-! ## The calls -/

theorem mem_opens {devices : Table} {ds : List UsbDevice} {c : UsbCall}
    (h : c ∈ ds.filterMap (openOf devices)) :
    ∃ dev : UsbDevice, known devices dev.location = false ∧
      c = .openDevice dev.busNumber dev.deviceAddress dev.opened := by
  obtain ⟨dev, -, hdev⟩ := List.mem_filterMap.mp h
  by_cases hk : known devices dev.location = true
  · rw [openOf, if_pos hk] at hdev
    exact absurd hdev (by simp)
  · rw [openOf, if_neg hk] at hdev
    exact ⟨dev, Bool.eq_false_iff.mpr hk, (Option.some.inj hdev).symm⟩

theorem closeHandle_not_mem_opens (devices : Table) (ds : List UsbDevice) (v : Handle) :
    .closeHandle v ∉ ds.filterMap (openOf devices) := by
  intro h
  obtain ⟨dev, -, hc⟩ := mem_opens h
  exact absurd hc (by simp)

theorem closeHandle_not_mem_claims (hs : List Handle) (v : Handle) :
    .closeHandle v ∉ hs.map UsbCall.claimInterface := by simp

/-! ## The state after a scan -/

section Scan
variable {p : Poller} {ds : List UsbDevice}

theorem scanTable_append (devices : Table) (dev : UsbDevice) {id : Fin maxDevs}
    (hid : ds.length = id.val) : scanTable devices (ds ++ [dev]) =
      Function.update (scanTable devices ds) id (entry devices dev) := by
  funext j
  by_cases hj : j = id
  · subst hj
    simp [scanTable, ← hid]
  · have hne : j.val ≠ ds.length := fun h => hj (Fin.ext (by omega))
    have hget : (ds ++ [dev])[j.val]? = ds[j.val]? := by
      rw [List.getElem?_append]
      split
      · rfl
      · rw [List.getElem?_eq_none (by simp; omega), List.getElem?_eq_none (by omega)]
    simp [scanTable, hj, hget]

theorem collect_scanned (dev : UsbDevice) {id : Fin maxDevs} (hid : ds.length = id.val) :
    (p.scanned ds).collect dev id = p.scanned (ds ++ [dev]) := by
  have hempty : scanTable p.devices ds id = Device.empty := by
    have hnone : ds[id.val]? = none := List.getElem?_eq_none (by omega)
    rw [scanTable, hnone]
    rfl
  have hcalls : (ds ++ [dev]).filterMap (openOf p.devices) =
      ds.filterMap (openOf p.devices) ++ (openOf p.devices dev).toList := by
    rw [List.filterMap_append]
    cases h : openOf p.devices dev <;> simp [h]
  rw [Poller.scanned, Poller.scanned, scanTable_append p.devices dev hid, hcalls]
  simp only [Poller.collect, hempty, Function.update_self]
  by_cases hk : known p.devices dev.location = true
  · have hc : listContains p.devices { Device.empty with
        bus := dev.busNumber.toInt8, address := dev.deviceAddress.toInt8 } = true := hk
    rw [if_pos hc, entry, openOf, if_pos hk, if_pos hk]
    simp [Device.empty, UsbDevice.location]
  · have hc : ¬ listContains p.devices { Device.empty with
        bus := dev.busNumber.toInt8, address := dev.deviceAddress.toInt8 } = true := hk
    rw [if_neg hc, entry, openOf, if_neg hk, if_neg hk]
    simp [Device.empty, UsbDevice.location, Poller.openDevice, Poller.log]

/-- The ids of a device that can be read and is not wanted are others. -/
theorem other_ids {dev : UsbDevice} (hdesc : dev.descriptor ≠ none) (hw : ¬ p.Wanted dev) :
    ∃ ids, dev.descriptor = some ids ∧ ¬ (ids.1 = p.vendorId ∧ ids.2 = p.productId) := by
  obtain ⟨ids, hids⟩ := Option.ne_none_iff_exists'.mp hdesc
  refine ⟨ids, hids, ?_⟩
  rintro ⟨h1, h2⟩
  exact hw (by rw [Poller.Wanted, hids, ← h1, ← h2])

theorem scanLoop_wanted {devs : List UsbDevice} {dev : UsbDevice} (fuel : ℕ) {i : UInt8}
    {id : Fin maxDevs} (hsome : devs[i.toNat]? = some dev) (hw : p.Wanted dev)
    (hid : ds.length = id.val) :
    scanLoop devs (fuel + 1) i id (p.scanned ds) =
      if h : id.val + 1 < maxDevs then
        scanLoop devs fuel (i + 1) ⟨id.val + 1, h⟩ (p.scanned (ds ++ [dev]))
      else some (p.scanned (ds ++ [dev])) := by
  have hdesc : dev.descriptor = some (p.vendorId, p.productId) := hw
  simp only [scanLoop, hsome, hdesc, ← collect_scanned dev hid]
  exact if_pos ⟨rfl, rfl⟩

theorem scanLoop_other {devs : List UsbDevice} {dev : UsbDevice} (fuel : ℕ) {i : UInt8}
    {id : Fin maxDevs} (hsome : devs[i.toNat]? = some dev) (hdesc : dev.descriptor ≠ none)
    (hw : ¬ p.Wanted dev) :
    scanLoop devs (fuel + 1) i id (p.scanned ds) = scanLoop devs fuel (i + 1) id (p.scanned ds) := by
  obtain ⟨ids, hids, hne⟩ := other_ids hdesc hw
  simp only [scanLoop, hsome, hids]
  exact if_neg hne

/-- The loop from a position on: it collects from the entries that remain until one cannot be read,
the table is full or the list ends. -/
theorem scanLoop_eq {devs rest : List UsbDevice} {fuel : ℕ} {i : UInt8} {id : Fin maxDevs}
    (hrest : devs.drop i.toNat = rest) (hid : ds.length = id.val)
    (hshort : i.toNat + (readable rest).length ≤ 255) (hfuel : (readable rest).length < fuel) :
    scanLoop devs fuel i id (p.scanned ds) = some (p.scanned
      ((ds ++ (readable rest).filter fun dev => p.Wanted dev).take maxDevs)) := by
  have hds : ds.take maxDevs = ds := List.take_of_length_le (by omega)
  induction rest generalizing fuel i id ds with
  | nil =>
    obtain ⟨fuel, rfl⟩ : ∃ f, fuel = f + 1 := ⟨fuel - 1, by omega⟩
    have hnone : devs[i.toNat]? = none := by
      rw [← List.head?_drop, hrest]
      rfl
    simp [scanLoop, hnone, readable, hds]
  | cons dev rest ih =>
    obtain ⟨fuel, rfl⟩ : ∃ f, fuel = f + 1 := ⟨fuel - 1, by omega⟩
    have hsome : devs[i.toNat]? = some dev := by
      rw [← List.head?_drop, hrest]
      rfl
    cases hdesc : dev.descriptor with
    | none =>
      have hread : readable (dev :: rest) = [] := by simp [readable, hdesc]
      simp [scanLoop, hsome, hdesc, hread, hds]
    | some ids =>
      have hread : readable (dev :: rest) = dev :: readable rest := by simp [readable, hdesc]
      rw [hread, List.length_cons] at hshort hfuel
      have hi : (i + 1).toNat = i.toNat + 1 := by
        rw [UInt8.toNat_add]
        exact Nat.mod_eq_of_lt (by simp; omega)
      have hrest' : devs.drop (i + 1).toNat = rest := by
        rw [hi, ← List.drop_drop, hrest]
        rfl
      by_cases hw : p.Wanted dev
      · have hstep := scanLoop_wanted fuel hsome hw hid
        have hlen : (ds ++ [dev]).length = id.val + 1 := by simp [hid]
        rw [hread, List.filter_cons_of_pos (by simpa using hw), List.append_cons, hstep]
        by_cases hfull : id.val + 1 < maxDevs
        · rw [dif_pos hfull]
          exact ih hrest' hlen (by omega) (by omega)
            (List.take_of_length_le (by omega))
        · have hlen4 : (ds ++ [dev]).length = maxDevs := by omega
          rw [dif_neg hfull, ← hlen4, List.take_left]
      · have hstep : scanLoop devs (fuel + 1) i id (p.scanned ds) =
            scanLoop devs fuel (i + 1) id (p.scanned ds) :=
          scanLoop_other fuel hsome (by simp [hdesc]) hw
        rw [hstep, hread, List.filter_cons_of_neg (by simpa using hw)]
        exact ih hrest' hid (by omega) (by omega) hds

/-- The list is short enough, or ends early enough with an entry that cannot be read, for the 8-bit
index. -/
def Short (scan : Scan) : Prop := ∀ devs, scan = some devs → (readable devs).length ≤ 255

/-- The scan starts with an empty scratch table. -/
theorem start_scanned (p : Poller) : { p with tmp := fun _ => Device.empty } = p.scanned [] := by
  have htmp : scanTable p.devices [] = fun _ => Device.empty := rfl
  simp [Poller.scanned, htmp]

theorem listed_of_getDevices {p p' : Poller} {scan : Scan} (h : getDevices p scan = some p') :
    scan ≠ none := by
  rintro rfl
  exact absurd h (by simp [getDevices])

theorem getDevices_eq (p : Poller) {scan : Scan} (hlist : scan ≠ none) (h : Short scan) :
    getDevices p scan = some (p.scanned (collected p scan)) := by
  cases scan with
  | none => exact absurd rfl hlist
  | some devs =>
    have hs := h devs rfl
    have hrest : devs.drop (0 : UInt8).toNat = devs := rfl
    have hshort : (0 : UInt8).toNat + (readable devs).length ≤ 255 := by simpa using hs
    have hfuel : (readable devs).length < 256 * maxDevs := by
      unfold maxDevs
      omega
    have hid : ([] : List UsbDevice).length = (⟨0, maxDevs_pos⟩ : Fin maxDevs).val := rfl
    simp only [getDevices, start_scanned]
    exact scanLoop_eq hrest hid hshort hfuel

theorem collected_length (p : Poller) (scan : Scan) : (collected p scan).length ≤ maxDevs := by
  cases scan with
  | none => simp [collected]
  | some devs => exact List.length_take_le ..

theorem known_scanTable (devices : Table) (hlen : ds.length ≤ maxDevs) {k : Location}
    (hk : Valid k) :
    known (scanTable devices ds) k = true ↔ k ∈ ds.map UsbDevice.location := by
  rw [known_iff, List.mem_map]
  constructor
  · rintro ⟨i, hb, ha⟩
    cases hd : ds[i.val]? with
    | none =>
      rw [scanTable, hd] at hb
      exact absurd hb.symm hk.1
    | some dev =>
      rw [scanTable, hd] at hb ha
      exact ⟨dev, List.mem_of_getElem? hd, Prod.ext hb ha⟩
  · rintro ⟨dev, hdev, rfl⟩
    obtain ⟨i, hi, rfl⟩ := List.getElem_of_mem hdev
    refine ⟨⟨i, by omega⟩, ?_⟩
    have hget : scanTable devices ds ⟨i, by omega⟩ = entry devices ds[i] := by
      simp [scanTable, hi]
    rw [hget]
    exact ⟨rfl, rfl⟩

theorem map_scanTable (devices : Table) (hlen : ds.length ≤ maxDevs) :
    (List.finRange maxDevs).map (scanTable devices ds) =
      ds.map (entry devices) ++ List.replicate (maxDevs - ds.length) Device.empty := by
  refine List.ext_getElem (by simp; omega) fun i h1 h2 => ?_
  rw [List.getElem_map, List.getElem_finRange, List.getElem_append]
  by_cases hi : i < ds.length
  · simp [scanTable, hi]
  · simp [scanTable, hi]

end Scan

/-! ## One iteration -/

/-- The device lists of libusb: at most 255 entries with different numbers in 1 to 127. -/
def ScanOk : Scan → Prop
  | none => True
  | some devs => devs.length ≤ 255 ∧
    (devs.map fun dev => (dev.busNumber, dev.deviceAddress)).Nodup ∧
    ∀ dev ∈ devs, (1 ≤ dev.busNumber.toNat ∧ dev.busNumber.toNat ≤ 127) ∧
      1 ≤ dev.deviceAddress.toNat ∧ dev.deviceAddress.toNat ≤ 127

instance : (scan : Scan) → Decidable (ScanOk scan)
  | none => inferInstanceAs (Decidable True)
  | some _ => inferInstanceAs (Decidable (_ ∧ _))

def offers (ds : List UsbDevice) : List (Location × Option Handle) :=
  ds.map fun dev => (dev.location, dev.opened)

theorem map_fst_offers (ds : List UsbDevice) :
    (offers ds).map Prod.fst = ds.map UsbDevice.location := by
  simp [offers, Function.comp_def]

theorem fits_offers (t : SlotTable maxDevs Location Handle) {ds : List UsbDevice}
    (hnd : (ds.map UsbDevice.location).Nodup) (hlen : ds.length ≤ maxDevs) :
    SlotTable.Fits (t.keepOffered (offers ds)) (t.fresh (offers ds)) :=
  SlotTable.fits_fresh (by rwa [map_fst_offers]) (by rwa [offers, List.length_map])

theorem placed_offers (t : SlotTable maxDevs Location Handle) {ds : List UsbDevice}
    (hnd : (ds.map UsbDevice.location).Nodup) (hlen : ds.length ≤ maxDevs) :
    SlotTable.Placed (t.keepOffered (offers ds)) (t.refresh (offers ds)) (t.fresh (offers ds)) :=
  (fits_offers t hnd hlen).placed

theorem ScanOk.short {scan : Scan} (h : ScanOk scan) : Short scan := by
  rintro devs rfl
  exact (List.takeWhile_sublist _).length_le.trans h.1

theorem toInt8_inj {a b : UInt8} (h : a.toInt8 = b.toInt8) : a = b := by
  have := congrArg Int8.toUInt8 h
  simpa using this

theorem toInt8_ne {a : UInt8} (h : a.toNat ≤ 127) : a.toInt8 ≠ -1 := by
  intro ha
  have h255 : a = 255 := toInt8_inj (ha.trans (by decide))
  rw [h255] at h
  exact absurd h (by decide)

theorem ScanOk.collected {scan : Scan} (h : ScanOk scan) (p : Poller) :
    ((collected p scan).map UsbDevice.location).Nodup ∧
      ∀ dev ∈ collected p scan, Valid dev.location := by
  cases scan with
  | none => simp [Devices.collected]
  | some devs =>
    obtain ⟨-, hnd, hrange⟩ := h
    have hsub : (Devices.collected p (some devs)).Sublist devs :=
      ((List.take_sublist _ _).trans List.filter_sublist).trans (List.takeWhile_sublist _)
    have hinj : Function.Injective fun k : UInt8 × UInt8 => ((k.1.toInt8, k.2.toInt8) : Location) :=
      fun a b hab => Prod.ext (toInt8_inj (congrArg Prod.fst hab))
        (toInt8_inj (congrArg Prod.snd hab))
    have hloc : (devs.map UsbDevice.location).Nodup := by
      have := hnd.map hinj
      rwa [List.map_map] at this
    refine ⟨(hsub.map _).nodup hloc, fun dev hdev => ?_⟩
    obtain ⟨⟨-, hb⟩, -, ha⟩ := hrange dev (hsub.subset hdev)
    exact ⟨toInt8_ne hb, toInt8_ne ha⟩

section Iteration
variable {p : Poller} {t : SlotTable maxDevs Location Handle} {ds : List UsbDevice}

theorem Represents.filter_entry (h : Represents p.devices t)
    (hv : ∀ dev ∈ ds, Valid dev.location) :
    (ds.map (entry p.devices)).filter (·.handle.isSome) =
      (t.fresh (offers ds)).map fun e => toDevice (some e) := by
  induction ds with
  | nil => rfl
  | cons dev ds ih =>
    have ih := ih fun d hd => hv d (List.mem_cons_of_mem dev hd)
    have hk := h.known_iff (hv dev List.mem_cons_self)
    have hnew : t.newOf (dev.location, dev.opened) = (entry p.devices dev).handle.map
        fun v => (dev.location, v) := by
      by_cases hhas : t.Has dev.location
      · simp [SlotTable.newOf, entry, hhas, hk.mpr hhas]
      · simp [SlotTable.newOf, entry, hhas, mt hk.mp hhas]
    have hcons : t.fresh (offers (dev :: ds)) =
        (t.newOf (dev.location, dev.opened)).toList ++ t.fresh (offers ds) := SlotTable.fresh_cons _
    rw [List.map_cons, hcons, hnew]
    cases hh : (entry p.devices dev).handle with
    | none =>
      rw [List.filter_cons_of_neg (by simp [hh]), ih]
      rfl
    | some v =>
      have hentry : entry p.devices dev = toDevice (some (dev.location, v)) := by
        rw [toDevice, ← hh]
        rfl
      rw [List.filter_cons_of_pos (by simp [hh]), ih, hentry]
      rfl

theorem listTryAdd_tmp (p : Poller) (dev : Device) : (listTryAdd p dev).tmp = p.tmp := by
  rw [listTryAdd]
  split <;> rfl

theorem listUpdateDevices_eq (p : Poller) :
    listUpdateDevices p = ((List.finRange maxDevs).map p.tmp).foldl listTryAdd p := by
  have h : ∀ (is : List (Fin maxDevs)) (q : Poller), q.tmp = p.tmp →
      is.foldl (fun q i => listTryAdd q (q.tmp i)) q = (is.map p.tmp).foldl listTryAdd q := by
    intro is
    induction is with
    | nil => exact fun _ _ => rfl
    | cons i is ih =>
      intro q hq
      rw [List.foldl_cons, List.map_cons, List.foldl_cons, hq]
      exact ih _ ((listTryAdd_tmp q _).trans hq)
  exact h _ p rfl

/-- The closes of an iteration: the devices of the table that the scan did not collect. -/
def closesOf (t : SlotTable maxDevs Location Handle) (ds : List UsbDevice) : List UsbCall :=
  ((t.dropped (offers ds)).map Prod.snd).map .closeHandle

/-- The claims of an iteration: the new devices. -/
def claimsOf (t : SlotTable maxDevs Location Handle) (ds : List UsbDevice) : List UsbCall :=
  ((t.fresh (offers ds)).map Prod.snd).map .claimInterface

theorem represents_listClean_scanned (h : Represents p.devices t) (hlen : ds.length ≤ maxDevs) :
    ∃ devices, Represents devices (t.keepOffered (offers ds)) ∧ listClean (p.scanned ds) =
      { p.scanned ds with
        devices := devices, calls := (p.scanned ds).calls ++ closesOf t ds } := by
  have h' : Represents (p.scanned ds).devices t := h
  have hknown : ∀ k, t.Has k →
      (known (p.scanned ds).tmp k = true ↔ k ∈ (offers ds).map Prod.fst) := by
    intro k hk
    rw [map_fst_offers]
    exact known_scanTable p.devices hlen (h.valid k hk)
  have hkeep := SlotTable.keep_eq_keepOffered hknown
  have hclose : (List.finRange maxDevs).filterMap (closeOf (p.scanned ds)) = closesOf t ds := by
    rw [h'.filterMap_closeOf, SlotTable.filter_eq_dropped hknown, closesOf, List.map_map]
    rfl
  have hrep := represents_listClean h'
  rw [hkeep] at hrep
  refine ⟨(listClean (p.scanned ds)).devices, hrep, ?_⟩
  rw [listClean_eq h'.apart, hclose]

/-- One iteration: the table is refreshed with what the scan offers, and the calls are the opens,
the closes and the claims. -/
theorem represents_pollIteration (h : Represents p.devices t) {scan : Scan} (hs : ScanOk scan)
    (hlist : scan ≠ none) (hds : collected p scan = ds) :
    ∃ devices, Represents devices (t.refresh (offers ds)) ∧ pollIteration p scan = some
      { p with
        devices := devices
        tmp := scanTable p.devices ds
        calls := p.calls ++
          (ds.filterMap (openOf p.devices) ++ closesOf t ds ++ claimsOf t ds) } := by
  have hlen : ds.length ≤ maxDevs := hds ▸ collected_length p scan
  obtain ⟨hnd, hv⟩ := hs.collected p
  rw [hds] at hnd hv
  obtain ⟨devices, hrep, hclean⟩ := represents_listClean_scanned h hlen
  have hfits := fits_offers t hnd hlen
  have hes : ((List.finRange maxDevs).map (scanTable p.devices ds)).filter (·.handle.isSome) =
      (t.fresh (offers ds)).map fun e => toDevice (some e) := by
    rw [map_scanTable p.devices hlen, List.filter_append, h.filter_entry hv,
      List.filter_replicate_of_neg (by simp [Device.empty]), List.append_nil]
  have hvalid : ∀ e ∈ t.fresh (offers ds), Valid e.1 := by
    intro e he
    obtain ⟨dev, hdev, hloc⟩ := List.mem_map.mp (SlotTable.mem_fresh.mp he).1
    rw [← congrArg Prod.fst hloc]
    exact hv dev hdev
  obtain ⟨devices', hrep', hadd⟩ := Represents.foldl_listTryAdd
    (p := { p.scanned ds with
      devices := devices, calls := (p.scanned ds).calls ++ closesOf t ds }) hrep hes hvalid hfits
  refine ⟨devices', hrep', ?_⟩
  have hget := getDevices_eq p hlist hs.short
  rw [hds] at hget
  rw [pollIteration, hget]
  show some (listUpdateDevices (listClean (p.scanned ds))) = _
  rw [hclean, listUpdateDevices_eq]
  show some (((List.finRange maxDevs).map (scanTable p.devices ds)).foldl listTryAdd _) = _
  rw [hadd]
  simp [Poller.scanned, claimsOf]

end Iteration

end El32.Devices

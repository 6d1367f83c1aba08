import El32.Xbc.SlotKeeping

/-! Which entries of the device list the loop of `getDevices` reads.

Its index has 8 bits: past entry 255 it starts again at the first one. -/
namespace El32.Devices
open Controller
set_option autoImplicit false

/-- The positions of the list that the loop reads, in order; the last one of a list that ends is its
null pointer. -/
def scanReads (devs : List UsbDevice) : ℕ → UInt8 → Fin maxDevs → Poller → List ℕ
  | 0, _, _, _ => []
  | fuel + 1, i, id, p =>
    i.toNat ::
      match devs[i.toNat]? with
      | none => []
      | some dev =>
        match dev.descriptor with
        | none => []
        | some (idVendor, idProduct) =>
          if idVendor = p.vendorId ∧ idProduct = p.productId then
            let p := p.collect dev id
            if h : id.val + 1 < maxDevs then scanReads devs fuel (i + 1) ⟨id.val + 1, h⟩ p else []
          else scanReads devs fuel (i + 1) id p

/-- The positions that `getDevices` reads. -/
def reads (p : Poller) (devs : List UsbDevice) : List ℕ :=
  scanReads devs (256 * maxDevs) 0 ⟨0, maxDevs_pos⟩ { p with tmp := fun _ => Device.empty }

/-- The scan ends, reads no position twice and none past the null pointer, and leaves the first
`MAX_DEVS` matching devices in the scratch table. -/
structure ScansOnce (p : Poller) (devs : List UsbDevice) : Prop where
  ends : ∃ q, getDevices p (some devs) = some q ∧ q.tmp = scanTable p.devices (wanted p devs)
  once : (reads p devs).Nodup
  inside : ∀ k ∈ reads p devs, k ≤ devs.length

section Reads
variable {p : Poller} {devs ds : List UsbDevice} {i : UInt8} {id : Fin maxDevs} {dev : UsbDevice}

theorem scanReads_wanted (fuel : ℕ) (hsome : devs[i.toNat]? = some dev) (hw : p.Wanted dev)
    (hid : ds.length = id.val) :
    scanReads devs (fuel + 1) i id (p.scanned ds) = i.toNat ::
      if h : id.val + 1 < maxDevs then
        scanReads devs fuel (i + 1) ⟨id.val + 1, h⟩ (p.scanned (ds ++ [dev]))
      else [] := by
  have hdesc : dev.descriptor = some (p.vendorId, p.productId) := hw
  simp only [scanReads, hsome, hdesc, ← collect_scanned dev hid]
  exact congrArg (i.toNat :: ·) (if_pos ⟨rfl, rfl⟩)

theorem scanReads_other (fuel : ℕ) (hsome : devs[i.toNat]? = some dev)
    (hdesc : dev.descriptor ≠ none) (hw : ¬ p.Wanted dev) :
    scanReads devs (fuel + 1) i id (p.scanned ds) =
      i.toNat :: scanReads devs fuel (i + 1) id (p.scanned ds) := by
  obtain ⟨ids, hids, hne⟩ := other_ids hdesc hw
  simp only [scanReads, hsome, hids]
  exact congrArg (i.toNat :: ·) (if_neg hne)

/-- What the first round of the index has still to come. -/
def ahead (devs : List UsbDevice) (i : ℕ) : List UsbDevice := (seen devs).drop i

theorem ahead_cons (hsome : devs[i.toNat]? = some dev) :
    ahead devs i.toNat = dev :: ahead devs (i.toNat + 1) := by
  have hget : (seen devs)[i.toNat]? = some dev := by
    rw [seen, List.getElem?_take_of_lt i.toNat_lt, hsome]
  obtain ⟨hlt, rfl⟩ := List.getElem?_eq_some_iff.mp hget
  exact List.drop_eq_getElem_cons hlt

theorem toNat_succ (h : i.toNat ≠ 255) : (i + 1).toNat = i.toNat + 1 := by
  have hi := i.toNat_lt
  rw [UInt8.toNat_add]
  exact Nat.mod_eq_of_lt (show i.toNat + 1 < 256 by omega)

theorem ahead_end (devs : List UsbDevice) : ahead devs 256 = [] :=
  List.drop_eq_nil_of_le (List.length_take_le _ _)

/-- There is room for the index as long as the list ends or enough devices are ahead. -/
def Room (p : Poller) (devs : List UsbDevice) (i id : ℕ) : Prop :=
  devs.length ≤ 255 ∨ maxDevs ≤ id + (matching p (ahead devs i)).length

theorem Room.next {id : ℕ} (h : Room p devs i.toNat id) (hsome : devs[i.toNat]? = some dev)
    (hfull : id + (matching p [dev]).length < maxDevs) :
    (i + 1).toNat = i.toNat + 1 ∧
      Room p devs (i + 1).toNat (id + (matching p [dev]).length) := by
  have hlt : i.toNat < devs.length := (List.getElem?_eq_some_iff.mp hsome).1
  rcases h with hshort | hmany
  · have hnext : (i + 1).toNat = i.toNat + 1 := toNat_succ (by omega)
    exact ⟨hnext, .inl hshort⟩
  · have hsplit : (matching p (ahead devs i.toNat)).length =
        (matching p [dev]).length + (matching p (ahead devs (i.toNat + 1))).length := by
      rw [ahead_cons hsome, ← List.length_append, ← matching_append]
      rfl
    have hne : i.toNat ≠ 255 := by
      intro hlast
      rw [hsplit, hlast, ahead_end] at hmany
      simp only [matching, List.filter_nil, List.length_nil] at hmany hfull
      omega
    refine ⟨toNat_succ hne, .inr ?_⟩
    rw [toNat_succ hne]
    omega

/-- The first round of the index, when there is room: it reads on from `i`, and takes what matches. -/
theorem scan_once (fuel : ℕ) (hread : AllReadable devs) (hid : ds.length = id.val)
    (hi : i.toNat ≤ devs.length) (hfuel : 256 ≤ i.toNat + fuel)
    (hroom : Room p devs i.toNat id.val) :
    (∃ k, scanReads devs fuel i id (p.scanned ds) = List.range' i.toNat k ∧
      i.toNat + k ≤ devs.length + 1) ∧
    scanLoop devs fuel i id (p.scanned ds) = some (p.scanned
      ((ds ++ matching p (devs.drop i.toNat)).take maxDevs)) := by
  induction fuel generalizing i id ds with
  | zero =>
    have hlt := i.toNat_lt
    omega
  | succ fuel ih =>
    cases hsome : devs[i.toNat]? with
    | none =>
      have hend : devs.drop i.toNat = [] :=
        List.drop_eq_nil_of_le (List.getElem?_eq_none_iff.mp hsome)
      have hall : ds.take maxDevs = ds := List.take_of_length_le (by omega)
      refine ⟨⟨1, by simp [scanReads, hsome], by omega⟩, ?_⟩
      simp [scanLoop, hsome, hend, matching, hall]
    | some dev =>
      have hlt : i.toNat < devs.length := (List.getElem?_eq_some_iff.mp hsome).1
      have hdesc : dev.descriptor ≠ none := hread dev (List.mem_of_getElem? hsome)
      have hdrop : devs.drop i.toNat = dev :: devs.drop (i.toNat + 1) := by
        rw [List.drop_eq_getElem_cons hlt, (List.getElem?_eq_some_iff.mp hsome).2]
      have hsplit : matching p (devs.drop i.toNat) =
          matching p [dev] ++ matching p (devs.drop (i.toNat + 1)) := by
        rw [hdrop, ← matching_append]
        rfl
      by_cases hw : p.Wanted dev
      · have hone : matching p [dev] = [dev] := List.filter_cons_of_pos (by simpa using hw)
        have hlen : (ds ++ [dev]).length = id.val + 1 := by simp [hid]
        rw [scanReads_wanted fuel hsome hw hid, scanLoop_wanted fuel hsome hw hid, hsplit, hone,
          ← List.append_assoc]
        by_cases hfull : id.val + 1 < maxDevs
        · obtain ⟨hnext, hroom'⟩ := hroom.next hsome (by rw [hone]; exact hfull)
          rw [hone] at hroom'
          have hid' : (ds ++ [dev]).length = (⟨id.val + 1, hfull⟩ : Fin maxDevs).val := hlen
          obtain ⟨⟨k, hk, hle⟩, hloop⟩ := ih hid' (by omega) (by omega) hroom'
          rw [hnext] at hk hle hloop
          rw [dif_pos hfull, dif_pos hfull, hk]
          exact ⟨⟨k + 1, by rw [List.range'_succ], by omega⟩, hloop⟩
        · have hlen4 : (ds ++ [dev]).length = maxDevs := by omega
          rw [dif_neg hfull, dif_neg hfull, ← hlen4, List.take_left]
          exact ⟨⟨1, rfl, by omega⟩, rfl⟩
      · have hnone : matching p [dev] = [] := List.filter_cons_of_neg (by simpa using hw)
        rw [scanReads_other fuel hsome hdesc hw, scanLoop_other fuel hsome hdesc hw, hsplit, hnone,
          List.nil_append]
        obtain ⟨hnext, hroom'⟩ := hroom.next hsome (by rw [hnone]; exact id.isLt)
        rw [hnone] at hroom'
        obtain ⟨⟨k, hk, hle⟩, hloop⟩ := ih hid (by omega) (by omega) hroom'
        rw [hnext] at hk hle hloop
        rw [hk]
        exact ⟨⟨k + 1, by rw [List.range'_succ], by omega⟩, hloop⟩

theorem scanReads_head {fuel : ℕ} (hfuel : 0 < fuel) (devs : List UsbDevice) (i : UInt8)
    (id : Fin maxDevs) (q : Poller) : ∃ rest, scanReads devs fuel i id q = i.toNat :: rest := by
  obtain ⟨fuel, rfl⟩ : ∃ f, fuel = f + 1 := ⟨fuel - 1, by omega⟩
  exact ⟨_, rfl⟩

/-- In a longer list with too few matches the index comes back to the first entry. -/
theorem scan_wraps (fuel : ℕ) (hread : AllReadable devs) (hid : ds.length = id.val)
    (hfuel : 257 ≤ i.toNat + fuel) (hlong : 256 ≤ devs.length)
    (hfew : id.val + (matching p (ahead devs i.toNat)).length < maxDevs) :
    ∃ rest, scanReads devs fuel i id (p.scanned ds) =
      List.range' i.toNat (256 - i.toNat) ++ 0 :: rest := by
  induction fuel generalizing i id ds with
  | zero =>
    have hlt := i.toNat_lt
    omega
  | succ fuel ih =>
    have hlt : i.toNat < 256 := i.toNat_lt
    obtain ⟨dev, hsome⟩ : ∃ dev, devs[i.toNat]? = some dev :=
      ⟨devs[i.toNat], List.getElem?_eq_getElem (by omega)⟩
    have hdesc : dev.descriptor ≠ none := hread dev (List.mem_of_getElem? hsome)
    have hsplit : (matching p (ahead devs i.toNat)).length =
        (matching p [dev]).length + (matching p (ahead devs (i.toNat + 1))).length := by
      rw [ahead_cons hsome, ← List.length_append, ← matching_append]
      rfl
    have hrange : List.range' i.toNat (256 - i.toNat) =
        i.toNat :: List.range' (i.toNat + 1) (256 - (i.toNat + 1)) := by
      obtain ⟨k, hk⟩ : ∃ k, 256 - i.toNat = k + 1 := ⟨255 - i.toNat, by omega⟩
      rw [hk, List.range'_succ]
      congr 2
      omega
    -- the rest of the round, whether or not this entry matched
    have hrest : ∀ (ds' : List UsbDevice) (id' : Fin maxDevs), ds'.length = id'.val →
        id'.val + (matching p (ahead devs (i.toNat + 1))).length < maxDevs →
        ∃ rest, scanReads devs fuel (i + 1) id' (p.scanned ds') =
          List.range' (i.toNat + 1) (256 - (i.toNat + 1)) ++ 0 :: rest := by
      intro ds' id' hid' hfew'
      by_cases hlast : i.toNat = 255
      · have hzero : (i + 1).toNat = 0 := by
          rw [UInt8.toNat_add, hlast]
          rfl
        obtain ⟨rest, hhead⟩ := scanReads_head (by omega : 0 < fuel) devs (i + 1) id' (p.scanned ds')
        exact ⟨rest, by rw [hhead, hzero, hlast]; rfl⟩
      · have hnext := toNat_succ hlast
        obtain ⟨rest, hreads⟩ := ih (i := i + 1) hid' (by omega) (by rw [hnext]; exact hfew')
        exact ⟨rest, by rw [hreads, hnext]⟩
    by_cases hw : p.Wanted dev
    · have hone : matching p [dev] = [dev] := List.filter_cons_of_pos (by simpa using hw)
      rw [hsplit, hone, List.length_singleton] at hfew
      have hfull : id.val + 1 < maxDevs := by omega
      have hlen : (ds ++ [dev]).length = id.val + 1 := by simp [hid]
      have hfew' : id.val + 1 + (matching p (ahead devs (i.toNat + 1))).length < maxDevs := by omega
      obtain ⟨rest, hreads⟩ := hrest (ds ++ [dev]) ⟨id.val + 1, hfull⟩ hlen hfew'
      exact ⟨rest, by rw [scanReads_wanted fuel hsome hw hid, dif_pos hfull, hreads, hrange]; rfl⟩
    · obtain ⟨rest, hreads⟩ := hrest ds id hid (by omega)
      exact ⟨rest, by rw [scanReads_other fuel hsome hdesc hw, hreads, hrange]; rfl⟩

theorem scansOnce_of_room (hread : AllReadable devs) (hroom : Room p devs 0 0) :
    ScansOnce p devs := by
  have hid : ([] : List UsbDevice).length = (⟨0, maxDevs_pos⟩ : Fin maxDevs).val := rfl
  obtain ⟨⟨k, hk, hle⟩, hloop⟩ := scan_once (256 * maxDevs) (i := 0) hread hid
    (Nat.zero_le _) (by decide) hroom
  refine ⟨⟨p.scanned (wanted p devs), ?_, rfl⟩, ?_, ?_⟩
  · rw [getDevices, start_scanned]
    exact hloop
  · rw [reads, start_scanned, hk]
    exact List.nodup_range'
  · intro j hj
    rw [reads, start_scanned, hk] at hj
    have hlt := (List.mem_range'_1.mp hj).2
    omega

theorem not_scansOnce (hread : AllReadable devs) (hlong : 256 ≤ devs.length)
    (hfew : (matching p (seen devs)).length < maxDevs) : ¬ ScansOnce p devs := by
  intro h
  have hid : ([] : List UsbDevice).length = (⟨0, maxDevs_pos⟩ : Fin maxDevs).val := rfl
  have hfew' : 0 + (matching p (ahead devs (0 : UInt8).toNat)).length < maxDevs := by
    rw [Nat.zero_add]
    exact hfew
  obtain ⟨rest, hreads⟩ := scan_wraps (256 * maxDevs) hread hid (by decide) hlong hfew'
  have honce := h.once
  rw [reads, start_scanned, hreads] at honce
  exact (List.nodup_append.mp honce).2.2 0 (by simp) 0 (by simp) rfl

/-- **With every call succeeding, the scan ends, reads each position once up to the null pointer and
collects the first matching devices exactly when the list has at most 255 entries or enough of its
first 256 match.** -/
theorem scansOnce_iff (hread : AllReadable devs) :
    ScansOnce p devs ↔ devs.length ≤ 255 ∨ maxDevs ≤ (matching p (seen devs)).length := by
  constructor
  · intro h
    by_contra hnot
    obtain ⟨hlong, hfew⟩ := not_or.mp hnot
    exact not_scansOnce hread (by omega) (by omega) h
  · intro h
    refine scansOnce_of_room hread (h.imp_right fun hmany => ?_)
    rw [Nat.zero_add]
    exact hmany

end Reads

def hub : UsbDevice := ⟨some (0x1d6b, 0x0002), 1, 1, none⟩

theorem scansOnce_twoControllers :
    ScansOnce (initDevices 0x045e 0x028e) [controllerAt 2 10, hub, controllerAt 3 11] :=
  (scansOnce_iff (by decide)).mpr (.inl (by decide))

/-- One controller, and 255 devices of another kind. -/
def longList : List UsbDevice := controllerAt 2 10 :: List.replicate 255 hub

theorem longList_not_scansOnce : ¬ ScansOnce (initDevices 0x045e 0x028e) longList := by
  have hlen : longList.length = 256 := by rw [longList, List.length_cons, List.length_replicate]
  refine not_scansOnce ?_ (Nat.le_of_eq hlen.symm) (by decide +kernel)
  intro dev hdev
  rcases List.mem_cons.mp hdev with rfl | hdev
  · decide
  · obtain rfl := List.eq_of_mem_replicate hdev
    decide

end El32.Devices

import El32.Xbc.HandleAccounting

/-! A poll iteration in which the scan fails.

`getDevices` does not report a failure, so the cleaning goes on with what was collected before. -/
namespace El32.Devices
open Controller
set_option autoImplicit false

/-- The list call fails, or the scan reaches an entry whose descriptor cannot be read: within the
range of the 8-bit index, and before the wanted entries fill `tmp`. -/
def Fails (p : Poller) (scan : Scan) : Prop :=
  scan = none ∨ ∃ pre dev post, scan = some (pre ++ dev :: post) ∧
    (∀ d ∈ pre, d.descriptor ≠ none) ∧ dev.descriptor = none ∧ pre.length ≤ 255 ∧
    (pre.filter fun d => p.Wanted d).length < maxDevs

/-- No handle of the table is closed and no occupied slot is changed. -/
def Undisturbed (p p' : Poller) : Prop :=
  (∃ added, p'.calls = p.calls ++ added ∧
    ∀ i h, (p.devices i).handle = some h → .closeHandle h ∉ added) ∧
  ∀ i, p.devices i ≠ Device.empty → p'.devices i = p.devices i

/-- Every device of the table was collected before the scan failed. -/
def AllCollected (p : Poller) (scan : Scan) : Prop :=
  ∀ i, p.devices i ≠ Device.empty →
    ((p.devices i).bus, (p.devices i).address) ∈ (collected p scan).map UsbDevice.location

section Failed
variable {p : Poller} {t : SlotTable maxDevs Location Handle} {scan : Scan}

theorem Fails.short (h : Fails p scan) : Short scan := by
  rintro devs rfl
  rcases h with h | ⟨pre, dev, post, heq, hpre, hdev, hlen, -⟩
  · exact absurd h (by simp)
  · obtain rfl := Option.some.inj heq
    have hread : readable (pre ++ dev :: post) = pre := by
      rw [readable, List.takeWhile_append_of_pos fun d hd =>
        Option.isSome_iff_ne_none.mpr (hpre d hd), List.takeWhile_cons_of_neg (by simp [hdev]),
        List.append_nil]
    rwa [hread]

/-! ## Adding leaves the filled slots -/

theorem listTryAdd_spec (p : Poller) (dev : Device) :
    (∀ i, (p.devices i).handle ≠ none → (listTryAdd p dev).devices i = p.devices i) ∧
      ∃ claims : List Handle, (listTryAdd p dev).calls =
        p.calls ++ claims.map .claimInterface := by
  cases ht : addTarget p.devices dev with
  | none =>
    rw [listTryAdd, ht]
    exact ⟨fun _ _ => rfl, [], by simp⟩
  | some target =>
    obtain ⟨j, h⟩ := target
    have hj : (p.devices j).handle = none := by
      rw [addTarget] at ht
      split at ht
      · exact absurd ht (by simp)
      · split at ht
        · exact absurd ht (by simp)
        · obtain ⟨k, hk, hkj⟩ := Option.map_eq_some_iff.mp ht
          obtain ⟨rfl, rfl⟩ := Prod.mk.inj hkj
          simpa using List.find?_some hk
    rw [listTryAdd, ht]
    refine ⟨fun i hi => ?_, [h], rfl⟩
    have hne : i ≠ j := by
      rintro rfl
      exact hi hj
    exact Function.update_of_ne hne ..

theorem foldl_listTryAdd_spec (devs : List Device) (p : Poller) :
    (∀ i, (p.devices i).handle ≠ none → (devs.foldl listTryAdd p).devices i = p.devices i) ∧
      ∃ claims : List Handle, (devs.foldl listTryAdd p).calls =
        p.calls ++ claims.map .claimInterface := by
  induction devs generalizing p with
  | nil => exact ⟨fun _ _ => rfl, [], by simp⟩
  | cons dev devs ih =>
    obtain ⟨hdev, claims, hcalls⟩ := listTryAdd_spec p dev
    obtain ⟨hdevs, claims', hcalls'⟩ := ih (listTryAdd p dev)
    refine ⟨fun i hi => ?_, claims ++ claims', ?_⟩
    · have hstep := hdev i hi
      rw [List.foldl_cons, hdevs i (by rwa [hstep]), hstep]
    · rw [List.foldl_cons, hcalls', hcalls, List.append_assoc, List.map_append]

/-- An iteration after a short scan, on any array whose slots are apart: what is left of each filled
slot, and the calls. -/
theorem pollIteration_spec (h : Represents p.devices t) (hlist : scan ≠ none)
    (hs : Short scan) : ∃ p' claims, pollIteration p scan = some p' ∧
      (∀ i, (cleaned (p.scanned (collected p scan)) (List.finRange maxDevs) i).handle ≠ none →
        p'.devices i = cleaned (p.scanned (collected p scan)) (List.finRange maxDevs) i) ∧
      p'.calls = p.calls ++ ((collected p scan).filterMap (openOf p.devices) ++
        ((List.finRange maxDevs).filterMap (closeOf (p.scanned (collected p scan))) ++
          List.map .claimInterface claims)) := by
  have hclean := listClean_eq (p := p.scanned (collected p scan)) h.apart
  obtain ⟨hdevs, claims, hcalls⟩ := foldl_listTryAdd_spec
    ((List.finRange maxDevs).map (listClean (p.scanned (collected p scan))).tmp)
    (listClean (p.scanned (collected p scan)))
  have hpoll : pollIteration p scan =
      some (listUpdateDevices (listClean (p.scanned (collected p scan)))) := by
    rw [pollIteration, getDevices_eq p hlist hs]
    rfl
  rw [← listUpdateDevices_eq] at hdevs hcalls
  refine ⟨_, claims, hpoll, fun i hi => ?_, ?_⟩
  · have hdev : (listClean (p.scanned (collected p scan))).devices i =
        cleaned (p.scanned (collected p scan)) (List.finRange maxDevs) i := by rw [hclean]
    rw [hdevs i (by rwa [hdev]), hdev]
  · have hcl : (listClean (p.scanned (collected p scan))).calls =
        (p.scanned (collected p scan)).calls ++
          (List.finRange maxDevs).filterMap (closeOf (p.scanned (collected p scan))) := by
      rw [hclean]
    rw [hcalls, hcl, Poller.scanned, List.append_assoc, List.append_assoc]

theorem Represents.gone_scanned (h : Represents p.devices t) {i : Fin maxDevs}
    {e : Location × Handle} (hs : t.slot i = some e) :
    (p.devices i).Gone (p.scanned (collected p scan)).tmp ↔
      e.1 ∉ (collected p scan).map UsbDevice.location := by
  have hg := Represents.gone_filled (p := p.scanned (collected p scan)) h hs
  have hv : Valid e.1 := h.valid_slot hs
  have hk := known_scanTable p.devices (collected_length p scan) hv
  exact hg.trans (not_congr hk)

theorem Represents.filled_slot (h : Represents p.devices t) {i : Fin maxDevs}
    (hi : p.devices i ≠ Device.empty) :
    ∃ v, t.slot i = some (((p.devices i).bus, (p.devices i).address), v) ∧
      (p.devices i).handle = some v := by
  rw [h.slot i] at hi ⊢
  cases hs : t.slot i with
  | none =>
    rw [hs] at hi
    exact absurd rfl hi
  | some e => exact ⟨e.2, rfl, rfl⟩

/-- A device that was not collected is closed. -/
theorem Represents.closeOf_missing (h : Represents p.devices t) {i : Fin maxDevs}
    (hi : p.devices i ≠ Device.empty)
    (hmem : ((p.devices i).bus, (p.devices i).address) ∉
      (collected p scan).map UsbDevice.location) :
    ∃ v, (p.devices i).handle = some v ∧
      closeOf (p.scanned (collected p scan)) i = some (.closeHandle v) := by
  obtain ⟨v, hs, hv⟩ := h.filled_slot hi
  have hg : (p.devices i).Gone (p.scanned (collected p scan)).tmp := (h.gone_scanned hs).mpr hmem
  refine ⟨v, hv, ?_⟩
  rw [closeOf]
  exact (if_pos hg).trans (by rw [Poller.scanned, hv]; rfl)

theorem AllCollected.not_gone (hall : AllCollected p scan) (h : Represents p.devices t)
    (i : Fin maxDevs) : ¬ (p.devices i).Gone (p.scanned (collected p scan)).tmp := by
  intro hg
  have hne : p.devices i ≠ Device.empty := fun he => hg.1.1 (by rw [he]; rfl)
  obtain ⟨v, hs, -⟩ := h.filled_slot hne
  exact (h.gone_scanned hs).mp hg (hall i hne)

/-- **A failed scan leaves the table alone exactly when the list call succeeded and the scan had
collected every device of the table.** -/
theorem undisturbed_iff {vendorId productId : UInt16} (hp : Reachable vendorId productId p)
    (hf : Fails p scan) :
    (∃ p', pollIteration p scan = some p' ∧ Undisturbed p p') ↔
      scan ≠ none ∧ AllCollected p scan := by
  obtain ⟨t, ht⟩ := hp.accounts
  have hrep := ht.table
  constructor
  · rintro ⟨p'', hpoll', ⟨added, hadded, hopen⟩, -⟩
    have hlist := listed_of_pollIteration hpoll'
    obtain ⟨p', claims, hpoll, -, hcalls⟩ := pollIteration_spec hrep hlist hf.short
    refine ⟨hlist, fun i hi => ?_⟩
    rw [hpoll] at hpoll'
    obtain rfl := Option.some.inj hpoll'
    by_contra hmem
    obtain ⟨v, hv, hclose⟩ := hrep.closeOf_missing hi hmem
    apply hopen i v hv
    rw [hcalls, List.append_cancel_left_eq] at hadded
    rw [← hadded, List.mem_append, List.mem_append]
    exact .inr (.inl (List.mem_filterMap.mpr ⟨i, List.mem_finRange i, hclose⟩))
  · rintro ⟨hlist, hall⟩
    obtain ⟨p', claims, hpoll, hslots, hcalls⟩ := pollIteration_spec hrep hlist hf.short
    have hng := hall.not_gone hrep
    have hcleaned : ∀ i, cleaned (p.scanned (collected p scan)) (List.finRange maxDevs) i =
        p.devices i := fun i => if_neg fun h => hng i h.2
    have hcloses : (List.finRange maxDevs).filterMap
        (closeOf (p.scanned (collected p scan))) = [] :=
      List.filterMap_eq_nil_iff.mpr fun i _ => if_neg (hng i)
    rw [hcloses, List.nil_append] at hcalls
    refine ⟨p', hpoll, ⟨_, hcalls, fun i v _ hmem => ?_⟩, fun i hi => ?_⟩
    · rcases List.mem_append.mp hmem with hmem | hmem
      · exact closeHandle_not_mem_opens p.devices _ v hmem
      · exact closeHandle_not_mem_claims claims v hmem
    · obtain ⟨v, -, hv⟩ := hrep.filled_slot hi
      have hslot := hslots i
      rw [hcleaned i] at hslot
      exact hslot (by simp [hv])

end Failed

/-! ## Concrete failures -/

def lateFailure : Scan := some [controllerAt 2 12, controllerAt 3 13, ⟨none, 1, 9, none⟩]

theorem undisturbed_lateFailure :
    (∃ p', pollIteration pluggedIn lateFailure = some p' ∧ Undisturbed pluggedIn p') ↔
      lateFailure ≠ none ∧ AllCollected pluggedIn lateFailure :=
  undisturbed_iff reachable_pluggedIn (.inr ⟨[controllerAt 2 12, controllerAt 3 13],
    ⟨none, 1, 9, none⟩, [], rfl, by decide, rfl, by decide, by decide⟩)

/-- The descriptor between the two controllers cannot be read. -/
def unreadable : Scan := some [controllerAt 2 12, ⟨none, 1, 9, none⟩, controllerAt 3 13]

/-- The second controller is removed although it is in the list. -/
theorem disturbed_unreadable :
    Reachable 0x045e 0x028e pluggedIn ∧ (ScanOk unreadable ∧ Fails pluggedIn unreadable) ∧
      ¬ ∃ p', pollIteration pluggedIn unreadable = some p' ∧ Undisturbed pluggedIn p' := by
  refine ⟨reachable_pluggedIn, ⟨by decide, .inr ⟨[controllerAt 2 12], ⟨none, 1, 9, none⟩,
    [controllerAt 3 13], rfl, by decide, rfl, by decide, by decide⟩⟩, ?_⟩
  rintro ⟨p', hp, -, hslots⟩
  have hcleared : (pollIteration pluggedIn unreadable).map
      (fun q => q.devices ⟨1, one_lt_maxDevs⟩) = some Device.empty := by decide
  rw [hp, Option.map_some, hslots ⟨1, one_lt_maxDevs⟩ (by decide)] at hcleared
  exact absurd (Option.some.inj hcleared) (by decide)

end El32.Devices

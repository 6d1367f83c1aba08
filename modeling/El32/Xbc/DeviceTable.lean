import El32.Foundations.SlotTable
import El32.Xbc.Devices

/-! What each function of the polling thread does to a table whose slots are completely empty or
completely filled.

Such an array is a `SlotTable` from locations to handles: the cleaning keeps the slots whose
location was seen, and the adding places the new devices. -/
namespace El32.Devices
open Controller
set_option autoImplicit false

/-! ## The array as a table -/

abbrev Location := Int8 × Int8

def Valid (k : Location) : Prop := k.1 ≠ -1 ∧ k.2 ≠ -1

def toDevice : Option (Location × Handle) → Device
  | none => Device.empty
  | some (k, h) => ⟨k.1, k.2, some h⟩

/-- The array holds what the table says, under locations that are not the empty one. -/
structure Represents (devices : Table) (t : SlotTable maxDevs Location Handle) : Prop where
  slot : ∀ i, devices i = toDevice (t.slot i)
  valid : ∀ k, t.Has k → Valid k

theorem compareDevices_iff {d1 d2 : Device} :
    compareDevices d1 d2 = true ↔ d1.bus = d2.bus ∧ d1.address = d2.address := decide_eq_true_iff

def known (devices : Table) (k : Location) : Bool := listContains devices ⟨k.1, k.2, none⟩

theorem known_iff {devices : Table} {k : Location} :
    known devices k = true ↔ ∃ i, (devices i).bus = k.1 ∧ (devices i).address = k.2 := by
  simp [known, listContains, compareDevices_iff]

section Table
variable {devices : Table} {t : SlotTable maxDevs Location Handle}

theorem Represents.known_iff (h : Represents devices t) {k : Location} (hk : Valid k) :
    known devices k = true ↔ t.Has k := by
  rw [Devices.known_iff]
  constructor
  · rintro ⟨i, hb, ha⟩
    rw [h.slot i] at hb ha
    cases hs : t.slot i with
    | none =>
      rw [hs] at hb
      exact absurd hb.symm hk.1
    | some e =>
      rw [hs] at hb ha
      exact ⟨i, e.2, by rw [hs]; exact congrArg some (Prod.ext (Prod.ext hb ha) rfl)⟩
  · rintro ⟨i, v, hs⟩
    exact ⟨i, by rw [h.slot i, hs]; rfl, by rw [h.slot i, hs]; rfl⟩

theorem Represents.valid_slot (h : Represents devices t) {i : Fin maxDevs} {k : Location}
    {v : Handle} (hs : t.slot i = some (k, v)) : Valid k := h.valid k ⟨i, v, hs⟩

/-- No slot compares equal to another slot that is in use. -/
def Apart (devices : Table) : Prop :=
  ∀ i j, (devices i).bus ≠ -1 → compareDevices (devices j) (devices i) = true → j = i

theorem Represents.apart (h : Represents devices t) : Apart devices := by
  intro i j hi hcmp
  have hcmp := compareDevices_iff.mp hcmp
  rw [h.slot i] at hi hcmp
  rw [h.slot j] at hcmp
  cases hsi : t.slot i with
  | none =>
    rw [hsi] at hi
    exact absurd rfl hi
  | some e =>
    cases hsj : t.slot j with
    | none =>
      rw [hsi, hsj] at hcmp
      exact absurd hcmp.1.symm (h.valid_slot hsi).1
    | some e' =>
      rw [hsi, hsj] at hcmp
      exact t.key_inj hsj hsi (Prod.ext hcmp.1 hcmp.2)

theorem Apart.find_slot (h : Apart devices) {i : Fin maxDevs} (hi : (devices i).bus ≠ -1) :
    (List.finRange maxDevs).find? (fun j => compareDevices (devices j) (devices i)) = some i := by
  have hself : compareDevices (devices i) (devices i) = true := compareDevices_iff.mpr ⟨rfl, rfl⟩
  obtain ⟨j, hj⟩ : ∃ j, (List.finRange maxDevs).find?
      (fun j => compareDevices (devices j) (devices i)) = some j :=
    Option.isSome_iff_exists.mp (List.find?_isSome.mpr ⟨i, List.mem_finRange i, hself⟩)
  have hcmp := List.find?_some hj
  rw [hj, h i j hi hcmp]

theorem Represents.find_free (h : Represents devices t) :
    (List.finRange maxDevs).find? (fun j => decide ((devices j).handle = none)) =
      t.free.head? := by
  have hfun : (fun j => decide ((devices j).handle = none)) = fun j => (t.slot j).isNone := by
    funext j
    rw [h.slot j]
    cases t.slot j <;> rfl
  rw [hfun, SlotTable.free, List.head?_filter]

theorem represents_empty : Represents (fun _ => Device.empty) SlotTable.empty :=
  ⟨fun _ => rfl, fun _ ⟨_, _, h⟩ => absurd h (by simp [SlotTable.empty])⟩

end Table

/-! ## Cleaning -/

def closeOf (p : Poller) (i : Fin maxDevs) : Option UsbCall :=
  if (p.devices i).Gone p.tmp then (p.devices i).handle.map .closeHandle else none

def cleaned (p : Poller) (is : List (Fin maxDevs)) : Table :=
  fun i => if i ∈ is ∧ (p.devices i).Gone p.tmp then Device.empty else p.devices i

section Clean
variable {p : Poller} {t : SlotTable maxDevs Location Handle}

theorem cleaned_of_not_mem {i : Fin maxDevs} {is : List (Fin maxDevs)} (h : i ∉ is) :
    cleaned p is i = p.devices i := if_neg fun hi => h hi.1

theorem Apart.cleaned (h : Apart p.devices) (is : List (Fin maxDevs)) : Apart (cleaned p is) := by
  intro i j hi hcmp
  by_cases hgi : i ∈ is ∧ (p.devices i).Gone p.tmp
  · rw [Devices.cleaned, if_pos hgi] at hi
    exact absurd rfl hi
  rw [Devices.cleaned, if_neg hgi] at hi
  by_cases hgj : j ∈ is ∧ (p.devices j).Gone p.tmp
  · rw [Devices.cleaned, if_pos hgj, Devices.cleaned, if_neg hgi] at hcmp
    exact absurd (compareDevices_iff.mp hcmp).1.symm hi
  · rw [Devices.cleaned, if_neg hgj, Devices.cleaned, if_neg hgi] at hcmp
    exact h i j hi hcmp

theorem listCleanAt_eq (h : Apart p.devices) (i : Fin maxDevs) :
    listCleanAt p i = { p with
      devices := cleaned p [i]
      calls := p.calls ++ (closeOf p i).toList } := by
  by_cases hg : (p.devices i).Gone p.tmp
  · have hdev : cleaned p [i] = Function.update p.devices i Device.empty := by
      funext j
      by_cases hj : j = i
      · subst hj; simp [cleaned, hg]
      · simp [cleaned, hj]
    rw [listCleanAt, if_pos hg, listTryRemove, Poller.closeHandle, closeOf, if_pos hg, hdev]
    cases hh : (p.devices i).handle with
    | none => simp [Poller.clearSlot, h.find_slot hg.1.1]
    | some v => simp [Poller.clearSlot, Poller.log, h.find_slot hg.1.1]
  · have hdev : cleaned p [i] = p.devices := by
      funext j
      by_cases hj : j = i
      · subst hj; simp [cleaned, hg]
      · simp [cleaned, hj]
    rw [listCleanAt, if_neg hg, closeOf, if_neg hg, hdev]
    simp

theorem foldl_listCleanAt {is : List (Fin maxDevs)} (hnd : is.Nodup) (h : Apart p.devices) :
    is.foldl listCleanAt p = { p with
      devices := cleaned p is
      calls := p.calls ++ is.filterMap (closeOf p) } := by
  induction is generalizing p with
  | nil =>
    have hdev : cleaned p [] = p.devices := funext fun i => cleaned_of_not_mem (by simp)
    simp [hdev]
  | cons i is ih =>
    obtain ⟨hi, hnd⟩ := List.nodup_cons.mp hnd
    rw [List.foldl_cons, listCleanAt_eq h i, ih hnd (h.cleaned [i])]
    have hne : ∀ j ∈ is, cleaned p [i] j = p.devices j :=
      fun j hj => cleaned_of_not_mem fun hji => hi (List.mem_singleton.mp hji ▸ hj)
    have hcalls : is.filterMap (closeOf { p with
        devices := cleaned p [i]
        calls := p.calls ++ (closeOf p i).toList }) = is.filterMap (closeOf p) :=
      List.filterMap_congr fun j hj => by simp only [closeOf, hne j hj]
    have hdev : cleaned { p with
        devices := cleaned p [i]
        calls := p.calls ++ (closeOf p i).toList } is = cleaned p (i :: is) := by
      funext j
      by_cases hji : j = i
      · subst hji
        rw [cleaned_of_not_mem hi]
        simp [cleaned]
      · simp [cleaned, hji]
    rw [hcalls, hdev]
    cases hc : closeOf p i <;> simp [hc]

theorem listClean_eq (h : Apart p.devices) :
    listClean p = { p with
      devices := cleaned p (List.finRange maxDevs)
      calls := p.calls ++ (List.finRange maxDevs).filterMap (closeOf p) } :=
  foldl_listCleanAt (List.nodup_finRange maxDevs) h

theorem Represents.gone_empty (h : Represents p.devices t) {i : Fin maxDevs}
    (hs : t.slot i = none) : ¬ (p.devices i).Gone p.tmp := by
  rw [h.slot i, hs]
  exact fun hg => absurd rfl hg.1.1

theorem Represents.gone_filled (h : Represents p.devices t) {i : Fin maxDevs}
    {e : Location × Handle} (hs : t.slot i = some e) :
    (p.devices i).Gone p.tmp ↔ ¬ known p.tmp e.1 = true := by
  have hv : Valid e.1 := h.valid_slot hs
  rw [h.slot i, hs, Bool.not_eq_true]
  exact and_iff_right hv

/-- The cleaning keeps the slots whose location is in `tmp`. -/
theorem represents_listClean (h : Represents p.devices t) :
    Represents (listClean p).devices (t.keep (known p.tmp)) := by
  rw [listClean_eq h.apart]
  refine ⟨fun i => ?_, fun k hk => h.valid k (SlotTable.has_keep.mp hk).1⟩
  cases hs : t.slot i with
  | none =>
    have hg := h.gone_empty hs
    simp only [cleaned, hg, and_false, if_false, SlotTable.keep, hs, Option.filter_none]
    rw [h.slot i, hs]
  | some e =>
    have hg := h.gone_filled hs
    simp only [cleaned, List.mem_finRange, true_and, hg, SlotTable.keep, hs, Option.filter_some]
    by_cases hk : known p.tmp e.1 = true
    · rw [if_neg (not_not.mpr hk), if_pos hk, h.slot i, hs]
    · rw [if_pos hk, if_neg hk]
      rfl

/-- It closes the handles of the others, each once, in the order of the slots. -/
theorem Represents.filterMap_closeOf (h : Represents p.devices t) :
    (List.finRange maxDevs).filterMap (closeOf p) =
      (t.entries.filter fun e => !known p.tmp e.1).map fun e => .closeHandle e.2 := by
  rw [SlotTable.entries, List.filter_filterMap, List.map_filterMap]
  apply List.filterMap_congr
  intro i _
  cases hs : t.slot i with
  | none => rw [closeOf, if_neg (h.gone_empty hs)]; rfl
  | some e =>
    have hg := h.gone_filled hs
    rw [closeOf, Option.filter_some]
    by_cases hk : known p.tmp e.1 = true
    · rw [if_neg (hg.not.mpr (not_not.mpr hk)), if_neg (by simp [hk])]
      rfl
    · rw [if_pos (hg.mpr hk), if_pos (by simpa using hk), h.slot i, hs]
      rfl

end Clean

/-! ## Adding -/

section Add
variable {p : Poller} {t : SlotTable maxDevs Location Handle}

theorem listTryAdd_no_handle (p : Poller) {dev : Device} (h : dev.handle = none) :
    listTryAdd p dev = p := by
  have ht : addTarget p.devices dev = none := by
    rw [addTarget, h]
    split <;> rfl
  rw [listTryAdd, ht]

/-- A device with a handle goes into the lowest empty slot, unless it is in the table. -/
theorem Represents.addTarget_eq {devices : Table} (h : Represents devices t)
    {e : Location × Handle} (hv : Valid e.1) :
    addTarget devices (toDevice (some e)) =
      if t.Has e.1 then none else t.free.head?.map fun i => (i, e.2) := by
  have hk : listContains devices (toDevice (some e)) = true ↔ t.Has e.1 := h.known_iff hv
  rw [addTarget]
  by_cases hhas : t.Has e.1
  · rw [if_pos (hk.mpr hhas), if_pos hhas]
  · rw [if_neg (mt hk.mp hhas), if_neg hhas, ← h.find_free]
    rfl

theorem Represents.setSlot {devices : Table} (h : Represents devices t) {e : Location × Handle}
    (hv : Valid e.1) (hnew : ¬ t.Has e.1) {i : Fin maxDevs} {r : List (Fin maxDevs)}
    (hf : t.free = i :: r) :
    Represents (Function.update devices i (toDevice (some e))) (t.place e) := by
  refine ⟨fun j => ?_, fun k hk => ?_⟩
  · rw [SlotTable.place_slot hnew hf]
    by_cases hj : j = i
    · subst hj
      simp
    · simp [hj, h.slot j]
  · rcases (SlotTable.has_place hnew hf).mp hk with rfl | hk
    · exact hv
    · exact h.valid k hk

theorem Represents.clearSlot {devices : Table} (h : Represents devices t) (i : Fin maxDevs) :
    Represents (Function.update devices i Device.empty) (t.clear i) := by
  refine ⟨fun j => ?_, fun k hk => h.valid k (SlotTable.has_of_clear hk)⟩
  by_cases hj : j = i
  · subst hj
    simp [SlotTable.clear, toDevice]
  · simp [SlotTable.clear, hj, h.slot j]

theorem Represents.listTryAdd_new (h : Represents p.devices t) {e : Location × Handle}
    (hv : Valid e.1) (hnew : ¬ t.Has e.1) {i : Fin maxDevs} {r : List (Fin maxDevs)}
    (hf : t.free = i :: r) :
    ∃ devices, Represents devices (t.place e) ∧ listTryAdd p (toDevice (some e)) =
      { p with devices := devices, calls := p.calls ++ [.claimInterface e.2] } := by
  have ht : addTarget p.devices (toDevice (some e)) = some (i, e.2) := by
    rw [h.addTarget_eq hv, if_neg hnew, hf]
    rfl
  refine ⟨_, h.setSlot hv hnew hf, ?_⟩
  rw [listTryAdd, ht]
  rfl

theorem Represents.foldl_listTryAdd (h : Represents p.devices t) {devs : List Device}
    {es : List (Location × Handle)} (hes : devs.filter (·.handle.isSome) =
      es.map fun e => toDevice (some e)) (hv : ∀ e ∈ es, Valid e.1) (hfits : t.Fits es) :
    ∃ devices, Represents devices (t.placeAll es) ∧ devs.foldl listTryAdd p =
      { p with devices := devices, calls := p.calls ++ es.map fun e => .claimInterface e.2 } := by
  induction devs generalizing p t es with
  | nil =>
    obtain rfl : es = [] := by simpa using hes
    exact ⟨p.devices, h, by simp⟩
  | cons dev devs ih =>
    rw [List.foldl_cons]
    cases hh : dev.handle with
    | none =>
      rw [List.filter_cons_of_neg (by simp [hh])] at hes
      rw [listTryAdd_no_handle p hh]
      exact ih h hes hv hfits
    | some v =>
      rw [List.filter_cons_of_pos (by simp [hh])] at hes
      cases es with
      | nil => simp at hes
      | cons e es =>
        rw [List.map_cons] at hes
        obtain ⟨hdev, htail⟩ := List.cons.inj hes
        subst hdev
        obtain ⟨hnew, ⟨i, r, hf⟩, hfits⟩ := hfits.step
        obtain ⟨devices, hr, heq⟩ := h.listTryAdd_new (hv e List.mem_cons_self) hnew hf
        rw [heq]
        obtain ⟨devices', hr', heq'⟩ := ih (p := { p with
          devices := devices, calls := p.calls ++ [.claimInterface e.2] }) hr htail
          (fun e he => hv e (List.mem_cons_of_mem _ he)) hfits
        exact ⟨devices', hr', by rw [heq']; simp⟩

end Add

end El32.Devices

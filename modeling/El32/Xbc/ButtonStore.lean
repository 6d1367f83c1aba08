import El32.Xbc.ShmAccess

/-! The button store of `common/shm.c` over whole sequences of calls, against a map of `MAX_DEVS`
records.

The calls come one after the other, after an `initButtonSHM` that succeeded. -/
namespace El32.ButtonStore
open Controller Shm ShmAccess
set_option autoImplicit false

/-- A call with the caller's record and the id. -/
inductive Call where
  | write (b : Button) (id : UInt8)
  | read (b : Button) (id : UInt8)
deriving DecidableEq

def Call.id : Call → UInt8
  | .write _ id => id
  | .read _ id => id

/-- The caller's record after the call, and the store. -/
def call (map : Option Map) : Call → Option (Button × Option Map)
  | .write b id => (witeButtonToSHM map b id).map fun map => (b, map)
  | .read b id => (readButtonFromSHM map b id).map fun b => (b, map)

/-- The callers' records after a sequence of calls, and the store. -/
def calls (map : Option Map) : List Call → Option (List Button × Option Map)
  | [] => some ([], map)
  | c :: cs => do
    let (b, map) ← call map c
    let (bs, map) ← calls map cs
    return (b :: bs, map)

/-! ## The map -/

/-- What the calls have written, with the ids of the map. -/
def writes (cs : List Call) : Log :=
  cs.filterMap fun
    | .write b id => if h : id.toNat < maxDevs then some (⟨id.toNat, h⟩, b) else none
    | .read _ _ => none

/-- The caller's record after a call that comes after the calls `before`. -/
def answer (before : List Call) : Call → Button
  | .write b _ => b
  | .read b id => if h : id.toNat < maxDevs then lastRecord (writes before) ⟨id.toNat, h⟩ else b

def answers (before : List Call) : List Call → List Button
  | [] => []
  | c :: cs => answer before c :: answers (before ++ [c]) cs

/-- The calls stay in the store, answer as the map does and leave its contents; before the first
write a record is zero. -/
def Lawful (cs : List Call) : Prop :=
  calls (some fun _ => default) cs = some (answers [] cs, some (lastRecord (writes cs)))

section Calls
variable {before cs : List Call} {c : Call}

theorem writes_concat (cs : List Call) (c : Call) :
    writes (cs ++ [c]) = writes cs ++ writes [c] := List.filterMap_append ..

/-- A call with any id but `MAX_DEVS` does what the map does. -/
theorem call_lawful (before : List Call) (hid : c.id.toNat ≠ maxDevs) :
    call (some (lastRecord (writes before))) c =
      some (answer before c, some (lastRecord (writes (before ++ [c])))) := by
  rw [writes_concat]
  cases c with
  | write b id =>
    by_cases hlt : id.toNat < maxDevs
    · have hone : writes [.write b id] = [(⟨id.toNat, hlt⟩, b)] := by simp [writes, hlt]
      rw [hone, lastRecord_concat]
      simp [call, answer, witeButtonToSHM, hlt, Nat.not_lt.mpr hlt.le]
    · have hout : maxDevs < id.toNat := Nat.lt_of_le_of_ne (Nat.le_of_not_lt hlt) (Ne.symm hid)
      simp [call, answer, witeButtonToSHM, hout, writes, hlt]
  | read b id =>
    by_cases hlt : id.toNat < maxDevs
    · simp [call, answer, readButtonFromSHM_slot, hlt, writes]
    · have hout : maxDevs < id.toNat := Nat.lt_of_le_of_ne (Nat.le_of_not_lt hlt) (Ne.symm hid)
      simp [call, answer, readButtonFromSHM, hout, hlt, writes]

/-- The check lets this id through. -/
theorem call_outside (map : Option Map) (hid : c.id.toNat = maxDevs) : call map c = none := by
  cases c with
  | write b id =>
    have hid' : id.toNat = maxDevs := hid
    cases map <;> simp [call, witeButtonToSHM, hid']
  | read b id =>
    have hid' : id.toNat = maxDevs := hid
    cases map <;> simp [call, readButtonFromSHM, hid']

theorem calls_lawful (h : ∀ c ∈ cs, c.id.toNat ≠ maxDevs) :
    calls (some (lastRecord (writes before))) cs =
      some (answers before cs, some (lastRecord (writes (before ++ cs)))) := by
  induction cs generalizing before with
  | nil => simp [calls, answers]
  | cons c cs ih =>
    obtain ⟨hc, hcs⟩ := List.forall_mem_cons.mp h
    simp [calls, call_lawful before hc, ih hcs, answers]

theorem calls_outside {map : Option Map} (h : ∃ c ∈ cs, c.id.toNat = maxDevs) :
    calls map cs = none := by
  induction cs generalizing map with
  | nil => simp at h
  | cons c cs ih =>
    obtain ⟨d, hd, hid⟩ := h
    rcases List.mem_cons.mp hd with rfl | hd
    · simp [calls, call_outside map hid]
    · have hrest : ∀ m, calls m cs = none := fun m => ih ⟨d, hd, hid⟩
      simp [calls, hrest]

/-- **A sequence of calls keeps to the map exactly when none of them has the id `MAX_DEVS`.** -/
theorem lawful_iff (cs : List Call) : Lawful cs ↔ ∀ c ∈ cs, c.id.toNat ≠ maxDevs := by
  constructor
  · intro h c hc hid
    have hnone : calls (some fun _ => default) cs = none := calls_outside ⟨c, hc, hid⟩
    rw [Lawful, hnone] at h
    exact absurd h (by simp)
  · intro h
    have hstart : lastRecord (writes []) = fun _ => default := rfl
    rw [Lawful, ← hstart]
    exact calls_lawful h

end Calls

/-- The daemon writes the record of a controller that it does not have. -/
def fifthSlot : List Call := [.write default 0, .write pressed 4]

theorem fifthSlot_not_lawful : ¬ Lawful fifthSlot := by
  intro h
  have hnone : calls (some fun _ => default) fifthSlot = none :=
    calls_outside ⟨.write pressed 4, by simp [fifthSlot], rfl⟩
  rw [Lawful, hnone] at h
  exact absurd h (by simp)

end El32.ButtonStore

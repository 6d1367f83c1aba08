import El32.Xbc.Controller
import Mathlib.Logic.Function.Basic
import Mathlib.Data.Fin.Basic

/-! The button store of `common/shm.c`: one record a controller in the mapped memory.

An access outside the mapped records has no value; a store that was never mapped is `none`. -/
namespace El32.Shm
open Controller
set_option autoImplicit false

abbrev Map := Fin maxDevs → Button

/-- The check lets `id = MAX_DEVS` through. -/
def witeButtonToSHM (map : Option Map) (b : Button) (id : UInt8) : Option (Option Map) :=
  if maxDevs < id.toNat then some map
  else do
    let m ← map
    if h : id.toNat < maxDevs then some (some (Function.update m ⟨id.toNat, h⟩ b)) else none

def readButtonFromSHM (map : Option Map) (b : Button) (id : UInt8) : Option Button :=
  if maxDevs < id.toNat then some b
  else do
    let m ← map
    if h : id.toNat < maxDevs then some (m ⟨id.toNat, h⟩) else none

theorem witeButtonToSHM_slot (m : Map) (b : Button) (i : Fin maxDevs) :
    witeButtonToSHM (some m) b (UInt8.ofNat i) = some (some (Function.update m i b)) := by
  have hn : (UInt8.ofNat i).toNat = i := slot_toNat i
  have h4 : ¬ maxDevs < (UInt8.ofNat i).toNat := by rw [hn]; exact Nat.not_lt.mpr i.isLt.le
  rw [witeButtonToSHM, if_neg h4]
  simp [hn]

theorem readButtonFromSHM_slot (m : Map) (b : Button) (id : UInt8) (h : id.toNat < maxDevs) :
    readButtonFromSHM (some m) b id = some (m ⟨id.toNat, h⟩) := by
  rw [readButtonFromSHM, if_neg (by omega)]
  simp [h]

end El32.Shm

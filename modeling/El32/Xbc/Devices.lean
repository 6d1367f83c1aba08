import El32.Xbc.Controller
import Mathlib.Data.List.FinRange
import Mathlib.Logic.Function.Basic

/-! The device table of `xbcdaemon/devices.c` and one iteration of its polling thread.

libusb is the environment: a scan is what `libusb_get_device_list` returns, with what the other
calls say about each entry, and the calls that open, claim or close a handle are logged. The table
is written by the polling thread alone; what the other threads see in between is the subject of
`Threads`. -/
namespace El32.Devices
open Controller
set_option autoImplicit false

/-- `structure device`; `-1` is an unused bus or address. -/
structure Device where
  bus : Int8
  address : Int8
  handle : Option Handle
deriving DecidableEq

def Device.empty : Device := ⟨-1, -1, none⟩

abbrev Table := Fin maxDevs → Device

/-- An entry of the device list: the vendor and product id of its descriptor unless that read fails,
its numbers, and the handle `libusb_open` stores unless it fails. -/
structure UsbDevice where
  descriptor : Option (UInt16 × UInt16)
  busNumber : UInt8
  deviceAddress : UInt8
  opened : Option Handle
deriving DecidableEq

/-- The device list up to its null pointer, or a call that failed. -/
abbrev Scan := Option (List UsbDevice)

inductive UsbCall where
  | openDevice (busNumber deviceAddress : UInt8) (handle : Option Handle)
  | claimInterface (handle : Handle)
  | closeHandle (handle : Handle)
deriving DecidableEq

/-- The static variables of the file, with the calls made so far. -/
structure Poller where
  vendorId : UInt16
  productId : UInt16
  devices : Table
  tmp : Table
  calls : List UsbCall

def Poller.log (p : Poller) (c : UsbCall) : Poller := { p with calls := p.calls ++ [c] }

def compareDevices (d1 d2 : Device) : Bool := d1.bus = d2.bus ∧ d1.address = d2.address

def initDevices (vendorId productId : UInt16) : Poller where
  vendorId := vendorId
  productId := productId
  devices _ := Device.empty
  tmp _ := Device.empty
  calls := []

def getDeviceHandle (devices : Table) (id : UInt8) : Option Handle :=
  if h : id.toNat < maxDevs then (devices ⟨id.toNat, h⟩).handle else none

theorem getDeviceHandle_slot (devices : Table) (i : Fin maxDevs) {id : UInt8}
    (h : id.toNat = i.val) : getDeviceHandle devices id = (devices i).handle := by
  rw [getDeviceHandle, dif_pos (by rw [h]; exact i.isLt)]
  congr 2
  exact Fin.ext h

def listContains (devs : Table) (dev : Device) : Bool :=
  (List.finRange maxDevs).any fun i => compareDevices (devs i) dev

/-! ## Removing -/

def Poller.closeHandle (p : Poller) (dev : Device) : Poller :=
  match dev.handle with
  | none => p
  | some h => p.log (.closeHandle h)

def Poller.clearSlot (p : Poller) (dev : Device) : Poller :=
  match (List.finRange maxDevs).find? fun i => compareDevices (p.devices i) dev with
  | none => p
  | some i => { p with devices := Function.update p.devices i Device.empty }

def listTryRemove (p : Poller) (dev : Device) : Poller := (p.closeHandle dev).clearSlot dev

def Device.Gone (dev : Device) (tmp : Table) : Prop :=
  (dev.bus ≠ -1 ∧ dev.address ≠ -1) ∧ listContains tmp dev = false

instance (dev : Device) (tmp : Table) : Decidable (dev.Gone tmp) :=
  inferInstanceAs (Decidable (_ ∧ _))

def listCleanAt (p : Poller) (i : Fin maxDevs) : Poller :=
  let dev := p.devices i
  if dev.Gone p.tmp then listTryRemove p dev else p

def listClean (p : Poller) : Poller := (List.finRange maxDevs).foldl listCleanAt p

/-! ## Adding -/

/-- Where `listTryAdd` puts a device, and the handle it claims there. -/
def addTarget (devs : Table) (dev : Device) : Option (Fin maxDevs × Handle) :=
  if listContains devs dev then none
  else match dev.handle with
    | none => none
    | some h =>
      ((List.finRange maxDevs).find? fun i => (devs i).handle = none).map fun i => (i, h)

def Poller.setSlot (p : Poller) (i : Fin maxDevs) (dev : Device) : Poller :=
  { p with devices := Function.update p.devices i dev }

/-- The result of the claim is not looked at, so it is not part of the state. -/
def claimHandle (p : Poller) (h : Handle) : Poller := p.log (.claimInterface h)

def listTryAdd (p : Poller) (dev : Device) : Poller :=
  match addTarget p.devices dev with
  | none => p
  | some (i, h) => claimHandle (p.setSlot i dev) h

def listUpdateDevices (p : Poller) : Poller :=
  (List.finRange maxDevs).foldl (fun q i => listTryAdd q (q.tmp i)) p

/-! ## Scanning -/

/-- `libusb_open` into `tmp[id].handle`, which keeps its value when the call fails. -/
def Poller.openDevice (p : Poller) (dev : UsbDevice) (id : Fin maxDevs) : Poller :=
  let entry := { p.tmp id with handle := dev.opened.or (p.tmp id).handle }
  { p with tmp := Function.update p.tmp id entry }.log
    (.openDevice dev.busNumber dev.deviceAddress dev.opened)

def Poller.collect (p : Poller) (dev : UsbDevice) (id : Fin maxDevs) : Poller :=
  let entry := { p.tmp id with
    bus := dev.busNumber.toInt8, address := dev.deviceAddress.toInt8 }
  let p := { p with tmp := Function.update p.tmp id entry }
  if listContains p.devices (p.tmp id) then p else p.openDevice dev id

/-- The loop with its 8-bit index. It goes round 256 entries without a match only when it never
ends, so a loop that is not done in `256 * MAX_DEVS` rounds has no value. -/
def scanLoop (devs : List UsbDevice) : ℕ → UInt8 → Fin maxDevs → Poller → Option Poller
  | 0, _, _, _ => none
  | fuel + 1, i, id, p =>
    match devs[i.toNat]? with
    | none => some p
    | some dev =>
      match dev.descriptor with
      | none => some p
      | some (idVendor, idProduct) =>
        if idVendor = p.vendorId ∧ idProduct = p.productId then
          let p := p.collect dev id
          if h : id.val + 1 < maxDevs then scanLoop devs fuel (i + 1) ⟨id.val + 1, h⟩ p
          -- limit is reached
          else some p
        else scanLoop devs fuel (i + 1) id p

/-- After a failed list call the source frees the list pointer, which was never set: what follows is
undefined, so that call has no value. -/
def getDevices (p : Poller) (scan : Scan) : Option Poller :=
  let p := { p with tmp := fun _ => Device.empty }
  match scan with
  | none => none
  | some devs => scanLoop devs (256 * maxDevs) 0 ⟨0, maxDevs_pos⟩ p

/-! ## The thread -/

def pollIteration (p : Poller) (scan : Scan) : Option Poller := do
  let p ← getDevices p scan
  return listUpdateDevices (listClean p)

def closeAt (p : Poller) (i : Fin maxDevs) : Poller :=
  match (p.devices i).handle with
  | none => p
  | some h => (p.setSlot i { p.devices i with handle := none }).log (.closeHandle h)

/-- The loop of `closeDevices`, after the polling thread has stopped. -/
def closeDevices (p : Poller) : Poller := (List.finRange maxDevs).foldl closeAt p

end El32.Devices

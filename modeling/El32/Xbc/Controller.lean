import Mathlib.Data.Nat.Bitwise
import Mathlib.Tactic.IntervalCases
import Mathlib.Tactic.Positivity
import Mathlib.Data.Nat.Notation
import Mathlib.Data.Int.Notation

/-! The controller commands of `xbcdaemon/controller.c` and the button record of
`common/buttons.h`.

libusb is the environment: an outgoing transfer is an event with the bytes handed over, an incoming
one is a return code with the bytes that were stored at the start of the caller's buffer. -/
namespace El32.Controller
set_option autoImplicit false

/-- An open device handle; the null pointer is `none`. -/
abbrev Handle := ℕ

def maxDevs : ℕ := 4

theorem maxDevs_pos : 0 < maxDevs := by decide

theorem one_lt_maxDevs : 1 < maxDevs := by decide

theorem slot_toNat (i : Fin maxDevs) : (UInt8.ofNat i.val).toNat = i.val := by
  have hi : i.val < 4 := i.isLt
  rw [UInt8.toNat_ofNat']
  omega

structure Button where
  avail : Bool
  dUp : Bool
  dDn : Bool
  dLeft : Bool
  dRight : Bool
  start : Bool
  back : Bool
  lsPress : Bool
  rsPress : Bool
  lb : Bool
  rb : Bool
  logo : Bool
  spare : Bool
  a : Bool
  b : Bool
  x : Bool
  y : Bool
  leftTrigger : UInt8
  rightTrigger : UInt8
  leftStickX : Int16
  leftStickY : Int16
  rightStickX : Int16
  rightStickY : Int16
deriving DecidableEq, Inhabited

/-! ## Output -/

def epOut : UInt8 := 0x02

/-- The arguments of one `libusb_interrupt_transfer` to the device. -/
structure OutTransfer where
  handle : Handle
  endpoint : UInt8
  data : List UInt8
deriving DecidableEq

/-- Return code and transfer made; `usb` is what libusb returns for the transfer. -/
def setControllerRumble (handle : Option Handle) (speed : UInt16) (usb : ℤ) :
    ℤ × List OutTransfer :=
  match handle with
  | none => (1, [])
  | some h => (usb, [⟨h, epOut,
      [0x00, 0x08, 0x00, (speed >>> 8).toUInt8, speed.toUInt8, 0x00, 0x00, 0x00]⟩])

/-- `led` has the enumeration's type, an `unsigned int`. -/
def setControllerLeds (handle : Option Handle) (led : UInt32) (usb : ℤ) :
    ℤ × List OutTransfer :=
  match handle with
  | none => (1, [])
  | some h => (usb, [⟨h, epOut, [0x01, 0x03, led.toUInt8]⟩])

/-! ## Input -/

abbrev Report := Fin 20 → UInt8

instance reportLength : NeZero 20 := ⟨by decide⟩

/-- What one incoming transfer does: its return code and the bytes it stored. -/
structure InTransfer where
  result : ℤ
  data : List UInt8
  length_data : data.length ≤ 20

/-- The buffer after the transfer; bytes that were not delivered keep what they held. -/
def InTransfer.into (t : InTransfer) (input : Report) : Report :=
  fun i => t.data.getD i (input i)

/-- An integer with one bit selected, stored in a `bool`. -/
def bit (c mask : UInt8) : Bool := c &&& mask ≠ 0

/-- `hi << 8 | lo` stored in an `int16_t`. -/
def word (hi lo : UInt8) : Int16 := (hi.toUInt16 <<< 8 ||| lo.toUInt16).toInt16

def Button.assign (b : Button) (input : Report) : Button :=
  { b with
    dUp := bit (input 2) 0x01
    dDn := bit (input 2) 0x02
    dLeft := bit (input 2) 0x04
    dRight := bit (input 2) 0x08
    start := bit (input 2) 0x10
    back := bit (input 2) 0x20
    lsPress := bit (input 2) 0x40
    rsPress := bit (input 2) 0x80
    lb := bit (input 3) 0x01
    rb := bit (input 3) 0x02
    logo := bit (input 3) 0x04
    spare := bit (input 3) 0x08
    a := bit (input 3) 0x10
    b := bit (input 3) 0x20
    x := bit (input 3) 0x40
    y := bit (input 3) 0x80
    leftTrigger := input 0x04
    rightTrigger := input 0x05
    leftStickX := word (input 0x07) (input 0x06)
    leftStickY := word (input 0x09) (input 0x08)
    rightStickX := word (input 0x0b) (input 0x0a)
    rightStickY := word (input 0x0d) (input 0x0c) }

/-- Return code and record; `input` is what the local buffer held at the call. The result of the
transfer and the number of bytes it moved are not looked at. -/
def getControllerInput (handle : Option Handle) (b : Option Button) (input : Report)
    (usb : InTransfer) : ℤ × Option Button :=
  match b with
  | none => (1, none)
  | some b =>
    match handle with
    | none => (1, some { b with avail := false })
    | some _ => (usb.result, some ({ b with avail := true }.assign (usb.into input)))

/-! ## The buffer -/

theorem InTransfer.into_delivered (t : InTransfer) (input : Report) {i : Fin 20}
    (h : i.val < t.data.length) : t.into input i = t.data[i.val] := by
  simp [InTransfer.into, h]

theorem InTransfer.into_kept (t : InTransfer) (input : Report) {i : Fin 20}
    (h : t.data.length ≤ i.val) : t.into input i = input i := by
  simp [InTransfer.into, h]

theorem Button.assign_congr (b : Button) {r r' : Report}
    (h : ∀ i : Fin 20, 2 ≤ i.val → i.val ≤ 13 → r i = r' i) : b.assign r = b.assign r' := by
  simp only [Button.assign, h 2 (by decide) (by decide), h 3 (by decide) (by decide),
    h 4 (by decide) (by decide), h 5 (by decide) (by decide), h 6 (by decide) (by decide),
    h 7 (by decide) (by decide), h 8 (by decide) (by decide), h 9 (by decide) (by decide),
    h 10 (by decide) (by decide), h 11 (by decide) (by decide), h 12 (by decide) (by decide),
    h 13 (by decide) (by decide)]

/-! ## What a bit and a word mean -/

theorem bit_two_pow (c : UInt8) {k : ℕ} {mask : UInt8} (h : mask.toNat = 2 ^ k) :
    bit c mask = c.toNat.testBit k := by
  have hz : c &&& mask = 0 ↔ c.toNat &&& 2 ^ k = 0 := by
    rw [← UInt8.toNat_inj, UInt8.toNat_and, h]
    rfl
  have hp : 2 ^ k ≠ 0 := by positivity
  rw [bit, Bool.eq_iff_iff, decide_eq_true_iff, Ne, hz, Nat.and_two_pow]
  cases c.toNat.testBit k <;> simp

def signed16 (n : ℕ) : ℤ := if n < 32768 then n else n - 65536

theorem toInt_toInt16 (u : UInt16) : u.toInt16.toInt = signed16 u.toNat := by
  show u.toBitVec.toInt = _
  rw [BitVec.toInt_eq_toNat_cond, signed16]
  show (if 2 * u.toNat < 65536 then (u.toNat : ℤ) else u.toNat - 65536) = _
  split <;> split <;> omega

theorem word_toInt (hi lo : UInt8) : (word hi lo).toInt = signed16 (lo.toNat + 256 * hi.toNat) := by
  have hhi := hi.toNat_lt
  have hlo := lo.toNat_lt
  have hor : (hi.toUInt16 <<< 8 ||| lo.toUInt16).toNat = lo.toNat + 256 * hi.toNat := by
    have hshift : hi.toNat <<< 8 = 256 * hi.toNat := by rw [Nat.shiftLeft_eq]; omega
    have h8 : (8 : UInt16).toNat % 16 = 8 := rfl
    rw [UInt16.toNat_or, UInt16.toNat_shiftLeft, UInt8.toNat_toUInt16, UInt8.toNat_toUInt16, h8,
      hshift, Nat.mod_eq_of_lt (by omega), ← hshift, ← Nat.shiftLeft_add_eq_or_of_lt (by omega),
      hshift, Nat.add_comm]
  rw [word, toInt_toInt16, hor]

theorem signed16_injective {m n : ℕ} (hm : m < 65536) (hn : n < 65536)
    (h : signed16 m = signed16 n) : m = n := by
  unfold signed16 at h
  split at h <;> split at h <;> omega

theorem word_injective {hi lo hi' lo' : UInt8} (h : word hi lo = word hi' lo') :
    hi = hi' ∧ lo = lo' := by
  have hhi := hi.toNat_lt
  have hlo := lo.toNat_lt
  have hhi' := hi'.toNat_lt
  have hlo' := lo'.toNat_lt
  have hs := congrArg Int16.toInt h
  rw [word_toInt, word_toInt] at hs
  have hn := signed16_injective (by omega) (by omega) hs
  exact ⟨UInt8.toNat_inj.mp (by omega), UInt8.toNat_inj.mp (by omega)⟩

theorem byte_ext {c c' : UInt8} (h : ∀ k < 8, c.toNat.testBit k = c'.toNat.testBit k) : c = c' := by
  refine UInt8.toNat_inj.mp (Nat.eq_of_testBit_eq fun k => ?_)
  by_cases hk : k < 8
  · exact h k hk
  · have hp : 256 ≤ 2 ^ k := Nat.pow_le_pow_right (n := 2) (by omega) (by omega : 8 ≤ k)
    have hc := c.toNat_lt
    have hc' := c'.toNat_lt
    rw [Nat.testBit_lt_two_pow (by omega), Nat.testBit_lt_two_pow (by omega)]

theorem Button.assign_injective {b b' : Button} {r r' : Report} (h : b.assign r = b'.assign r')
    {i : Fin 20} (h2 : 2 ≤ i.val) (h13 : i.val ≤ 13) : r i = r' i := by
  simp only [Button.assign, Button.mk.injEq] at h
  obtain ⟨-, b0, b1, b2, b3, b4, b5, b6, b7, c0, c1, c2, c3, c4, c5, c6, c7, t4, t5, w6, w8, w10,
    w12⟩ := h
  have hbits : ∀ {p q : UInt8}, bit p 0x01 = bit q 0x01 → bit p 0x02 = bit q 0x02 →
      bit p 0x04 = bit q 0x04 → bit p 0x08 = bit q 0x08 → bit p 0x10 = bit q 0x10 →
      bit p 0x20 = bit q 0x20 → bit p 0x40 = bit q 0x40 → bit p 0x80 = bit q 0x80 → p = q := by
    intro p q h0 h1 h2 h3 h4 h5 h6 h7
    rw [bit_two_pow p (k := 0) rfl, bit_two_pow q (k := 0) rfl] at h0
    rw [bit_two_pow p (k := 1) rfl, bit_two_pow q (k := 1) rfl] at h1
    rw [bit_two_pow p (k := 2) rfl, bit_two_pow q (k := 2) rfl] at h2
    rw [bit_two_pow p (k := 3) rfl, bit_two_pow q (k := 3) rfl] at h3
    rw [bit_two_pow p (k := 4) rfl, bit_two_pow q (k := 4) rfl] at h4
    rw [bit_two_pow p (k := 5) rfl, bit_two_pow q (k := 5) rfl] at h5
    rw [bit_two_pow p (k := 6) rfl, bit_two_pow q (k := 6) rfl] at h6
    rw [bit_two_pow p (k := 7) rfl, bit_two_pow q (k := 7) rfl] at h7
    apply byte_ext
    intro k hk
    interval_cases k <;> assumption
  have e2 := hbits b0 b1 b2 b3 b4 b5 b6 b7
  have e3 := hbits c0 c1 c2 c3 c4 c5 c6 c7
  obtain ⟨e7, e6⟩ := word_injective w6
  obtain ⟨e9, e8⟩ := word_injective w8
  obtain ⟨e11, e10⟩ := word_injective w10
  obtain ⟨e13, e12⟩ := word_injective w12
  obtain ⟨i, hi⟩ := i
  interval_cases i <;> assumption

end El32.Controller

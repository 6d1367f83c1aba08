import El32.Xbc.Web

/-! The read path of a controller report: `getControllerInput`, `printButton` and the fields the
page reads.

Three orderings have to agree: the masks and offsets in C, the arguments of the `printf`, and the
index constants of the page. They are compared here with the report table of the course notes. -/
namespace El32.ReportPath
open CString Decimal Commands Controller Web
set_option autoImplicit false

/-! ## The page -/

namespace Page

def dUp : ℕ := 1
def dDn : ℕ := 2
def dLeft : ℕ := 3
def dRight : ℕ := 4
def start : ℕ := 5
def back : ℕ := 6
def lsPress : ℕ := 7
def rsPress : ℕ := 8
def lb : ℕ := 9
def rb : ℕ := 10
def logo : ℕ := 11
def spare : ℕ := 12
def a : ℕ := 13
def b : ℕ := 14
def x : ℕ := 15
def y : ℕ := 16
def leftTrigger : ℕ := 17
def rightTrigger : ℕ := 18
def leftStickX : ℕ := 19
def leftStickY : ℕ := 20
def rightStickX : ℕ := 21
def rightStickY : ℕ := 22

/-- `data.split(",")`. -/
def split (data : List UInt8) : List (List UInt8) := data.splitOn comma

end Page

/-! ## The documented report -/

/-- A row of the report table: the page's index constant, the byte and the bit. -/
structure BitRow where
  index : ℕ
  byte : Fin 20
  bit : ℕ

def bitTable : List BitRow :=
  [⟨Page.dUp, 2, 0⟩, ⟨Page.dDn, 2, 1⟩, ⟨Page.dLeft, 2, 2⟩, ⟨Page.dRight, 2, 3⟩,
    ⟨Page.start, 2, 4⟩, ⟨Page.back, 2, 5⟩, ⟨Page.lsPress, 2, 6⟩, ⟨Page.rsPress, 2, 7⟩,
    ⟨Page.lb, 3, 0⟩, ⟨Page.rb, 3, 1⟩, ⟨Page.logo, 3, 2⟩, ⟨Page.spare, 3, 3⟩,
    ⟨Page.a, 3, 4⟩, ⟨Page.b, 3, 5⟩, ⟨Page.x, 3, 6⟩, ⟨Page.y, 3, 7⟩]

/-- The triggers: one unsigned byte each. -/
def triggerTable : List (ℕ × Fin 20) := [(Page.leftTrigger, 4), (Page.rightTrigger, 5)]

/-- The sticks: a signed little-endian 16-bit value from the given byte on. -/
def stickTable : List (ℕ × Fin 20 × Fin 20) :=
  [(Page.leftStickX, 6, 7), (Page.leftStickY, 8, 9), (Page.rightStickX, 10, 11),
    (Page.rightStickY, 12, 13)]

/-- The fields say what the report says, row by row. -/
structure Agrees (fields : List (List UInt8)) (report : Report) : Prop where
  count : fields.length = 23
  bits : ∀ row ∈ bitTable, fields[row.index]? =
    some (if (report row.byte).toNat.testBit row.bit then ['1'.toUInt8] else ['0'.toUInt8])
  triggers : ∀ row ∈ triggerTable, fields[row.1]? = some (intText (report row.2).toNat)
  sticks : ∀ row ∈ stickTable, fields[row.1]? =
    some (intText (signed16 ((report row.2.1).toNat + 256 * (report row.2.2).toNat)))

/-! ## What is printed -/

theorem printArgs_length (btn : Button) : (printArgs btn).length = 23 := rfl

theorem split_printButton (btn : Button) :
    Page.split (printButton btn) = (printArgs btn).map intText := by
  refine List.splitOn_intercalate comma ?_ (by simp [printArgs])
  intro l hl
  obtain ⟨v, -, rfl⟩ := List.mem_map.mp hl
  exact comma_not_mem_intText v

theorem intText_intOfBool (b : Bool) :
    intText (intOfBool b) = if b then ['1'.toUInt8] else ['0'.toUInt8] := by
  cases b <;> rfl

theorem intOfBool_injective {p q : Bool} (h : intOfBool p = intOfBool q) : p = q := by
  cases p <;> cases q <;> first | rfl | exact absurd h (by decide)

theorem printArgs_injective {p q : Button} (h : printArgs p = printArgs q) : p = q := by
  simp only [printArgs, List.cons.injEq, and_true] at h
  obtain ⟨h0, h1, h2, h3, h4, h5, h6, h7, h8, h9, h10, h11, h12, h13, h14, h15, h16, t0, t1, w0,
    w1, w2, w3⟩ := h
  have ht : ∀ {c d : UInt8}, (c.toNat : ℤ) = d.toNat → c = d :=
    fun h => UInt8.toNat_inj.mp (by omega)
  rw [Button.mk.injEq]
  exact ⟨intOfBool_injective h0, intOfBool_injective h1, intOfBool_injective h2,
    intOfBool_injective h3, intOfBool_injective h4, intOfBool_injective h5, intOfBool_injective h6,
    intOfBool_injective h7, intOfBool_injective h8, intOfBool_injective h9,
    intOfBool_injective h10, intOfBool_injective h11, intOfBool_injective h12,
    intOfBool_injective h13, intOfBool_injective h14, intOfBool_injective h15,
    intOfBool_injective h16, ht t0, ht t1, Int16.toInt_inj.mp w0, Int16.toInt_inj.mp w1,
    Int16.toInt_inj.mp w2, Int16.toInt_inj.mp w3⟩

theorem printButton_injective {p q : Button} (h : printButton p = printButton q) : p = q := by
  have hs := congrArg Page.split h
  rw [split_printButton, split_printButton] at hs
  exact printArgs_injective (List.map_injective_iff.mpr intText_injective hs)

theorem bit_row (btn : Button) (report : Report) {row : BitRow} (h : row ∈ bitTable) :
    row.bit < 8 ∧ ((printArgs (btn.assign report)).map intText)[row.index]? =
      some (intText (intOfBool (bit (report row.byte) (UInt8.ofNat (2 ^ row.bit))))) := by
  simp only [bitTable, List.mem_cons, List.not_mem_nil, or_false] at h
  rcases h with rfl | rfl | rfl | rfl | rfl | rfl | rfl | rfl | rfl | rfl | rfl | rfl | rfl | rfl |
    rfl | rfl <;> exact ⟨by decide, rfl⟩

theorem agrees_assign (btn : Button) (report : Report) :
    Agrees (Page.split (printButton (btn.assign report))) report := by
  rw [split_printButton]
  refine ⟨by rw [List.length_map, printArgs_length], ?_, ?_, ?_⟩
  · intro row hrow
    obtain ⟨h8, hrow⟩ := bit_row btn report hrow
    have hmask : (UInt8.ofNat (2 ^ row.bit)).toNat = 2 ^ row.bit := by
      rw [UInt8.toNat_ofNat']
      exact Nat.mod_eq_of_lt (Nat.pow_lt_pow_right (by omega) h8)
    rw [hrow, intText_intOfBool, bit_two_pow _ hmask]
  · intro row hrow
    simp only [triggerTable, List.mem_cons, List.not_mem_nil, or_false] at hrow
    rcases hrow with rfl | rfl <;> rfl
  · intro row hrow
    rw [← word_toInt]
    simp only [stickTable, List.mem_cons, List.not_mem_nil, or_false] at hrow
    rcases hrow with rfl | rfl | rfl | rfl <;> rfl

/-! ## From the transfer to the page -/

def printed (h : Handle) (b : Button) (input : Report) (usb : InTransfer) : List UInt8 :=
  ((getControllerInput (some h) (some b) input usb).2.map printButton).getD []

def Delivers (usb : InTransfer) (report : Report) : Prop :=
  usb.result = 0 ∧ usb.data = List.ofFn report

theorem into_of_delivers {usb : InTransfer} {report : Report} (h : Delivers usb report)
    (input : Report) : usb.into input = report := by
  funext i
  have hi : i.val < usb.data.length := by rw [h.2, List.length_ofFn]; exact i.isLt
  rw [usb.into_delivered input hi]
  simp only [h.2, List.getElem_ofFn]

/-- **The report survives the read path**, and texts of reports that differ in the bytes 2 to 13
differ. -/
theorem report_path (h : Handle) (b : Button) (input : Report) {usb : InTransfer}
    {report : Report} (hd : Delivers usb report) :
    Agrees (Page.split (printed h b input usb)) report ∧
      ∀ (h' : Handle) (b' : Button) (input' : Report) (usb' : InTransfer) (report' : Report),
        Delivers usb' report' → (∃ i : Fin 20, 2 ≤ i.val ∧ i.val ≤ 13 ∧
          report i ≠ report' i) → printed h b input usb ≠ printed h' b' input' usb' := by
  have hprinted : ∀ (h : Handle) (b : Button) (input : Report) {usb : InTransfer}
      {report : Report}, Delivers usb report →
        printed h b input usb = printButton ({ b with avail := true }.assign report) := by
    intro h b input usb report hd
    simp only [printed, getControllerInput, into_of_delivers hd, Option.map_some, Option.getD_some]
  rw [hprinted h b input hd]
  refine ⟨agrees_assign _ report, ?_⟩
  rintro h' b' input' usb' report' hd' ⟨i, h2, h13, hne⟩ heq
  rw [hprinted h' b' input' hd'] at heq
  exact hne (Button.assign_injective (printButton_injective heq) h2 h13)

/-- Up, `start`, `rs`, `a` and `x` pressed, one trigger half and one fully pulled, and the sticks at
positive and negative places. -/
def pressedReport : Report :=
  fun i => [0, 20, 0x91, 0x50, 128, 255, 0x34, 0x12, 0, 0x80, 0xff, 0xff, 1, 0, 0, 0, 0, 0, 0,
    0].getD i.val 0

/-- The right stick moved from `1` to `257`. -/
def movedReport : Report := fun i => if i = 13 then 1 else pressedReport i

theorem report_path_moved :
    let usb (report : Report) : InTransfer := ⟨0, List.ofFn report, by simp⟩
    Agrees (Page.split (printed 1 default (fun _ => 0) (usb pressedReport))) pressedReport ∧
      printed 1 default (fun _ => 0) (usb pressedReport) ≠
        printed 1 default (fun _ => 0) (usb movedReport) := by
  intro usb
  have hpressed : Delivers (usb pressedReport) pressedReport := ⟨rfl, rfl⟩
  have hmoved : Delivers (usb movedReport) movedReport := ⟨rfl, rfl⟩
  have hpath := report_path 1 default (fun _ => 0) hpressed
  exact ⟨hpath.1, hpath.2 1 default (fun _ => 0) (usb movedReport) movedReport hmoved
    ⟨13, by decide, by decide, by decide⟩⟩

end El32.ReportPath

import El32.Xbc.Commands

/-! The round trip of the message format: a command that is sent, crosses the queue and is parsed.

The id and the command text always arrive. The value arrives exactly where no digit of the id is
left behind it in the scratch buffer, or where that digit does not change it. -/
namespace El32.Commands
open CString Decimal
set_option autoImplicit false

/-- `sendCommand` into an empty queue, then `getCommand` into the structure `rx`. -/
def hop (wide : ℤ → ℤ) (f : SendFrame) (cmd rx : Command) : Option Command := do
  let q ← sendCommand f cmd (some [])
  getCommand wide rx (q.bind List.head?)

/-- The command arrives: nothing leaves its array and the three fields are those sent. -/
def RoundTrips (wide : ℤ → ℤ) (f : SendFrame) (cmd rx : Command) (s : List UInt8) : Prop :=
  ∃ c, hop wide f cmd rx = some c ∧ c.id = cmd.id ∧ text c.cmd.bytes = some s ∧ c.val = cmd.val

section RoundTrip
variable {wide : ℤ → ℤ} {s : List UInt8}

theorem messageText_fit {id : UInt8} {val : Int16}
    (h : (messageText id s val).length < maxCmdLen) :
    FieldsFit (intText id.toNat) s (intText val.toInt) := by
  have hl := (messageText_fields id s val).length
  have hi := intText_id_length id
  have hv := intText_val_length val
  unfold maxCmdLen at h
  exact ⟨by omega, by omega, by omega⟩

theorem fitsInt_byte (id : UInt8) : FitsInt id.toNat := by
  have := id.toNat_lt
  exact ⟨by omega, by omega⟩

theorem fitsInt_val (val : Int16) : FitsInt val.toInt := by
  have h1 := val.le_toInt
  have h2 := val.toInt_lt
  exact ⟨by omega, by omega⟩

theorem toNat_ofInt (v : ℤ) : (UInt8.ofInt v).toNat = (v % 256).toNat := by
  rw [UInt8.ofInt, UInt8.toNat_ofNat']
  omega

theorem ofInt_atoi_id (id : UInt8) : UInt8.ofInt (atoi wide (intText id.toNat)) = id := by
  have hid := id.toNat_lt
  rw [atoi_intText (fitsInt_byte id), ← UInt8.toNat_inj, toNat_ofInt]
  omega

theorem retreiveCommand_message (wide : ℤ → ℤ) {msg : List UInt8} {id : UInt8} {val : Int16}
    (hmsg : text msg = some (messageText id s val))
    (h : (messageText id s val).length < maxCmdLen) (rx : Command) :
    ∃ c, retreiveCommand wide rx msg = some c ∧ c.id = id ∧ text c.cmd.bytes = some s ∧
      c.val = Int16.ofInt
        (atoi wide (intText val.toInt ++ stale (intText id.toNat) (intText val.toInt))) := by
  obtain ⟨c, hc, hid, hcmd, hval⟩ :=
    retreiveCommand_some wide hmsg (messageText_fields id s val) (messageText_fit h) rx
  exact ⟨c, hc, by rw [hid, ofInt_atoi_id], hcmd, hval⟩

theorem hop_spec (wide : ℤ → ℤ) (f : SendFrame) {cmd : Command} (rx : Command)
    (hs : text cmd.cmd.bytes = some s)
    (h : (messageText cmd.id s cmd.val).length < maxCmdLen) :
    ∃ c, hop wide f cmd rx = some c ∧ c.id = cmd.id ∧ text c.cmd.bytes = some s ∧
      c.val = Int16.ofInt (atoi wide
        (intText cmd.val.toInt ++ stale (intText cmd.id.toNat) (intText cmd.val.toInt))) := by
  have hmk := makeCommand_spec f cmd.id cmd.val hs
  rw [if_pos h] at hmk
  obtain ⟨m, hm, hmt⟩ := hmk
  obtain ⟨c, hc, hrest⟩ := retreiveCommand_message wide hmt h rx
  refine ⟨c, ?_, hrest⟩
  simp only [hop, sendCommand, bind_eq, hm, some_bind, Option.pure_def, Option.map_some,
    List.nil_append, List.head?_cons, getCommand, hc]

/-! ## The digit behind the value -/

theorem stale_digit {I V : List UInt8} (hI : ∀ c ∈ I, IsDigit c) (h : V.length < I.length) :
    ∃ d < 10, stale I V = [digit d] ∧ I[V.length]? = some (digit d) := by
  obtain ⟨d, hd, hc⟩ := (hI _ (List.getElem_mem h)).eq_digit
  refine ⟨d, hd, ?_, by rw [List.getElem?_eq_getElem h, hc]⟩
  rw [stale, List.drop_eq_getElem_cons h, List.take_succ_cons, List.take_zero, hc]

theorem literalValue_stale (v : ℤ) {d : ℕ} (hd : d < 10) :
    literalValue (intText v ++ [digit d]) = if v < 0 then 10 * v - d else 10 * v + d := by
  rw [literalValue_intText, digitsValue_digit hd]
  split <;> omega

theorem small_of_intText_length {v : ℤ} (h : (intText v).length ≤ 2) : -100 < v ∧ v < 100 := by
  unfold intText at h
  split at h
  · rw [List.length_cons] at h
    have := lt_of_natText_length (k := 1) v.natAbs (by omega)
    omega
  · have := lt_of_natText_length (k := 2) v.natAbs h
    omega

theorem ofInt_eq_iff {v : ℤ} (h1 : -32768 ≤ v) (h2 : v < 32768) (val : Int16) :
    Int16.ofInt v = val ↔ v = val.toInt := by
  rw [← Int16.toInt_inj, Int16.toInt_ofInt_of_le (by omega) (by omega)]

theorem ofInt_atoi_stale {val : Int16} {d : ℕ} (hd : d < 10)
    (h : (intText val.toInt).length ≤ 2) :
    Int16.ofInt (atoi wide (intText val.toInt ++ [digit d])) = val ↔ val = 0 ∧ d = 0 := by
  obtain ⟨h1, h2⟩ := small_of_intText_length h
  have hlit := literalValue_stale val.toInt hd
  have hfit : FitsInt (literalValue (intText val.toInt ++ [digit d])) := by
    rw [hlit]
    split <;> exact ⟨by omega, by omega⟩
  have h0 : val = 0 ↔ val.toInt = 0 := Int16.toInt_inj.symm
  rw [atoi_of_fits hfit, hlit, h0]
  by_cases hneg : val.toInt < 0
  · rw [if_pos hneg, ofInt_eq_iff (by omega) (by omega)]
    omega
  · rw [if_neg hneg, ofInt_eq_iff (by omega) (by omega)]
    omega

/-- **The round trip holds exactly** where the text of the value is at least as long as the text of
the id, or the value is zero and so is the second digit of the id. -/
theorem roundTrips_iff (f : SendFrame) (cmd rx : Command) (hs : text cmd.cmd.bytes = some s)
    (h : (messageText cmd.id s cmd.val).length ≤ maxCmdLen - 1) :
    RoundTrips wide f cmd rx s ↔
      (intText cmd.id.toNat).length ≤ (intText cmd.val.toInt).length ∨
        (cmd.val = 0 ∧ (intText cmd.id.toNat)[1]? = some 48) := by
  have hfit : (messageText cmd.id s cmd.val).length < maxCmdLen := by
    unfold maxCmdLen at h ⊢
    omega
  obtain ⟨c, hc, hid, hcmd, hval⟩ := hop_spec wide f rx hs hfit
  have hiff : RoundTrips wide f cmd rx s ↔ c.val = cmd.val := by
    constructor
    · rintro ⟨c', hc', -, -, hv⟩
      rw [hc] at hc'
      rwa [Option.some.inj hc']
    · exact fun hv => ⟨c, hc, hid, hcmd, hv⟩
  rw [hiff, hval]
  by_cases hle : (intText cmd.id.toNat).length ≤ (intText cmd.val.toInt).length
  · rw [stale_of_le hle, List.append_nil, atoi_intText (fitsInt_val _)]
    exact ⟨fun _ => .inl hle, fun _ => Int16.ofInt_toInt _⟩
  · have hid3 := intText_id_length cmd.id
    have hdig : ∀ c ∈ intText cmd.id.toNat, IsDigit c := by
      rw [intText_ofNat]
      exact isDigit_natText _
    obtain ⟨d, hd, hst, hget⟩ := stale_digit (V := intText cmd.val.toInt) hdig (by omega)
    rw [hst, ofInt_atoi_stale hd (by omega), or_iff_right hle]
    apply and_congr_right
    intro h0
    have hl1 : (intText cmd.val.toInt).length = 1 := by rw [h0]; rfl
    rw [hl1] at hget
    rw [hget, Option.some.injEq, ← UInt8.toNat_inj, digit_toNat hd]
    show d = 0 ↔ 48 + d = 48
    omega

end RoundTrip

/-! ## Concrete commands -/

def emptyFrame : SendFrame := ⟨CBuf.zero 20, CBuf.zero 20, CBuf.zero maxCmdLen⟩

def command (id : UInt8) (s : List UInt8) (val : Int16) (h : s.length ≤ maxCmdLen) : Command :=
  ⟨id, ⟨s ++ List.replicate (maxCmdLen - s.length) 0, by simp; omega⟩, val⟩

def rumbleOn : Command := command 0 cmdRumble 1000 (by decide)

theorem roundTrips_rumbleOn : RoundTrips id emptyFrame rumbleOn rumbleOn cmdRumble :=
  (roundTrips_iff emptyFrame rumbleOn rumbleOn (by decide) (by decide)).mpr (.inl (by decide))

/-- The value 5 sent with the id 255 arrives as 55. -/
theorem not_roundTrips_longer_id :
    text (command 255 cmdLed 5 (by decide)).cmd.bytes = some cmdLed ∧
      (messageText 255 cmdLed 5).length ≤ maxCmdLen - 1 ∧
      ¬ RoundTrips id emptyFrame (command 255 cmdLed 5 (by decide)) rumbleOn cmdLed := by
  refine ⟨by decide, by decide, ?_⟩
  rintro ⟨c, hc, -, -, hval⟩
  have h55 : (hop id emptyFrame (command 255 cmdLed 5 (by decide)) rumbleOn).map Command.val =
      some 55 := by decide +kernel
  rw [hc, Option.map_some, hval] at h55
  exact absurd h55 (by decide)

end El32.Commands

import El32.Xbc.WebSafety
import El32.Xbc.Listener

/-! A command of the web page on its way to the controller: `xbcweb`, the queue, one iteration of
the listener and the transfer.

The value is read, narrowed to 16 bits, printed, read again and narrowed to the parameter of the
call; each step keeps it modulo 65536. -/
namespace El32.CommandPath
open CString Decimal Commands Controller Devices Web Listener
set_option autoImplicit false

/-! ## The query -/

/-- The string that the page's `sendCommand` builds for controller `d`. -/
def queryText (d : Fin maxDevs) (k : Kind) (V : List UInt8) : List UInt8 :=
  intText d.val ++ comma :: (k.text ++ comma :: V)

section Query
variable {d : Fin maxDevs} {k : Kind} {V : List UInt8} {v : ℤ}

theorem intText_digit (d : Fin maxDevs) : intText d.val = [digit d.val] := by
  rw [intText_ofNat, natText_small (by have := d.isLt; unfold maxDevs at this; omega)]

theorem queryText_mem (hV : Literal V v) {c : UInt8} (hc : c ∈ queryText d k V) :
    c = comma ∨ c = 43 ∨ c = 45 ∨ IsDigit c ∨ c ∈ k.text := by
  simp only [queryText, List.mem_append, List.mem_cons] at hc
  rcases hc with hc | rfl | hc | rfl | hc
  · rcases intText_mem hc with rfl | hd
    · exact .inr (.inr (.inl rfl))
    · exact .inr (.inr (.inr (.inl hd)))
  · exact .inl rfl
  · exact .inr (.inr (.inr (.inr hc)))
  · exact .inl rfl
  · rcases hV.mem hc with h | h | h
    · exact .inr (.inl h)
    · exact .inr (.inr (.inl h))
    · exact .inr (.inr (.inr (.inl h)))

theorem not_mem_queryText (hV : Literal V v) {c : UInt8} (h : c ≠ comma ∧ c ≠ 43 ∧ c ≠ 45)
    (hd : ¬ IsDigit c) (hk : c ∉ k.text) : c ∉ queryText d k V := by
  intro hc
  rcases queryText_mem hV hc with hc | hc | hc | hc | hc
  · exact h.1 hc
  · exact h.2.1 hc
  · exact h.2.2 hc
  · exact hd hc
  · exact hk hc

theorem queryText_fields (hV : Literal V v) :
    Fields (queryText d k V) (intText d.val) k.text V := by
  refine ⟨rfl, comma_not_mem_intText _, fun hc => ?_⟩
  rcases hV.mem hc with h | h | h
  · exact absurd h (by decide)
  · exact absurd h (by decide)
  · exact absurd h (by decide)

theorem text_length (k : Kind) : k.text.length ≤ 6 := by cases k <;> decide

theorem queryText_fit (h : V.length ≤ 40) :
    FieldsFit (intText d.val) k.text V := by
  have hk := text_length k
  rw [intText_digit]
  exact ⟨by simp, by omega, by omega⟩

theorem queryText_sends (hV : Literal V v) : Sends (queryText d k V) := by
  have ht : (116 : UInt8) ∉ queryText d k V :=
    not_mem_queryText hV (by decide) (by decide) (by cases k <;> decide)
  refine ⟨fun h => ht (h.subset (by decide)), ?_⟩
  have hinfix : k.text <:+: queryText d k V :=
    ⟨intText d.val ++ [comma], comma :: V, by simp [queryText]⟩
  cases k with
  | rumble => exact .inr hinfix
  | leds => exact .inl hinfix

end Query

/-! ## The two sides of the queue -/

def idOf (d : Fin maxDevs) : UInt8 := UInt8.ofNat d.val

theorem idOf_toNat (d : Fin maxDevs) : (idOf d).toNat = d.val := slot_toNat d

section Queue
variable {d : Fin maxDevs} {k : Kind} {V : List UInt8} {v : ℤ}

theorem id_length (d : Fin maxDevs) : (intText d.val).length = 1 := by rw [intText_digit]; rfl

theorem message_length (d : Fin maxDevs) (k : Kind) (val : Int16) :
    (messageText (idOf d) k.text val).length < maxCmdLen := by
  have hf := (messageText_fields (idOf d) k.text val).length
  have hid := intText_id_length (idOf d)
  have hk := text_length k
  have hv := intText_val_length val
  unfold maxCmdLen
  omega

theorem main_query (hV : Literal V v) (hlen : V.length ≤ 40) (hfit : FitsInt v) {env : WebEnv}
    (hmalloc : env.tmpStr = true) {q : Queue} (hq : env.queue = some q) {query : List UInt8}
    (hquery : text query = some (queryText d k V)) :
    ∃ m : Message, main env (some query) = some ⟨contentType, some (q ++ [m])⟩ ∧
      text m.bytes = some (messageText (idOf d) k.text (Int16.ofInt v)) := by
  have hf := queryText_fields (d := d) (k := k) hV
  have hqlen := hf.length
  have hidlen := id_length d
  have hk := text_length k
  have hp : percent ∉ queryText d k V :=
    not_mem_queryText hV (by decide) (by decide) (by cases k <;> decide)
  obtain ⟨out, hout, hstr⟩ := removeSpaces_eq hquery hp (by omega)
  obtain ⟨c, hc, hid, hcmd, hval⟩ :=
    retreiveCommand_some env.wide hquery hf (queryText_fit hlen) env.cmd
  have hVpos : 1 ≤ V.length := List.length_pos_iff.mpr hV.ne_nil
  rw [stale_of_le (by omega), List.append_nil, atoi_of_fits (by rwa [hV.value]), hV.value] at hval
  have hidc : c.id = idOf d := by
    have hd : (d.val : ℤ) = ((idOf d).toNat : ℕ) := by rw [idOf_toNat]
    rw [hid, hd, ofInt_atoi_id]
  have hsend := sendCommand_spec env.frame env.queue hcmd
  rw [hidc, hval, if_pos (message_length d k _)] at hsend
  obtain ⟨m, hm, hmt⟩ := hsend
  refine ⟨m, ?_, hmt⟩
  have hserve : serve env query = some ⟨contentType, some (q ++ [m])⟩ := by
    simp only [serve, bind_eq, hc, some_bind]
    rw [dispatch_send hquery (queryText_sends hV), hm, hq]
    rfl
  have hne : queryText d k V ≠ [] := by simp [queryText]
  rw [← hmalloc] at hout
  rw [main_eq_serve hout (by rw [hstr, hquery]) hne, hstr, hserve]

def callFor (d : Fin maxDevs) (val : Int16) : Kind → ControllerCall
  | .rumble => .setControllerRumble (idOf d) val.toUInt16
  | .leds => .setControllerLeds (idOf d) val.toInt32.toUInt32

theorem listenOnce_message (wide : ℤ → ℤ) (rx : Command) {m : Message} {val : Int16}
    (hm : text m.bytes = some (messageText (idOf d) k.text val)) :
    ∃ c, listenOnce wide rx (some m) = some (c, some (callFor d val k)) := by
  obtain ⟨c, hc, hid, hcmd, hval⟩ :=
    retreiveCommand_message wide hm (message_length d k val) rx
  have hidlen : (intText (idOf d).toNat).length = 1 := by rw [idOf_toNat, id_length]
  have hvlen : 1 ≤ (intText val.toInt).length := List.length_pos_iff.mpr (intText_ne_nil _)
  rw [stale_of_le (by omega), List.append_nil, atoi_intText (fitsInt_val val),
    Int16.ofInt_toInt] at hval
  refine ⟨c, ?_⟩
  have hget : getCommand wide rx (some m) = some c := hc
  simp only [listenOnce, Listener.dispatch, bind_eq, hget, some_bind, strstr_eq hcmd, hid, hval]
  cases k <;> rfl

end Queue

/-! ## The bytes -/

theorem toNat_toUInt16_ofInt (v : ℤ) : ((Int16.ofInt v).toUInt16.toNat : ℤ) = v % 65536 := by
  show ((BitVec.ofInt 16 v).toNat : ℤ) = _
  rw [BitVec.toNat_ofInt]
  omega

theorem toNat_toUInt8_ofInt (v : ℤ) :
    ((Int16.ofInt v).toInt32.toUInt32.toUInt8.toNat : ℤ) = v % 256 := by
  have hext : (Int16.ofInt v).toInt32.toUInt32.toNat = (v.bmod 65536 % 4294967296).toNat := by
    show ((BitVec.ofInt 16 v).signExtend 32).toNat = _
    rw [BitVec.signExtend, BitVec.toNat_ofInt, BitVec.toInt_ofInt]
    rfl
  rw [UInt32.toNat_toUInt8, hext, Int.bmod_def]
  split <;> omega

theorem speed_bytes (speed : UInt16) :
    (speed >>> 8).toUInt8.toNat * 256 + speed.toUInt8.toNat = speed.toNat := by
  have h := speed.toNat_lt
  have hshift : (speed >>> 8).toNat = speed.toNat / 256 := by
    rw [UInt16.toNat_shiftRight]
    show speed.toNat >>> 8 = _
    rw [Nat.shiftRight_eq_div_pow]
  rw [UInt16.toNat_toUInt8, UInt16.toNat_toUInt8, hshift]
  omega

/-- The bytes for a value: the speed modulo 65536, or the pattern modulo 256. -/
def Carries (v : ℤ) (data : List UInt8) : Kind → Prop
  | .rumble => ∃ hi lo : UInt8, data = [0x00, 0x08, 0x00, hi, lo, 0x00, 0x00, 0x00] ∧
      (hi.toNat * 256 + lo.toNat : ℤ) = v % 65536
  | .leds => ∃ b : UInt8, data = [0x01, 0x03, b] ∧ (b.toNat : ℤ) = v % 256

/-- The transfers of a call: one on the handle of slot `d`, or none when the slot is empty. -/
def OneTransfer (devices : Table) (d : Fin maxDevs) (v : ℤ) (k : Kind)
    (out : List OutTransfer) : Prop :=
  match (devices d).handle with
  | none => out = []
  | some h => ∃ data, out = [⟨h, epOut, data⟩] ∧ Carries v data k

theorem perform_callFor (devices : Table) (d : Fin maxDevs) (k : Kind) (v : ℤ) (usb : ℤ) :
    OneTransfer devices d v k
      ((callFor d (Int16.ofInt v) k).perform devices usb).2 := by
  have hget := getDeviceHandle_slot devices d (idOf_toNat d)
  unfold OneTransfer
  cases hh : (devices d).handle with
  | none =>
    cases k <;> simp [callFor, ControllerCall.perform, ControllerCall.onHandle, ControllerCall.id,
      hget, hh, setControllerRumble, setControllerLeds]
  | some h =>
    cases k with
    | rumble =>
      have hout : ((callFor d (Int16.ofInt v) .rumble).perform devices usb).2 =
          [⟨h, epOut, [0x00, 0x08, 0x00, ((Int16.ofInt v).toUInt16 >>> 8).toUInt8,
            (Int16.ofInt v).toUInt16.toUInt8, 0x00, 0x00, 0x00]⟩] := by
        simp only [callFor, ControllerCall.perform, ControllerCall.onHandle, ControllerCall.id,
          hget, hh, setControllerRumble]
      refine ⟨_, hout, _, _, rfl, ?_⟩
      rw [← toNat_toUInt16_ofInt, ← speed_bytes]
      push_cast
      rfl
    | leds =>
      have hout : ((callFor d (Int16.ofInt v) .leds).perform devices usb).2 =
          [⟨h, epOut, [0x01, 0x03, (Int16.ofInt v).toInt32.toUInt32.toUInt8]⟩] := by
        simp only [callFor, ControllerCall.perform, ControllerCall.onHandle, ControllerCall.id,
          hget, hh, setControllerLeds]
      exact ⟨_, hout, _, rfl, toNat_toUInt8_ofInt v⟩

/-- **A command reaches the right controller with the right bytes**, where `malloc` gives a block
and the queue is open. -/
theorem command_path {d : Fin maxDevs} {k : Kind} {V : List UInt8} {v : ℤ} (hV : Literal V v)
    (hlen : V.length ≤ 40) (hfit : FitsInt v) {env : WebEnv} (hmalloc : env.tmpStr = true)
    {q : Queue} (hq : env.queue = some q) {query : List UInt8}
    (hquery : text query = some (queryText d k V)) :
    ∃ m, main env (some query) = some ⟨contentType, some (q ++ [m])⟩ ∧
      ∀ (wide : ℤ → ℤ) (rx : Command) (devices : Table) (usb : ℤ),
        ∃ c call, listenOnce wide rx (some m) = some (c, some call) ∧
          OneTransfer devices d v k (call.perform devices usb).2 := by
  obtain ⟨m, hmain, hm⟩ := main_query hV hlen hfit hmalloc hq hquery
  refine ⟨m, hmain, fun wide rx devices usb => ?_⟩
  obtain ⟨c, hc⟩ := listenOnce_message wide rx hm
  exact ⟨c, _, hc, perform_callFor devices d k v usb⟩

def rumbleQuery : List UInt8 := queryText ⟨1, by decide⟩ .rumble [45, 49]

theorem command_path_rumbleQuery :
    ∃ m, main freshEnv (some (rumbleQuery ++ [0])) = some ⟨contentType, some [m]⟩ ∧
      ∀ (wide : ℤ → ℤ) (rx : Command) (devices : Table) (usb : ℤ),
        ∃ c call, listenOnce wide rx (some m) = some (c, some call) ∧
          OneTransfer devices ⟨1, by decide⟩ (-1) .rumble (call.perform devices usb).2 :=
  command_path (q := []) (.minus [49] (by decide) (List.forall_mem_singleton.mpr (by decide)))
    (by decide) (by decide) rfl rfl (by decide)

end El32.CommandPath

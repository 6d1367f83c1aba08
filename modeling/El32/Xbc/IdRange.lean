import El32.Xbc.QueryAgreement

/-! Controller ids on their way through the two programs.

Both check the id after it has been narrowed to eight bits, so a query addresses the controller of
its id modulo 256. -/
namespace El32.Web
open CString Decimal Commands Controller Shm Listener Devices
set_option autoImplicit false

/-! ## What a call can reach -/

theorem getDeviceHandle_outside (devices : Table) {id : UInt8} (h : maxDevs ≤ id.toNat) :
    getDeviceHandle devices id = none := dif_neg (Nat.not_lt.mpr h)

theorem perform_eq_nil_iff (devices : Table) (usb : ℤ) (call : ControllerCall) :
    (call.perform devices usb).2 = [] ↔ getDeviceHandle devices call.id = none := by
  unfold ControllerCall.perform
  cases hh : getDeviceHandle devices call.id with
  | none => cases call <;> simp [ControllerCall.onHandle, setControllerRumble, setControllerLeds]
  | some h => cases call <;> simp [ControllerCall.onHandle, setControllerRumble, setControllerLeds]

theorem target_id (call : ControllerCall) : call.target.2 = call.id := by cases call <;> rfl

/-- A table with a controller in every slot. -/
def fullTable : Table := fun _ => ⟨1, 1, some 1⟩

theorem getDeviceHandle_fullTable {id : UInt8} (h : id.toNat < maxDevs) :
    getDeviceHandle fullTable id = some 1 := by
  rw [getDeviceHandle, dif_pos h, fullTable]

/-- The listener makes no transfer for the message, whatever controllers there are. -/
def Harmless (m : Message) : Prop :=
  ∀ (wide : ℤ → ℤ) (rx : Command) (devices : Table) (usb : ℤ), ∃ c call,
    listenOnce wide rx (some m) = some (c, call) ∧ ∀ x ∈ call, (x.perform devices usb).2 = []

/-- No record is printed and no message sent that makes a transfer. -/
def AddressesNothing (q : Queue) (answer : Option WebOut) : Prop :=
  ∃ out, answer = some out ∧ out.output = contentType ∧
    ∀ m, out.queue = some (q ++ [m]) → Harmless m

/-- The narrowed id is out of range, or the string asks for nothing. -/
def Unaddressed (v : ℤ) (s C : List UInt8) : Prop :=
  maxDevs ≤ (v % 256).toNat ∨
    (¬ cmdBtns <:+: s ∧ ¬ cmdRumble <:+: C ∧ ¬ cmdLed <:+: C)

section Range
variable {env : WebEnv} {strCmd s I C V : List UInt8} {q : Queue}

theorem idOfField_literal {wide : ℤ → ℤ} {v : ℤ} (hI : Literal I v) (hv : FitsInt v) :
    (idOfField wide I).toNat = (v % 256).toNat := by
  rw [idOfField, atoi_of_fits (by rwa [hI.value]), hI.value, toNat_ofInt]

theorem harmless_iff {w : ℤ → ℤ} {m : Message} (hm : text m.bytes = some (rebuilt w I C V))
    (hlen : (rebuilt w I C V).length < maxCmdLen) :
    Harmless m ↔ maxDevs ≤ (idOfField w I).toNat ∨ (¬ cmdRumble <:+: C ∧ ¬ cmdLed <:+: C) := by
  rw [← not_or, ← kindOf_isSome_iff]
  constructor
  · intro h
    by_contra hcon
    obtain ⟨hid, hk⟩ := not_or.mp hcon
    obtain ⟨k, hkind⟩ := Option.isSome_iff_exists.mp (not_not.mp hk)
    obtain ⟨c, call, hlisten, hcall⟩ := h id rumbleOn fullTable 0
    obtain ⟨c', call', hlisten', htarget⟩ := listenOnce_rebuilt id rumbleOn hm hlen
    obtain ⟨rfl, rfl⟩ := Prod.mk.inj (Option.some.inj (hlisten.symm.trans hlisten'))
    rw [hkind, Option.map_some, Option.map_eq_some_iff] at htarget
    obtain ⟨x, rfl, hx⟩ := htarget
    have hxid : x.id = idOfField w I := by rw [← target_id, hx]
    have hnil := (perform_eq_nil_iff fullTable 0 x).mp (hcall x rfl)
    rw [hxid, getDeviceHandle_fullTable (Nat.not_le.mp hid)] at hnil
    exact absurd hnil (by simp)
  · intro h wide rx devices usb
    obtain ⟨c, call, hlisten, htarget⟩ := listenOnce_rebuilt wide rx hm hlen
    refine ⟨c, call, hlisten, ?_⟩
    rintro x hx
    obtain rfl : call = some x := hx
    rw [Option.map_some, eq_comm, Option.map_eq_some_iff] at htarget
    obtain ⟨k, hkind, hx⟩ := htarget
    rcases h with hid | hk
    · rw [perform_eq_nil_iff, ← target_id, ← hx]
      exact getDeviceHandle_outside devices hid
    · exact absurd (by rw [hkind]; rfl) hk

theorem addressesNothing_some_iff {out : WebOut} :
    AddressesNothing q (some out) ↔
      out.output = contentType ∧ ∀ m, out.queue = some (q ++ [m]) → Harmless m := by
  simp only [AddressesNothing, Option.some.injEq, exists_eq_left']

theorem not_addressesNothing_none : ¬ AddressesNothing q none := fun ⟨_, h, _⟩ => nomatch h

theorem addressesNothing_ignored (hq : env.queue = some q) :
    AddressesNothing q (some env.ignored) := by
  refine ⟨_, rfl, rfl, fun m hm => ?_⟩
  have hkept : some q = some (q ++ [m]) := hq.symm.trans hm
  exact absurd hkept (not_grown m)

theorem addressesNothing_btns_iff (hs : text strCmd = some s) (hf : Fields s I C V)
    (hfit : FieldsFit I C V) (hb : cmdBtns <:+: s) {m : Map} (hm : env.shm = some m)
    (hq : env.queue = some q) :
    AddressesNothing q (serve env strCmd) ↔ maxDevs ≤ (idOfField env.wide I).toNat := by
  by_cases hid : (idOfField env.wide I).toNat < maxDevs
  · rw [serve_record hs hf hfit hb hm hid, addressesNothing_some_iff]
    refine iff_of_false ?_ (Nat.not_le.mpr hid)
    rintro ⟨hout, -⟩
    exact printButton_ne_nil _ (List.append_right_eq_self.mp hout)
  · have hid' := Nat.not_lt.mp hid
    rw [serve_outside hs hf hfit hb hid']
    exact iff_of_true (addressesNothing_ignored hq) hid'

theorem addressesNothing_sends_iff (hs : text strCmd = some s) (hf : Fields s I C V)
    (hfit : FieldsFit I C V) (hsend : Sends s) (hq : env.queue = some q) :
    AddressesNothing q (serve env strCmd) ↔
      (rebuilt env.wide I C V).length ≤ maxCmdLen - 1 ∧
        (maxDevs ≤ (idOfField env.wide I).toNat ∨ (¬ cmdRumble <:+: C ∧ ¬ cmdLed <:+: C)) := by
  have hsent := serve_sent env hs hf hfit hsend hq
  by_cases hlen : (rebuilt env.wide I C V).length < maxCmdLen
  · rw [if_pos hlen] at hsent
    obtain ⟨msg, hserve, hmsg⟩ := hsent
    rw [hserve, addressesNothing_some_iff, ← harmless_iff hmsg hlen]
    constructor
    · rintro ⟨-, h⟩
      exact ⟨Nat.le_sub_one_of_lt hlen, h msg rfl⟩
    · rintro ⟨-, h⟩
      refine ⟨rfl, fun msg' hmsg' => ?_⟩
      obtain rfl : msg = msg' := by simpa using hmsg'
      exact h
  · -- the message leaves its array
    rw [if_neg hlen] at hsent
    rw [hsent]
    refine iff_of_false not_addressesNothing_none ?_
    rintro ⟨h, -⟩
    unfold maxCmdLen at h hlen
    omega

/-- **A query addresses nothing exactly when** it is in range and its id modulo 256 is no slot or
nothing is asked for. The id is any literal that fits an `int`, and the query what `removeSpaces`
leaves. -/
theorem addressesNothing_iff {query : List UInt8} {left : Stripped}
    (hleft : removeSpaces env.tmpStr query = some left) (hs : text left.str = some s)
    (hf : Fields s I C V) {v : ℤ} (hI : Literal I v) (hv : FitsInt v) {m : Map}
    (hm : env.shm = some m) (hq : env.queue = some q) :
    AddressesNothing q (main env (some query)) ↔ InRange env.wide s ∧ Unaddressed v s C := by
  have hid : (idOfField env.wide I).toNat = (v % 256).toNat := idOfField_literal hI hv
  rw [main_eq_serve hleft hs hf.ne_nil, inRange_iff hf, Unaddressed, ← hid]
  by_cases hfit : FieldsFit I C V
  case neg =>
    have hnone : serve env left.str = none := by
      rw [serve, retreiveCommand_none hs hf hfit]
      rfl
    rw [hnone]
    exact iff_of_false not_addressesNothing_none fun h => hfit h.1.1
  rw [and_iff_right hfit]
  by_cases hb : cmdBtns <:+: s
  · have hns : Sends s → (rebuilt env.wide I C V).length ≤ maxCmdLen - 1 :=
      fun h => absurd hb h.1
    rw [addressesNothing_btns_iff hs hf hfit hb hm hq, and_iff_right hns]
    exact (or_iff_left fun h => h.1 hb).symm
  rw [and_iff_right hb]
  by_cases hsend : Sends s
  · rw [addressesNothing_sends_iff hs hf hfit hsend hq, imp_iff_right hsend]
  · rw [serve_ignored hs hf hfit hb hsend]
    refine iff_of_true (addressesNothing_ignored hq) ⟨fun h => absurd h hsend, .inr ?_⟩
    exact not_or.mp fun hk => hsend (sends_of_kindOf hf hb hk)

end Range

/-! ## Concrete ids -/

def narrowedId : List UInt8 := [50, 53, 54]

/-- `256,btns,0`. -/
def narrowedQuery : List UInt8 := narrowedId ++ comma :: (cmdBtns ++ [comma, 48])

theorem narrowedId_literal : Literal narrowedId 256 :=
  .plain narrowedId (by decide) fun c hc => by
    simp only [narrowedId, List.mem_cons, List.not_mem_nil, or_false] at hc
    rcases hc with rfl | rfl | rfl <;> decide

/-- The record of controller 0 is printed for the id 256. -/
theorem narrowedQuery_addresses :
    Fields narrowedQuery narrowedId cmdBtns [48] ∧ Literal narrowedId 256 ∧
      main freshEnv (some (narrowedQuery ++ [0])) =
        some ⟨contentType ++ printButton default, some []⟩ ∧
      ¬ AddressesNothing [] (main freshEnv (some (narrowedQuery ++ [0]))) := by
  have hmain : main freshEnv (some (narrowedQuery ++ [0])) =
      some ⟨contentType ++ printButton default, some []⟩ := by decide +kernel
  refine ⟨⟨by decide, by decide, by decide⟩, narrowedId_literal, hmain, ?_⟩
  rw [hmain, addressesNothing_some_iff]
  rintro ⟨h, -⟩
  exact absurd h (by decide +kernel)

/-- `-1,led,6` is sent, and makes no transfer. -/
def minusQuery : List UInt8 := [45, 49] ++ comma :: (cmdLed ++ [comma, 54])

theorem minusQuery_addressesNothing :
    AddressesNothing [] (main freshEnv (some (minusQuery ++ [0]))) := by
  have hquery : text (minusQuery ++ [0]) = some minusQuery := by decide
  obtain ⟨left, hleft, hstr⟩ := removeSpaces_eq hquery (by decide) (by decide)
  rw [← hstr] at hquery
  have hminus : Literal [45, 49] (-1) :=
    .minus [49] (by decide) (List.forall_mem_singleton.mpr (by decide))
  have hf : Fields minusQuery [45, 49] cmdLed [54] := ⟨by decide, by decide, by decide⟩
  have hiff : AddressesNothing [] (main freshEnv (some (minusQuery ++ [0]))) ↔
      InRange freshEnv.wide minusQuery ∧ Unaddressed (-1) minusQuery cmdLed :=
    addressesNothing_iff hleft hquery hf hminus (by decide) rfl rfl
  exact hiff.mpr ⟨⟨[45, 49], cmdLed, [54], hf, ⟨by decide, by decide, by decide⟩,
    fun _ => by decide⟩, .inl (by decide)⟩

end El32.Web

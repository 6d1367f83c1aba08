import El32.Xbc.WebSafety
import El32.Xbc.Listener

/-! Two dispatchers for one query: `main` of `xbcweb` searches the whole string for a keyword, the
listener of the daemon searches the command field.

They agree exactly where the field also holds what the string holds. Keywords in the id or the
value field, and `btns` next to another keyword, are seen by the first dispatcher alone. -/
namespace El32.Web
open CString Decimal Commands Controller Shm Listener
set_option autoImplicit false

/-! ## The outcomes of a query -/

/-- The id as the structure holds it, from the text of the id field. -/
def idOfField (wide : ℤ → ℤ) (I : List UInt8) : UInt8 := UInt8.ofInt (atoi wide I)

section Outcomes
variable {env : WebEnv} {strCmd s I C V : List UInt8}

theorem serve_parsed (env : WebEnv) (hs : text strCmd = some s) (hf : Fields s I C V)
    (hfit : FieldsFit I C V) :
    ∃ cmd, serve env strCmd = dispatch env strCmd cmd ∧ cmd.id = idOfField env.wide I ∧
      text cmd.cmd.bytes = some C ∧
      messageText cmd.id C cmd.val = rebuilt env.wide I C V := by
  obtain ⟨cmd, hcmd, hid, hC, hval⟩ := retreiveCommand_some env.wide hs hf hfit env.cmd
  refine ⟨cmd, ?_, hid, hC, by rw [hid, hval, rebuilt]⟩
  simp only [serve, bind_eq, hcmd, some_bind]

theorem serve_record (hs : text strCmd = some s) (hf : Fields s I C V) (hfit : FieldsFit I C V)
    (hb : cmdBtns <:+: s) {m : Map} (hm : env.shm = some m)
    (hid : (idOfField env.wide I).toNat < maxDevs) :
    serve env strCmd =
      some ⟨contentType ++ printButton (m ⟨(idOfField env.wide I).toNat, hid⟩), env.queue⟩ := by
  obtain ⟨cmd, hserve, hcmd, -⟩ := serve_parsed env hs hf hfit
  rw [hserve]
  simp [dispatch, strstr_eq hs, hb, hm, hcmd, hid, readButtonFromSHM_slot]

theorem serve_outside (hs : text strCmd = some s) (hf : Fields s I C V) (hfit : FieldsFit I C V)
    (hb : cmdBtns <:+: s) (hid : maxDevs ≤ (idOfField env.wide I).toNat) :
    serve env strCmd = some env.ignored := by
  obtain ⟨cmd, hserve, hcmd, -⟩ := serve_parsed env hs hf hfit
  rw [hserve]
  simp [dispatch, strstr_eq hs, hb, hcmd, Nat.not_lt.mpr hid]

theorem serve_ignored (hs : text strCmd = some s) (hf : Fields s I C V) (hfit : FieldsFit I C V)
    (hb : ¬ cmdBtns <:+: s) (hsend : ¬ Sends s) : serve env strCmd = some env.ignored := by
  obtain ⟨cmd, hserve, -⟩ := serve_parsed env hs hf hfit
  rw [hserve]
  have hk : ¬ (cmdLed <:+: s ∨ cmdRumble <:+: s) := fun h => hsend ⟨hb, h⟩
  obtain ⟨hl, hr⟩ := not_or.mp hk
  exact dispatch_ignored hs hb hl hr

/-- A query that is sent: the rebuilt message is the last of the queue, if it fits its array. -/
theorem serve_sent (env : WebEnv) (hs : text strCmd = some s) (hf : Fields s I C V)
    (hfit : FieldsFit I C V) (hsend : Sends s) {q : Queue} (hq : env.queue = some q) :
    if (rebuilt env.wide I C V).length < maxCmdLen then
      ∃ m : Message, serve env strCmd = some ⟨contentType, some (q ++ [m])⟩ ∧
        text m.bytes = some (rebuilt env.wide I C V)
    else serve env strCmd = none := by
  obtain ⟨cmd, hserve, -, hC, hmsg⟩ := serve_parsed env hs hf hfit
  have hspec := sendCommand_spec env.frame env.queue hC
  rw [hmsg] at hspec
  rw [hserve, dispatch_send hs hsend]
  by_cases hlen : (rebuilt env.wide I C V).length < maxCmdLen
  · rw [if_pos hlen] at hspec ⊢
    obtain ⟨m, hm, hmt⟩ := hspec
    exact ⟨m, by rw [hm, hq]; rfl, hmt⟩
  · rw [if_neg hlen] at hspec ⊢
    rw [hspec]
    rfl

/-- The listener on the rebuilt message: the kind of the command field, the id of the id field. -/
theorem listenOnce_rebuilt (wide : ℤ → ℤ) (rx : Command) {m : Message} {w : ℤ → ℤ}
    (hm : text m.bytes = some (rebuilt w I C V)) (hlen : (rebuilt w I C V).length < maxCmdLen) :
    ∃ c call, listenOnce wide rx (some m) = some (c, call) ∧
      call.map ControllerCall.target = (kindOf C).map fun k => (k, idOfField w I) := by
  obtain ⟨c, hc, hid, hC, -⟩ := retreiveCommand_message wide hm hlen rx
  obtain ⟨call, hcall, htarget⟩ := Listener.dispatch_eq hC
  refine ⟨c, call, ?_, by rw [htarget, hid]; rfl⟩
  have hget : getCommand wide rx (some m) = some c := hc
  simp only [listenOnce, bind_eq, hget, some_bind, hcall]
  rfl

end Outcomes

/-! ## Keywords -/

section Keywords
variable {s I C V : List UInt8}

theorem kindOf_isSome_iff : (kindOf C).isSome ↔ cmdRumble <:+: C ∨ cmdLed <:+: C := by
  unfold kindOf
  by_cases hr : cmdRumble <:+: C
  · simp [hr]
  · by_cases hl : cmdLed <:+: C
    · simp [hr, hl]
    · simp [hr, hl]

theorem kindOf_text {k : Kind} (h : kindOf C = some k) : k.text <:+: C := by
  unfold kindOf at h
  split at h
  · next hr =>
    obtain rfl := Option.some.inj h
    exact hr
  · split at h
    · next hl =>
      obtain rfl := Option.some.inj h
      exact hl
    · exact absurd h (by simp)

theorem sends_of_kindOf (hf : Fields s I C V) (hb : ¬ cmdBtns <:+: s)
    (h : cmdRumble <:+: C ∨ cmdLed <:+: C) : Sends s := by
  refine ⟨hb, ?_⟩
  rcases h with h | h
  · exact .inr (h.trans hf.infix_command)
  · exact .inl (h.trans hf.infix_command)

end Keywords

/-! ## Agreement -/

/-- The daemon, whatever its structure held, makes the call that `C` names on the controller `id`. -/
def Performs (id : UInt8) (C : List UInt8) (m : Message) : Prop :=
  ∀ (wide : ℤ → ℤ) (rx : Command), ∃ c call k, listenOnce wide rx (some m) = some (c, some call) ∧
    call.target = (k, id) ∧ k.text <:+: C

/-- The answer `out` to a query with the command field `C`, the queue having held `q`. -/
structure Answers (q : Queue) (id : UInt8) (C : List UInt8) (out : WebOut) : Prop where
  record : out.output ≠ contentType → cmdBtns <:+: C
  forward : (∃ m, out.queue = some (q ++ [m])) ↔ cmdRumble <:+: C ∨ cmdLed <:+: C
  performed : ∀ m, out.queue = some (q ++ [m]) → Performs id C m

/-- Both programs do what the command field names, and neither leaves an array. -/
def Agree (q : Queue) (id : UInt8) (C : List UInt8) (answer : Option WebOut) : Prop :=
  ∃ out, answer = some out ∧ Answers q id C out

/-- What the string holds, the command field holds too: `btns` never next to another keyword there,
nor in another field unless the id is out of range; a keyword of the daemon, in a message that
fits. -/
structure FieldDecides (wide : ℤ → ℤ) (s I C V : List UInt8) : Prop where
  btns : cmdBtns <:+: s → (¬ cmdRumble <:+: C ∧ ¬ cmdLed <:+: C) ∧
    (cmdBtns <:+: C ∨ maxDevs ≤ (idOfField wide I).toNat)
  send : Sends s → (cmdRumble <:+: C ∨ cmdLed <:+: C) ∧
    (rebuilt wide I C V).length ≤ maxCmdLen - 1

section Agreement
variable {env : WebEnv} {strCmd s I C V : List UInt8} {q : Queue}

theorem printButton_ne_nil (btn : Button) : printButton btn ≠ [] := by
  intro h
  have hlen := congrArg List.length h
  simp only [printButton, printArgs, List.map_cons, List.intercalate, List.intersperse,
    List.flatten_cons, List.length_append, List.length_nil, List.length_singleton] at hlen
  omega

theorem not_grown (m : Message) : some q ≠ some (q ++ [m]) := by
  intro h
  have := congrArg List.length (Option.some.inj h)
  simp at this

/-- An ignored query agrees with a field that names nothing for the daemon. -/
theorem answers_ignored_iff (hq : env.queue = some q) (id : UInt8) :
    Answers q id C env.ignored ↔ ¬ cmdRumble <:+: C ∧ ¬ cmdLed <:+: C := by
  have hkept : ∀ m, env.ignored.queue ≠ some (q ++ [m]) := by
    intro m
    show env.queue ≠ _
    rw [hq]
    exact not_grown m
  rw [← not_or]
  constructor
  · intro h hk
    obtain ⟨m, hm⟩ := h.forward.mpr hk
    exact hkept m hm
  · intro hk
    refine ⟨fun h => absurd rfl h, ?_, fun m hm => absurd hm (hkept m)⟩
    exact iff_of_false (fun ⟨m, hm⟩ => hkept m hm) hk

theorem answers_record_iff (hq : env.queue = some q) (id : UInt8) (btn : Button) :
    Answers q id C ⟨contentType ++ printButton btn, env.queue⟩ ↔
      (¬ cmdRumble <:+: C ∧ ¬ cmdLed <:+: C) ∧ cmdBtns <:+: C := by
  rw [← answers_ignored_iff hq id]
  have hne : contentType ++ printButton btn ≠ contentType := fun h =>
    printButton_ne_nil btn (List.append_right_eq_self.mp h)
  constructor
  · intro h
    exact ⟨⟨fun h' => absurd rfl h', h.forward, h.performed⟩, h.record hne⟩
  · rintro ⟨h, hb⟩
    exact ⟨fun _ => hb, h.forward, h.performed⟩

theorem performs_rebuilt {w : ℤ → ℤ} {m : Message} (hm : text m.bytes = some (rebuilt w I C V))
    (hlen : (rebuilt w I C V).length < maxCmdLen) (hk : cmdRumble <:+: C ∨ cmdLed <:+: C) :
    Performs (idOfField w I) C m := by
  intro wide rx
  obtain ⟨c, call, hlisten, htarget⟩ := listenOnce_rebuilt wide rx hm hlen
  obtain ⟨k, hkind⟩ := Option.isSome_iff_exists.mp (kindOf_isSome_iff.mpr hk)
  rw [hkind, Option.map_some, Option.map_eq_some_iff] at htarget
  obtain ⟨call, rfl, htarget⟩ := htarget
  exact ⟨c, call, k, hlisten, htarget, kindOf_text hkind⟩

theorem answers_sent_iff {m : Message} (hm : text m.bytes = some (rebuilt env.wide I C V))
    (hlen : (rebuilt env.wide I C V).length < maxCmdLen) :
    Answers q (idOfField env.wide I) C ⟨contentType, some (q ++ [m])⟩ ↔
      cmdRumble <:+: C ∨ cmdLed <:+: C := by
  constructor
  · exact fun h => h.forward.mp ⟨m, rfl⟩
  · intro hk
    refine ⟨fun h => absurd rfl h, iff_of_true ⟨m, rfl⟩ hk, fun m' hm' => ?_⟩
    obtain rfl : m = m' := by simpa using hm'
    exact performs_rebuilt hm hlen hk

theorem agree_some_iff {id : UInt8} {out : WebOut} :
    Agree q id C (some out) ↔ Answers q id C out := by
  simp only [Agree, Option.some.injEq, exists_eq_left']

theorem not_agree_none {id : UInt8} : ¬ Agree q id C none := fun ⟨_, h, _⟩ => nomatch h

theorem agree_btns_iff (hs : text strCmd = some s) (hf : Fields s I C V) (hfit : FieldsFit I C V)
    (hb : cmdBtns <:+: s) {m : Map} (hm : env.shm = some m) (hq : env.queue = some q) :
    Agree q (idOfField env.wide I) C (serve env strCmd) ↔ (¬ cmdRumble <:+: C ∧ ¬ cmdLed <:+: C) ∧
      (cmdBtns <:+: C ∨ maxDevs ≤ (idOfField env.wide I).toNat) := by
  by_cases hid : (idOfField env.wide I).toNat < maxDevs
  · rw [serve_record hs hf hfit hb hm hid, agree_some_iff, answers_record_iff hq,
      or_iff_left (Nat.not_le.mpr hid)]
  · have hid' := Nat.not_lt.mp hid
    rw [serve_outside hs hf hfit hb hid', agree_some_iff, answers_ignored_iff hq]
    exact (and_iff_left (.inr hid')).symm

theorem agree_sends_iff (hs : text strCmd = some s) (hf : Fields s I C V) (hfit : FieldsFit I C V)
    (hsend : Sends s) (hq : env.queue = some q) :
    Agree q (idOfField env.wide I) C (serve env strCmd) ↔ (cmdRumble <:+: C ∨ cmdLed <:+: C) ∧
      (rebuilt env.wide I C V).length ≤ maxCmdLen - 1 := by
  have hsent := serve_sent env hs hf hfit hsend hq
  by_cases hlen : (rebuilt env.wide I C V).length < maxCmdLen
  · rw [if_pos hlen] at hsent
    obtain ⟨msg, hserve, hmsg⟩ := hsent
    rw [hserve, agree_some_iff, answers_sent_iff hmsg hlen]
    exact (and_iff_left (Nat.le_sub_one_of_lt hlen)).symm
  · -- the message leaves its array
    rw [if_neg hlen] at hsent
    rw [hsent]
    refine iff_of_false not_agree_none ?_
    rintro ⟨-, h⟩
    unfold maxCmdLen at h hlen
    omega

/-- **The two programs agree on a query exactly when its command field decides**, with the store
mapped and the queue open. The fields are those of the query that `removeSpaces` leaves. -/
theorem agree_iff {query : List UInt8} {left : Stripped}
    (hleft : removeSpaces env.tmpStr query = some left) (hs : text left.str = some s)
    (hf : Fields s I C V) (hfit : FieldsFit I C V) {m : Map} (hm : env.shm = some m)
    (hq : env.queue = some q) :
    Agree q (idOfField env.wide I) C (main env (some query)) ↔ FieldDecides env.wide s I C V := by
  rw [main_eq_serve hleft hs hf.ne_nil]
  by_cases hb : cmdBtns <:+: s
  · rw [agree_btns_iff hs hf hfit hb hm hq]
    constructor
    · exact fun h => ⟨fun _ => h, fun hsend => absurd hb hsend.1⟩
    · exact fun h => h.btns hb
  by_cases hsend : Sends s
  · rw [agree_sends_iff hs hf hfit hsend hq]
    constructor
    · exact fun h => ⟨fun h' => absurd h' hb, fun _ => h⟩
    · exact fun h => h.send hsend
  · rw [serve_ignored hs hf hfit hb hsend, agree_some_iff, answers_ignored_iff hq]
    constructor
    · exact fun _ => ⟨fun h' => absurd h' hb, fun h' => absurd h' hsend⟩
    · intro _
      exact not_or.mp fun hk => hsend (sends_of_kindOf hf hb hk)

end Agreement

/-! ## Concrete queries -/

theorem agree_ledQuery : Agree [] 0 cmdLed (main freshEnv (some (ledQuery ++ [0]))) := by
  have hquery : text (ledQuery ++ [0]) = some ledQuery := by decide
  obtain ⟨left, hleft, hstr⟩ := removeSpaces_eq hquery (by decide) (by decide)
  rw [← hstr] at hquery
  have hf : Fields ledQuery [48] cmdLed [54] := ⟨by decide, by decide, by decide⟩
  have hfit : FieldsFit [48] cmdLed [54] := ⟨by decide, by decide, by decide⟩
  have hiff : Agree [] 0 cmdLed (main freshEnv (some (ledQuery ++ [0]))) ↔
      FieldDecides freshEnv.wide ledQuery [48] cmdLed [54] :=
    agree_iff hleft hquery hf hfit rfl rfl
  exact hiff.mpr ⟨fun h => absurd h (by decide), fun _ => ⟨by decide, by decide⟩⟩

def strayBtns : List UInt8 := ['0', 'b', 't', 'n', 's'].map Char.toUInt8

/-- `0btns,led,1`. -/
def strayQuery : List UInt8 := strayBtns ++ comma :: (cmdLed ++ [comma, 49])

/-- The id field holds `btns`: the record of controller 0 is printed, and `led` is not sent. -/
theorem stray_disagree :
    Fields strayQuery strayBtns cmdLed [49] ∧ FieldsFit strayBtns cmdLed [49] ∧
      main freshEnv (some (strayQuery ++ [0])) =
        some ⟨contentType ++ printButton default, some []⟩ ∧
      ¬ Agree [] 0 cmdLed (main freshEnv (some (strayQuery ++ [0]))) := by
  have hmain : main freshEnv (some (strayQuery ++ [0])) =
      some ⟨contentType ++ printButton default, some []⟩ := by decide +kernel
  refine ⟨⟨by decide, by decide, by decide⟩, ⟨by decide, by decide, by decide⟩, hmain, ?_⟩
  rw [hmain, agree_some_iff]
  intro h
  exact absurd (h.record (by decide +kernel)) (by decide)

end El32.Web

import El32.Xbc.Web
import El32.Xbc.CommandsRoundTrip

/-! Which query strings keep the CGI parser inside its arrays.

`retreiveCommand` and `sendCommand` have a value exactly when every index and every copy length they
compute stays inside its array; the result below says for which strings. -/
namespace El32.Web
open CString Decimal Commands Controller Shm
set_option autoImplicit false

/-- The message rebuilt from the three fields: the id modulo 256, the command text and the value,
with the id's byte behind it, modulo 65536. -/
def rebuilt (wide : ℤ → ℤ) (I C V : List UInt8) : List UInt8 :=
  messageText (UInt8.ofInt (atoi wide I)) C (Int16.ofInt (atoi wide (V ++ stale I V)))

/-- Two commas, fields of at most 48, 49 and 48 bytes, and a rebuilt message of at most 49 where it
is sent. -/
def InRange (wide : ℤ → ℤ) (s : List UInt8) : Prop :=
  ∃ I C V, Fields s I C V ∧ FieldsFit I C V ∧
    (Sends s → (rebuilt wide I C V).length ≤ maxCmdLen - 1)

/-- The query is parsed inside all arrays and, where it is sent, sent inside all arrays. -/
def Parses (env : WebEnv) (strCmd s : List UInt8) : Prop :=
  ∃ cmd, retreiveCommand env.wide env.cmd strCmd = some cmd ∧
    (Sends s → ∃ q, sendCommand env.frame cmd env.queue = some q)

/-- No array is left, and a query that has not got its three fields is ignored. -/
def Contained (env : WebEnv) (strCmd s : List UInt8) : Prop :=
  Parses env strCmd s ∧ (s.count comma < 2 → serve env strCmd = some env.ignored)

section Safety
variable {env : WebEnv} {strCmd s I C V : List UInt8}

theorem sendCommand_isSome_iff (f : SendFrame) (q : Option Queue) {cmd : Command} {t : List UInt8}
    (ht : text cmd.cmd.bytes = some t) :
    (∃ q', sendCommand f cmd q = some q') ↔
      (messageText cmd.id t cmd.val).length ≤ maxCmdLen - 1 := by
  have hsend := sendCommand_spec f q ht
  have h49 : maxCmdLen - 1 = 49 := rfl
  have h50 : maxCmdLen = 50 := rfl
  by_cases hlen : (messageText cmd.id t cmd.val).length < maxCmdLen
  · rw [if_pos hlen] at hsend
    obtain ⟨msg, hmsg, -⟩ := hsend
    exact iff_of_true ⟨_, hmsg⟩ (by omega)
  · rw [if_neg hlen] at hsend
    exact iff_of_false (by simp [hsend]) (by omega)

/-- With the store mapped, the whole program has a value exactly when the string parses. -/
theorem serve_isSome_iff {m : Map} (hm : env.shm = some m) (hs : text strCmd = some s) :
    (∃ out, serve env strCmd = some out) ↔ Parses env strCmd s := by
  cases hc : retreiveCommand env.wide env.cmd strCmd with
  | none => simp [serve, Parses, hc]
  | some cmd =>
    have hserve : serve env strCmd = dispatch env strCmd cmd := by
      simp only [serve, bind_eq, hc, some_bind]
    have hparses : Parses env strCmd s ↔
        (Sends s → ∃ q, sendCommand env.frame cmd env.queue = some q) := by
      simp only [Parses, hc, Option.some.injEq, exists_eq_left']
    rw [hserve, hparses]
    by_cases hb : cmdBtns <:+: s
    · exact iff_of_true (dispatch_btns hs hb hm) fun h => absurd hb h.1
    by_cases hk : cmdLed <:+: s ∨ cmdRumble <:+: s
    · rw [dispatch_send hs ⟨hb, hk⟩]
      cases sendCommand env.frame cmd env.queue with
      | none => exact iff_of_false (by simp) fun h => by simpa using h ⟨hb, hk⟩
      | some q => exact iff_of_true ⟨_, rfl⟩ fun _ => ⟨q, rfl⟩
    · obtain ⟨hl, hr⟩ := not_or.mp hk
      exact iff_of_true ⟨_, dispatch_ignored hs hb hl hr⟩ fun h => absurd h.2 hk

theorem parses_iff (hs : text strCmd = some s) (hf : Fields s I C V) :
    Parses env strCmd s ↔ FieldsFit I C V ∧
      (Sends s → (rebuilt env.wide I C V).length ≤ maxCmdLen - 1) := by
  by_cases hfit : FieldsFit I C V
  · obtain ⟨c, hcmd, hid, htext, hval⟩ := retreiveCommand_some env.wide hs hf hfit env.cmd
    have hparses : Parses env strCmd s ↔
        (Sends s → ∃ q, sendCommand env.frame c env.queue = some q) := by
      simp only [Parses, hcmd, Option.some.injEq, exists_eq_left']
    rw [hparses, and_iff_right hfit, sendCommand_isSome_iff env.frame env.queue htext, hid, hval]
    rfl
  · refine iff_of_false ?_ fun h => hfit h.1
    rintro ⟨cmd, hcmd, -⟩
    rw [retreiveCommand_none hs hf hfit] at hcmd
    exact absurd hcmd (by simp)

theorem inRange_iff {wide : ℤ → ℤ} (hf : Fields s I C V) :
    InRange wide s ↔ FieldsFit I C V ∧
      (Sends s → (rebuilt wide I C V).length ≤ maxCmdLen - 1) := by
  constructor
  · rintro ⟨I', C', V', hf', h'⟩
    obtain ⟨rfl, rfl, rfl⟩ := hf.unique hf'
    exact h'
  · exact fun h => ⟨I, C, V, hf, h⟩

/-- **A query is contained exactly when it is in range.** -/
theorem contained_iff (hs : text strCmd = some s) :
    Contained env strCmd s ↔ InRange env.wide s := by
  by_cases hc : s.count comma < 2
  · refine iff_of_false ?_ ?_
    · rintro ⟨⟨cmd, hcmd, -⟩, -⟩
      rw [retreiveCommand_malformed hs hc] at hcmd
      exact absurd hcmd (by simp)
    · rintro ⟨I, C, V, hf, -⟩
      have := hf.two_commas
      omega
  · obtain ⟨I, C, V, hf⟩ := exists_fields (by omega : 2 ≤ s.count comma)
    have hcont : Contained env strCmd s ↔ Parses env strCmd s :=
      and_iff_left fun h => absurd h hc
    rw [hcont, parses_iff hs hf, inRange_iff hf]

end Safety

/-! ## Concrete queries -/

/-- A process that finds zeroed memory, a mapped store and an empty queue. -/
def freshEnv : WebEnv where
  wide := id
  tmpStr := true
  shm := some fun _ => default
  queue := some []
  frame := emptyFrame
  cmd := rumbleOn
  btn := default

def ledQuery : List UInt8 := ['0', ',', 'l', 'e', 'd', ',', '6'].map Char.toUInt8

theorem contained_ledQuery : Contained freshEnv (ledQuery ++ [0]) ledQuery :=
  (contained_iff (by decide)).mpr
    ⟨[48], cmdLed, [54], ⟨by decide, by decide, by decide⟩, ⟨by decide, by decide, by decide⟩,
      fun _ => by decide⟩

def oneComma : List UInt8 := ['0', ',', 'l', 'e', 'd'].map Char.toUInt8

/-- With one comma the command text is copied with the length -1. -/
theorem not_contained_oneComma : ¬ Contained freshEnv (oneComma ++ [0]) oneComma := by
  rintro ⟨⟨cmd, hcmd, -⟩, -⟩
  have hnone : retreiveCommand freshEnv.wide freshEnv.cmd (oneComma ++ [0]) = none := by
    decide +kernel
  rw [hnone] at hcmd
  exact absurd hcmd (by simp)

end El32.Web

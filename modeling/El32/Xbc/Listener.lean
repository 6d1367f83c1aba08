import El32.Xbc.CommandsRoundTrip
import El32.Xbc.Devices

/-! The command listener thread of `xbcdaemon/main.c`.

The command structure lives across the iterations, and a receive that fails leaves it as it was: the
iteration then dispatches on the previous command again. The main result says for which histories of
receives the thread makes one call for every message and none else. -/
namespace El32.Listener
open CString Decimal Commands Controller Devices
set_option autoImplicit false

/-- A call of the thread into `controller.c`, with the value as its parameter takes it. -/
inductive ControllerCall where
  | setControllerRumble (id : UInt8) (speed : UInt16)
  | setControllerLeds (id : UInt8) (led : UInt32)
deriving DecidableEq

def ControllerCall.id : ControllerCall → UInt8
  | .setControllerRumble id _ => id
  | .setControllerLeds id _ => id

def ControllerCall.onHandle (handle : Option Handle) (usb : ℤ) :
    ControllerCall → ℤ × List OutTransfer
  | .setControllerRumble _ speed => Controller.setControllerRumble handle speed usb
  | .setControllerLeds _ led => Controller.setControllerLeds handle led usb

def ControllerCall.perform (devices : Table) (usb : ℤ) (call : ControllerCall) :
    ℤ × List OutTransfer := call.onHandle (getDeviceHandle devices call.id) usb

def dispatch (cmd : Command) : Option (Option ControllerCall) := do
  if ← strstr cmd.cmd.bytes cmdRumble then
    return some (.setControllerRumble cmd.id cmd.val.toUInt16)
  else if ← strstr cmd.cmd.bytes cmdLed then
    return some (.setControllerLeds cmd.id cmd.val.toInt32.toUInt32)
  else return none

/-- One iteration: the structure afterwards and the call made. -/
def listenOnce (wide : ℤ → ℤ) (cmd : Command) (received : Option Message) :
    Option (Command × Option ControllerCall) := do
  let cmd ← getCommand wide cmd received
  let call ← dispatch cmd
  return (cmd, call)

/-- The calls of the iterations, one entry for each; a failed `mq_receive` is `none`. -/
def commandListenerThread (wide : ℤ → ℤ) :
    Command → List (Option Message) → Option (List (Option ControllerCall))
  | _, [] => some []
  | cmd, received :: rest => do
    let (cmd, call) ← listenOnce wide cmd received
    let calls ← commandListenerThread wide cmd rest
    return call :: calls

/-! ## What a command asks for -/

inductive Kind where
  | rumble
  | leds
deriving DecidableEq

def Kind.text : Kind → List UInt8
  | .rumble => cmdRumble
  | .leds => cmdLed

def ControllerCall.target : ControllerCall → Kind × UInt8
  | .setControllerRumble id _ => (.rumble, id)
  | .setControllerLeds id _ => (.leds, id)

/-- The kind of call for a command text; `rumble` comes first. -/
def kindOf (s : List UInt8) : Option Kind :=
  if cmdRumble <:+: s then some .rumble
  else if cmdLed <:+: s then some .leds
  else none

theorem dispatch_eq {cmd : Command} {s : List UInt8} (h : text cmd.cmd.bytes = some s) :
    ∃ call, dispatch cmd = some call ∧
      call.map ControllerCall.target = (kindOf s).map fun k => (k, cmd.id) := by
  simp only [dispatch, bind_eq, strstr_eq h, some_bind, kindOf]
  by_cases hr : cmdRumble <:+: s
  · simp [hr, ControllerCall.target]
  · by_cases hl : cmdLed <:+: s
    · simp [hr, hl, ControllerCall.target]
    · simp [hr, hl]

theorem dispatch_none {cmd : Command} (h : text cmd.cmd.bytes = none) : dispatch cmd = none := by
  simp only [dispatch, bind_eq, strstr, h, Option.map_none, Option.bind_none]

theorem listenOnce_failed (wide : ℤ → ℤ) (cmd : Command) :
    listenOnce wide cmd none = (dispatch cmd).map fun call => (cmd, call) := by
  simp only [listenOnce, bind_eq, getCommand, some_bind, Option.map_eq_bind]
  rfl

/-! ## Histories -/

/-- A message in the queue, with the command that `sendCommand` was called with for it. -/
structure Sent where
  message : Message
  cmd : Command
  cmdText : List UInt8
  text_cmd : text cmd.cmd.bytes = some cmdText
  sent : ∃ f q, sendCommand f cmd (some q) = some (some (q ++ [message]))

theorem Sent.text_message (m : Sent) :
    (messageText m.cmd.id m.cmdText m.cmd.val).length < maxCmdLen ∧
      text m.message.bytes = some (messageText m.cmd.id m.cmdText m.cmd.val) := by
  obtain ⟨f, q, hsent⟩ := m.sent
  have hspec := sendCommand_spec f (some q) m.text_cmd
  by_cases h : (messageText m.cmd.id m.cmdText m.cmd.val).length < maxCmdLen
  · rw [if_pos h] at hspec
    obtain ⟨msg, hmsg, ht⟩ := hspec
    rw [hsent, Option.map_some, Option.some.injEq, Option.some.injEq,
      List.append_cancel_left_eq] at hmsg
    rw [(List.cons.inj hmsg).1]
    exact ⟨h, ht⟩
  · rw [if_neg h, hsent] at hspec
    exact absurd hspec (by simp)

theorem Sent.getCommand (m : Sent) (wide : ℤ → ℤ) (cmd : Command) :
    ∃ c, Commands.getCommand wide cmd (some m.message) = some c ∧ c.id = m.cmd.id ∧
      text c.cmd.bytes = some m.cmdText := by
  obtain ⟨hlen, ht⟩ := m.text_message
  obtain ⟨c, hc, hid, hcmd, -⟩ := retreiveCommand_message wide ht hlen cmd
  exact ⟨c, hc, hid, hcmd⟩

def wanted : Option Sent → Option (Kind × UInt8)
  | none => none
  | some m => (kindOf m.cmdText).map fun k => (k, m.cmd.id)

/-- One call for each message that asks for one, in order, and none where a receive fails. -/
def OncePerMessage (wide : ℤ → ℤ) (cmd : Command) (rs : List (Option Sent)) : Prop :=
  ∃ calls, commandListenerThread wide cmd (rs.map (·.map Sent.message)) = some calls ∧
    calls.map (·.map ControllerCall.target) = rs.map wanted

/-- At every failed receive the current command text is a string without a keyword: the text of the
last message, or what `cur` was at the start. -/
def QuietFailures : Option (List UInt8) → List (Option Sent) → Prop
  | _, [] => True
  | cur, none :: rs => (∃ s, cur = some s ∧ kindOf s = none) ∧ QuietFailures cur rs
  | _, some m :: rs => QuietFailures (some m.cmdText) rs

theorem oncePerMessage_cons {wide : ℤ → ℤ} {cmd c : Command} {call : Option ControllerCall}
    {r : Option Sent} {rs : List (Option Sent)}
    (h : listenOnce wide cmd (r.map Sent.message) = some (c, call)) :
    OncePerMessage wide cmd (r :: rs) ↔
      call.map ControllerCall.target = wanted r ∧ OncePerMessage wide c rs := by
  have hrun : commandListenerThread wide cmd ((r :: rs).map (·.map Sent.message)) =
      (commandListenerThread wide c (rs.map (·.map Sent.message))).map (call :: ·) := by
    simp only [List.map_cons, commandListenerThread, bind_eq, h, some_bind]
    cases commandListenerThread wide c (rs.map (·.map Sent.message)) <;> rfl
  simp only [OncePerMessage, hrun]
  constructor
  · rintro ⟨calls, hcalls, hkinds⟩
    obtain ⟨rest, hrest, rfl⟩ := Option.map_eq_some_iff.mp hcalls
    obtain ⟨hk, hks⟩ := List.cons.inj hkinds
    exact ⟨hk, rest, hrest, hks⟩
  · rintro ⟨hk, rest, hrest, hks⟩
    exact ⟨call :: rest, by rw [hrest]; rfl, by rw [List.map_cons, List.map_cons, hk, hks]⟩

/-- **Every message is executed exactly once, and nothing else is**, exactly when no receive fails
while the structure holds a keyword or no string. -/
theorem oncePerMessage_iff (wide : ℤ → ℤ) (cmd : Command) (rs : List (Option Sent)) :
    OncePerMessage wide cmd rs ↔ QuietFailures (text cmd.cmd.bytes) rs := by
  induction rs generalizing cmd with
  | nil => exact iff_of_true ⟨[], rfl, rfl⟩ trivial
  | cons r rs ih =>
    cases r with
    | none =>
      cases ht : text cmd.cmd.bytes with
      | none =>
        have hnone : listenOnce wide cmd none = none := by
          rw [listenOnce_failed, dispatch_none ht]
          rfl
        refine iff_of_false ?_ ?_
        · rintro ⟨calls, hcalls, -⟩
          simp [commandListenerThread, hnone] at hcalls
        · rintro ⟨⟨s, hs, -⟩, -⟩
          exact absurd hs (by simp)
      | some s =>
        obtain ⟨call, hcall, hkind⟩ := dispatch_eq ht
        have hl : listenOnce wide cmd none = some (cmd, call) := by
          rw [listenOnce_failed, hcall]
          rfl
        rw [oncePerMessage_cons (r := none) hl, ih, ht, hkind, QuietFailures, wanted,
          Option.map_eq_none_iff]
        refine and_congr_left fun _ => ⟨fun h => ⟨s, rfl, h⟩, ?_⟩
        rintro ⟨s', hs', h⟩
        rwa [Option.some.inj hs']
    | some m =>
      obtain ⟨c, hc, hid, htext⟩ := m.getCommand wide cmd
      obtain ⟨call, hcall, hkind⟩ := dispatch_eq htext
      have hl : listenOnce wide cmd (some m.message) = some (c, call) := by
        simp only [listenOnce, bind_eq, hc, some_bind, hcall]
        rfl
      rw [oncePerMessage_cons (r := some m) hl, ih, htext]
      exact and_iff_right (by rw [hkind, hid]; rfl)

/-! ## Concrete histories -/

def rumbleSent : Sent where
  message := ((makeCommand emptyFrame 0 rumbleOn.cmd.bytes 1000).get (by decide +kernel))
  cmd := rumbleOn
  cmdText := cmdRumble
  text_cmd := by decide
  sent := ⟨emptyFrame, [], by decide +kernel⟩

/-- A receive that fails after `0,rumble,1000` starts the motors again. -/
theorem not_oncePerMessage_failed : ¬ OncePerMessage id rumbleOn [some rumbleSent, none] := by
  rintro ⟨calls, hcalls, hkinds⟩
  have hrun : commandListenerThread id rumbleOn [some rumbleSent.message, none] =
      some [some (.setControllerRumble 0 1000), some (.setControllerRumble 0 1000)] := by
    decide +kernel
  obtain rfl := Option.some.inj (hrun.symm.trans hcalls)
  exact absurd hkinds (by decide)

end El32.Listener

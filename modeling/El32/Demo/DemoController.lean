import El32.Demo.Controller
import El32.Foundations.Loop

/-! `DemoController.c`: the four demonstrations, one after the other.

Every transfer succeeds, and one report is taken from the input at each `getControllerInput`; a run
that asks for a report after the last one has no value. What the program does is kept in a trace. -/
namespace El32.Demo
open Controller Loop
set_option autoImplicit false

inductive Step where
  | leds
  | rumble
  | buttons
  | analog
deriving DecidableEq

/-- The loop that asks for a report: that of a step, or the one of `waitForRelease`. -/
inductive Reader where
  | step (k : Step)
  | release
deriving DecidableEq

/-- A report read, a packet sent, a line printed, a line of `demoButtons` that names a button, a
delay. -/
inductive Event where
  | input (reader : Reader) (r : Report)
  | output (data : List UInt8)
  | printf (text : String)
  | pressed (text : String)
  | usleep (usec : ℕ)

/-- The reports to come, the globals, and what was done. -/
structure World where
  reports : List Report
  buttons : Buttons
  toQuit : Bool
  trace : List Event

def World.emit (w : World) (es : List Event) : World := { w with trace := w.trace ++ es }

/-! ## The controller -/

def setControllerLeds (led : Leds) (w : World) : World := w.emit [.output (ledsPacket led)]

def setControllerRumble (speed : UInt16) (w : World) : World := w.emit [.output (rumblePacket speed)]

def getControllerInput (reader : Reader) (w : World) : Option World :=
  match w.reports with
  | [] => none
  | r :: rs => some { w with
      reports := rs
      buttons := buttonsOf r
      trace := w.trace ++ [.input reader r] }

def waitForRelease (w : World) : Option World :=
  (whileLoop (·.buttons.anyPressed) (getControllerInput .release) (·.reports.length) w).map
    (·.emit [.usleep 100000])

/-! ## The steps -/

/-- `while(to_quit == false)`. -/
def quitLoop (round : World → Option World) (w : World) : Option World :=
  whileLoop (fun w => !w.toQuit) round (·.reports.length) w

/-- The start of every step: `to_quit = false`, and what is to be done. -/
def begin (text : String) (w : World) : World := { w with toQuit := false }.emit [.printf text]

def quit (text : String) (w : World) : World := { w with toQuit := true }.emit [.printf text]

def chosenLed (btn : Buttons) : Leds :=
  if btn.y then .led1On
  else if btn.b then .led2On
  else if btn.x then .led3On
  else if btn.a then .led4On
  else .allOff

def ledsRound (w : World) : Option World :=
  (getControllerInput (.step .leds) w).bind fun w =>
    let w := setControllerLeds (chosenLed w.buttons) w
    some (if w.buttons.back then quit "Leaving LED's demonstration.\n" w else w)

def demoLeds (w : World) : Option World :=
  (quitLoop ledsRound (begin
    "\nPress button A, B, X or Y to light the LED's. Press back to go to the next step.\n" w)).bind
    waitForRelease

/-- `abs` of a stick value, as the `uint16_t` that `setControllerRumble` takes. -/
def stickSpeed (x : Int16) : UInt16 := UInt16.ofNat x.toInt.natAbs

def rumbleRound (w : World) : Option World :=
  (getControllerInput (.step .rumble) w).bind fun w =>
    let w := setControllerRumble (stickSpeed w.buttons.leftStickX) w
    some (if w.buttons.back then
      { setControllerRumble 0 (w.emit [.printf "Leaving rumble demonstration.\n"]) with toQuit := true }
    else w)

def demoRumble (w : World) : Option World :=
  (quitLoop rumbleRound (begin
    "\nUse the left joystick X to controll the rumble. Press back to go to the next step.\n" w)).bind
    waitForRelease

/-- The buttons that `demoButtons` prints; there is no line for `SPARE`. -/
def buttonLines : List ((Buttons → Bool) × String) :=
  [(Buttons.dUp, "D-up button pressed\n"), (Buttons.dDn, "D-down button pressed\n"),
    (Buttons.dLeft, "D-left button pressed\n"), (Buttons.dRight, "D-right button pressed\n"),
    (Buttons.start, "Start button pressed\n"), (Buttons.lsPress, "LS button pressed\n"),
    (Buttons.rsPress, "RS button pressed\n"), (Buttons.lb, "LB button pressed\n"),
    (Buttons.rb, "RB button pressed\n"), (Buttons.logo, "Logo button pressed\n"),
    (Buttons.a, "A button pressed\n"), (Buttons.b, "B button pressed\n"),
    (Buttons.x, "X button pressed\n"), (Buttons.y, "Y button pressed\n")]

def pressedLines (btn : Buttons) : List Event :=
  (buttonLines.filter (·.1 btn)).map (.pressed ·.2)

def buttonsRound (w : World) : Option World :=
  (getControllerInput (.step .buttons) w).bind fun w =>
    let w := w.emit (pressedLines w.buttons)
    waitForRelease (if w.buttons.back then quit "Leaving button demonstration.\n" w else w)

def demoButtons (w : World) : Option World :=
  quitLoop buttonsRound (begin "\nPress any button. Press back to go to the next step.\n" w)

def valueLine (text : String) (shown : Bool) (value : ℤ) : List Event :=
  if shown then [.printf (text ++ " value = " ++ toString value ++ "\n")] else []

def triggerLine (text : String) (t : UInt8) : List Event := valueLine text (0 < t) t.toNat

def stickLine (text : String) (x : Int16) : List Event :=
  valueLine text (500 < x.toInt.natAbs) x.toInt

def analogLines (btn : Buttons) : List Event :=
  triggerLine "Left trigger" btn.leftTrigger ++ triggerLine "Right trigger" btn.rightTrigger ++
    stickLine "Left-X" btn.leftStickX ++ stickLine "Left-Y" btn.leftStickY ++
    stickLine "Right-X" btn.rightStickX ++ stickLine "Right-Y" btn.rightStickY

def analogRound (w : World) : Option World :=
  (getControllerInput (.step .analog) w).bind fun w =>
    let w := w.emit (analogLines w.buttons)
    if w.buttons.back then waitForRelease (quit "Leaving joystick demonstration.\n" w) else some w

def demoAnalog (w : World) : Option World :=
  quitLoop analogRound (begin
    "\nUse the joysticks or triggerbuttons. Press back to go to the next step.\n" w)

/-! ## The demonstration -/

/-- The globals before the first call. -/
def start (reports : List Report) : World := ⟨reports, default, false, []⟩

def demoController (reports : List Report) : Option World :=
  (demoLeds (setControllerLeds .allOff (start reports))).bind fun w =>
  (demoRumble w).bind fun w =>
  (demoButtons w).bind fun w =>
  (demoAnalog w).map (·.emit [.printf "All done. Leaving demonstrations.\n"])

end El32.Demo

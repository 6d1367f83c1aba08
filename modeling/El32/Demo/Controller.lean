import El32.Xbc.Controller

/-! The controller of the demonstration program: `Controller.h` and `Controller.c` of `xbc/src`.

It is the file from which the daemon's was made, with a record that has no `avail` and with assertions
on the pointers in place of checks. -/
namespace El32.Demo
open Controller
set_option autoImplicit false

inductive Leds where
  | allOff
  | blinkAll
  | flash1On
  | flash2On
  | flash3On
  | flash4On
  | led1On
  | led2On
  | led3On
  | led4On
  | rotate
  | blinkSelect
  | blinkSlow
  | alt
deriving DecidableEq

def Leds.code : Leds → UInt8
  | .allOff => 0x00
  | .blinkAll => 0x01
  | .flash1On => 0x02
  | .flash2On => 0x03
  | .flash3On => 0x04
  | .flash4On => 0x05
  | .led1On => 0x06
  | .led2On => 0x07
  | .led3On => 0x08
  | .led4On => 0x09
  | .rotate => 0x0A
  | .blinkSelect => 0x0B
  | .blinkSlow => 0x0C
  | .alt => 0x0D

structure Buttons where
  dUp : Bool
  dDn : Bool
  dLeft : Bool
  dRight : Bool
  start : Bool
  back : Bool
  lsPress : Bool
  rsPress : Bool
  lb : Bool
  rb : Bool
  logo : Bool
  spare : Bool
  a : Bool
  b : Bool
  x : Bool
  y : Bool
  leftTrigger : UInt8
  rightTrigger : UInt8
  leftStickX : Int16
  leftStickY : Int16
  rightStickX : Int16
  rightStickY : Int16
deriving DecidableEq, Inhabited

/-- The packet of `setControllerRumble`. -/
def rumblePacket (speed : UInt16) : List UInt8 :=
  [0x00, 0x08, 0x00, (speed >>> 8).toUInt8, speed.toUInt8, 0x00, 0x00, 0x00]

/-- The packet of `setControllerLeds`. -/
def ledsPacket (led : Leds) : List UInt8 := [0x01, 0x03, led.code]

/-- The record that `getControllerInput` fills from a report. -/
def buttonsOf (input : Report) : Buttons where
  dUp := bit (input 2) 0x01
  dDn := bit (input 2) 0x02
  dLeft := bit (input 2) 0x04
  dRight := bit (input 2) 0x08
  start := bit (input 2) 0x10
  back := bit (input 2) 0x20
  lsPress := bit (input 2) 0x40
  rsPress := bit (input 2) 0x80
  lb := bit (input 3) 0x01
  rb := bit (input 3) 0x02
  logo := bit (input 3) 0x04
  spare := bit (input 3) 0x08
  a := bit (input 3) 0x10
  b := bit (input 3) 0x20
  x := bit (input 3) 0x40
  y := bit (input 3) 0x80
  leftTrigger := input 0x04
  rightTrigger := input 0x05
  leftStickX := word (input 0x07) (input 0x06)
  leftStickY := word (input 0x09) (input 0x08)
  rightStickX := word (input 0x0b) (input 0x0a)
  rightStickY := word (input 0x0d) (input 0x0c)

/-- The condition of `waitForRelease`. -/
def Buttons.anyPressed (btn : Buttons) : Bool :=
  btn.dUp || btn.dDn || btn.dLeft || btn.dRight || btn.start || btn.back || btn.lsPress ||
    btn.rsPress || btn.lb || btn.rb || btn.logo || btn.spare || btn.a || btn.b || btn.x || btn.y

theorem Buttons.anyPressed_of_back {btn : Buttons} (h : btn.back = true) : btn.anyPressed = true := by
  simp [Buttons.anyPressed, h]

end El32.Demo

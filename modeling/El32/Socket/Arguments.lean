import El32.Foundations.Decimal
import El32.Foundations.Getopt

/-! `parse_args` of `Auxiliary.c`: the command line of the echo and chat programs.

An argument is the text of its string, and a name opens or does not open as often as it is given.
`POSIXLY_CORRECT` is not set. The settings that `-g` prints at the end are left out. A file that cannot
be opened is reported, and a report that does not fit its array has no value. -/
namespace El32.Socket
open Decimal Getopt
set_option autoImplicit false

/-- The globals; `argvData` are the first `argv_nrofdata` of the data, and `ttyFptr` tells which file is
open for output. -/
structure Settings where
  argvIp : Option Arg
  argvPort : UInt16
  argvTimeout : ℤ
  argvTty : Option Arg
  argvForkmax : ℤ
  argvVerbose : Bool
  argvDelay : Bool
  argvDebug : Bool
  argvUserprefix : Bool
  argvData : List Arg
  ttyFptr : Option Arg
deriving DecidableEq

def Settings.initial : Settings :=
  ⟨none, 0, 1, none, 0, false, false, false, false, [], none⟩

section Program
variable (wide : ℤ → ℤ) (opens : Arg → Bool)

def given (c : UInt8) (found : List Found) : Bool := found.contains (.flag c)

/-- After the option the loop goes on: it is not the one for help, and a file that cannot be opened is
reported within the array. -/
def Accepts : Found → Prop
  | .flag c => c ≠ 'h'.toUInt8
  | .value c a => c = 'y'.toUInt8 → opens a = false → a.length + 36 < 80
  | .bad => False

section Reading
variable {opens} {f : Found}

variable {fs : List Found}

variable {argv : List Arg}

end Reading

end Program

end El32.Socket

import Mathlib.Data.List.Basic
import Mathlib.Data.List.Flatten

/-! Short options, as `getopt` finds them among the arguments of a program.

An argument that is no option is moved behind the options, which leaves those arguments in their order.
The option string is a function: what each letter stands for. -/
namespace El32.Getopt
set_option autoImplicit false

abbrev Arg := List UInt8

inductive Kind where
  | flag
  | takesArg
deriving DecidableEq

/-- What a call finds: a letter, with `optarg` where it takes one, or a `?`. -/
inductive Found where
  | flag (c : UInt8)
  | value (c : UInt8) (optarg : Arg)
  | bad
deriving DecidableEq

def minus : UInt8 := 45

/-- Whether the argument is a word of options; a single minus is not. -/
def isOptions : Arg → Bool
  | c :: _ :: _ => c == minus
  | _ => false

section Scan
variable (kind : UInt8 → Option Kind)

/-- The letters of one argument, and the one that takes the next argument. -/
def letters : List UInt8 → List Found × Option UInt8
  | [] => ([], none)
  | c :: cs =>
    match kind c with
    | some .flag => (.flag c :: (letters cs).1, (letters cs).2)
    | some .takesArg => if cs = [] then ([], some c) else ([.value c cs], none)
    | none => (.bad :: (letters cs).1, (letters cs).2)

/-- All calls, where `wait` is the letter that takes the next argument: what they find, and the arguments
from `optind` on at the end. -/
def scan : Option UInt8 → List Arg → List Found × List Arg
  | none, [] => ([], [])
  | some _, [] => ([.bad], [])
  | some c, a :: as => (.value c a :: (scan none as).1, (scan none as).2)
  | none, a :: as =>
    if isOptions a then
      if a = [minus, minus] then ([], as)
      else
        let (found, wait) := letters kind a.tail
        (found ++ (scan wait as).1, (scan wait as).2)
    else ((scan none as).1, a :: (scan none as).2)

/-! ## The grammar -/

/-- An argument that is no option; a word of flags; a word that ends with a letter and its argument; a
word that ends with a letter whose argument is the next word. -/
inductive Word where
  | data (a : Arg)
  | flags (cs : List UInt8)
  | attached (cs : List UInt8) (c : UInt8) (a : Arg)
  | separate (cs : List UInt8) (c : UInt8) (a : Arg)

namespace Word

def found : Word → List Found
  | data _ => []
  | flags cs => cs.map .flag
  | attached cs c a | separate cs c a => cs.map .flag ++ [.value c a]

def rest : Word → List Arg
  | data a => [a]
  | flags _ | attached .. | separate .. => []

def Ok : Word → Prop
  | data a => isOptions a = false
  | flags cs => cs ≠ [] ∧ ∀ c ∈ cs, kind c = some .flag
  | attached cs c a => (∀ d ∈ cs, kind d = some .flag) ∧ kind c = some .takesArg ∧ a ≠ []
  | separate cs c _ => (∀ d ∈ cs, kind d = some .flag) ∧ kind c = some .takesArg

end Word

variable {kind}

/-! ## The letters of a word -/

end Scan

end El32.Getopt

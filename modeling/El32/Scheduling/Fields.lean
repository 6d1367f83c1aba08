import El32.Scheduling.Pscheduling

/-! The fields of the applet `pscheduling`: `getParms` and `actionPerformed`.

The texts of the three areas are lists of characters. `Character.digit` outside of `0` to `9` is a
parameter `other`, and the message of a `NumberFormatException` a parameter `message`. An exception
that nothing catches ends the call of `actionPerformed`. -/
namespace El32.Scheduling
set_option autoImplicit false

section Fields
variable (other : Char → Option ℕ) (message : List Char → String)

/-! ## Numbers -/

/-- `Character.digit`. -/
def digit (c : Char) : Option ℕ :=
  if 48 ≤ c.toNat ∧ c.toNat ≤ 57 then some (c.toNat - 48) else other c

/-- The value of the digits, on top of `acc`. -/
def digits (acc : ℕ) : List Char → Option ℕ
  | [] => some acc
  | c :: cs => (digit other c).bind fun d => digits (10 * acc + d) cs

def unsigned (cs : List Char) : Option ℕ := if cs = [] then none else digits other 0 cs

def inRange (v : ℤ) : Option ℤ := if -2147483648 ≤ v ∧ v ≤ 2147483647 then some v else none

/-- `Integer.parseInt`; no value stands for a `NumberFormatException`. -/
def parseInt : List Char → Option ℤ
  | '-' :: cs => (unsigned other cs).bind fun m => inRange (-m)
  | '+' :: cs => (unsigned other cs).bind fun m => inRange m
  | cs => (unsigned other cs).bind fun m => inRange m

/-! ## The entries -/

/-- The tokens of a `StringTokenizer` with the delimiter `\n`. -/
def tokens (t : List Char) : List (List Char) := (t.splitOn '\n').filter (· ≠ [])

inductive Parms where
  | accepted
  | refused (status : String)
  | thrown
deriving DecidableEq

def numberFormat (token : List Char) : Parms :=
  .refused ("ERROR: Time " ++ message token ++ " is not an integer.")

/-- The loop of `getParms` and the test after it, on the tokens that are left. -/
def enter (count : ℕ) :
    List (List Char) → List (List Char) → List (List Char) → List Process → Parms × List Process
  | [], _, _, q => (.thrown, q)
  | _ :: _, [], _, q => (.thrown, q)
  | name :: t1, a :: t2, t3, q =>
    match parseInt other a with
    | none => (numberFormat message a, q)
    | some arrival =>
      match t3 with
      | [] => (.thrown, q)
      | s :: t3 =>
        match parseInt other s with
        | none => (numberFormat message s, q)
        | some service =>
          let q := q ++ [Process.create (String.ofList name) arrival service count]
          if t1 ≠ [] ∧ t2 ≠ [] ∧ t3 ≠ [] then enter (count + 1) t1 t2 t3 q
          else if t1 ≠ [] ∨ t2 ≠ [] ∨ t3 ≠ [] then
            (.refused "ERROR: One or more missing parameters.", q)
          else (.accepted, q)

/-- The texts of the areas `proc`, `arriv` and `serv`. -/
structure Texts where
  proc : List Char
  arriv : List Char
  serv : List Char

/-- What becomes of `Q` is part of the result. -/
def getParms (texts : Texts) (q : List Process) : Parms × List Process :=
  if '0' ∈ texts.arriv then
    enter other message 0 (tokens texts.proc) (tokens texts.arriv) (tokens texts.serv) q
  else (.refused "There should be atleast one case with arrival time = 0", q)

/-! ## A click -/

/-- A click on `run` takes `Q` from `q` to `q'`: the fields are refused, the call ends with an
exception, or the thread that it starts runs on the objects in `Q` until it enables the button. When
`setgrid` or the run never ends there is no `q'`. -/
inductive Clicked (a : Algorithm) (width height : ℤ) (texts : Texts) (q : List Process) :
    List Process → Prop where
  | refused (status : String) (q' : List Process)
      (h : getParms other message texts q = (.refused status, q')) :
      Clicked a width height texts q []
  | thrown (q' : List Process) (h : getParms other message texts q = (.thrown, q')) :
      Clicked a width height texts q q'
  | gridThrown (ps : List Process) (h : getParms other message texts q = (.accepted, ps))
      (hgrid : setgrid ps.get width height false (List.finRange ps.length) = .error .thrown) :
      Clicked a width height texts q ps
  | ran (ps : List Process) (b : Board) (s' : State (Fin ps.length))
      (h : getParms other message texts q = (.accepted, ps))
      (hgrid : setgrid ps.get width height false (List.finRange ps.length) = .ok b)
      (hrun : Returns a (start ps.get (List.finRange ps.length) b.inc1) s') :
      Clicked a width height texts q (s'.q.map s'.heap)

end Fields

end El32.Scheduling

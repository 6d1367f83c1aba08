import El32.Scheduling.RunAlgorithm

/-! The chart of the applet `pscheduling`: `setgrid`, `drawbar` and `paintBoard`.

`width` and `height` are those of the canvas. Of what is drawn only the places of the marks and the
bars are kept. Memory is taken as large enough for the `grid`, of as many elements as there is
service. -/
namespace El32.Scheduling
open JavaInt Loop
set_option autoImplicit false

/-- `String.length` counts UTF-16 units. -/
def javaLength (s : String) : ℤ :=
  s.toList.foldl (fun k c => if c.toNat < 0x10000 then k + 1 else k + 2) 0

/-- The fields of the applet that `setgrid` computes, and the times on the axis with the places of their
marks. -/
structure Board where
  hbuf : ℤ
  inc1 : ℤ
  inc2 : ℤ
  hinc : ℤ
  vinc : ℤ
  marks : List (ℤ × ℤ)
deriving DecidableEq

/-- A call that does not return: it ends with an exception, or never. -/
inductive Failure where
  | thrown
  | endless
deriving DecidableEq

section Chart
variable {ι : Type}

/-- One round of the first loop of `setgrid`. -/
def Board.extend (b : Board) (temp : Process) : Board :=
  { b with
    hbuf := if b.hbuf < javaLength temp.name then javaLength temp.name else b.hbuf
    inc1 := if b.inc1 > temp.arrivalTime then temp.arrivalTime else b.inc1
    inc2 := wrap (b.inc2 + temp.serviceTime) }

/-- `firstElement` of an empty vector throws. -/
def measures (heap : ι → Process) : List ι → Except Failure Board
  | [] => .error .thrown
  | j :: js =>
    let temp := heap j
    .ok (js.foldl (fun b k => b.extend (heap k))
      ⟨javaLength temp.name, temp.arrivalTime, temp.serviceTime, 0, 0, []⟩)

/-- The variables of the loop along the axis, with the marks it drew. -/
structure Axis where
  j : ℤ
  c : ℤ
  marks : List (ℤ × ℤ)

def Board.drawMark (b : Board) (s : Axis) : Axis where
  j := wrap (s.j + 1)
  c := wrap (s.c + 1)
  marks := s.marks ++ [(s.j, wrap (b.hbuf + wrap (s.c * b.hinc)))]

/-- The loop is left after a round for each time up to `inc2` or, when that is the greatest `int`,
never. -/
def Board.axis (b : Board) : Option Axis :=
  whileLoop (fun s => s.j ≤ b.inc2) (fun s => some (b.drawMark s)) (fun s => (b.inc2 + 1 - s.j).toNat)
    ⟨b.inc1, 0, []⟩

/-- The divisor of the width, with `inc2` where the axis ends. -/
def Board.columns (b : Board) : ℤ := wrap (wrap (wrap (b.inc2 + b.inc1) - b.inc1) + 2)

/-- The fields after the first loop, for `rows` processes. -/
def Board.laid (b : Board) (width height : ℤ) (rows : ℕ) : Board :=
  { b with
    hbuf := wrap (wrap (b.hbuf * 5) + 10)
    inc2 := wrap (b.inc2 + b.inc1)
    hinc := wrap ((wrap (width - 10)).tdiv b.columns)
    vinc := wrap ((wrap (height - 10)).tdiv (rows + 2)) }

def Board.draw (b : Board) : Except Failure Board :=
  match b.axis with
  | none => .error .endless
  | some s => .ok { b with marks := s.marks }

/-- The value that `setgrid` returns is `inc1`. `old` says that `l` is the vector `oldL`; for another one
a new `grid` is made, which throws when its capacity is negative, as a division by zero does. -/
def setgrid (heap : ι → Process) (width height : ℤ) (old : Bool) (l : List ι) :
    Except Failure Board :=
  (measures heap l).bind fun b =>
    if old = false ∧ b.inc2 < 0 then .error .thrown
    else if b.columns = 0 then .error .thrown
    else (b.laid width height l.length).draw

/-- The bars of `paintBoard`: where each stands and the row it is in. -/
def Board.bars (b : Board) (grid : List ℕ) : List (ℤ × ℤ) :=
  grid.mapIdx fun (i num : ℕ) =>
    (wrap (b.hbuf + wrap (b.hinc * wrap (i - b.inc1))), wrap (30 + wrap (num * b.vinc)))

/-- The bars on the canvas; `oldL` is a copy of the processes that were entered. -/
def paintBoard (heap : ι → Process) (width height : ℤ) (oldL : List ι) (grid : List ℕ) :
    Except Failure (List (ℤ × ℤ)) :=
  (setgrid heap width height true oldL).map (·.bars grid)

end Chart

end El32.Scheduling

import El32.Foundations.CString

/-! A heap block and the one pointer to it. A byte that was never written is indeterminate, and a call
that needs its value, or one that is not allowed on the pointer, has no value. -/
namespace El32.HeapBlock
open CString
set_option autoImplicit false

abbrev Block := List (Option UInt8)

/-- What a pointer variable holds: NULL, the address of a block, or anything else. -/
inductive Pointer where
  | null
  | block (b : Block)
  | wild
deriving DecidableEq

def indeterminate (n : ℕ) : Block := List.replicate n none

/-- Memory is always available. -/
def malloc (n : ℕ) : Pointer := .block (indeterminate n)

def free : Pointer → Option Unit
  | .null => some ()
  | .block _ => some ()
  | .wild => none

/-- A block resized to nothing is freed and the result is NULL. -/
def realloc : Pointer → ℕ → Option Pointer
  | .null, n => some (malloc n)
  | .block b, n =>
    if n = 0 then some .null else some (.block (b.take n ++ indeterminate (n - b.length)))
  | .wild, _ => none

def Block.memcpy (b : Block) (off : ℕ) (src : List UInt8) : Option Block :=
  if off + src.length ≤ b.length then
    some (b.take off ++ src.map some ++ b.drop (off + src.length))
  else none

def Block.store (b : Block) (i : ℕ) (c : UInt8) : Option Block :=
  if i < b.length then some (b.set i (some c)) else none

/-- What a function reads that takes the block for a string. -/
def Block.string : Block → Option (List UInt8)
  | [] => none
  | none :: _ => none
  | some c :: b => if c = 0 then some [] else (Block.string b).map (c :: ·)

section Block
variable {b : Block}

theorem realloc_grow {n : ℕ} (hn : 0 < n) (h : b.length ≤ n) :
    realloc (.block b) n = some (.block (b ++ indeterminate (n - b.length))) := by
  rw [realloc, if_neg hn.ne', List.take_of_length_le h]

theorem memcpy_after {pre rest : Block} {src : List UInt8} (h : src.length ≤ rest.length) :
    Block.memcpy (pre ++ rest) pre.length src =
      some (pre ++ src.map some ++ rest.drop src.length) := by
  rw [Block.memcpy, if_pos (by rw [List.length_append]; omega), List.take_left, ← List.drop_drop,
    List.drop_left]

theorem store_after {pre rest : Block} {c : UInt8} (h : rest.length = 1) :
    Block.store (pre ++ rest) pre.length c = some (pre ++ [some c]) := by
  obtain ⟨x, rfl⟩ := List.length_eq_one_iff.mp h
  rw [Block.store, if_pos (by rw [List.length_append]; omega),
    List.set_append_right _ _ (Nat.le_refl _), Nat.sub_self, List.set_cons_zero]

/-- Bytes that were written hold the string of those bytes. -/
theorem string_written (s : List UInt8) : Block.string (s.map some) = text s := by
  induction s with
  | nil => rfl
  | cons c s ih => rw [List.map_cons, Block.string, text, ih]

theorem string_terminated (s : List UInt8) :
    Block.string ((s ++ [0]).map some) = some (s.takeWhile (· ≠ 0)) := by
  obtain ⟨tail, htail⟩ := terminated_split s []
  rw [string_written, htail, text_of_terminated (nul_notMem_takeWhile s)]

end Block

end El32.HeapBlock

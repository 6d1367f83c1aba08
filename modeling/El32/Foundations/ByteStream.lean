import Mathlib.Data.List.Basic

/-! One direction of a connection: a reliable, ordered stream that keeps no message boundaries.

A `recv` returns between one element and as many as its buffer holds, whatever the sends were. At
the end of a closed stream it returns none. -/
namespace El32.ByteStream
set_option autoImplicit false

/-- What is on its way, and whether the sender has closed. -/
structure Stream (α : Type) where
  bytes : List α
  closed : Bool
deriving DecidableEq

namespace Stream
variable {α : Type} {s s' : Stream α} {chunk : List α} {size n : ℕ}

def send (s : Stream α) (bs : List α) : Stream α := { s with bytes := s.bytes ++ bs }

def close (s : Stream α) : Stream α := { s with closed := true }

/-- A `recv` with a buffer of `size` that returns `n`. -/
def recv (s : Stream α) (size n : ℕ) : Option (List α × Stream α) :=
  if n = 0 then
    if s.bytes.length = 0 ∧ s.closed = true then some ([], s) else none
  else if n ≤ size ∧ n ≤ s.bytes.length then
    some (s.bytes.take n, { s with bytes := s.bytes.drop n })
  else none

theorem recv_cases (h : s.recv size n = some (chunk, s')) :
    s.bytes = chunk ++ s'.bytes ∧ s'.closed = s.closed ∧ chunk.length = n ∧ n ≤ size ∧
      (n = 0 → s'.bytes = [] ∧ s.closed = true) := by
  unfold recv at h
  by_cases hn : n = 0
  · subst hn
    obtain ⟨⟨hend, hclosed⟩, rfl, rfl⟩ := by simpa using h
    exact ⟨rfl, rfl, rfl, Nat.zero_le _, fun _ => ⟨hend, hclosed⟩⟩
  · obtain ⟨⟨hsize, hlen⟩, rfl, rfl⟩ := by simpa [hn] using h
    exact ⟨(List.take_append_drop n s.bytes).symm, rfl, List.length_take_of_le hlen, hsize,
      fun h0 => absurd h0 hn⟩

theorem recv_some (s : Stream α) (hn : 0 < n) (hsize : n ≤ size) (hlen : n ≤ s.bytes.length) :
    s.recv size n = some (s.bytes.take n, { s with bytes := s.bytes.drop n }) := by
  rw [recv, if_neg (by omega), if_pos ⟨hsize, hlen⟩]

theorem recv_end (hbytes : s.bytes = []) (hclosed : s.closed = true) :
    s.recv size 0 = some ([], s) := by
  rw [recv, if_pos rfl, if_pos ⟨by rw [hbytes]; rfl, hclosed⟩]

end Stream

end El32.ByteStream

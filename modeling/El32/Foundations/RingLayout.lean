import Mathlib.Data.Nat.Basic
import Mathlib.Logic.Function.Basic

/-! The cells of a ring: positions are counted without end, a position's cell is its remainder.

From position `out` up to `inn` the ring holds items, and the rest of one turn are holes. -/
namespace El32.RingLayout
set_option autoImplicit false

section Ring
variable {α : Type} (size : ℕ) (item : ℕ → α) (hole : α)

structure Layout (out inn : ℕ) (cells : ℕ → α) : Prop where
  filled : ∀ k, out ≤ k → k < inn → cells (k % size) = item k
  holes : ∀ k, inn ≤ k → k < out + size → cells (k % size) = hole

variable {size item hole}

theorem mod_ne_of_turn {a b : ℕ} (hab : a < b) (hb : b < a + size) : b % size ≠ a % size := by
  intro h
  have hz : (b - a) % size = 0 := Nat.sub_mod_eq_zero_of_mod_eq h
  rw [Nat.mod_eq_of_lt (by omega)] at hz
  omega

variable {out inn : ℕ} {cells : ℕ → α}

theorem layout_empty (n : ℕ) {cells : ℕ → α} (h : ∀ k, cells k = hole) :
    Layout size item hole n n cells :=
  ⟨fun k h1 h2 => absurd h1 (by omega), fun k _ _ => h (k % size)⟩

namespace Layout

theorem append (h : Layout size item hole out inn cells) (hout : out ≤ inn)
    (hroom : inn < out + size) :
    Layout size item hole out (inn + 1) (Function.update cells (inn % size) (item inn)) where
  filled k h1 h2 := by
    by_cases hk : k = inn
    · rw [hk, Function.update_self]
    · have hne : inn % size ≠ k % size := mod_ne_of_turn (by omega) (by omega)
      rw [Function.update_of_ne hne.symm]
      exact h.filled k h1 (by omega)
  holes k h1 h2 := by
    have hne : k % size ≠ inn % size := mod_ne_of_turn (by omega) (by omega)
    rw [Function.update_of_ne hne]
    exact h.holes k (by omega) h2

theorem take (h : Layout size item hole out inn cells) (hout : out < inn)
    (hroom : inn ≤ out + size) :
    Layout size item hole (out + 1) inn (Function.update cells (out % size) hole) where
  filled k h1 h2 := by
    have hne : k % size ≠ out % size := mod_ne_of_turn (by omega) (by omega)
    rw [Function.update_of_ne hne]
    exact h.filled k (by omega) h2
  holes k h1 h2 := by
    by_cases hk : k = out + size
    · rw [hk, Nat.add_mod_right, Function.update_self]
    · have hne : k % size ≠ out % size := mod_ne_of_turn (by omega) (by omega)
      rw [Function.update_of_ne hne]
      exact h.holes k h1 (by omega)

/-- A ring without items is one at every position. -/
theorem move (h : Layout size item hole out out cells) (n : ℕ) :
    Layout size item hole n n cells := by
  refine ⟨fun k h1 h2 => absurd h1 (by omega), fun k h1 h2 => ?_⟩
  have hsize : 0 < size := by omega
  have hle : out ≤ k + size * out := Nat.le_add_left_of_le (Nat.le_mul_of_pos_left out hsize)
  have hk : (out + (k + size * out - out) % size) % size = k % size := by
    rw [Nat.add_mod_mod, Nat.add_sub_cancel' hle, Nat.add_mul_mod_self_left]
  rw [← hk]
  have hlt : (k + size * out - out) % size < size := Nat.mod_lt _ hsize
  exact h.holes _ (by omega) (by omega)

theorem clear (h : Layout size item hole out out cells) (i : ℕ) :
    Layout size item hole out out (Function.update cells i hole) := by
  refine ⟨fun k h1 h2 => absurd h1 (by omega), fun k h1 h2 => ?_⟩
  by_cases hk : k % size = i
  · rw [hk, Function.update_self]
  · rw [Function.update_of_ne hk]
    exact h.holes k h1 h2

theorem next_hole (h : Layout size item hole out inn cells) (hroom : inn < out + size) :
    cells (inn % size) = hole := h.holes inn le_rfl hroom

theorem first_item (h : Layout size item hole out inn cells) (hout : out < inn) :
    cells (out % size) = item out := h.filled out le_rfl hout

end Layout

end Ring

end El32.RingLayout

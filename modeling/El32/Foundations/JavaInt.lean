import El32.Foundations.Decimal
import Mathlib.Tactic.Ring

/-! The `int` of Java: sums, differences and products are taken modulo `2 ^ 32`, and `Math.round` of an
`int` first makes a `float` of it. -/
namespace El32.JavaInt
open Decimal
set_option autoImplicit false

def maxInt : ℤ := 2147483647

/-- The `int` that is left of a result. -/
def wrap (v : ℤ) : ℤ := v.bmod 4294967296

section Wrap
variable {v u : ℤ}

theorem wrap_of_fits (h : FitsInt v) : wrap v = v := by
  obtain ⟨hlow, hhigh⟩ := h
  refine Int.bmod_eq_of_le ?_ ?_ <;> omega

theorem fits_wrap (v : ℤ) : FitsInt (wrap v) := by
  have hlow := Int.le_bmod (x := v) (m := 4294967296) (by decide)
  have hhigh := Int.bmod_lt (x := v) (m := 4294967296) (by decide)
  unfold FitsInt wrap
  omega

theorem wrap_add_wrap (v u : ℤ) : wrap (v + wrap u) = wrap (v + u) := Int.add_bmod_bmod

theorem wrap_wrap_add (v u : ℤ) : wrap (wrap v + u) = wrap (v + u) := Int.bmod_add_bmod

theorem wrap_mul_wrap (v u : ℤ) : wrap (v * wrap u) = wrap (v * u) := Int.mul_bmod_bmod

theorem wrap_wrap_mul (v u : ℤ) : wrap (wrap v * u) = wrap (v * u) := Int.bmod_mul_bmod

theorem wrap_eq_wrap_iff : wrap v = wrap u ↔ (4294967296 : ℤ) ∣ v - u :=
  Int.bmod_eq_bmod_iff_bmod_sub_eq_zero.trans Int.dvd_iff_bmod_eq_zero.symm

/-- Closer results than `2 ^ 32` are not mixed up. -/
theorem wrap_inj (h : |v - u| < 4294967296) : wrap v = wrap u ↔ v = u := by
  rw [wrap_eq_wrap_iff]
  refine ⟨fun hdvd => ?_, fun heq => by rw [heq, sub_self]; exact dvd_zero _⟩
  exact sub_eq_zero.mp (Int.eq_zero_of_abs_lt_dvd hdvd h)

/-- After the greatest `int` comes the least. -/
theorem wrap_maxInt_succ : wrap (maxInt + 1) = -2147483648 := by decide

end Wrap

/-! ## Rounding -/

/-- The `float` nearest to an `int`, of two the one with the even digit: 24 binary digits are kept. -/
def toFloat (v : ℤ) : ℤ :=
  let unit : ℤ := 2 ^ (v.natAbs.log2 - 23)
  let rest := v % unit
  let low := v / unit
  if 2 * rest < unit ∨ 2 * rest = unit ∧ low % 2 = 0 then low * unit else (low + 1) * unit

/-- `Math.round` of an `int`. The greatest `float` that an `int` is rounded to is no `int`. -/
def mathRound (v : ℤ) : ℤ := min (toFloat v) maxInt

/-- Above `2 ^ 24` the odd numbers are lost, and the greatest `int` is kept. -/
example : mathRound 16777217 = 16777216 ∧ mathRound 2147483647 = 2147483647 := by decide

end El32.JavaInt

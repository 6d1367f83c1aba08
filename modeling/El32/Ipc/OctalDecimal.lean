import El32.Foundations.Decimal
import El32.Foundations.Loop
import Mathlib.Data.Nat.Digits.Lemmas

/-! `octal_decimal` of `sem.c` and the mode that `main` passes to `sem_open`. -/
namespace El32.OctalDecimal
open Decimal Loop
set_option autoImplicit false

/-- The locals of `octal_decimal`. -/
structure Locals where
  n : ℤ
  decimal : ℤ
  i : ℕ
deriving DecidableEq

/-- The product and the sum are made in `double`, exactly; the conversion to `int` has no value
outside its range. -/
def round (s : Locals) : Option Locals :=
  let rem := s.n.tmod 10
  let decimal := s.decimal + rem * 8 ^ s.i
  if -2147483648 ≤ decimal ∧ decimal ≤ 2147483647 then some ⟨s.n.tdiv 10, decimal, s.i + 1⟩
  else none

/-- The loop of `octal_decimal`. -/
def digitLoop (s : Locals) : Option Locals := whileLoop (·.n ≠ 0) round (·.n.natAbs) s

def octalDecimal (n : ℤ) : Option ℤ := (digitLoop ⟨n, 0, 0⟩).map (·.decimal)

/-- The mode that `sem_open` takes from its arguments, a `mode_t`. -/
def createMode (urights : ℤ) : Option UInt32 := (octalDecimal urights).map UInt32.ofInt

/-- Choice `n` of `main`, with the bytes that `fgets` left in `line` for the permissions. -/
def typedMode (wide : ℤ → ℤ) (line : List UInt8) : Option UInt32 := createMode (atoi wide line)

/-! ## The loop -/

theorem round_lowers : Lowers (·.n ≠ 0) round (·.n.natAbs) := by
  intro s s' hc hb
  have hn : s.n ≠ 0 := by simpa using hc
  simp only [round] at hb
  split at hb
  · obtain rfl := Option.some.inj hb
    show (s.n.tdiv 10).natAbs < s.n.natAbs
    rw [Int.natAbs_tdiv]
    exact Nat.div_lt_self (Int.natAbs_pos.mpr hn) (by decide)
  · cases hb

theorem round_eq {n d i : ℕ} (h : d + n % 10 * 8 ^ i ≤ 2147483647) :
    round ⟨n, d, i⟩ = some ⟨(n / 10 : ℕ), (d + n % 10 * 8 ^ i : ℕ), i + 1⟩ := by
  have hrem : (n : ℤ).tmod 10 = (n % 10 : ℕ) := rfl
  have hquot : (n : ℤ).tdiv 10 = (n / 10 : ℕ) := rfl
  have hdec : (d : ℤ) + (n : ℤ).tmod 10 * 8 ^ i = (d + n % 10 * 8 ^ i : ℕ) := by
    rw [hrem]
    push_cast
    rfl
  rw [round, hdec, hquot]
  exact if_pos ⟨by omega, by omega⟩

/-- From digit `i` on the loop adds the octal value of the digits that are left. -/
theorem digitLoop_eq {n d i : ℕ}
    (h : d + 8 ^ i * Nat.ofDigits 8 (Nat.digits 10 n) ≤ 2147483647) :
    digitLoop ⟨n, d, i⟩ =
      some ⟨0, (d + 8 ^ i * Nat.ofDigits 8 (Nat.digits 10 n) : ℕ), i + (Nat.digits 10 n).length⟩ := by
  induction n using Nat.strong_induction_on generalizing d i with
  | h n ih =>
    rcases Nat.eq_zero_or_pos n with rfl | hn
    · have hdone : digitLoop ⟨(0 : ℕ), d, i⟩ = some ⟨(0 : ℕ), d, i⟩ := whileLoop_done rfl
      simpa using hdone
    · rw [Nat.digits_def' (by decide) hn, Nat.ofDigits_cons] at h ⊢
      have hsum : d + 8 ^ i * (n % 10 + 8 * Nat.ofDigits 8 (Nat.digits 10 (n / 10))) =
          d + n % 10 * 8 ^ i + 8 ^ (i + 1) * Nat.ofDigits 8 (Nat.digits 10 (n / 10)) := by ring
      rw [hsum] at h ⊢
      have hnext : digitLoop ⟨n, d, i⟩ = (round ⟨n, d, i⟩).bind digitLoop :=
        whileLoop_next round_lowers (by simpa using hn.ne')
      rw [hnext, round_eq (by omega), Option.bind_some, ih (n / 10) (by omega) h, List.length_cons,
        Nat.add_assoc i 1, Nat.add_comm 1]

/-! ## Permissions -/

/-- A permission as the user types it: in the range of `int`, with octal digits. -/
structure Permission where
  value : ℕ
  le_intMax : value ≤ 2147483647
  octal : ∀ d ∈ Nat.digits 10 value, d < 8

namespace Permission
variable (p q : Permission)

def mode : ℕ := Nat.ofDigits 8 (Nat.digits 10 p.value)

theorem digits_length : (Nat.digits 10 p.value).length ≤ 10 :=
  (Nat.digits_length_le_iff (by decide) p.value).mpr (by have h := p.le_intMax; omega)

/-- Ten octal digits fit in 30 bits. -/
theorem mode_lt : p.mode < 1073741824 :=
  calc p.mode < 8 ^ (Nat.digits 10 p.value).length :=
        Nat.ofDigits_lt_base_pow_length (by decide) p.octal
    _ ≤ 8 ^ 10 := Nat.pow_le_pow_right (by decide) p.digits_length
    _ = 1073741824 := by norm_num

theorem digits_mode : Nat.digits 8 p.mode = Nat.digits 10 p.value :=
  Nat.digits_ofDigits 8 (by decide) _ p.octal fun h =>
    Nat.getLast_digit_ne_zero 10 (Nat.digits_ne_nil_iff_ne_zero.mp h)

theorem mode_injective : Function.Injective mode := by
  intro p q h
  have hdigits : Nat.digits 10 p.value = Nat.digits 10 q.value := by
    rw [← p.digits_mode, ← q.digits_mode, h]
  have hvalue := Nat.digits_inj_iff.mp hdigits
  cases p
  cases q
  congr

theorem octalDecimal_eq : octalDecimal p.value = some (p.mode : ℤ) := by
  have hlt := p.mode_lt
  unfold mode at hlt
  have hloop : digitLoop ⟨p.value, (0 : ℕ), 0⟩ = _ := digitLoop_eq (by omega)
  rw [octalDecimal, ← Nat.cast_zero, hloop]
  simp [mode]

theorem createMode_eq : createMode p.value = some (UInt32.ofNat p.mode) := by
  have hlt := p.mode_lt
  have hmod : ((p.mode : ℤ) % 2 ^ 32).toNat = p.mode := by omega
  rw [createMode, octalDecimal_eq, Option.map_some, UInt32.ofInt, hmod]

theorem createMode_injective (h : createMode p.value = createMode q.value) : p = q := by
  rw [p.createMode_eq, q.createMode_eq] at h
  have hp := p.mode_lt
  have hq := q.mode_lt
  have hmode := congrArg UInt32.toNat (Option.some.inj h)
  rw [UInt32.toNat_ofNat', UInt32.toNat_ofNat', Nat.mod_eq_of_lt (by omega),
    Nat.mod_eq_of_lt (by omega)] at hmode
  exact mode_injective hmode

/-- A line that spells the permission is read as it: `atoi` stays in its range. -/
theorem typedMode_eq (wide : ℤ → ℤ) {line : List UInt8} (h : literalValue line = p.value) :
    typedMode wide line = createMode p.value := by
  have hfits : FitsInt (literalValue line) := by
    have hle := p.le_intMax
    rw [h]
    exact ⟨by omega, by omega⟩
  rw [typedMode, atoi_of_fits hfits, h]

end Permission

/-- **A permission is read as octal.** The loop ends within the range of `int`, the octal digits of
the result are the decimal digits that were typed, and no two permissions give one mode. -/
theorem octalDecimal_reads_octal :
    (∀ p : Permission, ∃ m : ℕ,
      octalDecimal p.value = some (m : ℤ) ∧ m ≤ 2147483647 ∧
        Nat.digits 8 m = Nat.digits 10 p.value) ∧
    ∀ (wide : ℤ → ℤ) (p q : Permission) (s t : List UInt8),
      literalValue s = p.value → literalValue t = q.value → p.value ≠ q.value →
        typedMode wide s ≠ typedMode wide t := by
  constructor
  · intro p
    have hlt := p.mode_lt
    exact ⟨p.mode, p.octalDecimal_eq, by omega, p.digits_mode⟩
  · intro wide p q s t hs ht hne h
    rw [p.typedMode_eq wide hs, q.typedMode_eq wide ht] at h
    exact hne (congrArg Permission.value (p.createMode_injective q h))

def readWrite : Permission := ⟨666, by decide, by simp⟩

def ownerOnly : Permission := ⟨600, by decide, by simp⟩

/-- The lines `666` and `600`. -/
theorem octalDecimal_reads_octal_666 :
    (∃ m : ℕ, octalDecimal 666 = some (m : ℤ) ∧ m ≤ 2147483647 ∧
      Nat.digits 8 m = Nat.digits 10 666) ∧
    typedMode id [54, 54, 54, 10] ≠ typedMode id [54, 48, 48, 10] :=
  ⟨octalDecimal_reads_octal.1 readWrite,
    octalDecimal_reads_octal.2 id readWrite ownerOnly _ _ (by decide) (by decide) (by decide)⟩

end El32.OctalDecimal

import Mathlib.Data.Nat.Digits.Defs
import Mathlib.Tactic.Ring

/-! Decimal numerals as bytes: the text `%d` prints and the number `atoi` reads.

`atoi` is defined by the language only where the number fits an `int`. What it returns elsewhere is
the platform's choice, a function `wide` of the number written. -/
namespace El32.Decimal
set_option autoImplicit false

/-! ## Printing -/

def digit (d : ℕ) : UInt8 := UInt8.ofNat (48 + d)

def IsDigit (c : UInt8) : Prop := 48 ≤ c.toNat ∧ c.toNat ≤ 57

instance (c : UInt8) : Decidable (IsDigit c) := inferInstanceAs (Decidable (_ ∧ _))

def natText (n : ℕ) : List UInt8 :=
  if n = 0 then [48] else (Nat.digits 10 n).reverse.map digit

/-- `%d`. -/
def intText (v : ℤ) : List UInt8 :=
  if v < 0 then 45 :: natText v.natAbs else natText v.natAbs

theorem digit_toNat {d : ℕ} (h : d < 10) : (digit d).toNat = 48 + d := by
  rw [digit, UInt8.toNat_ofNat']
  omega

theorem isDigit_digit {d : ℕ} (h : d < 10) : IsDigit (digit d) := by
  rw [IsDigit, digit_toNat h]
  omega

theorem IsDigit.eq_digit {c : UInt8} (h : IsDigit c) : ∃ d < 10, c = digit d := by
  obtain ⟨h1, h2⟩ := h
  refine ⟨c.toNat - 48, by omega, UInt8.toNat_inj.mp ?_⟩
  rw [digit_toNat (by omega)]
  omega

theorem natText_small {n : ℕ} (h : n < 10) : natText n = [digit n] := by
  by_cases h0 : n = 0
  · subst h0; rfl
  · rw [natText, if_neg h0, Nat.digits_of_lt 10 n h0 h]
    rfl

theorem natText_step {n : ℕ} (h : 10 ≤ n) :
    natText n = natText (n / 10) ++ [digit (n % 10)] := by
  have h0 : n ≠ 0 := by omega
  have hq : n / 10 ≠ 0 := by omega
  rw [natText, if_neg h0, natText, if_neg hq, Nat.digits_def' (by omega) (by omega)]
  simp

theorem isDigit_natText (n : ℕ) : ∀ c ∈ natText n, IsDigit c := by
  induction n using Nat.strong_induction_on with
  | _ n ih =>
    by_cases h : n < 10
    · rw [natText_small h]
      simpa using isDigit_digit h
    · rw [natText_step (by omega)]
      intro c hc
      rcases List.mem_append.mp hc with hc | hc
      · exact ih (n / 10) (by omega) c hc
      · rw [List.mem_singleton.mp hc]
        exact isDigit_digit (by omega)

theorem natText_ne_nil (n : ℕ) : natText n ≠ [] := by
  by_cases h : n < 10
  · simp [natText_small h]
  · simp [natText_step (by omega : 10 ≤ n)]

theorem natText_length_le {k : ℕ} (n : ℕ) (h : n < 10 ^ (k + 1)) :
    (natText n).length ≤ k + 1 := by
  induction k generalizing n with
  | zero => simp [natText_small (by omega : n < 10)]
  | succ k ih =>
    by_cases hn : n < 10
    · simp [natText_small hn]
    · have hq : n / 10 < 10 ^ (k + 1) := by
        rw [pow_succ] at h
        omega
      have := ih (n / 10) hq
      rw [natText_step (by omega), List.length_append, List.length_singleton]
      omega

theorem natText_length_pos (n : ℕ) : 0 < (natText n).length :=
  List.length_pos_iff.mpr (natText_ne_nil n)

theorem lt_of_natText_length {k : ℕ} (n : ℕ) (h : (natText n).length ≤ k) : n < 10 ^ k := by
  induction k generalizing n with
  | zero => have := natText_length_pos n; omega
  | succ k ih =>
    by_cases hn : n < 10
    · calc n < 10 ^ 1 := by omega
        _ ≤ 10 ^ (k + 1) := Nat.pow_le_pow_right (by omega) (by omega)
    · rw [natText_step (by omega), List.length_append, List.length_singleton] at h
      have := ih (n / 10) (by omega)
      rw [pow_succ]
      omega

theorem intText_ofNat (n : ℕ) : intText n = natText n := by
  simp [intText]

theorem intText_mem {v : ℤ} {c : UInt8} (h : c ∈ intText v) : c = 45 ∨ IsDigit c := by
  unfold intText at h
  split at h
  · rcases List.mem_cons.mp h with h | h
    · exact .inl h
    · exact .inr (isDigit_natText _ c h)
  · exact .inr (isDigit_natText _ c h)

theorem intText_ne_nil (v : ℤ) : intText v ≠ [] := by
  unfold intText
  split
  · simp
  · exact natText_ne_nil _

theorem not_mem_intText {c : UInt8} (h : c ≠ 45) (hd : ¬ IsDigit c) (v : ℤ) : c ∉ intText v :=
  fun hc => (intText_mem hc).elim h hd

theorem intText_length_le {k : ℕ} (v : ℤ) (h : v.natAbs < 10 ^ (k + 1)) :
    (intText v).length ≤ k + 2 := by
  have := natText_length_le v.natAbs h
  unfold intText
  split
  · rw [List.length_cons]; omega
  · omega

/-! ## Reading -/

/-- The value of the digits at the front, on top of `acc`. -/
def digitsValue (acc : ℕ) : List UInt8 → ℕ
  | [] => acc
  | c :: cs => if IsDigit c then digitsValue (10 * acc + (c.toNat - 48)) cs else acc

def signedValue : List UInt8 → ℤ
  | [] => 0
  | c :: cs =>
    if c = 45 then -(digitsValue 0 cs : ℤ)
    else if c = 43 then digitsValue 0 cs
    else digitsValue 0 (c :: cs)

def isSpace (c : UInt8) : Bool := c = 32 ∨ 9 ≤ c.toNat ∧ c.toNat ≤ 13

/-- The number at the front of a string, after white space; no digits read as zero. -/
def literalValue (s : List UInt8) : ℤ := signedValue (s.dropWhile isSpace)

def FitsInt (v : ℤ) : Prop := -2147483648 ≤ v ∧ v < 2147483648

instance (v : ℤ) : Decidable (FitsInt v) := inferInstanceAs (Decidable (_ ∧ _))

def atoi (wide : ℤ → ℤ) (s : List UInt8) : ℤ :=
  if FitsInt (literalValue s) then literalValue s else wide (literalValue s)

theorem digitsValue_append {xs : List UInt8} (h : ∀ c ∈ xs, IsDigit c) (acc : ℕ)
    (ys : List UInt8) : digitsValue acc (xs ++ ys) = digitsValue (digitsValue acc xs) ys := by
  induction xs generalizing acc with
  | nil => rfl
  | cons c xs ih =>
    obtain ⟨hc, hxs⟩ : IsDigit c ∧ ∀ x ∈ xs, IsDigit x := by simpa using h
    simp only [List.cons_append, digitsValue, if_pos hc]
    exact ih hxs _

theorem digitsValue_digit {d : ℕ} (h : d < 10) (acc : ℕ) :
    digitsValue acc [digit d] = 10 * acc + d := by
  simp [digitsValue, isDigit_digit h, digit_toNat h]

theorem digitsValue_natText (n : ℕ) : digitsValue 0 (natText n) = n := by
  induction n using Nat.strong_induction_on with
  | _ n ih =>
    by_cases h : n < 10
    · rw [natText_small h, digitsValue_digit h]
      omega
    · rw [natText_step (by omega), digitsValue_append (isDigit_natText _), ih (n / 10) (by omega),
        digitsValue_digit (by omega)]
      omega

theorem literalValue_cons {c : UInt8} (h : isSpace c = false) (cs : List UInt8) :
    literalValue (c :: cs) = signedValue (c :: cs) := by
  simp [literalValue, h]

theorem IsDigit.not_space {c : UInt8} (h : IsDigit c) : isSpace c = false := by
  obtain ⟨h1, h2⟩ := h
  have h32 : c ≠ 32 := by rintro rfl; exact absurd h1 (by decide)
  simp only [isSpace, h32, false_or, decide_eq_false_iff_not]
  omega

theorem literalValue_digits {c : UInt8} (h : IsDigit c) (cs : List UInt8) :
    literalValue (c :: cs) = digitsValue 0 (c :: cs) := by
  have h45 : c ≠ 45 := by rintro rfl; exact absurd h (by decide)
  have h43 : c ≠ 43 := by rintro rfl; exact absurd h (by decide)
  rw [literalValue_cons h.not_space, signedValue, if_neg h45, if_neg h43]

theorem literalValue_minus (cs : List UInt8) :
    literalValue (45 :: cs) = -(digitsValue 0 cs : ℤ) := by
  rw [literalValue_cons (by decide), signedValue, if_pos rfl]

theorem literalValue_plus (cs : List UInt8) : literalValue (43 :: cs) = digitsValue 0 cs := by
  rw [literalValue_cons (by decide), signedValue, if_neg (by decide), if_pos rfl]

/-- Reading a printed integer with more bytes behind it: the digits among them count. -/
theorem literalValue_intText (v : ℤ) (r : List UInt8) :
    literalValue (intText v ++ r) =
      if v < 0 then -(digitsValue v.natAbs r : ℤ) else digitsValue v.natAbs r := by
  have happ : digitsValue 0 (natText v.natAbs ++ r) = digitsValue v.natAbs r := by
    rw [digitsValue_append (isDigit_natText _), digitsValue_natText]
  by_cases hv : v < 0
  · rw [if_pos hv, intText, if_pos hv, List.cons_append, literalValue_minus, happ]
  · rw [if_neg hv, intText, if_neg hv, ← happ]
    obtain ⟨c, cs, hcs⟩ := List.exists_cons_of_ne_nil (natText_ne_nil v.natAbs)
    rw [hcs, List.cons_append]
    exact literalValue_digits (isDigit_natText v.natAbs c (hcs ▸ List.mem_cons_self)) _

theorem literalValue_intText_self (v : ℤ) : literalValue (intText v) = v := by
  have h := literalValue_intText v []
  rw [List.append_nil] at h
  rw [h]
  simp only [digitsValue]
  split <;> omega

theorem intText_injective : Function.Injective intText := by
  intro v w h
  rw [← literalValue_intText_self v, h, literalValue_intText_self]

theorem atoi_of_fits {wide : ℤ → ℤ} {s : List UInt8} (h : FitsInt (literalValue s)) :
    atoi wide s = literalValue s := if_pos h

theorem atoi_intText {wide : ℤ → ℤ} {v : ℤ} (h : FitsInt v) : atoi wide (intText v) = v := by
  rw [atoi_of_fits (by rwa [literalValue_intText_self]), literalValue_intText_self]

/-! ## Literals -/

def numeral (ds : List UInt8) : ℕ := ds.foldl (fun a c => 10 * a + (c.toNat - 48)) 0

/-- An optionally signed decimal literal and its value; leading zeros are allowed. -/
inductive Literal : List UInt8 → ℤ → Prop
  | plain (ds : List UInt8) : ds ≠ [] → (∀ c ∈ ds, IsDigit c) → Literal ds (numeral ds)
  | plus (ds : List UInt8) : ds ≠ [] → (∀ c ∈ ds, IsDigit c) → Literal (43 :: ds) (numeral ds)
  | minus (ds : List UInt8) : ds ≠ [] → (∀ c ∈ ds, IsDigit c) →
      Literal (45 :: ds) (-(numeral ds : ℤ))

theorem digitsValue_numeral {ds : List UInt8} (h : ∀ c ∈ ds, IsDigit c) (acc : ℕ) :
    digitsValue acc ds = ds.foldl (fun a c => 10 * a + (c.toNat - 48)) acc := by
  induction ds generalizing acc with
  | nil => rfl
  | cons c ds ih =>
    obtain ⟨hc, hds⟩ : IsDigit c ∧ ∀ x ∈ ds, IsDigit x := by simpa using h
    rw [digitsValue, if_pos hc, ih hds, List.foldl_cons]

theorem Literal.value {s : List UInt8} {v : ℤ} (h : Literal s v) : literalValue s = v := by
  cases h with
  | plain ds hne hd =>
    obtain ⟨c, cs, rfl⟩ := List.exists_cons_of_ne_nil hne
    rw [literalValue_digits (hd c (by simp)), digitsValue_numeral hd]
    rfl
  | plus ds hne hd =>
    rw [literalValue_plus, digitsValue_numeral hd]
    rfl
  | minus ds hne hd =>
    rw [literalValue_minus, digitsValue_numeral hd]
    rfl

theorem Literal.ne_nil {s : List UInt8} {v : ℤ} (h : Literal s v) : s ≠ [] := by
  cases h with
  | plain ds hne _ => exact hne
  | plus ds _ _ => simp
  | minus ds _ _ => simp

theorem Literal.mem {s : List UInt8} {v : ℤ} (h : Literal s v) {c : UInt8} (hc : c ∈ s) :
    c = 43 ∨ c = 45 ∨ IsDigit c := by
  cases h with
  | plain ds _ hd => exact .inr (.inr (hd c hc))
  | plus ds _ hd =>
    rcases List.mem_cons.mp hc with hc | hc
    · exact .inl hc
    · exact .inr (.inr (hd c hc))
  | minus ds _ hd =>
    rcases List.mem_cons.mp hc with hc | hc
    · exact .inr (.inl hc)
    · exact .inr (.inr (hd c hc))

end El32.Decimal

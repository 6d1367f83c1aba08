import Mathlib.Data.Int.Notation
import Mathlib.Data.List.Chain
import Mathlib.Data.List.Range

/-! Positions in a ring taken from a counter that only grows, in signed integers that wrap around.

The integers are the `2 * H` values from `-H` on; the remainder is the truncating one. -/
namespace El32.WrapCounter
set_option autoImplicit false

/-- The positions stay in the ring and each is the one after the last. -/
structure RingOrder (size : ℕ) (idxs : List ℤ) : Prop where
  in_range : ∀ i ∈ idxs, 0 ≤ i ∧ i < size
  steps : idxs.IsChain fun i j : ℤ => j = (i + 1) % size

/-- The counter after `j` increments. -/
def counter (H j : ℕ) : ℤ := (j : ℤ).bmod (2 * H)

def ringIndex (H size j : ℕ) : ℤ := (counter H j).tmod size

/-- The increments after which the position is still right. -/
def lastGood (H size : ℕ) : ℕ := if size ∣ H then H + 1 else H

section Counter
variable {H size : ℕ}

theorem counter_zero : counter H 0 = 0 := by simp [counter]

theorem counter_succ (j : ℕ) : (counter H j + 1).bmod (2 * H) = counter H (j + 1) := by
  rw [counter, Int.bmod_add_bmod, counter]
  rfl

theorem counter_below {j : ℕ} (h : j < H) : counter H j = j :=
  Int.bmod_eq_of_le (by omega) (by omega)

/-- The values from the wrap on, for one more turn. -/
theorem counter_above {j : ℕ} (h : j < 2 * H) (hj : H ≤ j) : counter H j = (j : ℤ) - 2 * H := by
  have hsub : (j : ℤ).bmod (2 * H) = ((j : ℤ) - 2 * H).bmod (2 * H) := by
    have h2H : (2 * H : ℤ) = (2 * H : ℕ) := by omega
    rw [h2H, Int.sub_bmod_right]
  rw [counter, hsub]
  exact Int.bmod_eq_of_le (by omega) (by omega)

theorem ringIndex_below {j : ℕ} (h : j < H) : ringIndex H size j = (j % size : ℕ) := by
  rw [ringIndex, counter_below h]
  rfl

theorem ringIndex_wrap (h : 0 < H) : ringIndex H size H = -(H % size : ℕ) := by
  have hc : counter H H = -(H : ℤ) := by
    rw [counter_above (by omega) (Nat.le_refl H)]
    omega
  rw [ringIndex, hc, Int.neg_tmod]
  rfl

theorem ringIndex_wrap_succ (h : 1 < H) : ringIndex H size (H + 1) = -((H - 1) % size : ℕ) := by
  have hc : counter H (H + 1) = -((H - 1 : ℕ) : ℤ) := by
    rw [counter_above (by omega) (by omega)]
    omega
  rw [ringIndex, hc, Int.neg_tmod]
  rfl

theorem ringIndex_good {j : ℕ} (h0 : 0 < H) (h : j < lastGood H size) :
    ringIndex H size j = (j % size : ℕ) := by
  unfold lastGood at h
  split at h
  next hdvd =>
    rcases Nat.lt_or_ge j H with hj | hj
    · exact ringIndex_below hj
    · obtain rfl : j = H := by omega
      rw [ringIndex_wrap h0, Nat.mod_eq_zero_of_dvd hdvd]
      rfl
  next => exact ringIndex_below h

/-! ## Runs of the counter -/

theorem ringOrder_of_mod (hs : 0 < size) {f : ℕ → ℤ} {k : ℕ}
    (hf : ∀ j < k, f j = (j % size : ℕ)) : RingOrder size ((List.range k).map f) := by
  constructor
  · intro i hi
    obtain ⟨j, hj, rfl⟩ := List.mem_map.mp hi
    have hlt := Nat.mod_lt j hs
    rw [hf j (List.mem_range.mp hj)]
    omega
  · rw [List.isChain_map, List.isChain_range]
    intro j hj
    rw [hf j (by omega), hf (j + 1) (by omega)]
    rw [← Nat.mod_add_mod]
    rfl

theorem RingOrder.nonneg {f : ℕ → ℤ} {k j : ℕ} (h : RingOrder size ((List.range k).map f))
    (hj : j < k) : 0 ≤ f j :=
  (h.in_range (f j) (List.mem_map_of_mem (List.mem_range.mpr hj))).1

theorem dvd_of_wrap_nonneg (h0 : 0 < H) (h : 0 ≤ ringIndex H size H) : size ∣ H := by
  rw [ringIndex_wrap h0] at h
  exact Nat.dvd_of_mod_eq_zero (by omega)

/-- A ring whose size divides the wrap leaves it one increment later. -/
theorem wrap_succ_neg (hs : 1 < size) (hsH : size ≤ H) (hdvd : size ∣ H) :
    ringIndex H size (H + 1) < 0 := by
  obtain ⟨q, rfl⟩ := hdvd
  obtain ⟨p, rfl⟩ : ∃ p, q = p + 1 := ⟨q - 1, by
    have hq : q ≠ 0 := by
      rintro rfl
      omega
    omega⟩
  have hmod : (size * (p + 1) - 1) % size = size - 1 := by
    have hsum : size * (p + 1) - 1 = size - 1 + size * p := by
      rw [Nat.mul_succ]
      omega
    rw [hsum, Nat.add_mul_mod_self_left, Nat.mod_eq_of_lt (by omega)]
  rw [ringIndex_wrap_succ (by omega), hmod]
  omega

/-- Where a run of increments keeps the order of the ring: always in a ring of one cell, else until
the counter has wrapped. -/
theorem ringOrder_iff (hs : 0 < size) (hsH : size ≤ H) (k : ℕ) :
    RingOrder size ((List.range k).map (ringIndex H size)) ↔ size = 1 ∨ k ≤ lastGood H size := by
  constructor
  · intro h
    by_contra hbad
    obtain ⟨h1, hk⟩ := not_or.mp hbad
    unfold lastGood at hk
    split at hk
    next hdvd =>
      have hneg := wrap_succ_neg (by omega) hsH hdvd
      have hpos := h.nonneg (j := H + 1) (by omega)
      omega
    next hdvd => exact hdvd (dvd_of_wrap_nonneg (by omega) (h.nonneg (by omega)))
  · rintro (rfl | hk)
    · refine ringOrder_of_mod hs fun j _ => ?_
      rw [Nat.mod_one]
      exact Int.tmod_one _
    · exact ringOrder_of_mod hs fun j hj => ringIndex_good (by omega) (by omega)

end Counter

end El32.WrapCounter

import Mathlib.Algebra.BigOperators.Group.Finset.Piecewise
import Mathlib.Algebra.Order.BigOperators.Group.Finset
import Mathlib.Data.Fintype.Card

/-! Schedules of one processor in units of time: jobs with an arrival and an amount of service, and
the job that is served in each unit, if any. -/
namespace El32.UnitSchedule
open Finset
set_option autoImplicit false

structure Jobs (ι : Type) where
  arrival : ι → ℕ
  service : ι → ℕ

abbrev Schedule (ι : Type) : Type := ℕ → Option ι

variable {ι : Type} [DecidableEq ι]

/-- The units that `i` got before time `t`. -/
def served (σ : Schedule ι) (i : ι) : ℕ → ℕ
  | 0 => 0
  | t + 1 => served σ i t + if σ t = some i then 1 else 0

def Ready (J : Jobs ι) (σ : Schedule ι) (t : ℕ) (i : ι) : Prop :=
  J.arrival i ≤ t ∧ served σ i t < J.service i

/-- Only a job that has arrived and is not finished is served. -/
def Valid (J : Jobs ι) (σ : Schedule ι) : Prop := ∀ t i, σ t = some i → Ready J σ t i

/-- The processor is idle only when no job is ready. -/
def Conserving (J : Jobs ι) (σ : Schedule ι) : Prop := ∀ t, σ t = none → ∀ i, ¬ Ready J σ t i

/-- What is left to do of the jobs that have arrived. -/
def backlog (J : Jobs ι) (σ : Schedule ι) (t : ℕ) (i : ι) : ℕ :=
  if J.arrival i ≤ t then J.service i - served σ i t else 0

/-- `i` has all its service at `f` and not before. -/
def FinishesAt (J : Jobs ι) (σ : Schedule ι) (i : ι) (f : ℕ) : Prop :=
  J.service i ≤ served σ i f ∧ ∀ t < f, served σ i t < J.service i

section Served
variable {J : Jobs ι} {σ τ : Schedule ι} {i j : ι} {t : ℕ}

theorem served_succ_self (h : σ t = some i) : served σ i (t + 1) = served σ i t + 1 := by
  rw [served, if_pos h]

theorem served_succ_of_ne (h : σ t ≠ some i) : served σ i (t + 1) = served σ i t := by
  rw [served, if_neg h, Nat.add_zero]

theorem served_mono (σ : Schedule ι) (i : ι) : Monotone (served σ i) :=
  monotone_nat_of_le_succ fun _ => Nat.le_add_right _ _

theorem served_congr (h : ∀ u < t, σ u = τ u) : served σ i t = served τ i t := by
  induction t with
  | zero => rfl
  | succ t ih => rw [served, served, ih fun u hu => h u (by omega), h t (Nat.lt_succ_self t)]

theorem served_le (hv : Valid J σ) (i : ι) (t : ℕ) : served σ i t ≤ J.service i := by
  induction t with
  | zero => exact Nat.zero_le _
  | succ t ih =>
    by_cases h : σ t = some i
    · rw [served_succ_self h]
      exact (hv t i h).2
    · rwa [served_succ_of_ne h]

/-- Before its arrival a job gets nothing. -/
theorem served_eq_zero (hv : Valid J σ) (h : t ≤ J.arrival i) : served σ i t = 0 := by
  induction t with
  | zero => rfl
  | succ t ih =>
    rw [served_succ_of_ne fun hs => ?_, ih (by omega)]
    have harr := (hv t i hs).1
    omega

theorem ready_iff_backlog : Ready J σ t i ↔ 0 < backlog J σ t i := by
  unfold Ready backlog
  split <;> omega

/-- In a unit that serves `i` what is left of it goes down by one; then jobs arrive. -/
theorem backlog_succ (hv : Valid J σ) : backlog J σ (t + 1) i =
    if J.arrival i = t + 1 then J.service i
    else if σ t = some i then backlog J σ t i - 1 else backlog J σ t i := by
  by_cases harr : J.arrival i = t + 1
  · rw [if_pos harr, backlog, if_pos (by omega), served_eq_zero hv (by omega), Nat.sub_zero]
  · rw [if_neg harr]
    have hiff : J.arrival i ≤ t + 1 ↔ J.arrival i ≤ t := by omega
    unfold backlog
    simp only [hiff]
    by_cases h : σ t = some i
    · rw [if_pos h, served_succ_self h]
      split <;> omega
    · rw [if_neg h, served_succ_of_ne h]

theorem backlog_of_early (h : t < J.arrival i) : backlog J σ t i = 0 := if_neg (by omega)

end Served

/-! ## Work that is done -/

section Work
variable [Fintype ι] {J : Jobs ι} {σ τ : Schedule ι}

/-- The work of a unit is the same for every job it may serve. -/
theorem sum_backlog_succ (hv : Valid J σ) (t : ℕ) :
    (∑ i, backlog J σ (t + 1) i) + (if σ t = none then 0 else 1) =
      (∑ i, backlog J σ t i) + ∑ i, if J.arrival i = t + 1 then J.service i else 0 := by
  have hunit : (∑ i, if σ t = some i then 1 else 0) = if σ t = none then 0 else 1 := by
    cases hσ : σ t with
    | none => simp
    | some j =>
      simp
  rw [← hunit, ← sum_add_distrib, ← sum_add_distrib]
  refine sum_congr rfl fun i _ => ?_
  rw [backlog_succ hv]
  by_cases harr : J.arrival i = t + 1
  · have hne : σ t ≠ some i := fun h => by
      have hle := (hv t i h).1
      omega
    rw [if_pos harr, if_neg hne, if_pos harr, backlog_of_early (by omega), Nat.zero_add,
      Nat.add_zero]
  · rw [if_neg harr, if_neg harr]
    by_cases h : σ t = some i
    · have hpos := ready_iff_backlog.mp (hv t i h)
      rw [if_pos h, if_pos h]
      omega
    · rw [if_neg h, if_neg h]

theorem idle_iff (hv : Valid J σ) (hc : Conserving J σ) (t : ℕ) :
    σ t = none ↔ ∑ i, backlog J σ t i = 0 := by
  rw [sum_eq_zero_iff]
  constructor
  · intro h i _
    have hnot := hc t h i
    rw [ready_iff_backlog] at hnot
    omega
  · intro h
    cases hσ : σ t with
    | none => rfl
    | some i =>
      have hpos := ready_iff_backlog.mp (hv t i hσ)
      rw [h i (mem_univ i)] at hpos
      exact absurd hpos (lt_irrefl 0)

/-- **The work done does not depend on the order.** Schedules that are idle only when no job is ready
have the same work left at every time, and so the same idle units. -/
theorem sum_backlog_eq (hσ : Valid J σ) (hσc : Conserving J σ) (hτ : Valid J τ)
    (hτc : Conserving J τ) (t : ℕ) : ∑ i, backlog J σ t i = ∑ i, backlog J τ t i := by
  induction t with
  | zero => rfl
  | succ t ih =>
    have h1 := sum_backlog_succ hσ t
    have h2 := sum_backlog_succ hτ t
    have hidle : (σ t = none) = (τ t = none) := by
      rw [eq_iff_iff, idle_iff hσ hσc, idle_iff hτ hτc, ih]
    rw [ih] at h1
    simp only [hidle] at h1
    omega

theorem idle_eq (hσ : Valid J σ) (hσc : Conserving J σ) (hτ : Valid J τ) (hτc : Conserving J τ)
    (t : ℕ) : σ t = none ↔ τ t = none := by
  rw [idle_iff hσ hσc, idle_iff hτ hτc, sum_backlog_eq hσ hσc hτ hτc]

end Work

/-! ## Times of finishing -/

section Finish
variable {J : Jobs ι} {σ : Schedule ι} {i : ι} {f : ℕ}

theorem FinishesAt.lt_iff (h : FinishesAt J σ i f) {t : ℕ} : served σ i t < J.service i ↔ t < f := by
  constructor
  · intro ht
    by_contra hge
    have hmono := served_mono σ i (Nat.le_of_not_lt hge)
    have hall := h.1
    omega
  · exact h.2 t

theorem FinishesAt.unique {g : ℕ} (hf : FinishesAt J σ i f) (hg : FinishesAt J σ i g) : f = g := by
  have hfg := hf.lt_iff (t := g)
  have hgf := hg.lt_iff (t := f)
  rw [hg.lt_iff] at hfg
  rw [hf.lt_iff] at hgf
  omega

theorem sum_served_succ [Fintype ι] {t : ℕ} (h : σ t ≠ none) :
    ∑ j, served σ j (t + 1) = ∑ j, served σ j t + 1 := by
  obtain ⟨k, hk⟩ := Option.ne_none_iff_exists'.mp h
  simp [served, sum_add_distrib, hk]

/-- From its arrival to its finish a job never leaves the processor idle, so it is finished within the
service of all jobs. -/
theorem FinishesAt.le_add_sum [Fintype ι] (hv : Valid J σ) (hc : Conserving J σ)
    (h : FinishesAt J σ i f) : f ≤ J.arrival i + ∑ j, J.service j := by
  have hbusy : ∀ k, J.arrival i + k ≤ f → k ≤ ∑ j, served σ j (J.arrival i + k) := by
    intro k
    induction k with
    | zero => exact fun _ => Nat.zero_le _
    | succ k ih =>
      intro hk
      have hready : Ready J σ (J.arrival i + k) i := ⟨Nat.le_add_right _ _, h.2 _ (by omega)⟩
      have hsum := sum_served_succ fun hnone => hc _ hnone i hready
      have hle := ih (by omega)
      rw [← Nat.add_assoc, hsum]
      omega
  by_contra hlate
  have hlong := hbusy (∑ j, J.service j + 1) (by omega)
  have hall := sum_le_sum fun j (_ : j ∈ univ) =>
    served_le hv j (J.arrival i + (∑ j, J.service j + 1))
  omega

/-- The jobs that are not finished at `t`, arrived or not. -/
def unfinished [Fintype ι] (J : Jobs ι) (σ : Schedule ι) (t : ℕ) : Finset ι :=
  univ.filter fun i => served σ i t < J.service i

theorem FinishesAt.eq_sum (h : FinishesAt J σ i f) {H : ℕ} (hH : f ≤ H) :
    f = ∑ t ∈ range H, if served σ i t < J.service i then 1 else 0 := by
  simp only [h.lt_iff]
  have hfilter : (range H).filter (· < f) = range f := by
    ext t
    simp only [mem_filter, mem_range]
    omega
  rw [← card_filter, hfilter, card_range]

/-- Every unit adds one to the sum of the finishing times for each job it leaves unfinished. -/
theorem sum_finish [Fintype ι] {f : ι → ℕ} (h : ∀ i, FinishesAt J σ i (f i)) {H : ℕ}
    (hH : ∀ i, f i ≤ H) : ∑ i, f i = ∑ t ∈ range H, (unfinished J σ t).card := by
  calc ∑ i, f i
      = ∑ i, ∑ t ∈ range H, (if served σ i t < J.service i then 1 else 0) :=
        sum_congr rfl fun i _ => (h i).eq_sum (hH i)
    _ = ∑ t ∈ range H, ∑ i, (if served σ i t < J.service i then 1 else 0) := sum_comm
    _ = ∑ t ∈ range H, (unfinished J σ t).card :=
        sum_congr rfl fun t _ => by rw [unfinished, card_filter]

end Finish

end El32.UnitSchedule

import El32.Foundations.UnitHistory
import El32.Scheduling.RunAlgorithm
import Mathlib.Algebra.BigOperators.Fin
import Mathlib.Data.Fintype.Lattice
import Mathlib.Data.List.FinRange
import Mathlib.Order.ConditionallyCompleteLattice.Finset
import Mathlib.Order.Lattice.Nat

/-! The processes that a run starts with, and the books of a run: what the objects and the finish
queue say about the units served so far. -/
namespace El32.Scheduling
open Decimal JavaInt Loop UnitSchedule Finset
set_option autoImplicit false

/-- The processes that were entered, by number. Each needs some service, and all can be served before
the greatest `int`. -/
structure Workload (n : ℕ) where
  name : Fin n → String
  arrival : Fin n → ℤ
  service : Fin n → ℤ
  entered : 0 < n
  service_pos : ∀ i, 0 < service i
  arrival_ge : ∀ i, -2147483648 ≤ arrival i
  total_le : ∑ i, service i ≤ maxInt
  end_le : ∀ i, arrival i + ∑ j, service j ≤ maxInt

namespace Workload
variable {n : ℕ} (w : Workload n)

def heap (i : Fin n) : Process := Process.create (w.name i) (w.arrival i) (w.service i) i

include w in
theorem univ_nonempty : (univ : Finset (Fin n)).Nonempty := ⟨⟨0, w.entered⟩, mem_univ _⟩

/-- The least arrival. -/
def base : ℤ := univ.inf' w.univ_nonempty w.arrival

theorem base_le (i : Fin n) : w.base ≤ w.arrival i := inf'_le _ (mem_univ i)

theorem exists_base : ∃ i, w.arrival i = w.base := by
  obtain ⟨i, -, hi⟩ := exists_mem_eq_inf' w.univ_nonempty w.arrival
  exact ⟨i, hi.symm⟩

/-- The state at the start of `run`. -/
def start : State (Fin n) := Scheduling.start w.heap (List.finRange n) w.base

/-! ## The processes as jobs -/

/-- Times are counted from the least arrival. -/
def jobs : Jobs (Fin n) where
  arrival i := (w.arrival i - w.base).toNat
  service i := (w.service i).toNat

theorem jobs_arrival (i : Fin n) : (w.jobs.arrival i : ℤ) = w.arrival i - w.base :=
  Int.toNat_of_nonneg (Int.sub_nonneg.mpr (w.base_le i))

theorem jobs_service (i : Fin n) : (w.jobs.service i : ℤ) = w.service i :=
  Int.toNat_of_nonneg (w.service_pos i).le

theorem jobs_service_pos (i : Fin n) : 0 < w.jobs.service i := by
  have hpos := w.service_pos i
  have hcast := w.jobs_service i
  omega

theorem arrival_le_iff (i : Fin n) (k : ℕ) : w.arrival i ≤ w.base + k ↔ w.jobs.arrival i ≤ k := by
  have hcast := w.jobs_arrival i
  omega

/-- The time of the last arrival. -/
def lastArrival : ℕ := univ.sup w.jobs.arrival

theorem le_lastArrival (i : Fin n) : w.jobs.arrival i ≤ w.lastArrival := le_sup (mem_univ i)

/-- The processes that arrive at `k`, as they were entered. -/
def new (k : ℕ) : List (Fin n) := (List.finRange n).filter fun i => w.jobs.arrival i = k

/-- The processes that arrive before `k`, in the order in which they become ready. -/
def arrivals (k : ℕ) : List (Fin n) := (List.range k).flatMap w.new

variable {w}

theorem mem_new {k : ℕ} {i : Fin n} : i ∈ w.new k ↔ w.jobs.arrival i = k := by
  simp [new]

theorem arrivals_succ (k : ℕ) : w.arrivals (k + 1) = w.arrivals k ++ w.new k := by
  rw [arrivals, List.range_succ, List.flatMap_append, List.flatMap_singleton]
  rfl

theorem mem_arrivals {k : ℕ} {i : Fin n} : i ∈ w.arrivals k ↔ w.jobs.arrival i < k := by
  simp [arrivals, mem_new]

theorem arrivals_nodup (k : ℕ) : (w.arrivals k).Nodup := by
  induction k with
  | zero => exact List.nodup_nil
  | succ k ih =>
    rw [arrivals_succ, List.nodup_append']
    refine ⟨ih, (List.nodup_finRange n).filter _, fun i hi hnew => ?_⟩
    rw [mem_arrivals] at hi
    rw [mem_new] at hnew
    omega

/-! ## The range of the times -/

theorem total_nonneg : 0 ≤ ∑ i, w.service i := sum_nonneg fun i _ => (w.service_pos i).le

theorem service_le (i : Fin n) : w.service i ≤ ∑ j, w.service j :=
  single_le_sum (fun j _ => (w.service_pos j).le) (mem_univ i)

theorem sum_jobs_service : ((∑ i, w.jobs.service i : ℕ) : ℤ) = ∑ i, w.service i := by
  rw [Nat.cast_sum]
  exact sum_congr rfl fun i _ => w.jobs_service i

theorem base_ge : -2147483648 ≤ w.base := le_inf' _ _ fun i _ => w.arrival_ge i

/-- The last arrival and the service of all processes after it. -/
theorem lastArrival_add_le : w.base + w.lastArrival + ∑ i, w.service i ≤ maxInt := by
  obtain ⟨i, -, hi⟩ := exists_mem_eq_sup _ w.univ_nonempty w.jobs.arrival
  have hlast : w.lastArrival = w.jobs.arrival i := hi
  have hcast := w.jobs_arrival i
  have hend := w.end_le i
  omega

/-- The clock of a legal history is an `int`. -/
theorem fits_time {l : List (Option (Fin n))} (h : Follows (Legal w.jobs) l) {f : ℕ}
    (hf : f ≤ l.length) : FitsInt (w.base + f) := by
  have hlen := h.length_le w.le_lastArrival
  have hcount := sum_le_sum fun i (_ : i ∈ univ) => h.count_le i
  have htotal := w.sum_jobs_service
  have hend := w.lastArrival_add_le
  have hbase := w.base_ge
  unfold maxInt at hend
  constructor <;> omega

/-- A turnaround time is an `int`: it is at most the service of all processes. -/
theorem fits_turnaround {σ : Schedule (Fin n)} (hv : Valid w.jobs σ) (hc : Conserving w.jobs σ)
    {i : Fin n} {f : ℕ} (h : FinishesAt w.jobs σ i f) : FitsInt (w.base + f - w.arrival i) := by
  have hle := h.le_add_sum hv hc
  have hlate : w.jobs.arrival i < f := by
    by_contra hearly
    have hpos := w.jobs_service_pos i
    have hserved := h.1
    rw [served_eq_zero hv (Nat.le_of_not_lt hearly)] at hserved
    omega
  have harrival := w.jobs_arrival i
  have hsum := w.sum_jobs_service
  have htotal := w.total_le
  unfold maxInt at htotal
  constructor <;> omega

end Workload

end El32.Scheduling

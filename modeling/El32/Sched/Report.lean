import El32.Foundations.Decimal
import Mathlib.Tactic.NormNum

/-! The time stamps of `sched.c` and the rows it prints about them. -/
namespace El32.Sched
open Decimal
set_option autoImplicit false

/-- A `struct timespec` as `clock_gettime` fills it. -/
structure Timespec where
  sec : ℤ
  nsec : ℤ
  nsec_nonneg : 0 ≤ nsec
  nsec_lt : nsec < 1000000000

/-- The time since the epoch, in nanoseconds. -/
def Timespec.nanos (t : Timespec) : ℤ := t.sec * 1000000000 + t.nsec

/-- What passed between two samples. -/
def elapsed (prev cur : Timespec) : ℤ := cur.nanos - prev.nanos

/-! ## The program -/

/-- `MAX_SIZE`. -/
def maxSize : ℕ := 1000000

/-- `%lu` of a `long`. -/
def unsigned (x : ℤ) : ℕ := (x % 18446744073709551616).toNat

/-- The numbers of a row, and whether the arrow follows them. -/
structure Row where
  sec : ℕ
  nsec : ℕ
  delta : ℕ
  late : Bool
deriving DecidableEq

def row (cur prev : Timespec) : Row where
  sec := unsigned cur.sec
  nsec := unsigned cur.nsec
  delta := unsigned (cur.nsec - prev.nsec)
  late := 10000 < cur.nsec - prev.nsec

/-- The loop under `Printout time data`, over the first `size` samples. -/
def printout (ts : ℕ → Timespec) (size : ℕ) : List Row :=
  (List.range' 1 (size - 1)).map fun idx => row (ts idx) (ts (idx - 1))

def bytes (s : String) : List UInt8 := s.toUTF8.toList

def Row.text (r : Row) : List UInt8 :=
  natText r.sec ++ bytes "." ++ natText r.nsec ++ bytes ", delta = " ++ natText r.delta ++
    if r.late then bytes "  <-------------------------\n" else bytes "\n"

/-! ## One row -/

/-- The row shows the elapsed time and has the arrow exactly when that is more than 10000. -/
structure Row.Exact (r : Row) (prev cur : Timespec) : Prop where
  delta : (r.delta : ℤ) = elapsed prev cur
  late : r.late = true ↔ 10000 < elapsed prev cur

section Pair
variable {prev cur : Timespec}

theorem unsigned_nonneg {x : ℤ} (h : 0 ≤ x) (hx : x < 18446744073709551616) :
    (unsigned x : ℤ) = x := by
  rw [unsigned, Int.emod_eq_of_lt h hx, Int.toNat_of_nonneg h]

theorem unsigned_neg {x : ℤ} (h : x < 0) (hx : -18446744073709551616 ≤ x) :
    (unsigned x : ℤ) = x + 18446744073709551616 := by
  unfold unsigned
  omega

theorem sec_le (h : prev.nanos ≤ cur.nanos) : prev.sec ≤ cur.sec := by
  have hp := prev.nsec_nonneg
  have hc := cur.nsec_lt
  unfold Timespec.nanos at h
  omega

/-- The nanosecond parts differ by what passed, less the whole seconds between the samples. -/
theorem nsec_sub (prev cur : Timespec) :
    cur.nsec - prev.nsec = elapsed prev cur - (cur.sec - prev.sec) * 1000000000 := by
  unfold elapsed Timespec.nanos
  ring

theorem late_iff : (row cur prev).late = true ↔ 10000 < cur.nsec - prev.nsec :=
  decide_eq_true_iff

/-- The arrow is never drawn after a sample in time. -/
theorem late_sound (h : prev.nanos ≤ cur.nanos) (hlate : (row cur prev).late = true) :
    10000 < elapsed prev cur := by
  have hsec := sec_le h
  have hnsec := late_iff.mp hlate
  rw [nsec_sub] at hnsec
  omega

theorem row_exact (h : prev.nanos ≤ cur.nanos) (hsec : cur.sec = prev.sec) :
    (row cur prev).Exact prev cur := by
  have hsub : cur.nsec - prev.nsec = elapsed prev cur := by
    rw [nsec_sub, hsec]
    ring
  have hpos : 0 ≤ elapsed prev cur := Int.sub_nonneg.mpr h
  have hp := prev.nsec_nonneg
  have hc := cur.nsec_lt
  constructor
  · show (unsigned (cur.nsec - prev.nsec) : ℤ) = _
    rw [unsigned_nonneg (by omega) (by omega), hsub]
  · rw [late_iff, hsub]

/-- The number of nanoseconds in a second has a factor 5, so that whole seconds never make up for the
wrap of a negative difference. -/
theorem seconds_ne_wrap (k : ℤ) : k * 1000000000 ≠ 18446744073709551616 := by omega

theorem sec_eq_of_delta (hdelta : ((row cur prev).delta : ℤ) = elapsed prev cur) :
    cur.sec = prev.sec := by
  have hp := prev.nsec_nonneg
  have hp' := prev.nsec_lt
  have hc := cur.nsec_nonneg
  have hc' := cur.nsec_lt
  have hsub := nsec_sub prev cur
  have hshown : (unsigned (cur.nsec - prev.nsec) : ℤ) = elapsed prev cur := hdelta
  by_cases hneg : cur.nsec - prev.nsec < 0
  · rw [unsigned_neg hneg (by omega)] at hshown
    have hne := seconds_ne_wrap (cur.sec - prev.sec)
    omega
  · rw [unsigned_nonneg (by omega) (by omega)] at hshown
    omega

theorem exact_iff (h : prev.nanos ≤ cur.nanos) :
    (row cur prev).Exact prev cur ↔ cur.sec = prev.sec :=
  ⟨fun hexact => sec_eq_of_delta hexact.delta, row_exact h⟩

end Pair

/-! ## All rows -/

section Printout
variable {ts : ℕ → Timespec} {size : ℕ}

theorem printout_getElem? {k : ℕ} (h : k + 1 < size) :
    (printout ts size)[k]? = some (row (ts (k + 1)) (ts k)) := by
  have hk : (List.range' 1 (size - 1))[k]? = some (k + 1) := by
    rw [List.getElem?_range' (by omega)]
    congr 1
    omega
  rw [printout, List.getElem?_map, hk]
  rfl

/-- Row `k` is about samples `k` and `k + 1`. -/
def Correct (ts : ℕ → Timespec) (size : ℕ) : Prop :=
  ∀ k, k + 1 < size → ∃ r, (printout ts size)[k]? = some r ∧ r.Exact (ts k) (ts (k + 1))

theorem correct_iff_rows :
    Correct ts size ↔
      ∀ k, k + 1 < size → (row (ts (k + 1)) (ts k)).Exact (ts k) (ts (k + 1)) := by
  refine forall_congr' fun k => forall_congr' fun hk => ?_
  rw [printout_getElem? hk]
  constructor
  · rintro ⟨r, hr, hexact⟩
    obtain rfl := Option.some.inj hr
    exact hexact
  · intro hexact
    exact ⟨_, rfl, hexact⟩

/-- **The rows are right exactly when all samples fall in one second.** -/
theorem printout_correct_iff (h : ∀ k, k + 1 < size → (ts k).nanos ≤ (ts (k + 1)).nanos) :
    Correct ts size ↔ ∀ k, k + 1 < size → (ts (k + 1)).sec = (ts k).sec := by
  rw [correct_iff_rows]
  exact forall_congr' fun k => forall_congr' fun hk => exact_iff (h k hk)

/-- A sample every 100 microseconds. -/
def ticks (k : ℕ) : Timespec where
  sec := (k * 100000 / 1000000000 : ℕ)
  nsec := (k * 100000 % 1000000000 : ℕ)
  nsec_nonneg := by omega
  nsec_lt := by omega

theorem ticks_nanos (k : ℕ) : (ticks k).nanos = (k * 100000 : ℕ) := by
  have h := Nat.div_add_mod (k * 100000) 1000000000
  show ((k * 100000 / 1000000000 : ℕ) : ℤ) * 1000000000 + (k * 100000 % 1000000000 : ℕ) = _
  omega

theorem ticks_le (k : ℕ) : (ticks k).nanos ≤ (ticks (k + 1)).nanos := by
  rw [ticks_nanos, ticks_nanos]
  omega

theorem printout_correct_iff_ticks :
    Correct ticks maxSize ↔ ∀ k, k + 1 < maxSize → (ticks (k + 1)).sec = (ticks k).sec :=
  printout_correct_iff fun k _ => ticks_le k

/-- The row after the first second shows 18446744072709651616 and has no arrow; 100000 nanoseconds
have passed. -/
theorem ticks_not_correct :
    (∀ k, k + 1 < maxSize → (ticks k).nanos ≤ (ticks (k + 1)).nanos) ∧
      (printout ticks maxSize)[9999]? = some ⟨1, 0, 18446744072709651616, false⟩ ∧
      elapsed (ticks 9999) (ticks 10000) = 100000 ∧ ¬ Correct ticks maxSize := by
  have hrow : (printout ticks maxSize)[9999]? = some ⟨1, 0, 18446744072709651616, false⟩ :=
    printout_getElem? (by decide)
  have helapsed : elapsed (ticks 9999) (ticks 10000) = 100000 := by decide
  refine ⟨fun k _ => ticks_le k, hrow, helapsed, fun h => ?_⟩
  obtain ⟨r, hr, hexact⟩ := h 9999 (by decide)
  obtain rfl := Option.some.inj (hrow.symm.trans hr)
  have hdelta := hexact.delta
  rw [helapsed] at hdelta
  cases hdelta

end Printout

end El32.Sched

import El32.Scheduling.Pscheduling
import El32.Scheduling.Workload

/-! `setgrid` on the processes of a workload: when it returns, and the marks that it draws. -/
namespace El32.Scheduling
open Decimal JavaInt Loop Finset
set_option autoImplicit false

/-! ## The axis -/

namespace Board
variable {b : Board}

/-- `k` rounds are left up to a greatest time before the greatest `int`. -/
theorem rounds_marks (h : b.inc2 < maxInt) (k : ℕ) {j : ℤ} (hj : -2147483648 ≤ j)
    (hk : j + k = b.inc2 + 1) (c : ℤ) (marks : List (ℤ × ℤ)) :
    rounds (fun s => s.j ≤ b.inc2) (fun s => some (b.drawMark s)) k ⟨j, wrap c, marks⟩ =
      some ⟨b.inc2 + 1, wrap (c + k), marks ++ (List.range k).map fun i : ℕ =>
        (j + i, wrap (b.hbuf + (c + i) * b.hinc))⟩ := by
  unfold maxInt at h
  induction k generalizing j c marks with
  | zero =>
    have hend : j = b.inc2 + 1 := by simpa using hk
    subst hend
    rw [rounds_of_not (by simp)]
    simp
  | succ k ih =>
    rw [Nat.cast_add, Nat.cast_one] at hk
    have hfits : FitsInt (j + 1) := by constructor <;> omega
    have hmark : b.drawMark ⟨j, wrap c, marks⟩ =
        ⟨j + 1, wrap (c + 1), marks ++ [(j, wrap (b.hbuf + c * b.hinc))]⟩ := by
      rw [drawMark, wrap_of_fits hfits, wrap_wrap_add, wrap_wrap_mul, wrap_add_wrap]
    rw [rounds_succ, if_pos (decide_eq_true (by dsimp only; omega)), hmark, Option.bind_some,
      ih (by omega) (by omega), List.append_assoc, List.range_succ_eq_map, List.map_cons,
      List.map_map, List.singleton_append]
    simp only [Function.comp_def, Nat.cast_succ, Nat.cast_zero, add_zero, add_assoc,
      add_comm (1 : ℤ)]

/-- With the greatest `int` at its end the loop goes round: the next time is the least `int`. -/
theorem rounds_endless (h : b.inc2 = maxInt) (k : ℕ) {s : Axis} (hj : -2147483648 ≤ s.j)
    (hk : s.j + k = maxInt) :
    rounds (fun s => s.j ≤ b.inc2) (fun s => some (b.drawMark s)) (k + 1) s = none := by
  induction k generalizing s with
  | zero =>
    have hend : s.j = maxInt := by simpa using hk
    have hnext : (b.drawMark s).j = -2147483648 := by rw [drawMark, hend, wrap_maxInt_succ]
    rw [rounds_succ, if_pos (by simp [hend, h]), Option.bind_some, rounds,
      if_pos (by simp [hnext, h, maxInt])]
  | succ k ih =>
    rw [Nat.cast_add, Nat.cast_one] at hk
    have hfits : FitsInt (s.j + 1) := by
      unfold maxInt at hk
      constructor <;> omega
    have hnext : (b.drawMark s).j = s.j + 1 := wrap_of_fits hfits
    rw [rounds_succ, if_pos (decide_eq_true (by omega)), Option.bind_some]
    exact ih (by omega) (by omega)

theorem axis_marks (h : b.inc2 < maxInt) (hlow : -2147483648 ≤ b.inc1) {k : ℕ}
    (hk : b.inc1 + k = b.inc2 + 1) : ∃ s, b.axis = some s ∧
      s.marks = (List.range k).map fun i : ℕ => (b.inc1 + i, wrap (b.hbuf + i * b.hinc)) := by
  have hrounds := rounds_marks h k hlow hk 0 []
  have hlen : (b.inc2 + 1 - b.inc1).toNat = k := by omega
  rw [wrap_of_fits (by decide : FitsInt 0)] at hrounds
  refine ⟨_, by rw [axis, whileLoop, hlen, hrounds], ?_⟩
  simp

theorem axis_endless (h : b.inc2 = maxInt) (hlow : -2147483648 ≤ b.inc1) (hle : b.inc1 ≤ maxInt) :
    b.axis = none := by
  obtain ⟨k, hk⟩ : ∃ k : ℕ, b.inc1 + k = maxInt := ⟨(maxInt - b.inc1).toNat, by omega⟩
  have hlen : (b.inc2 + 1 - b.inc1).toNat = k + 1 := by omega
  rw [axis, whileLoop, hlen]
  exact rounds_endless h k hlow hk

end Board

/-! ## The grid of a workload -/

namespace Workload
variable {n : ℕ}

/-- The least arrival and the sum of the services, as the loop of `setgrid` finds them. -/
theorem foldl_extend (heap : Fin n → Process) (js : List (Fin n)) (b : Board) :
    (∀ a, a ≤ (js.foldl (fun b k => b.extend (heap k)) b).inc1 ↔
      a ≤ b.inc1 ∧ ∀ j ∈ js, a ≤ (heap j).arrivalTime) ∧
      (FitsInt b.inc2 → (js.foldl (fun b k => b.extend (heap k)) b).inc2 =
        wrap (b.inc2 + (js.map fun j => (heap j).serviceTime).sum)) := by
  induction js generalizing b with
  | nil => exact ⟨by simp, fun h => by simp [wrap_of_fits h]⟩
  | cons k js ih =>
    obtain ⟨hleast, hsum⟩ := ih (b.extend (heap k))
    refine ⟨fun a => ?_, fun _ => ?_⟩
    · have hk : a ≤ (b.extend (heap k)).inc1 ↔ a ≤ b.inc1 ∧ a ≤ (heap k).arrivalTime := by
        unfold Board.extend
        dsimp only
        split <;> omega
      rw [List.foldl_cons, hleast, hk, List.forall_mem_cons, and_assoc]
    · rw [List.foldl_cons, hsum (fits_wrap _), List.map_cons, List.sum_cons, ← add_assoc]
      exact wrap_wrap_add _ _

/-- `setgrid` finds the least arrival and a column for each unit of service; then it draws the axis. -/
theorem setgrid_heap (w : Workload n) (width height : ℤ) :
    ∃ b : Board, b.inc1 = w.base ∧ b.inc2 = w.base + ∑ i, w.service i ∧
      ∀ old, setgrid w.heap width height old (List.finRange n) = b.draw := by
  obtain ⟨j, js, hjs⟩ : ∃ j js, List.finRange n = j :: js := by
    refine List.exists_cons_of_ne_nil fun h => ?_
    have hlen := congrArg List.length h
    have hpos := w.entered
    rw [List.length_finRange, List.length_nil] at hlen
    omega
  have hsum : ∑ i, w.service i = w.service j + (js.map w.service).sum := by
    rw [Fin.sum_univ_def, hjs, List.map_cons, List.sum_cons]
  have hpos := w.total_nonneg
  have htotal := w.total_le
  have hend := w.lastArrival_add_le
  have hlow := w.base_ge
  have hfits : ∀ v : ℤ, 0 ≤ v → v ≤ maxInt → FitsInt v := fun v h0 hv => by
    unfold maxInt at hv
    constructor <;> omega
  have hfirst : FitsInt (w.service j) :=
    hfits _ (w.service_pos j).le ((w.service_le j).trans htotal)
  obtain ⟨hleast, hinc2⟩ := foldl_extend w.heap js
    ⟨javaLength (w.name j), w.arrival j, w.service j, 0, 0, []⟩
  simp only [hjs, setgrid, measures]
  dsimp only [heap, Process.create, Except.bind] at hleast hinc2 ⊢
  generalize js.foldl _ _ = b at hleast hinc2 ⊢
  have hbase : b.inc1 = w.base := by
    refine eq_of_forall_le_iff fun a => ?_
    rw [hleast, base, le_inf'_iff]
    constructor
    · rintro ⟨hj, hall⟩ i -
      have hi := List.mem_finRange i
      rw [hjs, List.mem_cons] at hi
      rcases hi with rfl | hi
      · exact hj
      · exact hall i hi
    · exact fun hall => ⟨hall j (mem_univ j), fun i _ => hall i (mem_univ i)⟩
  have hservice : b.inc2 = ∑ i, w.service i := by
    rw [hinc2 hfirst, ← hsum, wrap_of_fits (hfits _ hpos htotal)]
  have haxis : wrap (b.inc2 + b.inc1) = w.base + ∑ i, w.service i := by
    rw [hservice, hbase, add_comm]
    refine wrap_of_fits ?_
    unfold maxInt at hend
    constructor <;> omega
  have hcolumns : b.columns ≠ 0 := by
    rw [Board.columns, wrap_wrap_add, haxis, hbase, add_sub_cancel_left]
    intro hzero
    have hinj := (wrap_inj (v := ∑ i, w.service i + 2) (u := 0) ?_).mp hzero
    · omega
    · unfold maxInt at htotal
      rw [abs_lt]
      constructor <;> omega
  refine ⟨b.laid width height (j :: js).length, hbase, haxis, fun old => ?_⟩
  rw [if_neg (by omega), if_neg hcolumns]

theorem setgrid_ok (w : Workload n) (width height : ℤ) (h : w.base + ∑ i, w.service i < maxInt) :
    ∃ b, (∀ old, setgrid w.heap width height old (List.finRange n) = .ok b) ∧ b.inc1 = w.base ∧
      b.marks = (List.range (∑ i, w.jobs.service i + 1)).map fun k : ℕ =>
        (w.base + k, wrap (b.hbuf + k * b.hinc)) := by
  obtain ⟨b, hinc1, hinc2, hgrid⟩ := w.setgrid_heap width height
  have htotal := w.sum_jobs_service
  obtain ⟨s, hs, hmarks⟩ := b.axis_marks (k := ∑ i, w.jobs.service i + 1) (by rwa [hinc2])
    (by rw [hinc1]; exact w.base_ge) (by rw [hinc1, hinc2]; omega)
  rw [Board.draw, hs] at hgrid
  exact ⟨_, hgrid, hinc1, by rw [hmarks, hinc1]⟩

theorem setgrid_endless (w : Workload n) (width height : ℤ)
    (h : w.base + ∑ i, w.service i = maxInt) (old : Bool) :
    setgrid w.heap width height old (List.finRange n) = .error .endless := by
  obtain ⟨b, hinc1, hinc2, hgrid⟩ := w.setgrid_heap width height
  have hpos := w.total_nonneg
  rw [hgrid, Board.draw, b.axis_endless (hinc2.trans h) (by rw [hinc1]; exact w.base_ge) (by omega)]

end Workload

end El32.Scheduling

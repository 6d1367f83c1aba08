import El32.Scheduling.Runs
import Mathlib.Algebra.Order.Ring.Abs
import Mathlib.Tactic.Ring

/-! The chart of a run. `paintBoard` puts one bar after the other and leaves no room for idle units. -/
namespace El32.Scheduling
open JavaInt UnitSchedule Finset
set_option autoImplicit false

variable {n : ℕ} {w : Workload n} {s s' : State (Fin n)} {a : Algorithm}

/-! ## The bars that are kept -/

/-- The grid holds the numbers of the processes that were served, in their order. -/
def Drawn (s : State (Fin n)) : Prop := s.grid = s.slots.filterMap (Option.map Fin.val)

theorem Drawn.pass (h : Drawn s) : Drawn s.pass := by
  show s.grid = (s.slots ++ [none]).filterMap (Option.map Fin.val)
  rw [h, List.filterMap_append]
  exact (List.append_nil _).symm

theorem Drawn.serve (h : Drawn s) (hnum : ∀ i, (s.heap i).processNum = i) (p : Fin n) :
    Drawn (s.serve p) := by
  show s.grid ++ [(s.heap p).processNum] = (s.slots ++ [some p]).filterMap (Option.map Fin.val)
  rw [h, hnum, List.filterMap_append]
  rfl

theorem Drawn.serveToEnd (h : Drawn s) (hnum : ∀ i, (s.heap i).processNum = i)
    (hrun : s.serveToEnd = some s') : Drawn s' := by
  obtain ⟨p, -, rfl⟩ := Option.map_eq_some_iff.mp hrun
  have hserve := h.serve hnum p
  dsimp only
  split
  · exact hserve
  · exact hserve

theorem Drawn.serveQuantum (h : Drawn s) (hnum : ∀ i, (s.heap i).processNum = i) {quantum : ℤ}
    (hrun : s.serveQuantum quantum = some s') : Drawn s' := by
  obtain ⟨p, -, rfl⟩ := Option.map_eq_some_iff.mp hrun
  have hserve := h.serve hnum p
  dsimp only
  split
  · exact hserve
  · split
    · exact hserve
    · exact hserve

theorem Drawn.runToEnd (h : Drawn s) (hnum : ∀ i, (s.heap i).processNum = i)
    {choose : State (Fin n) → Option (Fin n)} (hrun : s.runToEnd choose = some s') : Drawn s' := by
  unfold State.runToEnd at hrun
  split at hrun
  · split at hrun
    · obtain rfl := Option.some.inj hrun
      exact h.pass
    · obtain ⟨p, -, hrun⟩ := Option.bind_eq_some_iff.mp hrun
      exact Drawn.serveToEnd (s := { s with idle := false, p := some p, readyQ := _ }) h hnum hrun
  · exact h.serveToEnd hnum hrun

theorem Drawn.runQuantum (h : Drawn s) (hnum : ∀ i, (s.heap i).processNum = i) {quantum : ℤ}
    {choose : State (Fin n) → Option (Fin n)} (hrun : s.runQuantum quantum choose = some s') :
    Drawn s' := by
  unfold State.runQuantum at hrun
  rw [clearInterrupt_eq] at hrun
  split at hrun
  · dsimp only at hrun
    split at hrun
    · obtain rfl := Option.some.inj hrun
      exact Drawn.pass (s := { s with interrupt := _, interval := _ }) h
    · obtain ⟨p, -, hrun⟩ := Option.bind_eq_some_iff.mp hrun
      refine Drawn.serveQuantum (s := { (State.advance _) with p := some p, idle := false }) ?_ ?_ hrun
      · exact h
      · exact hnum
  · exact h.serveQuantum hnum hrun

theorem Drawn.iteration (h : Drawn s) (hinv : Inv w a s) (hrun : iteration a s = some s') :
    Drawn s' := by
  have hnum : ∀ i, (s.heap i).processNum = i := fun i => (hinv.stands.account.entered i).2.2.2
  have harrived : Drawn (w.arrive s.slots.length s) := h
  rw [iteration_eq hinv.stands] at hrun
  cases a with
  | fcfs =>
    rw [Algorithm.branch, State.fcfs] at hrun
    exact harrived.runToEnd hnum hrun
  | spn =>
    rw [Algorithm.branch, State.spn] at hrun
    exact harrived.runToEnd hnum hrun
  | rr1 => exact harrived.runQuantum hnum hrun
  | rr4 => exact harrived.runQuantum hnum hrun
  | srt =>
    rw [Algorithm.branch, State.srt] at hrun
    exact harrived.runQuantum hnum hrun

/-! ## Where the bars stand -/

/-- Where the mark of the time `T` stands, before the `int` wraps around. -/
def Board.mark (b : Board) (T : ℤ) : ℤ := b.hbuf + (T - b.inc1) * b.hinc

theorem Board.bar_eq (b : Board) (k : ℤ) :
    wrap (b.hbuf + wrap (b.hinc * wrap (k - b.inc1))) = wrap (b.hbuf + b.hinc * (k - b.inc1)) := by
  rw [wrap_add_wrap, ← wrap_add_wrap, wrap_mul_wrap, wrap_add_wrap]

theorem measures_congr {heap heap' : Fin n → Process}
    (h : ∀ i, (heap i).name = (heap' i).name ∧ (heap i).arrivalTime = (heap' i).arrivalTime ∧
      (heap i).serviceTime = (heap' i).serviceTime) (l : List (Fin n)) :
    measures heap l = measures heap' l := by
  have hextend : ∀ b i, Board.extend b (heap i) = Board.extend b (heap' i) := fun b i => by
    rw [Board.extend, Board.extend, (h i).1, (h i).2.1, (h i).2.2]
  cases l with
  | nil => rfl
  | cons j js =>
    dsimp only [measures]
    simp only [hextend, (h j).1, (h j).2.1, (h j).2.2]

/-- The units of service before `t`. -/
def barOf (slots : List (Option (Fin n))) (t : ℕ) : ℕ :=
  ((slots.take t).filterMap (Option.map Fin.val)).length

theorem barOf_add_count (slots : List (Option (Fin n))) (t : ℕ) :
    barOf slots t + (slots.take t).count none = (slots.take t).length := by
  unfold barOf
  induction slots.take t with
  | nil => rfl
  | cons x l ih =>
    cases x with
    | none =>
      simp only [List.filterMap_cons, Option.map_none, List.count_cons_self, List.length_cons]
      omega
    | some i =>
      simp only [List.filterMap_cons, Option.map_some, List.length_cons,
        List.count_cons_of_ne (Option.some_ne_none i)]
      omega

theorem grid_barOf (h : Drawn s) {t : ℕ} {i : Fin n} (ht : history s.slots t = some i) :
    s.grid[barOf s.slots t]? = some (i : ℕ) := by
  have hlt := lt_of_history ht
  have hsplit : s.slots = s.slots.take t ++ some i :: s.slots.drop (t + 1) := by
    rw [← ht, history_of_lt hlt, List.cons_getElem_drop_succ, List.take_append_drop]
  rw [h]
  conv_lhs => rw [hsplit]
  rw [List.filterMap_append, ← hsplit, barOf, List.getElem?_append_right le_rfl, Nat.sub_self]
  rfl

/-- The first and the last unit of a run serve a process. -/
theorem Completed.first (h : Completed w s) : history s.slots 0 ≠ none := by
  obtain ⟨i, hi⟩ := w.exists_base
  have harrival := w.jobs_arrival i
  exact fun hnone => h.conserving 0 hnone i ⟨by omega, w.jobs_service_pos i⟩

theorem Completed.last_served (h : Completed w s) :
    history s.slots (s.slots.length - 1) ≠ none := by
  obtain ⟨i, hi⟩ := Option.ne_none_iff_exists'.mp h.first
  have hpos := lt_of_history hi
  have hne : s.slots ≠ [] := List.length_pos_iff.mp hpos
  rw [history_of_lt (by omega), ← List.getLast_eq_getElem hne]
  exact fun hnone => h.last (by rw [List.getLast?_eq_some_getLast hne, hnone])

theorem Completed.none_notMem_iff (h : Completed w s) :
    none ∉ s.slots ↔ ∀ t, history s.slots t ≠ none → (s.slots.take t).count none = 0 := by
  simp only [List.count_eq_zero]
  refine ⟨fun hnone t _ hmem => hnone (List.mem_of_mem_take hmem), fun hall hmem => ?_⟩
  have hne : s.slots ≠ [] := List.ne_nil_of_mem hmem
  have hlast : s.slots.getLast hne ≠ none := fun hnone =>
    h.last (by rw [List.getLast?_eq_some_getLast hne, hnone])
  have hbefore := hall (s.slots.length - 1) h.last_served
  rw [← List.dropLast_eq_take] at hbefore
  rw [← List.dropLast_append_getLast hne, List.mem_append, List.mem_singleton] at hmem
  exact hmem.elim hbefore fun heq => hlast heq.symm

theorem Completed.count_eq (h : Completed w s) (i : Fin n) :
    s.slots.count (some i) = w.jobs.service i := by
  refine le_antisymm ?_ (h.served i)
  rw [← served_history_of_le le_rfl]
  exact served_le h.valid i _

theorem Completed.length_eq (h : Completed w s) :
    s.slots.length = ∑ i, w.jobs.service i + s.slots.count none := by
  rw [length_eq_sum_count]
  simp only [h.count_eq]

/-- A bar that is displaced by less than `2 ^ 32` stands at its time when it is not displaced. -/
theorem Completed.displacement_lt (h : Completed w s) {hinc : ℤ}
    (hroom : |hinc| * (|w.base| + w.lastArrival) < 4294967296) (t : ℕ) :
    |hinc * (w.base + (s.slots.take t).count none)| < 4294967296 := by
  have hlen := h.length_eq
  have hle := h.length
  have htake : (s.slots.take t).count none ≤ s.slots.count none :=
    (List.take_sublist t s.slots).count_le none
  have habs : |w.base + (s.slots.take t).count none| ≤ |w.base| + w.lastArrival := by
    refine (abs_add_le _ _).trans ?_
    rw [Nat.abs_cast]
    omega
  rw [abs_mul]
  exact (mul_le_mul_of_nonneg_left habs (abs_nonneg hinc)).trans_lt hroom

/-! ## Where the marks and the bars are -/

/-- The marks of the axis, time by time. -/
theorem mem_marks_iff {b : Board} (hbase : b.inc1 = w.base)
    (hmarks : b.marks = (List.range (∑ i, w.jobs.service i + 1)).map fun k : ℕ =>
      (w.base + k, wrap (b.hbuf + k * b.hinc))) (T x : ℤ) :
    (T, x) ∈ b.marks ↔
      (w.base ≤ T ∧ T ≤ w.base + ∑ i, w.service i) ∧ x = wrap (b.mark T) := by
  rw [hmarks, List.mem_map, ← w.sum_jobs_service]
  constructor
  · rintro ⟨k, hk, heq⟩
    obtain ⟨rfl, rfl⟩ := Prod.mk.inj heq
    rw [List.mem_range] at hk
    rw [Board.mark, hbase, add_sub_cancel_left]
    exact ⟨by omega, rfl⟩
  · rintro ⟨hT, rfl⟩
    obtain ⟨k, hk⟩ : ∃ k : ℕ, T = w.base + k := ⟨(T - w.base).toNat, by omega⟩
    refine ⟨k, List.mem_range.mpr (by omega), ?_⟩
    rw [Board.mark, hbase, hk, add_sub_cancel_left]

/-- The bar of a unit of service: the idle units before it have none. -/
theorem Drawn.bar {b : Board} (h : Drawn s) (hbase : b.inc1 = w.base) {t : ℕ} {i : Fin n}
    (ht : history s.slots t = some i) : (b.bars s.grid)[barOf s.slots t]? =
      some (wrap (b.mark (w.base + t) - b.hinc * (w.base + (s.slots.take t).count none)),
        wrap (30 + (i : ℕ) * b.vinc)) := by
  have hcount := barOf_add_count s.slots t
  rw [List.length_take, Nat.min_eq_left (lt_of_history ht).le] at hcount
  have hplace : b.hbuf + b.hinc * (barOf s.slots t - b.inc1) =
      b.mark (w.base + t) - b.hinc * (w.base + (s.slots.take t).count none) := by
    have hcast : (t : ℤ) = barOf s.slots t + (s.slots.take t).count none := by omega
    rw [Board.mark, hbase, hcast]
    ring
  rw [Board.bars, List.getElem?_mapIdx, grid_barOf h ht, Option.map_some, b.bar_eq, hplace,
    wrap_add_wrap]

/-- A bar stands at its time when the time has a mark and nothing displaces the bar. -/
theorem Completed.stands_iff {b : Board} (h : Completed w s) (hdrawn : Drawn s)
    (hbase : b.inc1 = w.base) (hmark : ∀ T x, (T, x) ∈ b.marks ↔
      (w.base ≤ T ∧ T ≤ w.base + ∑ i, w.service i) ∧ x = wrap (b.mark T))
    (hroom : |b.hinc| * (|w.base| + w.lastArrival) < 4294967296) {t : ℕ} {i : Fin n}
    (ht : history s.slots t = some i) :
    (∃ x y, (b.bars s.grid)[barOf s.slots t]? = some (x, y) ∧ (w.base + t, x) ∈ b.marks) ↔
      t ≤ ∑ i, w.jobs.service i ∧ (b.hinc = 0 ∨ w.base + (s.slots.take t).count none = 0) := by
  have htotal := w.sum_jobs_service
  have hsame : wrap (b.mark (w.base + t) - b.hinc * (w.base + (s.slots.take t).count none)) =
      wrap (b.mark (w.base + t)) ↔ b.hinc = 0 ∨ w.base + (s.slots.take t).count none = 0 := by
    rw [wrap_inj, sub_eq_self, mul_eq_zero]
    rw [sub_sub_cancel_left, abs_neg]
    exact h.displacement_lt hroom t
  rw [hdrawn.bar hbase ht, ← hsame]
  simp only [Option.some.injEq, Prod.mk.injEq, hmark]
  constructor
  · rintro ⟨x, y, ⟨rfl, rfl⟩, hT, hx⟩
    exact ⟨by omega, hx⟩
  · rintro ⟨hT, hx⟩
    exact ⟨_, _, ⟨rfl, rfl⟩, by omega, hx⟩

/-- The first and the last unit decide: the least arrival displaces the one, every idle unit the
other. -/
theorem Completed.all_stand_iff (h : Completed w s) (hinc : ℤ) :
    (∀ t i, history s.slots t = some i → t ≤ ∑ i, w.jobs.service i ∧
      (hinc = 0 ∨ w.base + (s.slots.take t).count none = 0)) ↔
      hinc = 0 ∧ s.slots.count none ≤ 1 ∨ w.base = 0 ∧ none ∉ s.slots := by
  have hlen := h.length_eq
  constructor
  · intro hall
    by_cases hzero : hinc = 0
    · obtain ⟨i, hi⟩ := Option.ne_none_iff_exists'.mp h.last_served
      have hle := (hall _ i hi).1
      exact .inl ⟨hzero, by omega⟩
    have hnone : ∀ t, history s.slots t ≠ none →
        w.base + (s.slots.take t).count none = 0 := fun t ht => by
      obtain ⟨i, hi⟩ := Option.ne_none_iff_exists'.mp ht
      exact (hall t i hi).2.resolve_left hzero
    have hfirst := hnone 0 h.first
    rw [List.take_zero, List.count_nil, Nat.cast_zero, add_zero] at hfirst
    refine .inr ⟨hfirst, h.none_notMem_iff.mpr fun t ht => ?_⟩
    have hlater := hnone t ht
    omega
  · rintro (⟨hzero, hidle⟩ | ⟨hbase, hnone⟩) t i ht
    · have hlt := lt_of_history ht
      exact ⟨by omega, .inl hzero⟩
    · have hlt := lt_of_history ht
      have hidle : s.slots.count none = 0 := List.count_eq_zero.mpr hnone
      have hcount := h.none_notMem_iff.mp hnone t (by rw [ht]; exact Option.some_ne_none i)
      exact ⟨by omega, .inr (by rw [hcount, hbase]; rfl)⟩

/-- A run changes nothing that the chart is laid out by. -/
theorem Inv.measures_eq (h : Inv w a s) :
    measures s.heap (List.finRange n) = measures w.heap (List.finRange n) := by
  have hentered := h.stands.account.entered
  exact measures_congr (fun i => ⟨(hentered i).1, (hentered i).2.1, (hentered i).2.2.1⟩) _

/-- **The chart**: the bar of a unit of service stands left of the mark of its time by a column for
each time before the least arrival and each idle unit before it; the last units have no mark at all
when more than one unit was idle. -/
theorem chart_displaced (w : Workload n) (a : Algorithm) (width height : ℤ)
    (haxis : w.base + ∑ i, w.service i < maxInt) : ∃ b s,
    Returns a w.start s ∧ setgrid w.heap width height false (List.finRange n) = .ok b ∧
    paintBoard s.heap width height (List.finRange n) s.grid = .ok (b.bars s.grid) ∧
    (∀ T x, (T, x) ∈ b.marks ↔
      (w.base ≤ T ∧ T ≤ w.base + ∑ i, w.service i) ∧ x = wrap (b.mark T)) ∧
    (∀ t i, history s.slots t = some i → (b.bars s.grid)[barOf s.slots t]? =
      some (wrap (b.mark (w.base + t) - b.hinc * (w.base + (s.slots.take t).count none)),
        wrap (30 + (i : ℕ) * b.vinc))) ∧
    (|b.hinc| * (|w.base| + w.lastArrival) < 4294967296 →
      ((∀ t i, history s.slots t = some i → ∃ x y,
        (b.bars s.grid)[barOf s.slots t]? = some (x, y) ∧ (w.base + t, x) ∈ b.marks) ↔
      b.hinc = 0 ∧ s.slots.count none ≤ 1 ∨ w.base = 0 ∧ none ∉ s.slots)) := by
  obtain ⟨b, hgrid, hbase, hmarks⟩ := w.setgrid_ok width height haxis
  obtain ⟨s, hs⟩ := exists_returns w a
  have hcompleted := completed_of_returns hs
  obtain ⟨hinv, hdrawn, -⟩ := returns_keeps (I := Drawn) rfl
    (fun s s' hinv hdrawn _ hrun => hdrawn.iteration hinv hrun) hs
  have hmark := mem_marks_iff hbase hmarks
  refine ⟨b, s, hs, hgrid false, ?_, hmark, fun t i ht => hdrawn.bar hbase ht, fun hroom => ?_⟩
  · rw [paintBoard, setgrid, hinv.measures_eq, ← setgrid, hgrid]
    rfl
  · rw [← hcompleted.all_stand_iff]
    exact forall₂_congr fun t i =>
      forall_congr' fun ht => hcompleted.stands_iff hdrawn hbase hmark hroom ht

/-- The first process arrives at 1, and the second when the processor was idle for two units. -/
def apart : Workload 2 where
  name := fun i => toString i
  arrival := ![1, 5]
  service := ![2, 1]
  entered := by decide
  service_pos := by decide
  arrival_ge := by decide
  total_le := by decide
  end_le := by decide

theorem apart_base : apart.base = 1 := by
  obtain ⟨i, hi⟩ := apart.exists_base
  have hle := apart.base_le 0
  have hall : ∀ i, 1 ≤ apart.arrival i := by decide
  have hge := hall i
  exact le_antisymm hle (hi ▸ hge)

/-- Its bars do not stand at their times. -/
theorem chart_displaced_apart : ∃ b s, Returns .fcfs apart.start s ∧
    setgrid apart.heap 800 300 false (List.finRange 2) = .ok b ∧
    ¬ ∀ t i, history s.slots t = some i → ∃ x y,
      (b.bars s.grid)[barOf s.slots t]? = some (x, y) ∧ (apart.base + t, x) ∈ b.marks := by
  have hbase := apart_base
  obtain ⟨b, s, hs, hgrid, -, -, -, hiff⟩ := chart_displaced apart .fcfs 800 300
    (by rw [hbase]; decide)
  have hinc : b.hinc = 158 := by
    have hmap : (setgrid apart.heap 800 300 false (List.finRange 2)).map (·.hinc) = .ok 158 := rfl
    rw [hgrid] at hmap
    exact Except.ok.inj hmap
  have hlast : apart.lastArrival ≤ 4 := Finset.sup_le fun i _ => by
    have hall : ∀ i, apart.arrival i ≤ 5 := by decide
    have hle := hall i
    have harrival := apart.jobs_arrival i
    omega
  have hroom : |b.hinc| * (|apart.base| + apart.lastArrival) < 4294967296 := by
    rw [hinc, hbase, abs_one]
    norm_num
    omega
  refine ⟨b, s, hs, hgrid, ?_⟩
  rw [hiff hroom, hinc, hbase]
  simp

end El32.Scheduling

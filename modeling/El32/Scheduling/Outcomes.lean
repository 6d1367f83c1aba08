import El32.Foundations.NonPreemptive
import El32.Scheduling.Runs

/-! What the algorithms achieve: the same work, the order of the finish queue, and the least sum of the
turnaround times. -/
namespace El32.Scheduling
open UnitSchedule Finset
set_option autoImplicit false

variable {n : ℕ} {w : Workload n} {s t : State (Fin n)} {a : Algorithm}

theorem Completed.finish (h : Completed w s) (i : Fin n) : ∃ f,
    FinishesAt w.jobs (history s.slots) i f ∧ (s.heap i).finishTime = w.base + f ∧
      (s.heap i).tq = w.base + f - w.arrival i := by
  obtain ⟨f, -, hf, heq⟩ := h.reported i
  exact ⟨f, hf, by rw [heq], by rw [heq]⟩

theorem follows_of_returns (h : Returns a w.start s) : Follows (rule w a) s.slots :=
  (returns_keeps (I := fun _ => True) trivial (fun _ _ _ _ _ _ => trivial) h).1.follows

/-! ## The same work -/

theorem slots_none_iff {l : List (Option (Fin n))} {k : ℕ} :
    l[k]? = some none ↔ k < l.length ∧ history l k = none := by
  rw [List.getElem?_eq_some_iff]
  constructor
  · rintro ⟨hk, h⟩
    exact ⟨hk, (history_of_lt hk).trans h⟩
  · rintro ⟨hk, h⟩
    exact ⟨hk, (history_of_lt hk).symm.trans h⟩

theorem Completed.length_le (hs : Completed w s) (ht : Completed w t) :
    t.slots.length ≤ s.slots.length := by
  by_contra hlt
  have hidle := idle_eq hs.valid hs.conserving ht.valid ht.conserving (t.slots.length - 1)
  have hin : t.slots.length - 1 < t.slots.length := by omega
  have hnone := hidle.mp (history_of_le (by omega))
  refine ht.last ?_
  rw [List.getLast?_eq_getElem?]
  exact slots_none_iff.mpr ⟨hin, hnone⟩

/-- **All algorithms are idle in the same units** and end at the same time. -/
theorem same_idle (w : Workload n) (a b : Algorithm) : ∃ s t, Returns a w.start s ∧
    Returns b w.start t ∧ s.clock = t.clock ∧
    ∀ k : ℕ, s.slots[k]? = some none ↔ t.slots[k]? = some none := by
  obtain ⟨s, hs⟩ := exists_returns w a
  obtain ⟨t, ht⟩ := exists_returns w b
  have hcs := completed_of_returns hs
  have hct := completed_of_returns ht
  have hlen : s.slots.length = t.slots.length :=
    le_antisymm (hct.length_le hcs) (hcs.length_le hct)
  refine ⟨s, t, hs, ht, ?_, fun k => ?_⟩
  · have hclock := hcs.clock
    rw [hlen, ← hct.clock] at hclock
    omega
  · rw [slots_none_iff, slots_none_iff, hlen,
      idle_eq hcs.valid hcs.conserving hct.valid hct.conserving]

/-! ## One process after the other -/

/-- The finishing times of processes that are served one after the other from `c` on. -/
def departures (w : Workload n) : ℤ → List (Fin n) → List ℤ
  | _, [] => []
  | c, i :: is =>
    (max c (w.arrival i) + w.service i) :: departures w (max c (w.arrival i) + w.service i) is

theorem Completed.departures (h : Completed w s) (hn : NonPreemptive w.jobs (history s.slots))
    (later earlier : List (Fin n)) (F : ℕ) (hq : s.finishQ = earlier ++ later)
    (hle : ∀ i ∈ earlier, (s.heap i).finishTime ≤ w.base + F)
    (hF : F = 0 ∨ ∃ i ∈ earlier, FinishesAt w.jobs (history s.slots) i F) :
    later.map (fun i => (s.heap i).finishTime) = departures w (w.base + F) later := by
  induction later generalizing earlier F with
  | nil => rfl
  | cons j later ih =>
    have hordered := h.ordered
    rw [hq, List.pairwise_append, List.pairwise_cons] at hordered
    obtain ⟨g, hg, hgtime, -⟩ := h.finish j
    have hother : ∀ i f, FinishesAt w.jobs (history s.slots) i f →
        (s.heap i).finishTime = w.base + f := fun i f hf => by
      obtain ⟨f', hf', htime, -⟩ := h.finish i
      rw [htime, hf'.unique hf]
    have heq : g = max F (w.jobs.arrival j) + w.jobs.service j := by
      refine hn.finish_eq h.valid h.conserving w.jobs_service_pos
        (fun i => (h.finish i).imp fun _ hf => hf.1) hg (fun i f hf hlt => ?_) (hF.imp_right ?_)
      · have htime := hother i f hf
        have hmem := (h.finishQ.mem_iff.mpr (List.mem_finRange i))
        rw [hq, List.mem_append, List.mem_cons] at hmem
        rcases hmem with hi | rfl | hi
        · have hbound := hle i hi
          omega
        · exact absurd (hf.unique hg) hlt.ne
        · have hlate := hordered.2.1.1 i hi
          omega
      · rintro ⟨i, hi, hf⟩
        have hearly := hordered.2.2 i hi j List.mem_cons_self
        have htime := hother i F hf
        exact ⟨by omega, i, hf⟩
    have hnext : max (w.base + F) (w.arrival j) + w.service j = w.base + g := by
      have harrival := w.jobs_arrival j
      have hservice := w.jobs_service j
      omega
    have hrest := ih (earlier ++ [j]) g (by rw [hq, List.append_assoc]; rfl)
      (fun i hi => ?_) (.inr ⟨j, by simp, hg⟩)
    · rw [List.map_cons, Scheduling.departures, hnext, hgtime, hrest]
    · rcases List.mem_append.mp hi with hi | hi
      · exact (hordered.2.2 i hi j List.mem_cons_self).le.trans hgtime.le
      · obtain rfl := List.mem_singleton.mp hi
        exact hgtime.le

theorem finish_departures (h : Returns a w.start s) (hrule : ∀ l x, rule w a l x → Keeps w.jobs l x) :
    s.finishQ.map (fun i => (s.heap i).finishTime) = departures w w.base s.finishQ := by
  have hcompleted := completed_of_returns h
  have hdepartures := hcompleted.departures
    (((follows_of_returns h).mono hrule).nonPreemptive hcompleted.served) s.finishQ [] 0 rfl
    (fun _ hi => absurd hi List.not_mem_nil) (.inl rfl)
  rwa [Nat.cast_zero, add_zero] at hdepartures

theorem arrivals_ordered (k : ℕ) : (w.arrivals k).Pairwise fun i j =>
    w.arrival i < w.arrival j ∨ w.arrival i = w.arrival j ∧ i < j := by
  induction k with
  | zero => exact List.Pairwise.nil
  | succ k ih =>
    rw [Workload.arrivals_succ, List.pairwise_append]
    refine ⟨ih, ?_, fun i hi j hj => ?_⟩
    · refine ((List.pairwise_lt_finRange n).filter _).imp_of_mem fun {i j} hi hj hlt => ?_
      have hi := Workload.mem_new.mp hi
      have hj := Workload.mem_new.mp hj
      have hcast := w.jobs_arrival i
      have hcastj := w.jobs_arrival j
      exact .inr ⟨by omega, hlt⟩
    · have hi := Workload.mem_arrivals.mp hi
      have hj := Workload.mem_new.mp hj
      have hcast := w.jobs_arrival i
      have hcastj := w.jobs_arrival j
      exact .inl (by omega)

/-- **First come, first served**: in the order of their arrivals, and of their entries where they
arrive together, each is begun when the one before it is done or when it arrives. -/
theorem fcfs_order (w : Workload n) : ∃ s, Returns .fcfs w.start s ∧
    (s.finishQ.Pairwise fun i j =>
      w.arrival i < w.arrival j ∨ w.arrival i = w.arrival j ∧ i < j) ∧
    s.finishQ.map (fun i => (s.heap i).finishTime) = departures w w.base s.finishQ := by
  obtain ⟨s, hs⟩ := exists_returns w .fcfs
  refine ⟨s, hs, ?_, finish_departures hs fun _ _ hx => hx⟩
  have hmode := (returns_keeps (I := fun _ => True) trivial (fun _ _ _ _ _ _ => trivial) hs).1.mode.2
  have hsublist : s.finishQ.Sublist s.line :=
    (List.sublist_append_left _ _).trans (List.sublist_append_left _ _)
  rw [hmode] at hsublist
  exact (arrivals_ordered _).sublist hsublist

/-- **Shortest process next**: a process is begun when the one before it is done or when it arrives,
and has then the least service of those that have arrived and are not done. -/
theorem spn_order (w : Workload n) : ∃ s, Returns .spn w.start s ∧
    s.finishQ.map (fun i => (s.heap i).finishTime) = departures w w.base s.finishQ ∧
    ∀ i j, (s.heap i).finishTime < (s.heap j).finishTime →
      w.arrival j ≤ (s.heap i).finishTime - w.service i → w.service i ≤ w.service j := by
  obtain ⟨s, hs⟩ := exists_returns w .spn
  have hcompleted := completed_of_returns hs
  have hfollows := follows_of_returns hs
  refine ⟨s, hs, finish_departures hs fun _ _ hx => hx.1, fun i j hlt harrive => ?_⟩
  obtain ⟨f, hf, hftime, -⟩ := hcompleted.finish i
  obtain ⟨g, hg, hgtime, -⟩ := hcompleted.finish j
  obtain ⟨b, hb, hself, hzero⟩ := exists_first hf (w.jobs_service_pos i)
  have hn : NonPreemptive w.jobs (history s.slots) :=
    (hfollows.mono fun _ _ hx => hx.1).nonPreemptive hcompleted.served
  have hown := (hn.served_iff hcompleted.valid hf (w.jobs_service_pos i)).mp hself
  have hservice := w.jobs_service i
  have hservicej := w.jobs_service j
  have harrival := w.jobs_arrival j
  have hle := (hfollows.mono fun _ _ hx => hx.2).begins_least hself hzero
    (j := j) ⟨by omega, hg.2 b (by omega)⟩
  omega

/-! ## The least sum of turnaround times -/

theorem Completed.unfinished_eq (h : Completed w s) (T : ℕ) :
    unfinished w.jobs (history s.slots) T =
      univ.filter fun i => w.base + T < (s.heap i).finishTime := by
  ext i
  obtain ⟨f, hf, htime, -⟩ := h.finish i
  simp only [unfinished, mem_filter, mem_univ, true_and, hf.lt_iff, htime]
  omega

/-- A run that always serves a process with the least time left. -/
theorem Completed.sum_tq_le (hs : Completed w s) (hshort : Shortest w.jobs (history s.slots))
    (ht : Completed w t) : ∑ i, (s.heap i).tq ≤ ∑ i, (t.heap i).tq := by
  choose f hf _ hftq using hs.finish
  choose g hg _ hgtq using ht.finish
  have hle := sum_finish_le hs.valid hs.conserving hshort ht.valid hf hg
  have hsum : ∀ h : Fin n → ℕ, ∑ i, (w.base + h i - w.arrival i) =
      ((∑ i, h i : ℕ) : ℤ) + ∑ i, (w.base - w.arrival i) := fun h => by
    rw [Nat.cast_sum, ← sum_add_distrib]
    exact sum_congr rfl fun i _ => by omega
  simp only [hftq, hgtq, hsum]
  omega

/-- **Shortest remaining time** leaves at every time no more processes unfinished than any schedule of
the processor, and its sum of turnaround times is the least of all algorithms. -/
theorem srt_least (w : Workload n) : ∃ s, Returns .srt w.start s ∧
    (∀ τ, Valid w.jobs τ → ∀ T : ℕ, (univ.filter fun i => w.base + T < (s.heap i).finishTime).card ≤
      (unfinished w.jobs τ T).card) ∧
    ∀ a t, Returns a w.start t → ∑ i, (s.heap i).tq ≤ ∑ i, (t.heap i).tq := by
  obtain ⟨s, hs⟩ := exists_returns w .srt
  have hcompleted := completed_of_returns hs
  have hshort := (follows_of_returns hs).shortest
  refine ⟨s, hs, fun τ hτ T => ?_, fun a t ht => ?_⟩
  · rw [← hcompleted.unfinished_eq]
    exact unfinished_card_le hcompleted.valid hcompleted.conserving hshort hτ T
  · exact hcompleted.sum_tq_le hshort (completed_of_returns ht)

/-- Where all processes arrive together, **shortest process next** does as well. -/
theorem spn_least (w : Workload n) (h : ∀ i, w.arrival i = w.base) : ∃ s, Returns .spn w.start s ∧
    ∀ a t, Returns a w.start t → ∑ i, (s.heap i).tq ≤ ∑ i, (t.heap i).tq := by
  obtain ⟨s, hs⟩ := exists_returns w .spn
  have hcompleted := completed_of_returns hs
  have hfollows := follows_of_returns hs
  refine ⟨s, hs, fun a t ht => hcompleted.sum_tq_le ?_ (completed_of_returns ht)⟩
  refine ((hfollows.mono fun _ _ hx => hx.1).nonPreemptive hcompleted.served).shortest
    hcompleted.valid w.jobs_service_pos (fun i => (hcompleted.finish i).imp fun _ hf => hf.1)
    (fun i => ?_) fun t i ht hzero j hj => (hfollows.mono fun _ _ hx => hx.2).begins_least ht hzero hj
  have hcast := w.jobs_arrival i
  have heq := h i
  omega

/-- Three processes that arrive together. -/
def together : Workload 3 where
  name := fun i => toString i
  arrival := fun _ => 0
  service := ![3, 1, 2]
  entered := by decide
  service_pos := by decide
  arrival_ge := by decide
  total_le := by decide
  end_le := by decide

theorem spn_least_together : ∃ s, Returns .spn together.start s ∧
    ∀ a t, Returns a together.start t → ∑ i, (s.heap i).tq ≤ ∑ i, (t.heap i).tq := by
  refine spn_least together fun i => ?_
  obtain ⟨j, hj⟩ := together.exists_base
  exact hj

end El32.Scheduling

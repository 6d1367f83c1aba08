import El32.Foundations.Turn
import El32.Scheduling.Runs
import Mathlib.Algebra.Order.Ring.Int
import Mathlib.Tactic.Ring

/-! Round robin serves every process that is ready within a bounded time.

`wait` bounds the units until a process is served, the processes that still arrive included: every unit
given to another process lowers it. -/
namespace El32.Scheduling
open UnitSchedule Turn
set_option autoImplicit false

variable {n : ℕ} {w : Workload n} {s s' : State (Fin n)} {quantum : ℤ} {i p : Fin n}

/-- The units before `i` is served, at most. -/
def wait (quantum : ℤ) (s : State (Fin n)) (i : Fin n) : ℤ :=
  quantum * ahead s.next s.readyQ s.q.length i +
    if s.idle || s.interrupt then 0 else quantum - s.interval

theorem Sharing.nodup {k : ℕ} (h : Sharing w quantum k s) : s.readyQ.Nodup := by
  rw [h.readyQ]
  exact (Workload.arrivals_nodup k).filter _

theorem Sharing.length_le {k : ℕ} (h : Sharing w quantum k s) (hs : Stands w k s) :
    s.readyQ.length + s.q.length ≤ n := by
  have hnodup : (s.readyQ ++ s.q).Nodup := by
    refine List.nodup_append'.mpr ⟨h.nodup, ?_, fun i hi hq => ?_⟩
    · rw [hs.q]
      exact (List.nodup_finRange n).filter _
    · rw [h.readyQ, List.mem_filter, Workload.mem_arrivals] at hi
      rw [hs.q, List.mem_filter, decide_eq_true_iff] at hq
      omega
  have hle := hnodup.length_le_card
  rwa [List.length_append, Fintype.card_fin] at hle

theorem AtNext.lt (h : AtNext s) (hi : i ∈ s.readyQ) : s.next < s.readyQ.length := by
  have hpos := List.length_pos_of_mem hi
  have hbound := h.bound
  omega

/-! ## A unit of service -/

theorem idxOf_of_elementAt {v : List (Fin n)} {k : ℤ} (hv : v.Nodup) (h : elementAt v k = some p) :
    (v.idxOf p : ℤ) = k := by
  unfold elementAt at h
  by_cases hk : 0 ≤ k
  · rw [if_pos hk] at h
    rw [idxOf_of_getElem? hv h]
    exact Int.toNat_of_nonneg hk
  · rw [if_neg hk] at h
    cases h

/-- The process at `next` is served: another one comes a unit nearer. -/
theorem wait_shared (hv : s.readyQ.Nodup) (hp : elementAt s.readyQ s.next = some p)
    (hidle : s.idle = false) (hint : s.interrupt = false) (hinterval : s.interval < quantum)
    (hmem : p ∈ s.readyQ) (hi : i ∈ s.readyQ) (hne : i ≠ p) :
    i ∈ (s.shared quantum p).readyQ ∧ wait quantum (s.shared quantum p) i + 1 ≤
      quantum * ahead s.next s.readyQ s.q.length i + (quantum - s.interval) := by
  unfold State.shared
  split
  · refine ⟨(List.mem_erase_of_ne hne).mpr hi, ?_⟩
    show quantum * ahead (s.next - 1) (s.readyQ.erase p) s.q.length i + 0 + 1 ≤ _
    rw [ahead_erase hi hmem (idxOf_of_elementAt hv hp) hne]
    omega
  · refine ⟨hi, ?_⟩
    show quantum * ahead s.next s.readyQ s.q.length i +
      (if (s.idle || (if s.interval + 1 = quantum then true else s.interrupt)) = true then 0
        else quantum - (s.interval + 1)) + 1 ≤ _
    rw [hidle, hint, Bool.false_or]
    by_cases hend : s.interval + 1 = quantum
    · rw [if_pos hend, if_pos rfl]
      omega
    · rw [if_neg hend, if_neg Bool.false_ne_true]
      omega

theorem wait_nonneg {k : ℕ} (hm : Sharing w quantum k s) (hq : 0 < quantum) (hnext : AtNext s)
    (hi : i ∈ s.readyQ) : 0 ≤ wait quantum s i := by
  have hahead : 0 ≤ quantum * ahead s.next s.readyQ s.q.length i :=
    mul_nonneg hq.le (ahead_nonneg (hnext.lt hi))
  unfold wait
  split
  · omega
  · rename_i hbusy
    rw [Bool.or_eq_true, not_or, Bool.not_eq_true, Bool.not_eq_true] at hbusy
    have hgoing := hm.going hbusy.1 hbusy.2
    omega

/-- `i` is ready and is not served: it comes a unit nearer. -/
structure Nearer (quantum : ℤ) (s s' : State (Fin n)) (i : Fin n) : Prop where
  mem : i ∈ s'.readyQ
  lowers : wait quantum s' i + 1 ≤ wait quantum s i
  bound : wait quantum s i ≤ quantum * (n - 1)

/-- A process is chosen. -/
theorem Sharing.nearer_given (hm : Sharing w quantum (s.slots.length + 1) s)
    (hs : Stands w (s.slots.length + 1) s) (hq : 0 < quantum) (hnext : AtNext s)
    (hfree : (s.idle || s.interrupt) = true) (hp : p ∈ s.readyQ)
    (hpick : s.clearInterrupt.advance.atNext = some p) (hi : i ∈ s.readyQ) (hne : i ≠ p) :
    Nearer quantum s ((s.given p).shared quantum p) i := by
  have hroom := hm.length_le hs
  have hat : elementAt s.readyQ (turn s.next s.readyQ) = some p := by
    rw [clearInterrupt_eq] at hpick
    exact hpick
  have hpos := idxOf_of_elementAt hm.nodup hat
  have hidx : (s.readyQ.idxOf i : ℤ) ≠ turn s.next s.readyQ := fun h =>
    hne ((List.idxOf_inj hi).mp (by omega))
  rw [hm.given_eq hfree]
  obtain ⟨hmem, hlower⟩ := wait_shared
    (s :=
      { s with
        interrupt := false, interval := 0, next := s.advance.next, p := some p, idle := false })
    hm.nodup hat rfl rfl hq hp hi hne
  have hwait : wait quantum s i = quantum * ahead s.next s.readyQ s.q.length i := by
    rw [wait, if_pos hfree, add_zero]
  refine ⟨hmem, hlower.trans ?_, ?_⟩
  · rw [hwait]
    show quantum * ahead (turn s.next s.readyQ) s.readyQ s.q.length i + (quantum - 0) ≤ _
    calc quantum * ahead (turn s.next s.readyQ) s.readyQ s.q.length i + (quantum - 0)
        = quantum * (ahead (turn s.next s.readyQ) s.readyQ s.q.length i + 1) := by ring
      _ ≤ quantum * ahead s.next s.readyQ s.q.length i :=
        mul_le_mul_of_nonneg_left (ahead_turn hi (hnext.lt hi) hidx) hq.le
  · rw [hwait]
    refine mul_le_mul_of_nonneg_left ((ahead_le hi hm.next).trans ?_) hq.le
    omega

/-- The process that was served has time left. -/
theorem Sharing.nearer_served (hm : Sharing w quantum (s.slots.length + 1) s)
    (hs : Stands w (s.slots.length + 1) s) (hq : 0 < quantum) (hnext : AtNext s)
    (hidle : s.idle = false) (hint : s.interrupt = false) (hcur : s.p = some p) (hp : p ∈ s.readyQ)
    (hi : i ∈ s.readyQ) (hne : i ≠ p) : Nearer quantum s (s.shared quantum p) i := by
  have hroom := hm.length_le hs
  have hgoing := hm.going hidle hint
  have hat := (hnext.current hidle).trans hcur
  have hpos := idxOf_of_elementAt hm.nodup hat
  have hidx : (s.readyQ.idxOf i : ℤ) ≠ s.next := fun h => hne ((List.idxOf_inj hi).mp (by omega))
  obtain ⟨hmem, hlower⟩ := wait_shared hm.nodup hat hidle hint hgoing.2 hp hi hne
  have hwait : wait quantum s i =
      quantum * ahead s.next s.readyQ s.q.length i + (quantum - s.interval) := by
    rw [wait, hidle, hint]
    rfl
  refine ⟨hmem, by rwa [hwait], ?_⟩
  have hahead : ahead s.next s.readyQ s.q.length i ≤ n - 2 :=
    (ahead_lt hi (hm.busy hidle).1 hidx).trans (by omega)
  calc wait quantum s i ≤ quantum * (n - 2) + quantum := by
        rw [hwait]
        have hle := mul_le_mul_of_nonneg_left hahead hq.le
        omega
    _ = quantum * (n - 1) := by ring

/-- A step: `i` is served, or it comes a unit nearer. -/
theorem runQuantum_nearer (hq : 0 < quantum) (hs : Stands w (s.slots.length + 1) s)
    (hm : Sharing w quantum (s.slots.length + 1) s) (hnext : AtNext s)
    (hsome : ∃ i, s.slots.count (some i) < w.jobs.service i) (hi : i ∈ s.readyQ)
    (hrun : s.runQuantum quantum State.atNext = some s') :
    s'.slots = s.slots ++ [some i] ∨ Nearer quantum s s' i := by
  rcases runQuantum_cases (atNext_chooses hm.next) hs hm hsome with
    ⟨hempty, -⟩ | ⟨p, hp, hfree, hpick, hserve⟩ | ⟨p, hp, hidle, hint, hcur, hserve⟩
  · rw [hempty] at hi
    exact absurd hi List.not_mem_nil
  · obtain rfl := Option.some.inj (hserve.symm.trans hrun)
    by_cases hip : i = p
    · rw [hip]
      exact .inl (hm.given hs hq hfree hp hpick).slots
    · exact .inr (hm.nearer_given hs hq hnext hfree hp hpick hi hip)
  · obtain rfl := Option.some.inj (hserve.symm.trans hrun)
    by_cases hip : i = p
    · rw [hip]
      have hstep : QuantumStep w quantum State.atNext s _ (some p) := hm.served hs hidle hint hcur
      exact .inl hstep.slots
    · exact .inr (hm.nearer_served hs hq hnext hidle hint hcur hp hi hip)

/-- Processes that arrive were counted before. -/
theorem wait_arrive (hs : Stands w s.slots.length s) (quantum : ℤ) (hi : i ∈ s.readyQ) :
    wait quantum (w.arrive s.slots.length s) i = wait quantum s i := by
  have hlate : (w.arrive s.slots.length s).q.length + (w.new s.slots.length).length = s.q.length := by
    rw [List.length_eq_length_filter_add (l := s.q) fun i => s.slots.length + 1 ≤ w.jobs.arrival i,
      hs.q, List.filter_filter, List.filter_filter]
    congr 2
    · refine List.filter_congr fun i _ => ?_
      rw [← Bool.decide_and, decide_eq_decide]
      omega
    · refine List.filter_congr fun i _ => ?_
      rw [← decide_not, ← Bool.decide_and, decide_eq_decide]
      omega
  have hahead : ahead s.next (s.readyQ ++ w.new s.slots.length)
      (w.arrive s.slots.length s).q.length i = ahead s.next s.readyQ s.q.length i := by
    rw [ahead_append hi, hlate]
  show quantum * ahead s.next (s.readyQ ++ w.new s.slots.length)
    (w.arrive s.slots.length s).q.length i + _ = _
  rw [hahead]
  rfl

/-! ## The run -/

/-- Every job that is ready is served within `b` units. -/
def ServedWithin {ι : Type} [DecidableEq ι] (J : Jobs ι) (σ : Schedule ι) (b : ℕ) : Prop :=
  ∀ t i, Ready J σ t i → ∃ u, t ≤ u ∧ u ≤ t + b ∧ σ u = some i

/-- A process that was ready at some time was served soon enough, or is still to be. -/
def Fair (w : Workload n) (quantum : ℤ) (b : ℕ) (s : State (Fin n)) : Prop :=
  ∀ t < s.slots.length, ∀ i, Ready w.jobs (history s.slots) t i →
    (∃ u, t ≤ u ∧ u ≤ t + b ∧ history s.slots u = some i) ∨
      i ∈ s.readyQ ∧ s.slots.length - t + wait quantum s i ≤ b

theorem Fair.step {b : ℕ} (hq : 0 < quantum) (hb : (b : ℤ) = quantum * (n - 1))
    (hs : Stands w s.slots.length s) (hm : Sharing w quantum s.slots.length s) (hnext : AtNext s)
    (hsome : ∃ i, s.slots.count (some i) < w.jobs.service i)
    (hrun : (w.arrive s.slots.length s).runQuantum quantum State.atNext = some s')
    (h : Fair w quantum b s) : Fair w quantum b s' := by
  have hs' := hs.arrive
  have hm' := hm.arrive hs
  have hnext' : AtNext (w.arrive s.slots.length s) :=
    hnext.arrive (fun hidle => (hm.busy hidle).2) _
  obtain ⟨t', x, hrun', hstep, -⟩ := rr_spec (s := w.arrive s.slots.length s) hs' hsome hq hm' hnext'
  obtain rfl := Option.some.inj (hrun'.symm.trans hrun)
  have hslots : t'.slots = s.slots ++ [x] := hstep.slots
  have hlen : t'.slots.length = s.slots.length + 1 := by
    rw [hslots, List.length_append]
    rfl
  -- A process that is ready in the new unit is served in it or comes a unit nearer.
  have hunit : ∀ i ∈ (w.arrive s.slots.length s).readyQ,
      x = some i ∨ Nearer quantum (w.arrive s.slots.length s) t' i := fun i hi => by
    refine (runQuantum_nearer hq hs' hm' hnext' hsome hi hrun).imp_left fun heq => ?_
    exact (List.singleton_inj.mp (List.append_cancel_left (hslots.symm.trans heq)))
  intro t ht i hready
  rw [hlen] at ht
  have hsame : Ready w.jobs (history s.slots) t i := by
    rwa [hslots, Ready, served_history_concat (Nat.le_of_lt_succ ht)] at hready
  rw [hslots]
  rcases Nat.lt_succ_iff_lt_or_eq.mp ht with hlt | rfl
  · rcases h t hlt i hsame with ⟨u, htu, hub, hu⟩ | ⟨hi, hwait⟩
    · exact .inl ⟨u, htu, hub, by rwa [history_concat_of_lt (lt_of_history hu)]⟩
    · have hkept := wait_arrive hs quantum hi
      rcases hunit i (List.mem_append_left _ hi) with rfl | hnear
      · have hnonneg := wait_nonneg hm hq hnext hi
        exact .inl ⟨s.slots.length, hlt.le, by omega, history_concat_self⟩
      · have hlower := hnear.lowers
        rw [← hslots, hlen]
        exact .inr ⟨hnear.mem, by push_cast; omega⟩
  · have hi : i ∈ (w.arrive s.slots.length s).readyQ := by
      refine (mem_readyQ_iff hm'.readyQ).mpr ?_
      rwa [ready_history le_rfl, List.take_length] at hsame
    rcases hunit i hi with rfl | hnear
    · exact .inl ⟨s.slots.length, le_rfl, Nat.le_add_right _ _, history_concat_self⟩
    · have hlower := hnear.lowers
      have hbound := hnear.bound
      rw [← hslots, hlen]
      exact .inr ⟨hnear.mem, by push_cast; omega⟩

theorem servedWithin_of_fair {b : ℕ} (hc : Completed w s) (h : Fair w quantum b s) :
    ServedWithin w.jobs (history s.slots) b := by
  intro t i hready
  have hlt : t < s.slots.length := by
    by_contra hge
    have hserved := hc.conserving t (history_of_le (Nat.le_of_not_lt hge)) i
    exact hserved hready
  rcases h t hlt i hready with hsoon | ⟨hi, -⟩
  · exact hsoon
  · rw [hc.readyQ] at hi
    exact absurd hi List.not_mem_nil

/-- **Round robin**: a process that is ready is served within a quantum for each other process. -/
theorem rr_fair (w : Workload n) :
    (∃ s, Returns .rr1 w.start s ∧ ServedWithin w.jobs (history s.slots) (n - 1)) ∧
      ∃ s, Returns .rr4 w.start s ∧ ServedWithin w.jobs (history s.slots) (4 * (n - 1)) := by
  have hn := w.entered
  constructor
  · obtain ⟨s, hs⟩ := exists_returns w .rr1
    have hfair : Fair w 1 (n - 1) s := by
      refine (returns_keeps (fun t ht => absurd ht (Nat.not_lt_zero t))
        (fun s s' hinv hfair hsome hrun => ?_) hs).2.1
      rw [iteration_eq hinv.stands] at hrun
      exact hfair.step one_pos (by omega) hinv.stands hinv.mode.1 hinv.mode.2 hsome hrun
    exact ⟨s, hs, servedWithin_of_fair (completed_of_returns hs) hfair⟩
  · obtain ⟨s, hs⟩ := exists_returns w .rr4
    have hfair : Fair w 4 (4 * (n - 1)) s := by
      refine (returns_keeps (fun t ht => absurd ht (Nat.not_lt_zero t))
        (fun s s' hinv hfair hsome hrun => ?_) hs).2.1
      rw [iteration_eq hinv.stands] at hrun
      exact hfair.step (by decide) (by omega) hinv.stands hinv.mode.1 hinv.mode.2 hsome hrun
    exact ⟨s, hs, servedWithin_of_fair (completed_of_returns hs) hfair⟩

end El32.Scheduling

import El32.Scheduling.Workload

/-! The books of a run: what the objects and the queues say about the units served so far, and what
the start of an iteration does to them. -/
namespace El32.Scheduling
open Decimal JavaInt Loop UnitSchedule Finset
set_option autoImplicit false

/-! ## Processes that become ready -/

namespace State
variable {ι : Type} [DecidableEq ι]

theorem moveReady_lowers :
    Lowers (fun s : State ι => (s.processready s.clock).isSome) moveReady (·.q.length) := by
  intro s s' _ hs
  obtain ⟨t, ht, rfl⟩ := Option.map_eq_some_iff.mp hs
  have hmem := List.mem_of_find?_eq_some ht
  have hlen := List.length_erase_of_mem hmem
  have hpos := List.length_pos_of_mem hmem
  dsimp only
  omega

/-- All processes that have arrived are moved, in their order. -/
theorem readyLoop_eq (s : State ι) : s.readyLoop = some
    { s with
      readyQ := s.readyQ ++ s.q.filter fun j => (s.heap j).arrivalTime ≤ s.clock
      q := s.q.filter fun j => ¬ (s.heap j).arrivalTime ≤ s.clock } := by
  induction hk : s.q.length using Nat.strong_induction_on generalizing s with
  | _ k ih =>
    cases hfind : s.processready s.clock with
    | none =>
      have hnone := List.find?_eq_none.mp hfind
      have hold : (s.q.filter fun j => (s.heap j).arrivalTime ≤ s.clock) = [] :=
        List.filter_eq_nil_iff.mpr hnone
      have hall : (s.q.filter fun j => ¬ (s.heap j).arrivalTime ≤ s.clock) = s.q :=
        List.filter_eq_self.mpr fun j hj => by simpa using hnone j hj
      rw [readyLoop, whileLoop_done (by rw [hfind]; rfl), hold, hall, List.append_nil]
    | some t =>
      obtain ⟨ht, as, bs, hq, has⟩ := List.find?_eq_some_iff_append.mp hfind
      have ht := of_decide_eq_true ht
      have has : ∀ j ∈ as, ¬ (s.heap j).arrivalTime ≤ s.clock := fun j hj => by simpa using has j hj
      have herase : s.q.erase t = as ++ bs := by
        rw [hq, List.erase_append_right _ fun hmem => has t hmem ht, List.erase_cons_head]
      have hlen : (s.q.erase t).length < k := by
        rw [herase, ← hk, hq]
        simp
      have hearly : (as.filter fun j => (s.heap j).arrivalTime ≤ s.clock) = [] :=
        List.filter_eq_nil_iff.mpr fun j hj => by simpa using has j hj
      rw [readyLoop, whileLoop_next moveReady_lowers (by rw [hfind]; rfl), moveReady, hfind]
      refine (ih _ hlen { s with readyQ := s.readyQ ++ [t], q := s.q.erase t } rfl).trans ?_
      dsimp only
      rw [herase, hq]
      simp [hearly, ht]

end State

/-! ## The books -/

variable {n : ℕ}

/-- The object of `i` once `u` units are served. -/
def Workload.after (w : Workload n) (i : Fin n) (u : ℕ) : Process :=
  { w.heap i with timeLeft := w.service i - u }

theorem Workload.after_servicing (w : Workload n) {i : Fin n} {u : ℕ} (h : u < w.jobs.service i) :
    (w.after i u).servicing = w.after i (u + 1) := by
  have hservice := w.jobs_service i
  have hle := (w.service_le i).trans w.total_le
  have hfits : FitsInt (w.service i - u - 1) := by
    unfold maxInt at hle
    constructor <;> omega
  rw [Process.servicing, Workload.after, wrap_of_fits hfits, Workload.after, Nat.cast_add,
    Nat.cast_one, sub_sub]

structure Account (w : Workload n) (heap : Fin n → Process) (finishQ : List (Fin n))
    (slots : List (Option (Fin n))) : Prop where
  legal : Follows (Legal w.jobs) slots
  unfinished : ∀ i, i ∉ finishQ → slots.count (some i) < w.jobs.service i ∧
    heap i = w.after i (slots.count (some i))
  finished : ∀ i ∈ finishQ, ∃ f ≤ slots.length, FinishesAt w.jobs (history slots) i f ∧
    heap i = (w.after i (w.jobs.service i)).report (w.base + f)
  ordered : finishQ.Pairwise fun i j => (heap i).finishTime < (heap j).finishTime

namespace Account
variable {w : Workload n} {heap : Fin n → Process} {finishQ : List (Fin n)}
  {slots : List (Option (Fin n))} {i p : Fin n}

theorem of_finished (h : Account w heap finishQ slots) (hi : i ∈ finishQ) :
    slots.count (some i) = w.jobs.service i := by
  obtain ⟨f, hf, hfin, -⟩ := h.finished i hi
  have hmono := served_mono (history slots) i hf
  have hle := h.legal.count_le i
  have hdone := hfin.1
  rw [served_history_of_le le_rfl] at hmono
  omega

theorem mem_iff (h : Account w heap finishQ slots) :
    i ∈ finishQ ↔ slots.count (some i) = w.jobs.service i := by
  refine ⟨h.of_finished, fun hcount => ?_⟩
  by_contra hi
  have hlt := (h.unfinished i hi).1
  omega

theorem eq_after (h : Account w heap finishQ slots) (hi : slots.count (some i) < w.jobs.service i) :
    heap i = w.after i (slots.count (some i)) :=
  (h.unfinished i fun hmem => by
    have hcount := h.of_finished hmem
    omega).2

/-- What was entered stays. -/
theorem entered (h : Account w heap finishQ slots) (i : Fin n) :
    (heap i).name = w.name i ∧ (heap i).arrivalTime = w.arrival i ∧
      (heap i).serviceTime = w.service i ∧ (heap i).processNum = i := by
  by_cases hi : i ∈ finishQ
  · obtain ⟨f, -, -, heq⟩ := h.finished i hi
    rw [heq]
    exact ⟨rfl, rfl, rfl, rfl⟩
  · rw [(h.unfinished i hi).2]
    exact ⟨rfl, rfl, rfl, rfl⟩

theorem nodup (h : Account w heap finishQ slots) : finishQ.Nodup :=
  h.ordered.imp fun hlt heq => by
    subst heq
    exact lt_irrefl _ hlt

theorem finishTime_le (h : Account w heap finishQ slots) (hi : i ∈ finishQ) :
    (heap i).finishTime ≤ w.base + slots.length := by
  obtain ⟨f, hf, -, heq⟩ := h.finished i hi
  rw [heq]
  show w.base + f ≤ w.base + slots.length
  omega

/-! ### A unit more -/

theorem pass (h : Account w heap finishQ slots) (hx : Legal w.jobs slots none) :
    Account w heap finishQ (slots ++ [none]) where
  legal := h.legal.concat hx
  unfinished i hi := by
    rw [count_concat_of_ne (Option.some_ne_none i).symm]
    exact h.unfinished i hi
  finished i hi := by
    obtain ⟨f, hf, hfin, heq⟩ := h.finished i hi
    exact ⟨f, by simp; omega, hfin.concat hf none, heq⟩
  ordered := h.ordered

/-- The process that is served needs more. -/
theorem serve (h : Account w heap finishQ slots) (hp : Waits w.jobs slots p)
    (hmore : slots.count (some p) + 1 < w.jobs.service p) :
    Account w (Function.update heap p (heap p).servicing) finishQ (slots ++ [some p]) := by
  have hne : ∀ i ∈ finishQ, i ≠ p := fun i hi heq => by
    have hcount := h.of_finished hi
    subst heq
    omega
  refine ⟨h.legal.concat hp, fun i hi => ?_, fun i hi => ?_, ?_⟩
  · by_cases hip : i = p
    · subst hip
      rw [count_concat_self, Function.update_self, h.eq_after hp.2]
      exact ⟨hmore, w.after_servicing hp.2⟩
    · rw [count_concat_of_ne fun heq => hip (Option.some.inj heq).symm, Function.update_of_ne hip]
      exact h.unfinished i hi
  · obtain ⟨f, hf, hfin, heq⟩ := h.finished i hi
    rw [Function.update_of_ne (hne i hi)]
    exact ⟨f, by simp; omega, hfin.concat hf _, heq⟩
  · refine h.ordered.imp_of_mem fun {i j} hi hj hlt => ?_
    rwa [Function.update_of_ne (hne i hi), Function.update_of_ne (hne j hj)]

/-- The process that is served is done. -/
theorem finish (h : Account w heap finishQ slots) (hp : Waits w.jobs slots p)
    (hlast : slots.count (some p) + 1 = w.jobs.service p) :
    Account w
      (Function.update heap p ((heap p).servicing.report (w.base + slots.length + 1)))
      (finishQ ++ [p]) (slots ++ [some p]) := by
  have hne : ∀ i ∈ finishQ, i ≠ p := fun i hi heq => by
    have hcount := h.of_finished hi
    subst heq
    omega
  refine ⟨h.legal.concat hp, fun i hi => ?_, fun i hi => ?_, ?_⟩
  · rw [List.mem_append, List.mem_singleton, not_or] at hi
    rw [count_concat_of_ne fun heq => hi.2 (Option.some.inj heq).symm, Function.update_of_ne hi.2]
    exact h.unfinished i hi.1
  · rcases List.mem_append.mp hi with hi | hi
    · obtain ⟨f, hf, hfin, heq⟩ := h.finished i hi
      rw [Function.update_of_ne (hne i hi)]
      exact ⟨f, by simp; omega, hfin.concat hf _, heq⟩
    · obtain rfl := List.mem_singleton.mp hi
      refine ⟨slots.length + 1, by simp, finishesAt_concat hlast, ?_⟩
      rw [Function.update_self, h.eq_after hp.2, w.after_servicing hp.2, hlast, Nat.cast_add,
        Nat.cast_one, add_assoc]
  · rw [List.pairwise_append]
    refine ⟨h.ordered.imp_of_mem fun {i j} hi hj hlt => ?_, List.pairwise_singleton _ _,
      fun i hi j hj => ?_⟩
    · rwa [Function.update_of_ne (hne i hi), Function.update_of_ne (hne j hj)]
    · obtain rfl := List.mem_singleton.mp hj
      have hle := h.finishTime_le hi
      rw [Function.update_of_ne (hne i hi), Function.update_self]
      show (heap i).finishTime < w.base + slots.length + 1
      omega

end Account

/-! ## The start of an iteration -/

/-- The processes that arrive before `k` have left `Q`. -/
structure Stands (w : Workload n) (k : ℕ) (s : State (Fin n)) : Prop where
  account : Account w s.heap s.finishQ s.slots
  clock : s.clock = wrap (w.base + k - 1)
  q : s.q = (List.finRange n).filter fun i => k ≤ w.jobs.arrival i

/-- The processes that arrive at `k` become ready. -/
def Workload.arrive (w : Workload n) (k : ℕ) (s : State (Fin n)) : State (Fin n) :=
  { s with
    clock := wrap (s.clock + 1)
    readyQ := s.readyQ ++ w.new k
    q := (List.finRange n).filter fun i => k + 1 ≤ w.jobs.arrival i }

variable {w : Workload n} {k : ℕ} {s : State (Fin n)}

theorem Stands.start : Stands w 0 w.start where
  account :=
    { legal := follows_nil
      unfinished := fun i _ => ⟨w.jobs_service_pos i, by
        simp [Workload.start, Scheduling.start, Workload.after, Workload.heap, Process.create]⟩
      finished := fun i hi => absurd hi List.not_mem_nil
      ordered := List.Pairwise.nil }
  clock := by simp [Workload.start, Scheduling.start]
  q := by simp [Workload.start, Scheduling.start]

theorem Stands.arrive (h : Stands w k s) : Stands w (k + 1) (w.arrive k s) where
  account := h.account
  clock := by
    have hsucc : w.base + k - 1 + 1 = w.base + (k + 1 : ℕ) - 1 := by omega
    rw [Workload.arrive, h.clock, wrap_wrap_add, hsucc]
  q := rfl

/-- The next unit is that of the number of the units before it. -/
theorem Stands.clock_succ (h : Stands w s.slots.length s) :
    wrap (s.clock + 1) = w.base + s.slots.length := by
  rw [h.clock, wrap_wrap_add, sub_add_cancel, wrap_of_fits (w.fits_time h.account.legal le_rfl)]

theorem Stands.readyLoop (h : Stands w s.slots.length s) :
    { s with clock := wrap (s.clock + 1) }.readyLoop = some (w.arrive s.slots.length s) := by
  have harrived : ∀ i, (s.heap i).arrivalTime ≤ wrap (s.clock + 1) ↔
      w.jobs.arrival i ≤ s.slots.length := fun i => by
    rw [(h.account.entered i).2.1, h.clock_succ, w.arrival_le_iff]
  rw [State.readyLoop_eq]
  simp only [harrived, h.q, List.filter_filter, Workload.arrive, Workload.new]
  congr 3
  · funext i
    rw [← Bool.decide_and, decide_eq_decide]
    omega
  · refine List.filter_congr fun i _ => ?_
    rw [← Bool.decide_and, decide_eq_decide]
    omega

theorem iteration_eq (h : Stands w s.slots.length s) (a : Algorithm) :
    iteration a s = a.branch (w.arrive s.slots.length s) := by
  rw [iteration, h.readyLoop]
  rfl

theorem waits_iff {slots : List (Option (Fin n))} {i : Fin n} :
    Waits w.jobs slots i ↔
      i ∈ w.arrivals (slots.length + 1) ∧ slots.count (some i) < w.jobs.service i := by
  rw [Waits, Workload.mem_arrivals, Nat.lt_succ_iff]

end El32.Scheduling

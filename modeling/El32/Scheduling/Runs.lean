import El32.Scheduling.Grid
import El32.Scheduling.Simulation

/-! Whole runs: every algorithm serves every process to its end. -/
namespace El32.Scheduling
open Decimal JavaInt Loop UnitSchedule Finset
set_option autoImplicit false

/-! ## The process that is chosen -/

section Choice
variable {ι : Type} {key : ι → ℤ} {p : ι}

theorem foldl_smallest (key : ι → ℤ) (js : List ι) (j : ι) :
    js.foldl (fun best k => if key best > key k then k else best) j ∈ j :: js ∧
      ∀ k ∈ j :: js, key (js.foldl (fun best k => if key best > key k then k else best) j) ≤ key k := by
  induction js generalizing j with
  | nil => simp
  | cons k js ih =>
    rw [List.foldl_cons]
    by_cases h : key j > key k
    · rw [if_pos h]
      obtain ⟨hmem, hle⟩ := ih k
      refine ⟨List.mem_cons_of_mem j hmem, List.forall_mem_cons.mpr ⟨?_, hle⟩⟩
      exact (hle k List.mem_cons_self).trans (le_of_lt h)
    · rw [if_neg h]
      obtain ⟨hmem, hle⟩ := ih j
      rw [List.forall_mem_cons] at hle
      refine ⟨?_, List.forall_mem_cons.mpr ⟨hle.1, List.forall_mem_cons.mpr ⟨?_, hle.2⟩⟩⟩
      · rcases List.mem_cons.mp hmem with heq | hjs
        · exact List.mem_cons.mpr (.inl heq)
        · exact List.mem_cons_of_mem j (List.mem_cons_of_mem k hjs)
      · exact hle.1.trans (not_lt.mp h)

theorem exists_smallest (key : ι → ℤ) {v : List ι} (hv : v ≠ []) :
    ∃ p ∈ v, smallest key v = some p := by
  cases v with
  | nil => exact absurd rfl hv
  | cons j js => exact ⟨_, (foldl_smallest key js j).1, rfl⟩

theorem smallest_le {v : List ι} (h : smallest key v = some p) {k : ι} (hk : k ∈ v) :
    key p ≤ key k := by
  cases v with
  | nil => exact absurd hk List.not_mem_nil
  | cons j js =>
    obtain rfl := Option.some.inj h
    exact (foldl_smallest key js j).2 k hk

theorem elementAt_eq {v : List ι} {i : ℤ} (h : 0 ≤ i) (hlt : i < v.length) :
    ∃ p ∈ v, elementAt v i = some p := by
  have hlt : i.toNat < v.length := by omega
  exact ⟨v[i.toNat], List.getElem_mem hlt, by rw [elementAt, if_pos h, List.getElem?_eq_getElem hlt]⟩

theorem elementAt_append {v : List ι} {i : ℤ} (h : elementAt v i = some p) (u : List ι) :
    elementAt (v ++ u) i = some p := by
  unfold elementAt at h ⊢
  by_cases hi : 0 ≤ i
  · rw [if_pos hi] at h ⊢
    obtain ⟨hlt, -⟩ := List.getElem?_eq_some_iff.mp h
    rwa [List.getElem?_append_left hlt]
  · rw [if_neg hi] at h
    cases h

theorem advance_lt {s : State ι} (h : s.readyQ ≠ []) : s.advance.next < s.readyQ.length := by
  have hpos := List.length_pos_iff.mpr h
  unfold State.advance
  dsimp only
  split <;> omega

end Choice

variable {n : ℕ} {w : Workload n} {s s' : State (Fin n)} {a : Algorithm}

/-- The process that is served stands at `next`. -/
structure AtNext (s : State (Fin n)) : Prop where
  current : s.idle = false → elementAt s.readyQ s.next = s.p
  bound : s.next ≤ 0 ∨ s.next < s.readyQ.length

/-- What the branch of an algorithm keeps. -/
def Mode (w : Workload n) (k : ℕ) (s : State (Fin n)) : Algorithm → Prop
  | .fcfs => ToEnd w k s ∧ s.line = w.arrivals k
  | .spn => ToEnd w k s
  | .rr1 => Sharing w 1 k s ∧ AtNext s
  | .rr4 => Sharing w 4 k s ∧ AtNext s
  | .srt => Sharing w 1 k s

/-- The rule of an algorithm for the unit that follows. -/
def rule (w : Workload n) : Algorithm → List (Option (Fin n)) → Option (Fin n) → Prop
  | .fcfs, l, x => Keeps w.jobs l x
  | .spn, l, x => Keeps w.jobs l x ∧ BeginsLeast w.jobs l x
  | .srt, l, x => LeastLeft w.jobs l x
  | .rr1, _, _ => True
  | .rr4, _, _ => True

/-- What holds at the end of an iteration. -/
structure Inv (w : Workload n) (a : Algorithm) (s : State (Fin n)) : Prop where
  stands : Stands w s.slots.length s
  mode : Mode w s.slots.length s a
  follows : Follows (rule w a) s.slots

theorem Inv.start (w : Workload n) (a : Algorithm) : Inv w a w.start where
  stands := Stands.start
  mode := by
    have hnext : AtNext w.start := ⟨fun h => Bool.noConfusion h, .inl le_rfl⟩
    cases a with
    | fcfs => exact ⟨ToEnd.start, rfl⟩
    | spn => exact ToEnd.start
    | rr1 => exact ⟨Sharing.start 1, hnext⟩
    | rr4 => exact ⟨Sharing.start 4, hnext⟩
    | srt => exact Sharing.start 1
  follows := follows_nil

/-! ## An iteration -/

theorem AtNext.arrive (h : AtNext s) (hbusy : s.idle = false → ∃ p ∈ s.readyQ, s.p = some p) (k : ℕ) :
    AtNext (w.arrive k s) where
  current hidle := by
    obtain ⟨p, -, hp⟩ := hbusy hidle
    have hcur := h.current hidle
    rw [hp] at hcur
    exact (elementAt_append hcur _).trans hp.symm
  bound := by
    show s.next ≤ 0 ∨ s.next < (s.readyQ ++ w.new k).length
    rw [List.length_append]
    have hbound := h.bound
    omega

theorem Mode.arrive (h : Mode w s.slots.length s a) (hs : Stands w s.slots.length s) :
    Mode w (s.slots.length + 1) (w.arrive s.slots.length s) a := by
  cases a with
  | fcfs =>
    refine ⟨h.1.arrive hs, ?_⟩
    rw [Workload.arrivals_succ, ← h.2]
    exact (List.append_assoc _ _ _).symm
  | spn => exact ToEnd.arrive h hs
  | rr1 => exact ⟨h.1.arrive hs, h.2.arrive (fun hidle => (h.1.busy hidle).2) _⟩
  | rr4 => exact ⟨h.1.arrive hs, h.2.arrive (fun hidle => (h.1.busy hidle).2) _⟩
  | srt => exact Sharing.arrive h hs

/-- What the branch of `a` does in a state in which the processes that arrive are ready. -/
structure BranchStep (w : Workload n) (a : Algorithm) (s s' : State (Fin n)) (x : Option (Fin n)) :
    Prop where
  slots : s'.slots = s.slots ++ [x]
  stands : Stands w (s.slots.length + 1) s'
  mode : Mode w (s.slots.length + 1) s' a
  rule : rule w a s.slots x

section Branches
variable (hs : Stands w (s.slots.length + 1) s)
  (hsome : ∃ i, s.slots.count (some i) < w.jobs.service i)
include hs hsome

theorem fcfs_spec (hm : ToEnd w (s.slots.length + 1) s)
    (hline : s.line = w.arrivals (s.slots.length + 1)) :
    ∃ s' x, s.fcfs = some s' ∧ BranchStep w .fcfs s s' x := by
  obtain ⟨s', x, hrun, hstep⟩ := runToEnd_spec (fun s => s.readyQ.head?)
    (fun hne => ⟨_, List.head_mem hne, List.head?_eq_some_head hne⟩) hs hm hsome
  refine ⟨s', x, hrun, hstep.slots, hstep.stands, ⟨hstep.toEnd, ?_⟩, hstep.keeps⟩
  rw [← hline]
  rcases hstep.line with h | ⟨p, hp, hidle, h⟩
  · exact h
  · obtain ⟨rest, hrest⟩ := List.head?_eq_some_iff.mp hp
    rw [h, hrest, List.erase_cons_head, State.line, State.current, if_pos hidle, hrest]
    simp

theorem spn_spec (hm : ToEnd w (s.slots.length + 1) s) :
    ∃ s' x, s.spn = some s' ∧ BranchStep w .spn s s' x := by
  obtain ⟨s', x, hrun, hstep⟩ := runToEnd_spec
    (fun s => smallest (fun j => (s.heap j).serviceTime) s.readyQ)
    (fun hne => exists_smallest _ hne) hs hm hsome
  refine ⟨s', x, hrun, hstep.slots, hstep.stands, hstep.toEnd, hstep.keeps, fun i hx hzero j hj => ?_⟩
  have hchosen := hstep.chosen i hx hzero
  have hservice : ∀ i, (s.heap i).serviceTime = w.jobs.service i := fun i =>
    (hs.account.entered i).2.2.1.trans (w.jobs_service i).symm
  by_cases hcount : s.slots.count (some j) = 0
  · have hle := smallest_le hchosen (hm.mem_readyQ.mpr ⟨hj.1, hcount⟩)
    rw [hservice, hservice] at hle
    omega
  · have hbegun := hm.begun j (Nat.pos_of_ne_zero hcount) hj.2
    have hkept := hstep.keeps j hbegun.2.2 hj.2
    obtain rfl := Option.some.inj (hkept.symm.trans hx)
    omega

theorem srt_spec (hm : Sharing w 1 (s.slots.length + 1) s) :
    ∃ s' x, s.srt = some s' ∧ BranchStep w .srt s s' x := by
  obtain ⟨s', x, hrun, hstep⟩ := runQuantum_spec one_pos
    (fun s => smallest (fun j => (s.heap j).timeLeft) s.readyQ)
    (fun hne => by
      rw [clearInterrupt_eq]
      exact exists_smallest _ hne) hs hm hsome
  refine ⟨s', x, hrun, hstep.slots, hstep.stands, hstep.sharing, fun i hx j hj => ?_⟩
  have hfree : (s.idle || s.interrupt) = true := by
    by_contra hbusy
    rw [Bool.not_eq_true, Bool.or_eq_false_iff] at hbusy
    have hgoing := hm.going hbusy.1 hbusy.2
    omega
  have hchosen := hstep.chosen i hx hfree
  rw [clearInterrupt_eq] at hchosen
  change smallest (fun j => (s.heap j).timeLeft) s.readyQ = some i at hchosen
  have hlegal := hstep.stands.account.legal
  rw [hstep.slots] at hlegal
  have hwaits := hlegal.last
  rw [hx] at hwaits
  have hleft : ∀ {i}, Waits w.jobs s.slots i →
      (s.heap i).timeLeft = w.jobs.service i - s.slots.count (some i) := fun {i} hi => by
    rw [hs.account.eq_after hi.2, w.jobs_service]
    rfl
  have hle := smallest_le hchosen ((mem_readyQ_iff hm.readyQ).mpr hj)
  rw [hleft hwaits, hleft hj] at hle
  have hlt := hwaits.2
  have hltj := hj.2
  omega

omit hs hsome in
theorem AtNext.shared (quantum : ℤ) {p : Fin n} (hp : elementAt s.readyQ s.next = some p)
    (hcur : s.p = some p) (hmem : p ∈ s.readyQ) (hlt : s.next < s.readyQ.length) :
    AtNext (s.shared quantum p) := by
  have hlen := List.length_erase_of_mem hmem
  have hpos := List.length_pos_of_mem hmem
  unfold State.shared
  split
  · refine ⟨fun hidle => Bool.noConfusion hidle, ?_⟩
    show s.next - 1 ≤ 0 ∨ s.next - 1 < (s.readyQ.erase p).length
    omega
  · exact ⟨fun _ => hp.trans hcur.symm, .inr hlt⟩

omit hs hsome in
theorem atNext_chooses (hnext : -1 ≤ s.next) (hne : s.readyQ ≠ []) :
    ∃ p ∈ s.readyQ, s.clearInterrupt.advance.atNext = some p := by
  rw [clearInterrupt_eq]
  exact elementAt_eq (advance_next s hnext) (advance_lt hne)

omit hs hsome in
theorem lt_of_elementAt {ι : Type} {v : List ι} {i : ℤ} {p : ι} (h : elementAt v i = some p) :
    i < v.length := by
  unfold elementAt at h
  split at h
  · have hlt := (List.getElem?_eq_some_iff.mp h).1
    omega
  · cases h

theorem rr_spec {quantum : ℤ} (hq : 0 < quantum) (hm : Sharing w quantum (s.slots.length + 1) s)
    (hnext : AtNext s) :
    ∃ s' x, s.runQuantum quantum State.atNext = some s' ∧
      QuantumStep w quantum State.atNext s s' x ∧ AtNext s' := by
  rcases runQuantum_cases (atNext_chooses hm.next) hs hm hsome with
    ⟨hempty, hrun⟩ | ⟨p, hp, hfree, hpick, hrun⟩ | ⟨p, hp, hidle, hint, hcur, hrun⟩
  · exact ⟨_, none, hrun, (hm.pass State.atNext hs hempty hsome).2, hnext.current, hnext.bound⟩
  · refine ⟨_, some p, hrun, hm.given hs hq hfree hp hpick, ?_⟩
    have hready : (s.given p).readyQ = s.readyQ := by
      rw [State.given, clearInterrupt_eq]
      rfl
    exact AtNext.shared quantum hpick rfl (hready ▸ hp) (lt_of_elementAt hpick)
  · have hat := (hnext.current hidle).trans hcur
    exact ⟨_, some p, hrun, hm.served hs hidle hint hcur,
      AtNext.shared quantum hat hcur hp (lt_of_elementAt hat)⟩

theorem branch_spec (hm : Mode w (s.slots.length + 1) s a) :
    ∃ s' x, a.branch s = some s' ∧ BranchStep w a s s' x := by
  cases a with
  | fcfs => exact fcfs_spec hs hsome hm.1 hm.2
  | spn => exact spn_spec hs hsome hm
  | rr1 =>
    obtain ⟨s', x, hrun, hstep, hnext⟩ := rr_spec hs hsome one_pos hm.1 hm.2
    exact ⟨s', x, hrun, hstep.slots, hstep.stands, ⟨hstep.sharing, hnext⟩, trivial⟩
  | rr4 =>
    obtain ⟨s', x, hrun, hstep, hnext⟩ := rr_spec hs hsome (by decide) hm.1 hm.2
    exact ⟨s', x, hrun, hstep.slots, hstep.stands, ⟨hstep.sharing, hnext⟩, trivial⟩
  | srt => exact srt_spec hs hsome hm

end Branches

/-- An iteration serves a unit or is idle, and keeps what holds at its end. -/
theorem iteration_spec (h : Inv w a s) (hsome : ∃ i, s.slots.count (some i) < w.jobs.service i) :
    ∃ s' x, iteration a s = some s' ∧ s'.slots = s.slots ++ [x] ∧ Inv w a s' := by
  obtain ⟨s', x, hrun, hstep⟩ := branch_spec
    (s := w.arrive s.slots.length s) h.stands.arrive hsome (h.mode.arrive h.stands)
  have hslots : s'.slots = s.slots ++ [x] := hstep.slots
  have hlen : s'.slots.length = s.slots.length + 1 := by rw [hslots, List.length_append]; rfl
  refine ⟨s', x, (iteration_eq h.stands a).trans hrun, hslots, hlen ▸ hstep.stands,
    hlen ▸ hstep.mode, ?_⟩
  rw [hslots]
  exact h.follows.concat hstep.rule

theorem iteration_keeps (h : Inv w a s) (hsome : ∃ i, s.slots.count (some i) < w.jobs.service i)
    (hrun : iteration a s = some s') : ∃ x, s'.slots = s.slots ++ [x] ∧ Inv w a s' := by
  obtain ⟨t, x, hiter, hslots, hinv⟩ := iteration_spec h hsome
  obtain rfl := Option.some.inj (hiter.symm.trans hrun)
  exact ⟨x, hslots, hinv⟩

/-! ## The run -/

theorem unfinishedQ_iff (h : Inv w a s) :
    unfinishedQ n s = true ↔ ∃ i, s.slots.count (some i) < w.jobs.service i := by
  have haccount := h.stands.account
  rw [unfinishedQ, decide_eq_true_iff]
  constructor
  · intro hlt
    by_contra hnone
    push Not at hnone
    have hall : ∀ i, i ∈ s.finishQ := fun i =>
      haccount.mem_iff.mpr (le_antisymm (haccount.legal.count_le i) (hnone i))
    have hcard : s.finishQ.toFinset = univ := eq_univ_iff_forall.mpr fun i =>
      List.mem_toFinset.mpr (hall i)
    have hlen := List.toFinset_card_of_nodup haccount.nodup
    rw [hcard, card_univ, Fintype.card_fin] at hlen
    omega
  · rintro ⟨i, hi⟩
    have hnot : i ∉ s.finishQ := fun hmem => by
      have hcount := haccount.of_finished hmem
      omega
    have hle := (List.nodup_cons.mpr ⟨hnot, haccount.nodup⟩).length_le_card
    rw [List.length_cons, Fintype.card_fin] at hle
    omega

theorem start_unfinished (w : Workload n) :
    ∃ i, w.start.slots.count (some i) < w.jobs.service i :=
  ⟨⟨0, w.entered⟩, w.jobs_service_pos _⟩

/-- What every iteration keeps holds when the run returns. -/
theorem returns_keeps {I : State (Fin n) → Prop} (hI : I w.start)
    (hstep : ∀ s s', Inv w a s → I s → (∃ i, s.slots.count (some i) < w.jobs.service i) →
      iteration a s = some s' → I s')
    (h : Returns a w.start s') :
    Inv w a s' ∧ I s' ∧ ∀ i, w.jobs.service i ≤ s'.slots.count (some i) := by
  obtain ⟨k, s₁, hfirst, hrest⟩ := h
  have hall : w.start.q.length = n := List.length_finRange
  rw [hall] at hrest
  obtain ⟨x, -, hinv⟩ := iteration_keeps (Inv.start w a) (start_unfinished w) hfirst
  have hI₁ := hstep _ _ (Inv.start w a) hI (start_unfinished w) hfirst
  obtain ⟨hlast, hend⟩ := rounds_invariant (I := fun s => Inv w a s ∧ I s)
    (fun s t hs hcond hrun => by
      have hsome := (unfinishedQ_iff hs.1).mp hcond
      obtain ⟨-, -, hinv⟩ := iteration_keeps hs.1 hsome hrun
      exact ⟨hinv, hstep s t hs.1 hs.2 hsome hrun⟩) ⟨hinv, hI₁⟩ hrest
  refine ⟨hlast.1, hlast.2, fun i => ?_⟩
  by_contra hlt
  have hmore := (unfinishedQ_iff hlast.1).mpr ⟨i, Nat.lt_of_not_le hlt⟩
  rw [hend] at hmore
  exact Bool.noConfusion hmore

theorem exists_returns (w : Workload n) (a : Algorithm) : ∃ s', Returns a w.start s' := by
  obtain ⟨s₁, x, hfirst, -, hinv⟩ := iteration_spec (Inv.start w a) (start_unfinished w)
  have hall : w.start.q.length = n := List.length_finRange
  have hlowers : ∀ s, Inv w a s → unfinishedQ n s → ∃ s', iteration a s = some s' ∧ Inv w a s' ∧
      toCome w.jobs w.lastArrival s'.slots < toCome w.jobs w.lastArrival s.slots := by
    intro s hs hcond
    obtain ⟨t, x, hrun, hslots, hinv⟩ := iteration_spec hs ((unfinishedQ_iff hs).mp hcond)
    have hlegal := hinv.stands.account.legal
    rw [hslots] at hlegal
    exact ⟨t, hrun, hinv, hslots ▸ hlegal.last.toCome_lt w.le_lastArrival⟩
  obtain ⟨s', hrest⟩ := rounds_returns _ hlowers hinv le_rfl
  exact ⟨s', _, s₁, hfirst, by rwa [hall]⟩

/-- A run that served every process. Its units are those of a schedule of the jobs; every object says
when that schedule finished it. -/
structure Completed (w : Workload n) (s : State (Fin n)) : Prop where
  q : s.q = []
  readyQ : s.readyQ = []
  finishQ : s.finishQ.Perm (List.finRange n)
  ordered : s.finishQ.Pairwise fun i j => (s.heap i).finishTime < (s.heap j).finishTime
  valid : Valid w.jobs (history s.slots)
  conserving : Conserving w.jobs (history s.slots)
  reported : ∀ i, ∃ f ≤ s.slots.length, FinishesAt w.jobs (history s.slots) i f ∧
    s.heap i =
      { w.heap i with
        timeLeft := 0
        finishTime := w.base + f
        tq := w.base + f - w.arrival i
        tqs := mathRound ((w.base + f - w.arrival i).tdiv (w.service i)) }
  clock : s.clock + 1 = w.base + s.slots.length
  length : s.slots.length ≤ w.lastArrival + ∑ i, w.jobs.service i
  last : s.slots.getLast? ≠ some none

theorem Completed.served (h : Completed w s) (i : Fin n) :
    w.jobs.service i ≤ s.slots.count (some i) := by
  obtain ⟨f, hle, hf, -⟩ := h.reported i
  rw [← served_history_of_le le_rfl]
  exact hf.1.trans (served_mono _ i hle)

theorem Inv.readyQ_eq_nil (h : Inv w a s)
    (hall : ∀ i, s.slots.count (some i) = w.jobs.service i) : s.readyQ = [] := by
  have htoEnd : ToEnd w s.slots.length s → s.readyQ = [] := fun hm => by
    rw [hm.readyQ]
    refine List.filter_eq_nil_iff.mpr fun i _ hzero => ?_
    have hpos := w.jobs_service_pos i
    rw [decide_eq_true_iff, hall i] at hzero
    omega
  have hsharing : ∀ {quantum}, Sharing w quantum s.slots.length s → s.readyQ = [] := fun hm => by
    rw [hm.readyQ]
    refine List.filter_eq_nil_iff.mpr fun i _ hlt => ?_
    rw [decide_eq_true_iff, hall i] at hlt
    exact lt_irrefl _ hlt
  have hmode := h.mode
  cases a with
  | fcfs => exact htoEnd hmode.1
  | spn => exact htoEnd hmode
  | rr1 => exact hsharing hmode.1
  | rr4 => exact hsharing hmode.1
  | srt => exact hsharing hmode

theorem Inv.completed (h : Inv w a s) (hall : ∀ i, w.jobs.service i ≤ s.slots.count (some i)) :
    Completed w s := by
  have haccount := h.stands.account
  have hcount : ∀ i, s.slots.count (some i) = w.jobs.service i := fun i =>
    le_antisymm (haccount.legal.count_le i) (hall i)
  have hmem : ∀ i, i ∈ s.finishQ := fun i => haccount.mem_iff.mpr (hcount i)
  refine ⟨?_, ?_, ?_, haccount.ordered, haccount.legal.valid, haccount.legal.conserving hall,
    fun i => ?_, ?_, ?_, haccount.legal.last_ne_none w.jobs_service_pos hall⟩
  · rw [h.stands.q]
    refine List.filter_eq_nil_iff.mpr fun i _ harrive => ?_
    have hzero := haccount.legal.count_eq_zero (of_decide_eq_true harrive)
    have hpos := w.jobs_service_pos i
    have hserved := hcount i
    omega
  · exact h.readyQ_eq_nil hcount
  · exact (List.perm_ext_iff_of_nodup haccount.nodup (List.nodup_finRange n)).mpr fun i =>
      ⟨fun _ => List.mem_finRange i, fun _ => hmem i⟩
  · obtain ⟨f, hf, hfin, heq⟩ := haccount.finished i (hmem i)
    have htq : FitsInt (w.base + f - w.arrival i) :=
      w.fits_turnaround haccount.legal.valid (haccount.legal.conserving hall) hfin
    refine ⟨f, hf, hfin, ?_⟩
    rw [heq, Workload.after, w.jobs_service, sub_self, Process.report]
    dsimp only [Workload.heap, Process.create]
    rw [wrap_of_fits htq]
  · have hcount := hcount ⟨0, w.entered⟩
    have hpos := w.jobs_service_pos ⟨0, w.entered⟩
    have hle := s.slots.count_le_length (a := some ⟨0, w.entered⟩)
    have hfits := w.fits_time haccount.legal (Nat.sub_le s.slots.length 1)
    have hlast : w.base + ((s.slots.length - 1 : ℕ) : ℤ) = w.base + s.slots.length - 1 := by omega
    rw [h.stands.clock, ← hlast, wrap_of_fits hfits]
    omega
  · have hlen := haccount.legal.length_le w.le_lastArrival
    simpa only [hcount] using hlen

theorem completed_of_returns (h : Returns a w.start s) : Completed w s := by
  obtain ⟨hinv, -, hall⟩ := returns_keeps (I := fun _ => True) trivial
    (fun _ _ _ _ _ _ => trivial) h
  exact hinv.completed hall

/-- **Every run returns**, with every process served to its end; `setgrid` before it returns unless its
axis ends with the greatest `int`. -/
theorem run_returns (w : Workload n) (a : Algorithm) (width height : ℤ) :
    ((∃ b, setgrid w.heap width height false (List.finRange n) = .ok b) ↔
      w.base + ∑ i, w.service i < maxInt) ∧
    (∀ b, setgrid w.heap width height false (List.finRange n) = .ok b → b.inc1 = w.base) ∧
    ∃ s', Returns a (Scheduling.start w.heap (List.finRange n) w.base) s' ∧ Completed w s' := by
  obtain ⟨s', hreturns⟩ := exists_returns w a
  have hend := w.lastArrival_add_le
  by_cases h : w.base + ∑ i, w.service i < maxInt
  · obtain ⟨b, hgrid, hbase, -⟩ := w.setgrid_ok width height h
    refine ⟨iff_of_true ⟨b, hgrid false⟩ h, fun b' hb' => ?_, s', hreturns,
      completed_of_returns hreturns⟩
    obtain rfl := Except.ok.inj ((hgrid false).symm.trans hb')
    exact hbase
  · have hendless := w.setgrid_endless width height (by omega) false
    refine ⟨iff_of_false ?_ h, fun b hb => ?_, s', hreturns, completed_of_returns hreturns⟩
    · rintro ⟨b, hb⟩
      exact absurd (hendless.symm.trans hb) (by simp)
    · exact absurd (hendless.symm.trans hb) (by simp)

end El32.Scheduling

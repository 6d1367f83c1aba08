import El32.Scheduling.Account

/-! What an iteration of each branch of `run` keeps. The ready queue holds the processes that wait. -/
namespace El32.Scheduling
open Decimal JavaInt UnitSchedule Finset
set_option autoImplicit false

variable {n : ℕ} {w : Workload n} {k : ℕ} {s : State (Fin n)}

/-! ## Serving to the end -/

/-- The processes that were not served yet are in the ready queue; the one that was begun is `P`. -/
structure ToEnd (w : Workload n) (k : ℕ) (s : State (Fin n)) : Prop where
  readyQ : s.readyQ = (w.arrivals k).filter fun i => s.slots.count (some i) = 0
  begun : ∀ i, 0 < s.slots.count (some i) → s.slots.count (some i) < w.jobs.service i →
    s.idle = false ∧ s.p = some i ∧ s.slots.getLast? = some (some i)
  busy : s.idle = false → ∃ p, s.p = some p ∧ 0 < s.slots.count (some p) ∧
    s.slots.count (some p) < w.jobs.service p

theorem ToEnd.start : ToEnd w 0 w.start where
  readyQ := rfl
  begun i hi := by simp [Workload.start, Scheduling.start] at hi
  busy hidle := by simp [Workload.start, Scheduling.start] at hidle

theorem ToEnd.arrive (h : ToEnd w s.slots.length s) (hs : Stands w s.slots.length s) :
    ToEnd w (s.slots.length + 1) (w.arrive s.slots.length s) where
  readyQ := by
    have hnew : (w.new s.slots.length).filter (fun i => s.slots.count (some i) = 0) =
        w.new s.slots.length := by
      refine List.filter_eq_self.mpr fun i hi => decide_eq_true ?_
      exact hs.account.legal.count_eq_zero (Workload.mem_new.mp hi).ge
    rw [Workload.arrivals_succ, List.filter_append]
    show s.readyQ ++ w.new s.slots.length =
      (w.arrivals s.slots.length).filter (fun i => s.slots.count (some i) = 0) ++
        (w.new s.slots.length).filter fun i => s.slots.count (some i) = 0
    rw [hnew, h.readyQ]
  begun := h.begun
  busy := h.busy

/-- The process that is served and not done. -/
def State.current {ι : Type} (s : State ι) : List ι := if s.idle then [] else s.p.toList

/-- All processes that are ready or were, as far as the run took them. -/
def State.line {ι : Type} (s : State ι) : List ι := s.finishQ ++ s.current ++ s.readyQ

theorem Stands.finish {p : Fin n} (hs : Stands w (s.slots.length + 1) s)
    (hwaits : Waits w.jobs s.slots p)
    (hlast : s.slots.count (some p) + 1 = w.jobs.service p) :
    Account w ((s.serve p).finish p).heap (s.finishQ ++ [p]) (s.slots ++ [some p]) := by
  have hfinish := hs.account.finish hwaits hlast
  have hclock : s.clock = w.base + s.slots.length := by
    rw [hs.clock, Nat.cast_add, Nat.cast_one, ← add_assoc, add_sub_cancel_right,
      wrap_of_fits (w.fits_time hs.account.legal le_rfl)]
  have hend : FitsInt (w.base + s.slots.length + 1) := by
    have hfits := w.fits_time (f := s.slots.length + 1)
      (hs.account.legal.concat (x := some p) hwaits) (by simp)
    rwa [Nat.cast_add, Nat.cast_one, ← add_assoc] at hfits
  simp only [State.finish, State.serve, Function.update_self, Function.update_idem]
  rwa [hclock, wrap_of_fits hend]

theorem State.serve_heap_self {ι : Type} [DecidableEq ι] (s : State ι) (p : ι) :
    (s.serve p).heap p = (s.heap p).servicing := Function.update_self ..

theorem Stands.servicing {p : Fin n} (hs : Stands w k s) (hwaits : Waits w.jobs s.slots p) :
    (s.heap p).servicing.timeLeft = w.service p - s.slots.count (some p) - 1 := by
  rw [hs.account.eq_after hwaits.2, w.after_servicing hwaits.2, Workload.after, Nat.cast_add,
    Nat.cast_one, sub_sub]

theorem serveToEnd_spec {p : Fin n} (hs : Stands w (s.slots.length + 1) s) (hp : s.p = some p)
    (hidle : s.idle = false) (hwaits : Waits w.jobs s.slots p)
    (hready : s.readyQ = (w.arrivals (s.slots.length + 1)).filter fun i =>
      (s.slots ++ [some p]).count (some i) = 0)
    (hother : ∀ i, i ≠ p → 0 < s.slots.count (some i) →
      w.jobs.service i ≤ s.slots.count (some i)) :
    ∃ s', s.serveToEnd = some s' ∧ s'.slots = s.slots ++ [some p] ∧
      Stands w (s.slots.length + 1) s' ∧ ToEnd w (s.slots.length + 1) s' ∧
      s'.line = s.finishQ ++ [p] ++ s.readyQ := by
  have htime : ((s.serve p).heap p).timeLeft = w.service p - s.slots.count (some p) - 1 := by
    rw [State.serve_heap_self, hs.servicing hwaits]
  have hservice := w.jobs_service p
  have hlt := hwaits.2
  rw [State.serveToEnd, hp, Option.map_some]
  dsimp only
  rw [htime]
  have hcount : ∀ i, 0 < (s.slots ++ [some p]).count (some i) →
      (s.slots ++ [some p]).count (some i) < w.jobs.service i → i = p := fun i hpos hmore => by
    by_contra hip
    rw [count_concat_of_ne fun heq => hip (Option.some.inj heq).symm] at hpos hmore
    have hdone := hother i hip hpos
    omega
  by_cases hlast : s.slots.count (some p) + 1 = w.jobs.service p
  · rw [if_pos (by omega)]
    refine ⟨_, rfl, rfl, ⟨hs.finish hwaits hlast, hs.clock, hs.q⟩,
      ⟨hready, fun i hpos hmore => ?_, fun hbusy => Bool.noConfusion hbusy⟩, ?_⟩
    · obtain rfl := hcount i hpos hmore
      change (s.slots ++ [some i]).count (some i) < _ at hmore
      rw [count_concat_self] at hmore
      omega
    · exact congrArg (· ++ s.readyQ) (List.append_nil _)
  · rw [if_neg (by omega)]
    refine ⟨_, rfl, rfl, ⟨hs.account.serve hwaits (by omega), hs.clock, hs.q⟩,
      ⟨hready, fun i hpos hmore => ?_, fun _ => ⟨p, hp, ?_⟩⟩, ?_⟩
    · obtain rfl := hcount i hpos hmore
      exact ⟨hidle, hp, List.getLast?_concat⟩
    · show 0 < (s.slots ++ [some p]).count (some p) ∧ (s.slots ++ [some p]).count (some p) < _
      rw [count_concat_self]
      omega
    · show s.finishQ ++ (s.serve p).current ++ s.readyQ = _
      rw [State.current, State.serve, hidle, hp]
      rfl

theorem Stands.pass (hs : Stands w (s.slots.length + 1) s) (hx : Legal w.jobs s.slots none) :
    Stands w (s.slots.length + 1) s.pass :=
  ⟨hs.account.pass hx, hs.clock, hs.q⟩

/-- No process is ready: one that is not done is to come. -/
theorem legal_none (hsome : ∃ i, s.slots.count (some i) < w.jobs.service i)
    (hnone : ∀ i, ¬ Waits w.jobs s.slots i) : Legal w.jobs s.slots none := by
  obtain ⟨i, hi⟩ := hsome
  refine ⟨hnone, i, ?_⟩
  by_contra hle
  exact hnone i ⟨Nat.le_of_not_lt hle, hi⟩

/-- What an iteration of a branch that serves to the end does: a process that was begun is served on,
and `choose` picks the one that is begun. -/
structure EndStep (w : Workload n) (choose : State (Fin n) → Option (Fin n)) (s s' : State (Fin n))
    (x : Option (Fin n)) : Prop where
  slots : s'.slots = s.slots ++ [x]
  stands : Stands w (s.slots.length + 1) s'
  toEnd : ToEnd w (s.slots.length + 1) s'
  keeps : Keeps w.jobs s.slots x
  chosen : ∀ i, x = some i → s.slots.count (some i) = 0 → choose s = some i
  line : s'.line = s.line ∨
    ∃ p, choose s = some p ∧ s.idle = true ∧ s'.line = s.finishQ ++ [p] ++ s.readyQ.erase p

namespace ToEnd

theorem mem_readyQ (hm : ToEnd w (s.slots.length + 1) s) {i : Fin n} : i ∈ s.readyQ ↔
    w.jobs.arrival i ≤ s.slots.length ∧ s.slots.count (some i) = 0 := by
  rw [hm.readyQ, List.mem_filter, decide_eq_true_iff, Workload.mem_arrivals, Nat.lt_succ_iff]

/-- Once `p` is served the processes that were not served yet are the others. -/
theorem erase_readyQ (hm : ToEnd w (s.slots.length + 1) s) (p : Fin n) : s.readyQ.erase p =
    (w.arrivals (s.slots.length + 1)).filter fun i => (s.slots ++ [some p]).count (some i) = 0 := by
  rw [hm.readyQ, ((Workload.arrivals_nodup _).filter _).erase_eq_filter, List.filter_filter]
  refine List.filter_congr fun i _ => ?_
  by_cases hip : i = p
  · subst hip
    rw [count_concat_self]
    simp
  · rw [count_concat_of_ne fun heq => hip (Option.some.inj heq).symm]
    simp [hip]

theorem served_of_idle (hm : ToEnd w k s) (hidle : s.idle = true) (i : Fin n)
    (hpos : 0 < s.slots.count (some i)) : w.jobs.service i ≤ s.slots.count (some i) := by
  by_contra hlt
  have hbusy := (hm.begun i hpos (Nat.lt_of_not_le hlt)).1
  rw [hidle] at hbusy
  exact Bool.noConfusion hbusy

/-- No process was begun and is not done. -/
theorem keeps_of_idle (hm : ToEnd w k s) (hidle : s.idle = true) (x : Option (Fin n)) :
    Keeps w.jobs s.slots x := fun i hlast hlt => by
  have hmem := List.mem_of_getLast? hlast
  have hdone := hm.served_of_idle hidle i (List.count_pos_iff.mpr hmem)
  omega

theorem pass (hm : ToEnd w (s.slots.length + 1) s) (hs : Stands w (s.slots.length + 1) s)
    (choose : State (Fin n) → Option (Fin n)) (hidle : s.idle = true) (hempty : s.readyQ = [])
    (hsome : ∃ i, s.slots.count (some i) < w.jobs.service i) :
    EndStep w choose s s.pass none := by
  have hcount : ∀ i, (s.slots ++ [none]).count (some i) = s.slots.count (some i) := fun i =>
    count_concat_of_ne (Option.some_ne_none i).symm
  have hnone : ∀ i, ¬ Waits w.jobs s.slots i := fun i hwaits => by
    have hpos : 0 < s.slots.count (some i) := by
      by_contra hzero
      have hmem := hm.mem_readyQ.mpr ⟨hwaits.1, Nat.eq_zero_of_not_pos hzero⟩
      rw [hempty] at hmem
      exact List.not_mem_nil hmem
    exact absurd hwaits.2 (Nat.not_lt_of_le (hm.served_of_idle hidle i hpos))
  refine ⟨rfl, hs.pass (legal_none hsome hnone), ⟨?_, fun i hpos hlt => ?_, fun hbusy => ?_⟩,
    hm.keeps_of_idle hidle none, fun i hx => absurd hx.symm (Option.some_ne_none i), .inl rfl⟩
  · show s.readyQ = (w.arrivals _).filter fun i => (s.slots ++ [none]).count (some i) = 0
    simp only [hcount]
    exact hm.readyQ
  · change 0 < (s.slots ++ [none]).count (some i) at hpos
    change (s.slots ++ [none]).count (some i) < _ at hlt
    rw [hcount] at hpos hlt
    exact absurd hlt (Nat.not_lt_of_le (hm.served_of_idle hidle i hpos))
  · exact absurd (hidle.symm.trans hbusy) (by decide)

theorem beginning (hm : ToEnd w (s.slots.length + 1) s) (hs : Stands w (s.slots.length + 1) s)
    {choose : State (Fin n) → Option (Fin n)} {p : Fin n} (hidle : s.idle = true)
    (hp : p ∈ s.readyQ) (hchoose : choose s = some p) :
    ∃ s', { s with idle := false, p := some p, readyQ := s.readyQ.erase p }.serveToEnd = some s' ∧
      EndStep w choose s s' (some p) := by
  have hmem := hm.mem_readyQ.mp hp
  have hwaits : Waits w.jobs s.slots p := ⟨hmem.1, by
    rw [hmem.2]
    exact w.jobs_service_pos p⟩
  obtain ⟨s', hserve, hslots, hstands, htoEnd, hline⟩ := serveToEnd_spec
    (s := { s with idle := false, p := some p, readyQ := s.readyQ.erase p })
    ⟨hs.account, hs.clock, hs.q⟩ rfl rfl hwaits (hm.erase_readyQ p)
    fun i _ => hm.served_of_idle hidle i
  refine ⟨s', hserve, hslots, hstands, htoEnd, hm.keeps_of_idle hidle _, fun i hx _ => ?_,
    .inr ⟨p, hchoose, hidle, hline⟩⟩
  rw [hchoose, hx]

theorem going (hm : ToEnd w (s.slots.length + 1) s) (hs : Stands w (s.slots.length + 1) s)
    (choose : State (Fin n) → Option (Fin n)) (hidle : s.idle = false) :
    ∃ s' x, s.serveToEnd = some s' ∧ EndStep w choose s s' x := by
  obtain ⟨p, hp, hpos, hlt⟩ := hm.busy hidle
  have hwaits : Waits w.jobs s.slots p := by
    refine ⟨?_, hlt⟩
    by_contra hearly
    have hzero := hs.account.legal.count_eq_zero (Nat.le_of_not_le hearly)
    omega
  have hready : s.readyQ.erase p = s.readyQ := List.erase_of_not_mem fun hmem => by
    have hzero := (hm.mem_readyQ.mp hmem).2
    omega
  obtain ⟨s', hserve, hslots, hstands, htoEnd, hline⟩ := serveToEnd_spec hs hp hidle hwaits
    (hready ▸ hm.erase_readyQ p) fun i hip hi => by
      by_contra hmore
      have hcur := (hm.begun i hi (Nat.lt_of_not_le hmore)).2.1
      exact hip (Option.some.inj (hcur.symm.trans hp))
  refine ⟨s', some p, hserve, hslots, hstands, htoEnd, fun i hlast hi => ?_, fun i hx hzero => ?_,
    .inl ?_⟩
  · have hcur := (hm.begun i (List.count_pos_iff.mpr (List.mem_of_getLast? hlast)) hi).2.1
    rw [← hcur, hp]
  · obtain rfl := Option.some.inj hx
    omega
  · rw [hline, State.line, State.current, hidle, hp]
    rfl

end ToEnd

theorem runToEnd_spec (choose : State (Fin n) → Option (Fin n))
    (hchoose : s.readyQ ≠ [] → ∃ p ∈ s.readyQ, choose s = some p)
    (hs : Stands w (s.slots.length + 1) s) (hm : ToEnd w (s.slots.length + 1) s)
    (hsome : ∃ i, s.slots.count (some i) < w.jobs.service i) :
    ∃ s' x, s.runToEnd choose = some s' ∧ EndStep w choose s s' x := by
  rw [State.runToEnd]
  by_cases hidle : s.idle = true
  · rw [if_pos hidle]
    by_cases hempty : s.readyQ = []
    · rw [if_pos (by rw [hempty]; rfl)]
      exact ⟨s.pass, none, rfl, hm.pass hs choose hidle hempty hsome⟩
    · obtain ⟨p, hp, hpick⟩ := hchoose hempty
      obtain ⟨s', hserve, hstep⟩ := hm.beginning hs hidle hp hpick
      rw [if_neg (by rwa [List.length_eq_zero_iff]), hpick, Option.bind_some]
      exact ⟨s', some p, hserve, hstep⟩
  · rw [if_neg hidle]
    exact hm.going hs choose (Bool.eq_false_iff.mpr hidle)

/-! ## Serving for a quantum -/

/-- All processes that are not done are in the ready queue. -/
structure Sharing (w : Workload n) (quantum : ℤ) (k : ℕ) (s : State (Fin n)) : Prop where
  readyQ : s.readyQ = (w.arrivals k).filter fun i => s.slots.count (some i) < w.jobs.service i
  next : -1 ≤ s.next
  busy : s.idle = false → 0 ≤ s.next ∧ ∃ p ∈ s.readyQ, s.p = some p
  resting : s.idle = true → s.interval = 0 ∧ s.interrupt = false
  going : s.idle = false → s.interrupt = false → 0 < s.interval ∧ s.interval < quantum

theorem Sharing.start (quantum : ℤ) : Sharing w quantum 0 w.start where
  readyQ := rfl
  next := by simp [Workload.start, Scheduling.start]
  busy hidle := by simp [Workload.start, Scheduling.start] at hidle
  resting _ := ⟨rfl, rfl⟩
  going hidle := by simp [Workload.start, Scheduling.start] at hidle

theorem Sharing.arrive {quantum : ℤ} (h : Sharing w quantum s.slots.length s)
    (hs : Stands w s.slots.length s) :
    Sharing w quantum (s.slots.length + 1) (w.arrive s.slots.length s) where
  readyQ := by
    have hnew : (w.new s.slots.length).filter
        (fun i => s.slots.count (some i) < w.jobs.service i) = w.new s.slots.length := by
      refine List.filter_eq_self.mpr fun i hi => decide_eq_true ?_
      rw [hs.account.legal.count_eq_zero (Workload.mem_new.mp hi).ge]
      exact w.jobs_service_pos i
    rw [Workload.arrivals_succ, List.filter_append]
    show s.readyQ ++ w.new s.slots.length =
      (w.arrivals s.slots.length).filter (fun i => s.slots.count (some i) < w.jobs.service i) ++
        (w.new s.slots.length).filter fun i => s.slots.count (some i) < w.jobs.service i
    rw [hnew, h.readyQ]
  next := h.next
  busy hidle := by
    obtain ⟨hnext, p, hp, hcur⟩ := h.busy hidle
    exact ⟨hnext, p, List.mem_append_left _ hp, hcur⟩
  resting := h.resting
  going := h.going

/-- What an iteration of a branch that serves for a quantum does. `choose` picks the process unless the
one that is served has time left in its quantum. -/
structure QuantumStep (w : Workload n) (quantum : ℤ) (choose : State (Fin n) → Option (Fin n))
    (s s' : State (Fin n)) (x : Option (Fin n)) : Prop where
  slots : s'.slots = s.slots ++ [x]
  stands : Stands w (s.slots.length + 1) s'
  sharing : Sharing w quantum (s.slots.length + 1) s'
  chosen : ∀ i, x = some i → (s.idle || s.interrupt) = true →
    choose s.clearInterrupt.advance = some i

/-- The state after a unit of service of `p`. -/
def State.shared {ι : Type} [DecidableEq ι] (s : State ι) (quantum : ℤ) (p : ι) : State ι :=
  if (s.heap p).servicing.timeLeft = 0 then
    { (s.serve p).finish p with
      readyQ := s.readyQ.erase p, next := s.next - 1, idle := true, interval := 0 }
  else
    { s.serve p with
      interval := s.interval + 1
      interrupt := if s.interval + 1 = quantum then true else s.interrupt }

theorem serveQuantum_eq {p : Fin n} (hp : s.p = some p) (quantum : ℤ) :
    s.serveQuantum quantum = some (s.shared quantum p) := by
  rw [State.serveQuantum, hp, Option.map_some, State.shared]
  dsimp only
  rw [State.serve_heap_self]
  by_cases hlast : (s.heap p).servicing.timeLeft = 0
  · rw [if_pos hlast, if_pos hlast]
    rfl
  · rw [if_neg hlast, if_neg hlast]
    by_cases hend : s.interval + 1 = quantum
    · rw [if_pos hend, if_pos hend]
    · rw [if_neg hend, if_neg hend]
      rfl

section Shared
variable {quantum : ℤ} {p : Fin n}

theorem mem_readyQ_iff
    (hready : s.readyQ = (w.arrivals (s.slots.length + 1)).filter fun i =>
      s.slots.count (some i) < w.jobs.service i) {i : Fin n} :
    i ∈ s.readyQ ↔ Waits w.jobs s.slots i := by
  rw [hready, List.mem_filter, decide_eq_true_iff, waits_iff]

/-- A unit of service of a ready process. -/
theorem shared_spec (hs : Stands w (s.slots.length + 1) s) (hp : s.p = some p)
    (hidle : s.idle = false) (hint : s.interrupt = false) (hnext : 0 ≤ s.next)
    (hinterval : 0 ≤ s.interval ∧ s.interval < quantum)
    (hready : s.readyQ = (w.arrivals (s.slots.length + 1)).filter fun i =>
      s.slots.count (some i) < w.jobs.service i) (hmem : p ∈ s.readyQ) :
    (s.shared quantum p).slots = s.slots ++ [some p] ∧
      Stands w (s.slots.length + 1) (s.shared quantum p) ∧
      Sharing w quantum (s.slots.length + 1) (s.shared quantum p) := by
  have hwaits := (mem_readyQ_iff hready).mp hmem
  have htime := hs.servicing hwaits
  have hservice := w.jobs_service p
  have hlt := hwaits.2
  have hother : ∀ i, i ≠ p → (s.slots ++ [some p]).count (some i) = s.slots.count (some i) :=
    fun i hip => count_concat_of_ne fun heq => hip (Option.some.inj heq).symm
  rw [State.shared]
  by_cases hlast : s.slots.count (some p) + 1 = w.jobs.service p
  · rw [if_pos (by omega)]
    refine ⟨rfl, ⟨hs.finish hwaits hlast, hs.clock, hs.q⟩, ⟨?_, ?_, fun hbusy => ?_, fun _ => ?_,
      fun hbusy => ?_⟩⟩
    · show s.readyQ.erase p = (w.arrivals _).filter fun i =>
        (s.slots ++ [some p]).count (some i) < w.jobs.service i
      rw [hready, ((Workload.arrivals_nodup _).filter _).erase_eq_filter, List.filter_filter]
      refine List.filter_congr fun i _ => ?_
      by_cases hip : i = p
      · subst hip
        rw [count_concat_self]
        simp [hlast]
      · rw [hother i hip]
        simp [hip]
    · show -1 ≤ s.next - 1
      omega
    · exact Bool.noConfusion hbusy
    · exact ⟨rfl, hint⟩
    · exact Bool.noConfusion hbusy
  · rw [if_neg (by omega)]
    refine ⟨rfl, ⟨hs.account.serve hwaits (by omega), hs.clock, hs.q⟩, ⟨?_, ?_, fun _ => ?_,
      fun hrest => ?_, fun _ hgo => ?_⟩⟩
    · show s.readyQ = (w.arrivals _).filter fun i =>
        (s.slots ++ [some p]).count (some i) < w.jobs.service i
      rw [hready]
      refine List.filter_congr fun i _ => ?_
      by_cases hip : i = p
      · subst hip
        rw [count_concat_self, decide_eq_decide]
        omega
      · rw [hother i hip]
    · exact le_trans (by decide) hnext
    · exact ⟨hnext, p, hmem, hp⟩
    · exact absurd (hidle.symm.trans hrest) (by decide)
    · change (if s.interval + 1 = quantum then true else s.interrupt) = false at hgo
      show 0 < s.interval + 1 ∧ s.interval + 1 < quantum
      split at hgo
      · exact Bool.noConfusion hgo
      · omega

end Shared

theorem advance_next {ι : Type} (s : State ι) (h : -1 ≤ s.next) : 0 ≤ s.advance.next := by
  unfold State.advance
  dsimp only
  split <;> omega

theorem clearInterrupt_eq {ι : Type} (s : State ι) : s.clearInterrupt =
    { s with
      interrupt := false
      interval := if s.interrupt then 0 else s.interval } := by
  unfold State.clearInterrupt
  by_cases hint : s.interrupt = true
  · rw [if_pos hint, if_pos hint]
  · rw [if_neg hint, if_neg hint, ← Bool.eq_false_iff.mpr hint]

/-- The state in which a process that `choose` picked is served. -/
def State.given {ι : Type} (s : State ι) (p : ι) : State ι :=
  { s.clearInterrupt.advance with p := some p, idle := false }

namespace Sharing
variable {quantum : ℤ} {choose : State (Fin n) → Option (Fin n)} {p : Fin n}

theorem pass (hm : Sharing w quantum (s.slots.length + 1) s)
    (choose : State (Fin n) → Option (Fin n)) (hs : Stands w (s.slots.length + 1) s)
    (hempty : s.readyQ = []) (hsome : ∃ i, s.slots.count (some i) < w.jobs.service i) :
    s.clearInterrupt = s ∧ QuantumStep w quantum choose s s.pass none := by
  have hidle : s.idle = true := by
    by_contra hbusy
    obtain ⟨-, p, hp, -⟩ := hm.busy (Bool.eq_false_iff.mpr hbusy)
    rw [hempty] at hp
    exact List.not_mem_nil hp
  obtain ⟨hinterval, hint⟩ := hm.resting hidle
  have hnone : ∀ i, ¬ Waits w.jobs s.slots i := fun i hwaits => by
    have hmem := (mem_readyQ_iff hm.readyQ).mpr hwaits
    rw [hempty] at hmem
    exact List.not_mem_nil hmem
  refine ⟨if_neg (by rw [hint]; decide), rfl, hs.pass (legal_none hsome hnone),
    ⟨?_, hm.next, fun hbusy => ?_, fun _ => ⟨hinterval, hint⟩, fun hbusy => ?_⟩,
    fun i hx => absurd hx.symm (Option.some_ne_none i)⟩
  · show s.readyQ = (w.arrivals _).filter fun i =>
      (s.slots ++ [none]).count (some i) < w.jobs.service i
    simp only [count_concat_of_ne (Option.some_ne_none _).symm]
    exact hm.readyQ
  · exact absurd (hidle.symm.trans hbusy) (by decide)
  · exact absurd (hidle.symm.trans hbusy) (by decide)

theorem given_eq (hm : Sharing w quantum k s) (hfree : (s.idle || s.interrupt) = true)
    (p : Fin n) : s.given p =
      { s with
        interrupt := false, interval := 0, next := s.advance.next, p := some p, idle := false } := by
  have hinterval : (if s.interrupt then 0 else s.interval) = 0 := by
    split
    · rfl
    · rename_i hint
      rw [Bool.eq_false_iff.mpr hint, Bool.or_false] at hfree
      exact (hm.resting hfree).1
  rw [State.given, clearInterrupt_eq, hinterval]
  rfl

theorem given (hm : Sharing w quantum (s.slots.length + 1) s)
    (hs : Stands w (s.slots.length + 1) s) (hq : 0 < quantum)
    (hfree : (s.idle || s.interrupt) = true) (hp : p ∈ s.readyQ)
    (hpick : choose s.clearInterrupt.advance = some p) :
    QuantumStep w quantum choose s ((s.given p).shared quantum p) (some p) := by
  rw [hm.given_eq hfree]
  obtain ⟨hslots, hstands, hsharing⟩ := shared_spec
    (s :=
      { s with
        interrupt := false, interval := 0, next := s.advance.next, p := some p, idle := false })
    ⟨hs.account, hs.clock, hs.q⟩ rfl rfl rfl (advance_next s hm.next) ⟨le_rfl, hq⟩ hm.readyQ hp
  refine ⟨hslots, hstands, hsharing, fun i hx _ => ?_⟩
  rw [hpick, hx]

theorem served (hm : Sharing w quantum (s.slots.length + 1) s)
    (hs : Stands w (s.slots.length + 1) s) (hidle : s.idle = false) (hint : s.interrupt = false)
    (hp : s.p = some p) :
    QuantumStep w quantum choose s (s.shared quantum p) (some p) := by
  obtain ⟨hnext, j, hj, hcur⟩ := hm.busy hidle
  obtain rfl := Option.some.inj (hcur.symm.trans hp)
  obtain ⟨hpos, hlt⟩ := hm.going hidle hint
  obtain ⟨hslots, hstands, hsharing⟩ :=
    shared_spec hs hp hidle hint hnext ⟨hpos.le, hlt⟩ hm.readyQ hj
  refine ⟨hslots, hstands, hsharing, fun _ _ hfree => ?_⟩
  rw [hidle, hint] at hfree
  exact Bool.noConfusion hfree

end Sharing

/-- The cases of an iteration of a branch that serves for a quantum. -/
theorem runQuantum_cases {quantum : ℤ} {choose : State (Fin n) → Option (Fin n)}
    (hchoose : s.readyQ ≠ [] →
      ∃ p ∈ s.readyQ, choose s.clearInterrupt.advance = some p)
    (hs : Stands w (s.slots.length + 1) s) (hm : Sharing w quantum (s.slots.length + 1) s)
    (hsome : ∃ i, s.slots.count (some i) < w.jobs.service i) :
    s.readyQ = [] ∧ s.runQuantum quantum choose = some s.pass ∨
    (∃ p ∈ s.readyQ, (s.idle || s.interrupt) = true ∧ choose s.clearInterrupt.advance = some p ∧
      s.runQuantum quantum choose = some ((s.given p).shared quantum p)) ∨
    ∃ p ∈ s.readyQ, s.idle = false ∧ s.interrupt = false ∧ s.p = some p ∧
      s.runQuantum quantum choose = some (s.shared quantum p) := by
  rw [State.runQuantum]
  by_cases hfree : (s.idle || s.interrupt) = true
  · have hready : s.clearInterrupt.readyQ = s.readyQ := by rw [clearInterrupt_eq]
    rw [if_pos hfree]
    dsimp only
    rw [hready]
    by_cases hempty : s.readyQ = []
    · rw [if_pos (by rw [hempty]; rfl), (hm.pass choose hs hempty hsome).1]
      exact .inl ⟨hempty, rfl⟩
    · obtain ⟨p, hp, hpick⟩ := hchoose hempty
      rw [if_neg (by rwa [List.length_eq_zero_iff]), hpick, Option.bind_some]
      exact .inr (.inl ⟨p, hp, hfree, rfl, serveQuantum_eq rfl quantum⟩)
  · rw [if_neg hfree]
    rw [Bool.or_eq_true, not_or, Bool.not_eq_true, Bool.not_eq_true] at hfree
    obtain ⟨-, p, hp, hcur⟩ := hm.busy hfree.1
    exact .inr (.inr ⟨p, hp, hfree.1, hfree.2, hcur, serveQuantum_eq hcur quantum⟩)

theorem runQuantum_spec {quantum : ℤ} (hq : 0 < quantum)
    (choose : State (Fin n) → Option (Fin n))
    (hchoose : s.readyQ ≠ [] →
      ∃ p ∈ s.readyQ, choose s.clearInterrupt.advance = some p)
    (hs : Stands w (s.slots.length + 1) s) (hm : Sharing w quantum (s.slots.length + 1) s)
    (hsome : ∃ i, s.slots.count (some i) < w.jobs.service i) :
    ∃ s' x, s.runQuantum quantum choose = some s' ∧ QuantumStep w quantum choose s s' x := by
  rcases runQuantum_cases hchoose hs hm hsome with
    ⟨hempty, hrun⟩ | ⟨p, hp, hfree, hpick, hrun⟩ | ⟨p, hp, hidle, hint, hcur, hrun⟩
  · exact ⟨_, none, hrun, (hm.pass choose hs hempty hsome).2⟩
  · exact ⟨_, some p, hrun, hm.given hs hq hfree hp hpick⟩
  · exact ⟨_, some p, hrun, hm.served hs hidle hint hcur⟩

end El32.Scheduling

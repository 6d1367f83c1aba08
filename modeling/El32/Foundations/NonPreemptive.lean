import El32.Foundations.UnitHistory

/-! Schedules in which a job that was begun is served on. The units of a job are then an interval, and
the time of finishing follows from the time at which the job before it finished. -/
namespace El32.UnitSchedule
set_option autoImplicit false

variable {ι : Type} [DecidableEq ι] {J : Jobs ι} {σ : Schedule ι} {i j : ι} {f g t : ℕ}

def NonPreemptive (J : Jobs ι) (σ : Schedule ι) : Prop :=
  ∀ t i, σ t = some i → served σ i (t + 1) < J.service i → σ (t + 1) = some i

/-! ## The units of a job -/

/-- From a unit of `i` on up to its finish all units are its own. -/
theorem NonPreemptive.served_on (hn : NonPreemptive J σ) (hf : FinishesAt J σ i f)
    (ht : σ t = some i) (d : ℕ) (hd : t + d < f) :
    σ (t + d) = some i ∧ served σ i (t + d) = served σ i t + d := by
  induction d with
  | zero => exact ⟨ht, rfl⟩
  | succ d ih =>
    obtain ⟨hself, hcount⟩ := ih (by omega)
    refine ⟨hn (t + d) i hself (hf.2 _ hd), ?_⟩
    rw [← add_assoc, served_succ_self hself, hcount]
    rfl

/-- The first unit of a job. -/
theorem exists_first (hf : FinishesAt J σ i f) (hpos : 0 < J.service i) :
    ∃ t < f, σ t = some i ∧ served σ i t = 0 := by
  have hex : ∃ t, 0 < served σ i t := ⟨f, hpos.trans_le hf.1⟩
  obtain ⟨t, ht⟩ : ∃ t, Nat.find hex = t + 1 := by
    refine Nat.exists_eq_succ_of_ne_zero fun hzero => ?_
    have hfound := Nat.find_spec hex
    rw [hzero] at hfound
    exact lt_irrefl 0 hfound
  have hsome := Nat.find_spec hex
  have hnone := Nat.find_min hex (m := t) (by omega)
  have hle := Nat.find_min' hex (hpos.trans_le hf.1)
  rw [ht] at hsome hle
  refine ⟨t, hle, ?_, Nat.eq_zero_of_not_pos hnone⟩
  by_contra hne
  rw [served_succ_of_ne hne] at hsome
  exact hnone hsome

/-- **The units of a job are an interval**: the last ones up to its finish. -/
theorem NonPreemptive.served_iff (hn : NonPreemptive J σ) (hv : Valid J σ)
    (hf : FinishesAt J σ i f) (hpos : 0 < J.service i) :
    σ t = some i ↔ f ≤ t + J.service i ∧ t < f := by
  have hdone : served σ i f = J.service i := le_antisymm (served_le hv i f) hf.1
  have hlast : ∀ u < f, σ u = some i → served σ i f = served σ i u + (f - u) := fun u hu hself => by
    obtain ⟨hend, hcount⟩ := hn.served_on hf hself (f - u - 1) (by omega)
    have hsucc := served_succ_self hend
    rw [hcount, show u + (f - u - 1) + 1 = f by omega] at hsucc
    omega
  constructor
  · intro ht
    have hlt := hf.lt_iff.mp (hv t i ht).2
    have hcount := hlast t hlt ht
    omega
  · rintro ⟨hle, hlt⟩
    obtain ⟨u, hu, hself, hzero⟩ := exists_first hf hpos
    have hcount := hlast u hu hself
    have hon := (hn.served_on hf hself (t - u) (by omega)).1
    rwa [show u + (t - u) = t by omega] at hon

theorem served_le_time (σ : Schedule ι) (i : ι) (t : ℕ) : served σ i t ≤ t := by
  induction t with
  | zero => exact le_rfl
  | succ t ih =>
    rw [served]
    split <;> omega

theorem FinishesAt.service_le (hf : FinishesAt J σ i f) : J.service i ≤ f :=
  hf.1.trans (served_le_time σ i f)

/-! ## One job after the other -/

/-- **The recurrence of the finishing times.** `F` is the last finish before that of `j`, or the start
of the schedule: `j` is begun at `F`, or when it arrives after that. -/
theorem NonPreemptive.finish_eq (hn : NonPreemptive J σ) (hv : Valid J σ) (hc : Conserving J σ)
    (hpos : ∀ i, 0 < J.service i) (hall : ∀ i, ∃ f, FinishesAt J σ i f)
    (hj : FinishesAt J σ j g) {F : ℕ}
    (hlast : ∀ i f, FinishesAt J σ i f → f < g → f ≤ F)
    (hF : F = 0 ∨ F < g ∧ ∃ i, FinishesAt J σ i F) : g = max F (J.arrival j) + J.service j := by
  have hroom := hj.service_le
  have hown : ∀ t, σ t = some j ↔ g ≤ t + J.service j ∧ t < g := fun t =>
    hn.served_iff hv hj (hpos j)
  obtain ⟨b, hb⟩ : ∃ b, b + J.service j = g := ⟨g - J.service j, Nat.sub_add_cancel hroom⟩
  have hposj := hpos j
  have hbegin : σ b = some j := (hown b).mpr ⟨hb.ge, by omega⟩
  have harrive : J.arrival j ≤ b := (hv b j hbegin).1
  have hafter : F ≤ b := by
    rcases hF with rfl | ⟨hlt, i, hi⟩
    · exact Nat.zero_le b
    · by_contra hover
      have hne : i ≠ j := fun h => by
        subst h
        exact absurd (hi.unique hj) hlt.ne
      have hroomi := hi.service_le
      have hposi := hpos i
      have hi' := (hn.served_iff hv hi (hpos i) (t := F - 1)).mpr ⟨by omega, by omega⟩
      have hj' := (hown (F - 1)).mpr ⟨by omega, by omega⟩
      exact hne (Option.some.inj (hi'.symm.trans hj'))
  have hsoon : b ≤ max F (J.arrival j) := by
    by_contra hlate
    rw [not_le, max_lt_iff] at hlate
    obtain ⟨t, rfl⟩ : ∃ t, b = t + 1 := ⟨b - 1, by omega⟩
    cases hσ : σ t with
    | none => exact hc t hσ j ⟨by omega, hj.2 t (by omega)⟩
    | some i =>
      obtain ⟨f, hf⟩ := hall i
      have hown' := (hn.served_iff hv hf (hpos i)).mp hσ
      have hne : i ≠ j := fun h => by
        subst h
        have hmine := (hown t).mp hσ
        omega
      have hend : f = t + 1 := by
        by_contra hmore
        have hon := (hn.served_iff hv hf (hpos i) (t := t + 1)).mpr ⟨by omega, by omega⟩
        exact hne (Option.some.inj (hon.symm.trans hbegin))
      have hle := hlast i f hf (by omega)
      omega
  omega

/-- Where all jobs arrive at the start, a job that has the least service when it is begun has the least
left while it is served. -/
theorem NonPreemptive.shortest (hn : NonPreemptive J σ) (hv : Valid J σ)
    (hpos : ∀ i, 0 < J.service i) (hall : ∀ i, ∃ f, FinishesAt J σ i f)
    (harrive : ∀ i, J.arrival i = 0)
    (hbegin : ∀ t i, σ t = some i → served σ i t = 0 → ∀ j, Ready J σ t j →
      J.service i ≤ J.service j) : Shortest J σ := by
  intro t i ht j hj
  by_cases hij : i = j
  · rw [hij]
  obtain ⟨f, hf⟩ := hall i
  obtain ⟨g, hg⟩ := hall j
  obtain ⟨b, hb, hself, hzero⟩ := exists_first hf (hpos i)
  have hbt : b ≤ t := by
    by_contra hlt
    have hmono := served_mono σ i (show t + 1 ≤ b by omega)
    rw [served_succ_self ht] at hmono
    omega
  have hj0 : served σ j t = 0 := by
    by_contra hne
    obtain ⟨u, hu, hju, hju0⟩ := exists_first hg (hpos j)
    have hut : u < t := by
      by_contra hge
      have hmono := served_mono σ j (Nat.le_of_not_lt hge)
      omega
    have hown := (hn.served_iff hv hg (hpos j)).mp hju
    have hon := (hn.served_iff hv hg (hpos j) (t := t)).mpr ⟨by omega, hg.lt_iff.mp hj.2⟩
    exact hij (Option.some.inj (ht.symm.trans hon))
  have hmono := served_mono σ j hbt
  have hposj := hpos j
  have harrivej := harrive j
  have hle := hbegin b i hself hzero j ⟨by omega, by omega⟩
  omega

/-! ## Schedules made unit by unit -/

theorem Follows.nonPreemptive {l : List (Option ι)} (h : Follows (Keeps J) l)
    (hall : ∀ i, J.service i ≤ l.count (some i)) : NonPreemptive J (history l) := by
  intro t i ht hlt
  have hin := lt_of_history ht
  have hnext : t + 1 < l.length := by
    by_contra hge
    rw [served_history_of_le (Nat.le_of_not_lt hge)] at hlt
    exact absurd hlt (Nat.not_lt_of_le (hall i))
  refine h.rule hnext i ?_ ?_
  · rw [List.getLast?_take, if_neg (Nat.succ_ne_zero t), Nat.add_sub_cancel,
      List.getElem?_eq_getElem hin, ← history_of_lt hin, ht]
    rfl
  · rwa [served_history] at hlt

/-- A job is begun when it has the least service of those that are ready. -/
theorem Follows.begins_least {l : List (Option ι)} (h : Follows (BeginsLeast J) l)
    (ht : history l t = some i) (hzero : served (history l) i t = 0)
    (hj : Ready J (history l) t j) : J.service i ≤ J.service j := by
  have hin := lt_of_history ht
  rw [served_history] at hzero
  exact h.rule hin i ht hzero j ((ready_history hin.le j).mp hj)

end El32.UnitSchedule

import El32.Foundations.UnitSchedule

/-! Serving the job with the least work left keeps the number of unfinished jobs least at all times.

Compare what is left of the jobs once the largest ones are set aside, for every number of jobs that
may be set aside: a unit of service and an arrival keep this order. -/
namespace El32.UnitSchedule
open Finset
set_option autoImplicit false

variable {ι : Type} [DecidableEq ι]

/-- For any jobs set aside under `s`, no more jobs can be set aside under `r` so that no more is left
of the others. -/
def Lighter [Fintype ι] (r s : ι → ℕ) : Prop :=
  ∀ T : Finset ι, ∃ S : Finset ι, S.card ≤ T.card ∧ ∑ i ∈ Sᶜ, r i ≤ ∑ i ∈ Tᶜ, s i

/-- A unit of service. -/
def serve (r : ι → ℕ) (x : Option ι) (i : ι) : ℕ := if x = some i then r i - 1 else r i

/-- The jobs of `A` arrive with the work `c`. -/
def arrive (A : Finset ι) (c r : ι → ℕ) (i : ι) : ℕ := if i ∈ A then c i else r i

section Serve
variable {r : ι → ℕ}

theorem sum_serve_le (A : Finset ι) (s : ι → ℕ) (y : Option ι) :
    ∑ i ∈ A, s i ≤ ∑ i ∈ A, serve s y i + 1 := by
  cases y with
  | none => exact Nat.le_succ_of_le le_rfl
  | some k =>
    have hle : ∀ i ∈ A, s i ≤ serve s (some k) i + if k = i then 1 else 0 := by
      intro i _
      unfold serve
      simp only [Option.some.injEq]
      split <;> omega
    refine (sum_le_sum hle).trans ?_
    rw [sum_add_distrib, sum_ite_eq]
    split <;> omega

theorem sum_serve_mem {A : Finset ι} {m : ι} (hm : m ∈ A) (hpos : 0 < r m) :
    ∑ i ∈ A, serve r (some m) i + 1 = ∑ i ∈ A, r i := by
  have hone : ∑ i ∈ A, (if m = i then 1 else 0) = 1 := by rw [sum_ite_eq, if_pos hm]
  rw [← hone, ← sum_add_distrib]
  refine sum_congr rfl fun i _ => ?_
  unfold serve
  simp only [Option.some.injEq]
  by_cases h : m = i
  · subst h
    simp only [if_true]
    omega
  · simp only [if_neg h, Nat.add_zero]

theorem serve_le (r : ι → ℕ) (x : Option ι) (i : ι) : serve r x i ≤ r i := by
  unfold serve
  split <;> omega

end Serve

section Lighter
variable [Fintype ι] {r s : ι → ℕ}

theorem Lighter.refl (r : ι → ℕ) : Lighter r r := fun T => ⟨T, le_rfl, le_rfl⟩

theorem Lighter.card_le (h : Lighter r s) :
    (univ.filter fun i => 0 < r i).card ≤ (univ.filter fun i => 0 < s i).card := by
  obtain ⟨S, hcard, hsum⟩ := h (univ.filter fun i => 0 < s i)
  have hzero : ∑ i ∈ (univ.filter fun i => 0 < s i)ᶜ, s i = 0 :=
    sum_eq_zero fun i hi => by simpa using hi
  rw [hzero, Nat.le_zero, sum_eq_zero_iff] at hsum
  refine le_trans (card_le_card fun i hi => ?_) hcard
  by_contra hnot
  have hr := hsum i (mem_compl.mpr hnot)
  have hpos := (mem_filter.mp hi).2
  omega

/-- Setting the job `j` aside for `m`. -/
theorem sum_compl_swap {S : Finset ι} {m j : ι} (hm : m ∈ S) (hj : j ∉ S) (hmj : r m ≤ r j) :
    ∑ i ∈ (insert j (S.erase m))ᶜ, r i ≤ ∑ i ∈ Sᶜ, r i := by
  have hset : (insert j (S.erase m))ᶜ = insert m (Sᶜ.erase j) := by
    ext i
    by_cases him : i = m
    · subst him
      have hij : i ≠ j := fun h => hj (h ▸ hm)
      simp [hij]
    · simp [him]
  have hmem : m ∉ Sᶜ.erase j := fun h => mem_compl.mp (mem_of_mem_erase h) hm
  have hjmem : j ∈ Sᶜ := mem_compl.mpr hj
  rw [hset, sum_insert hmem, ← add_sum_erase Sᶜ r hjmem]
  exact Nat.add_le_add_right hmj _

/-- The step of service: the lighter side serves a job with the least work left. -/
theorem Lighter.serve {m : ι} (h : Lighter r s) (hm : 0 < r m) (hmin : ∀ j, 0 < r j → r m ≤ r j)
    (y : Option ι) : Lighter (serve r (some m)) (serve s y) := by
  intro T
  obtain ⟨S, hcard, hsum⟩ := h T
  have hs := sum_serve_le Tᶜ s y
  by_cases hzero : ∑ i ∈ Sᶜ, r i = 0
  · refine ⟨S, hcard, ?_⟩
    have hle : ∑ i ∈ Sᶜ, UnitSchedule.serve r (some m) i ≤ ∑ i ∈ Sᶜ, r i :=
      sum_le_sum fun i _ => serve_le r (some m) i
    omega
  by_cases hmS : m ∈ S
  · obtain ⟨j, hj, hrj⟩ : ∃ j ∈ Sᶜ, r j ≠ 0 := by
      by_contra hnone
      push Not at hnone
      exact hzero (sum_eq_zero hnone)
    have hjS := mem_compl.mp hj
    refine ⟨insert j (S.erase m), ?_, ?_⟩
    · have hnot : j ∉ S.erase m := fun h => hjS (mem_of_mem_erase h)
      rw [card_insert_of_notMem hnot, card_erase_of_mem hmS]
      have hpos := card_pos.mpr ⟨m, hmS⟩
      omega
    · have hswap := sum_compl_swap hmS hjS (hmin j (Nat.pos_of_ne_zero hrj))
      have hmem : m ∈ (insert j (S.erase m))ᶜ := by
        have hne : m ≠ j := fun h => hjS (h ▸ hmS)
        simp [hne]
      have hone := sum_serve_mem hmem hm
      omega
  · have hone := sum_serve_mem (mem_compl.mpr hmS) hm
    exact ⟨S, hcard, by omega⟩

theorem lighter_serve_zero (hr : ∀ i, r i = 0) (x y : Option ι) :
    Lighter (serve r x) (serve s y) := by
  intro T
  refine ⟨∅, by simp, ?_⟩
  rw [sum_eq_zero fun i _ => Nat.le_zero.mp ((serve_le r x i).trans (hr i).le)]
  exact Nat.zero_le _

/-- The step of arrivals: new jobs that are set aside under `s` are set aside under `r` too. -/
theorem Lighter.arrive (h : Lighter r s) {A : Finset ι} (hr : ∀ i ∈ A, r i = 0)
    (hs : ∀ i ∈ A, s i = 0) (c : ι → ℕ) :
    Lighter (arrive A c r) (arrive A c s) := by
  intro T
  obtain ⟨S, hcard, hsum⟩ := h (T \ A)
  refine ⟨S ∪ (T ∩ A), ?_, ?_⟩
  · have hsplit := card_sdiff_add_card_inter T A
    have hunion := card_union_le S (T ∩ A)
    omega
  · have hnew : ∀ {q : ι → ℕ} (B : Finset ι), (∀ i ∈ A, q i = 0) →
        ∑ i ∈ Bᶜ, UnitSchedule.arrive A c q i = ∑ i ∈ Bᶜ, q i + ∑ i ∈ Bᶜ ∩ A, c i := by
      intro q B hq
      rw [← sum_ite_mem, ← sum_add_distrib]
      refine sum_congr rfl fun i _ => ?_
      unfold UnitSchedule.arrive
      by_cases hi : i ∈ A
      · rw [if_pos hi, if_pos hi, hq i hi, Nat.zero_add]
      · rw [if_neg hi, if_neg hi, Nat.add_zero]
    have hold : ∑ i ∈ Tᶜ, s i = ∑ i ∈ (T \ A)ᶜ, s i := by
      refine sum_subset (compl_subset_compl.mpr sdiff_subset) fun i hi hnot => hs i ?_
      by_contra hiA
      exact hnot (mem_compl.mpr fun hT => mem_compl.mp hi (mem_sdiff.mpr ⟨hT, hiA⟩))
    rw [hnew _ hr, hnew _ hs, hold]
    refine Nat.add_le_add (le_trans (sum_le_sum_of_subset ?_) hsum) (sum_le_sum_of_subset ?_)
    · exact compl_subset_compl.mpr subset_union_left
    · intro i hi
      obtain ⟨hi, hiA⟩ := mem_inter.mp hi
      refine mem_inter.mpr ⟨mem_compl.mpr fun hT => mem_compl.mp hi ?_, hiA⟩
      exact mem_union_right _ (mem_inter.mpr ⟨hT, hiA⟩)

end Lighter

/-! ## Schedules -/

/-- A job with the least work left is served. -/
def Shortest (J : Jobs ι) (σ : Schedule ι) : Prop :=
  ∀ t i, σ t = some i → ∀ j, Ready J σ t j →
    J.service i - served σ i t ≤ J.service j - served σ j t

theorem backlog_of_ready {J : Jobs ι} {σ : Schedule ι} {t : ℕ} {i : ι} (h : Ready J σ t i) :
    backlog J σ t i = J.service i - served σ i t := if_pos h.1

section Schedules
variable [Fintype ι] {J : Jobs ι} {σ τ : Schedule ι}

theorem backlog_succ_eq (hv : Valid J σ) (t : ℕ) : backlog J σ (t + 1) =
    arrive (univ.filter fun i => J.arrival i = t + 1) J.service (serve (backlog J σ t) (σ t)) := by
  funext i
  rw [backlog_succ hv]
  unfold arrive serve
  simp only [mem_filter, mem_univ, true_and]

omit [Fintype ι] in
theorem serve_backlog_of_arriving {t : ℕ} {x : Option ι} {i : ι} (h : J.arrival i = t + 1) :
    serve (backlog J σ t) x i = 0 := by
  have hle := serve_le (backlog J σ t) x i
  rw [backlog_of_early (by omega)] at hle
  exact Nat.le_zero.mp hle

/-- The lighter backlog is kept by every unit. -/
theorem lighter_backlog (hσ : Valid J σ) (hc : Conserving J σ) (hs : Shortest J σ)
    (hτ : Valid J τ) (t : ℕ) : Lighter (backlog J σ t) (backlog J τ t) := by
  induction t with
  | zero => exact Lighter.refl _
  | succ t ih =>
    rw [backlog_succ_eq hσ, backlog_succ_eq hτ]
    refine Lighter.arrive ?_ (fun i hi => ?_) (fun i hi => ?_) _
    · cases hx : σ t with
      | none =>
        refine lighter_serve_zero (fun i => ?_) none (τ t)
        have hnot := hc t hx i
        rw [ready_iff_backlog] at hnot
        omega
      | some m =>
        have hready := hσ t m hx
        refine ih.serve (ready_iff_backlog.mp hready) (fun j hj => ?_) (τ t)
        have hj := ready_iff_backlog.mpr hj
        rw [backlog_of_ready hready, backlog_of_ready hj]
        exact hs t m hx j hj
    · exact serve_backlog_of_arriving (mem_filter.mp hi).2
    · exact serve_backlog_of_arriving (mem_filter.mp hi).2

/-- The unfinished jobs are those with a backlog and those that have not arrived. -/
theorem unfinished_card (hv : Valid J σ) (t : ℕ) : (unfinished J σ t).card =
    (univ.filter fun i => 0 < backlog J σ t i).card +
      (univ.filter fun i => t < J.arrival i ∧ 0 < J.service i).card := by
  rw [← card_union_of_disjoint]
  · congr 1
    ext i
    simp only [unfinished, mem_filter, mem_univ, true_and, mem_union, ← ready_iff_backlog, Ready]
    rcases Nat.lt_or_ge t (J.arrival i) with h | h
    · have hzero := served_eq_zero hv h.le
      omega
    · omega
  · refine disjoint_filter.mpr fun i _ hpos hearly => ?_
    have hready := ready_iff_backlog.mpr hpos
    exact absurd hready.1 (Nat.not_le_of_lt hearly.1)

/-- **Fewest jobs are unfinished at all times.** -/
theorem unfinished_card_le (hσ : Valid J σ) (hc : Conserving J σ) (hs : Shortest J σ)
    (hτ : Valid J τ) (t : ℕ) : (unfinished J σ t).card ≤ (unfinished J τ t).card := by
  rw [unfinished_card hσ, unfinished_card hτ]
  exact Nat.add_le_add_right (lighter_backlog hσ hc hs hτ t).card_le _

/-- **The sum of the finishing times is least.** -/
theorem sum_finish_le (hσ : Valid J σ) (hc : Conserving J σ) (hs : Shortest J σ) (hτ : Valid J τ)
    {f g : ι → ℕ} (hf : ∀ i, FinishesAt J σ i (f i)) (hg : ∀ i, FinishesAt J τ i (g i)) :
    ∑ i, f i ≤ ∑ i, g i := by
  obtain ⟨H, hfH, hgH⟩ : ∃ H, (∀ i, f i ≤ H) ∧ ∀ i, g i ≤ H := by
    refine ⟨∑ j, f j + ∑ j, g j, fun i => ?_, fun i => ?_⟩
    · exact (single_le_sum (fun _ _ => Nat.zero_le _) (mem_univ i)).trans (Nat.le_add_right _ _)
    · exact (single_le_sum (fun _ _ => Nat.zero_le _) (mem_univ i)).trans (Nat.le_add_left _ _)
  rw [sum_finish hf hfH, sum_finish hg hgH]
  exact sum_le_sum fun t _ => unfinished_card_le hσ hc hs hτ t

end Schedules

end El32.UnitSchedule

import El32.Foundations.ShortestRemaining
import Mathlib.Data.List.Infix

/-! Schedules that are made unit by unit: the list of the units so far, and rules for the next one.

A rule may look at the whole past. What a rule says at every unit becomes a property of the
schedule. -/
namespace El32.UnitSchedule
open Finset
set_option autoImplicit false

variable {ι : Type}

/-- The processor is idle after the units of `l`. -/
def history (l : List (Option ι)) : Schedule ι := fun t => (l[t]?).join

/-- Every entry of `l` may follow the entries before it. -/
def Follows (R : List (Option ι) → Option ι → Prop) (l : List (Option ι)) : Prop :=
  ∀ t (h : t < l.length), R (l.take t) l[t]

section Follows
variable {R : List (Option ι) → Option ι → Prop} {l : List (Option ι)} {x : Option ι}

theorem history_of_lt {t : ℕ} (h : t < l.length) : history l t = l[t] := by
  rw [history, List.getElem?_eq_getElem h]
  rfl

theorem history_of_le {t : ℕ} (h : l.length ≤ t) : history l t = none := by
  rw [history, List.getElem?_eq_none h]
  rfl

theorem lt_of_history {t : ℕ} {i : ι} (h : history l t = some i) : t < l.length := by
  by_contra hge
  rw [history_of_le (Nat.le_of_not_lt hge)] at h
  cases h

theorem history_concat_of_lt {t : ℕ} (h : t < l.length) : history (l ++ [x]) t = history l t := by
  rw [history, history, List.getElem?_append_left h]

theorem history_concat_self : history (l ++ [x]) l.length = x := by
  rw [history, List.getElem?_concat_length]
  rfl

theorem follows_nil : Follows R [] := fun _ h => absurd h (Nat.not_lt_zero _)

theorem Follows.concat (hl : Follows R l) (hx : R l x) : Follows R (l ++ [x]) := by
  intro t ht
  rcases Nat.lt_or_ge t l.length with h | h
  · rw [List.take_append_of_le_length h.le, List.getElem_append_left h]
    exact hl t h
  · obtain rfl : t = l.length := by
      rw [List.length_append, List.length_singleton] at ht
      omega
    rw [List.take_left', List.getElem_concat_length rfl]
    · exact hx
    · rfl

theorem Follows.init (h : Follows R (l ++ [x])) : Follows R l := by
  intro t ht
  have hrule := h t (by rw [List.length_append]; omega)
  rwa [List.take_append_of_le_length ht.le, List.getElem_append_left ht] at hrule

theorem Follows.last (h : Follows R (l ++ [x])) : R l x := by
  have hrule := h l.length (by simp)
  rwa [List.take_left' rfl, List.getElem_concat_length rfl] at hrule

theorem Follows.rule (hl : Follows R l) {t : ℕ} (h : t < l.length) :
    R (l.take t) (history l t) := by
  rw [history_of_lt h]
  exact hl t h

theorem Follows.mono {S : List (Option ι) → Option ι → Prop} (h : ∀ l x, R l x → S l x)
    (hl : Follows R l) : Follows S l := fun t ht => h _ _ (hl t ht)

end Follows

section Counts
variable [DecidableEq ι] {J : Jobs ι} {l : List (Option ι)}

theorem served_history (l : List (Option ι)) (i : ι) (t : ℕ) :
    served (history l) i t = (l.take t).count (some i) := by
  induction t with
  | zero => rfl
  | succ t ih =>
    rw [served, ih, List.take_add_one, List.count_append, history]
    cases h : l[t]? with
    | none => simp
    | some x => simp [List.count_singleton]

theorem served_history_of_le {t : ℕ} (h : l.length ≤ t) (i : ι) :
    served (history l) i t = l.count (some i) := by
  rw [served_history, List.take_of_length_le h]

theorem served_history_concat {t : ℕ} (h : t ≤ l.length) (x : Option ι) (i : ι) :
    served (history (l ++ [x])) i t = served (history l) i t :=
  served_congr fun _ hu => history_concat_of_lt (hu.trans_le h)

theorem count_concat_self (l : List (Option ι)) (i : ι) :
    (l ++ [some i]).count (some i) = l.count (some i) + 1 := by
  rw [List.count_append, List.count_singleton_self]

theorem count_concat_of_ne {x : Option ι} {i : ι} (h : x ≠ some i) :
    (l ++ [x]).count (some i) = l.count (some i) := by
  rw [List.count_append, List.count_singleton, beq_false_of_ne h]
  rfl

theorem FinishesAt.concat {i : ι} {f : ℕ} (h : FinishesAt J (history l) i f) (hf : f ≤ l.length)
    (x : Option ι) : FinishesAt J (history (l ++ [x])) i f := by
  refine ⟨?_, fun t ht => ?_⟩
  · rw [served_history_concat hf]
    exact h.1
  · rw [served_history_concat (by omega)]
    exact h.2 t ht

/-- The unit that completes the service of `i`. -/
theorem finishesAt_concat {i : ι} (h : l.count (some i) + 1 = J.service i) :
    FinishesAt J (history (l ++ [some i])) i (l.length + 1) := by
  refine ⟨?_, fun t ht => ?_⟩
  · rw [served_history_of_le (by simp), count_concat_self, h]
  · have hmono := served_mono (history l) i (Nat.le_of_lt_succ ht)
    rw [served_history_of_le le_rfl] at hmono
    rw [served_history_concat (Nat.le_of_lt_succ ht)]
    omega

/-! ## Rules -/

/-- After the units of `l` the job `i` is ready. -/
def Waits (J : Jobs ι) (l : List (Option ι)) (i : ι) : Prop :=
  J.arrival i ≤ l.length ∧ l.count (some i) < J.service i

/-- A ready job is served. A unit is idle only while a job is to come. -/
def Legal (J : Jobs ι) (l : List (Option ι)) : Option ι → Prop
  | some i => Waits J l i
  | none => (∀ i, ¬ Waits J l i) ∧ ∃ i, l.length < J.arrival i

def LeastLeft (J : Jobs ι) (l : List (Option ι)) (x : Option ι) : Prop :=
  ∀ i, x = some i → ∀ j, Waits J l j →
    J.service i - l.count (some i) ≤ J.service j - l.count (some j)

/-- A job that was begun is served on. -/
def Keeps (J : Jobs ι) (l : List (Option ι)) (x : Option ι) : Prop :=
  ∀ i, l.getLast? = some (some i) → l.count (some i) < J.service i → x = some i

/-- A job that is begun has the least service of those that are ready. -/
def BeginsLeast (J : Jobs ι) (l : List (Option ι)) (x : Option ι) : Prop :=
  ∀ i, x = some i → l.count (some i) = 0 → ∀ j, Waits J l j → J.service i ≤ J.service j

/-! ## Schedules -/

theorem ready_history {t : ℕ} (h : t ≤ l.length) (i : ι) :
    Ready J (history l) t i ↔ Waits J (l.take t) i := by
  rw [Ready, Waits, served_history, List.length_take, Nat.min_eq_left h]

theorem Follows.valid (h : Follows (Legal J) l) : Valid J (history l) := by
  intro t i ht
  have hlt := lt_of_history ht
  have hlegal := h.rule hlt
  rw [ht] at hlegal
  exact (ready_history hlt.le i).mpr hlegal

theorem Follows.conserving (h : Follows (Legal J) l) (hall : ∀ i, J.service i ≤ l.count (some i)) :
    Conserving J (history l) := by
  intro t ht i
  rcases Nat.lt_or_ge t l.length with hlt | hge
  · have hlegal := h.rule hlt
    rw [ht] at hlegal
    rw [ready_history hlt.le]
    exact hlegal.1 i
  · intro hready
    have hlt := hready.2
    rw [served_history_of_le hge] at hlt
    exact absurd hlt (Nat.not_lt_of_le (hall i))

theorem Follows.shortest (h : Follows (LeastLeft J) l) : Shortest J (history l) := by
  intro t i ht j hj
  have hlt := lt_of_history ht
  rw [served_history, served_history]
  exact h.rule hlt i ht j ((ready_history hlt.le j).mp hj)

theorem Follows.count_eq_zero (h : Follows (Legal J) l) {i : ι} (hi : l.length ≤ J.arrival i) :
    l.count (some i) = 0 := by
  rw [← served_history_of_le le_rfl]
  exact served_eq_zero h.valid hi

theorem Follows.count_le (h : Follows (Legal J) l) (i : ι) :
    l.count (some i) ≤ J.service i := by
  rw [← served_history_of_le le_rfl]
  exact served_le h.valid i l.length

/-- A legal schedule that ends with all work done ends with a unit of service. -/
theorem Follows.last_ne_none (h : Follows (Legal J) l) (hpos : ∀ i, 0 < J.service i)
    (hall : ∀ i, J.service i ≤ l.count (some i)) : l.getLast? ≠ some none := by
  intro hlast
  obtain ⟨l', rfl⟩ := List.getLast?_eq_some_iff.mp hlast
  have hlegal := h.last
  obtain ⟨i, hi⟩ := hlegal.2
  have hearly := served_eq_zero h.valid (show l'.length + 1 ≤ J.arrival i by omega)
  rw [served_history_of_le (by simp)] at hearly
  have hdone := hall i
  have hservice := hpos i
  omega

/-! ## The length of a schedule -/

/-- The units that are still to come, at most: of service, and idle ones up to the last arrival. -/
def toCome [Fintype ι] (J : Jobs ι) (T : ℕ) (l : List (Option ι)) : ℕ :=
  ∑ i, (J.service i - l.count (some i)) + (T - l.length)

section Length
variable [Fintype ι] {T : ℕ}

theorem sum_count_concat (l : List (Option ι)) (i : ι) :
    ∑ j, (l ++ [some i]).count (some j) = ∑ j, l.count (some j) + 1 := by
  simp only [List.count_append, List.count_singleton, sum_add_distrib]
  simp

theorem length_eq_sum_count (l : List (Option ι)) :
    l.length = ∑ j, l.count (some j) + l.count none := by
  induction l using List.reverseRecOn with
  | nil => simp
  | append_singleton l x ih =>
    cases x with
    | none =>
      simp only [List.length_append, List.length_singleton, List.count_append, List.count_singleton,
        beq_iff_eq, reduceCtorEq, if_false, if_true, Nat.add_zero]
      omega
    | some i =>
      rw [sum_count_concat, List.length_append, List.length_singleton, List.count_append,
        List.count_singleton, if_neg (by simp)]
      omega

theorem Legal.toCome_lt (hT : ∀ i, J.arrival i ≤ T) {x : Option ι} (h : Legal J l x) :
    toCome J T (l ++ [x]) < toCome J T l := by
  unfold toCome
  rw [List.length_append, List.length_singleton]
  cases x with
  | none =>
    obtain ⟨i, hi⟩ := h.2
    have hle := hT i
    simp only [List.count_append, List.count_singleton, beq_iff_eq, reduceCtorEq, if_false,
      Nat.add_zero]
    omega
  | some i =>
    have hlt : ∑ j, (J.service j - (l ++ [some i]).count (some j)) <
        ∑ j, (J.service j - l.count (some j)) := by
      refine sum_lt_sum (fun j _ => ?_) ⟨i, mem_univ i, ?_⟩
      · rw [List.count_append]
        omega
      · have hwaits := h.2
        rw [List.count_append, List.count_singleton_self]
        omega
    omega

theorem Follows.length_le (h : Follows (Legal J) l) (hT : ∀ i, J.arrival i ≤ T) :
    l.length ≤ T + ∑ i, l.count (some i) := by
  induction l using List.reverseRecOn with
  | nil => exact Nat.zero_le _
  | append_singleton l x ih =>
    have hlen := ih h.init
    rw [List.length_append, List.length_singleton]
    cases x with
    | none =>
      obtain ⟨i, hi⟩ := h.last.2
      have hle := hT i
      omega
    | some i =>
      rw [sum_count_concat]
      omega

end Length

end Counts

end El32.UnitSchedule

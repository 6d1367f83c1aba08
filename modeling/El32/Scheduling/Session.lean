import El32.Foundations.Decimal
import El32.Scheduling.Fields
import El32.Scheduling.Runs

/-! What the applet does with its fields: what it prints into them it reads back, and a click leaves no
process behind for the next one. -/
namespace El32.Scheduling
open Decimal JavaInt
set_option autoImplicit false

section Session
variable {other : Char → Option ℕ} {message : List Char → String}

/-! ## Reading the entries -/

/-- The objects are numbered in their order, and their arrivals are `int`s. -/
structure Entered (ps : List Process) : Prop where
  numbered : ∀ k (h : k < ps.length),
    ps[k] = Process.create ps[k].name ps[k].arrivalTime ps[k].serviceTime k
  fits : ∀ p ∈ ps, FitsInt p.arrivalTime

theorem entered_nil : Entered [] :=
  ⟨fun k hk => absurd hk (Nat.not_lt_zero k), fun _ hp => absurd hp List.not_mem_nil⟩

theorem Entered.concat {ps : List Process} (h : Entered ps) (name : String) {a : ℤ}
    (ha : FitsInt a) (s : ℤ) : Entered (ps ++ [Process.create name a s ps.length]) := by
  constructor
  · intro k hk
    rcases Nat.lt_or_ge k ps.length with hlt | hge
    · rw [List.getElem_append_left hlt]
      exact h.numbered k hlt
    · obtain rfl : k = ps.length := by
        rw [List.length_append, List.length_singleton] at hk
        omega
      rw [List.getElem_concat_length rfl]
      rfl
  · intro p hp
    rcases List.mem_append.mp hp with hp | hp
    · exact h.fits p hp
    · obtain rfl := List.mem_singleton.mp hp
      exact ha

theorem fits_of_inRange {u v : ℤ} (h : inRange u = some v) : FitsInt v := by
  unfold inRange at h
  split at h
  · obtain rfl := Option.some.inj h
    unfold FitsInt
    omega
  · cases h

theorem fits_of_parseInt {cs : List Char} {v : ℤ} (h : parseInt other cs = some v) :
    FitsInt v := by
  unfold parseInt at h
  split at h
  all_goals
    obtain ⟨m, -, hm⟩ := Option.bind_eq_some_iff.mp h
    exact fits_of_inRange hm

/-- A round of the loop whose numbers can be read. -/
theorem enter_cons {count : ℕ} {name a s : List Char} {arrival service : ℤ}
    (ha : parseInt other a = some arrival) (hs : parseInt other s = some service)
    (t1 t2 t3 : List (List Char)) (q : List Process) :
    enter other message count (name :: t1) (a :: t2) (s :: t3) q =
      let q := q ++ [Process.create (String.ofList name) arrival service count]
      if t1 ≠ [] ∧ t2 ≠ [] ∧ t3 ≠ [] then enter other message (count + 1) t1 t2 t3 q
      else if t1 ≠ [] ∨ t2 ≠ [] ∨ t3 ≠ [] then
        (.refused "ERROR: One or more missing parameters.", q)
      else (.accepted, q) := by
  rw [enter, ha]
  simp only [hs]

/-- The cases of a round. -/
theorem enter_cases (other : Char → Option ℕ) (message : List Char → String) (count : ℕ)
    (t1 t2 t3 : List (List Char)) (q : List Process) :
    (t1 = [] ∨ t2 = [] ∨ t3 = []) ∧ enter other message count t1 t2 t3 q = (.thrown, q) ∨
    (∃ token, enter other message count t1 t2 t3 q = (numberFormat message token, q)) ∨
    ∃ name a s t1' t2' t3' arrival service, t1 = name :: t1' ∧ t2 = a :: t2' ∧ t3 = s :: t3' ∧
      parseInt other a = some arrival ∧ parseInt other s = some service := by
  cases t1 with
  | nil => exact .inl ⟨.inl rfl, by rw [enter]⟩
  | cons name t1 =>
    cases t2 with
    | nil => exact .inl ⟨.inr (.inl rfl), by rw [enter]⟩
    | cons a t2 =>
      cases ha : parseInt other a with
      | none => exact .inr (.inl ⟨a, by rw [enter, ha]⟩)
      | some arrival =>
        cases t3 with
        | nil => exact .inl ⟨.inr (.inr rfl), by rw [enter, ha]⟩
        | cons s t3 =>
          cases hs : parseInt other s with
          | none =>
            refine .inr (.inl ⟨s, ?_⟩)
            rw [enter, ha]
            simp only [hs]
          | some service =>
            exact .inr (.inr ⟨name, a, s, t1, t2, t3, arrival, service, rfl, rfl, rfl, ha, hs⟩)

/-- The loop stops with an exception only where an area has no token at all. -/
theorem enter_thrown {count : ℕ} {t1 t2 t3 : List (List Char)} {q q' : List Process}
    (h : enter other message count t1 t2 t3 q = (.thrown, q')) :
    (t1 = [] ∨ t2 = [] ∨ t3 = []) ∧ q' = q := by
  induction t1 generalizing count t2 t3 q with
  | nil =>
    rw [enter] at h
    exact ⟨.inl rfl, (Prod.mk.inj h).2.symm⟩
  | cons name t1 ih =>
    rcases enter_cases other message count (name :: t1) t2 t3 q with
      ⟨hnil, heq⟩ | ⟨token, heq⟩ | ⟨_, a, s, _, t2', t3', arrival, service, ht, rfl, rfl, ha, hs⟩
    · rw [heq] at h
      exact ⟨hnil, (Prod.mk.inj h).2.symm⟩
    · rw [heq] at h
      cases (Prod.mk.inj h).1
    · obtain ⟨rfl, rfl⟩ := List.cons.inj ht
      rw [enter_cons ha hs] at h
      dsimp only at h
      split at h
      · rename_i hmore
        have hnil := (ih h).1
        tauto
      · split at h
        · cases (Prod.mk.inj h).1
        · cases (Prod.mk.inj h).1

theorem enter_accepted {count : ℕ} {t1 t2 t3 : List (List Char)} {q ps : List Process}
    (hq : Entered q) (hcount : count = q.length)
    (h : enter other message count t1 t2 t3 q = (.accepted, ps)) : Entered ps ∧ ps ≠ [] := by
  subst hcount
  induction t1 generalizing t2 t3 q with
  | nil =>
    rw [enter] at h
    cases (Prod.mk.inj h).1
  | cons name t1 ih =>
    rcases enter_cases other message q.length (name :: t1) t2 t3 q with
      ⟨hnil, heq⟩ | ⟨token, heq⟩ | ⟨_, a, s, _, t2', t3', arrival, service, ht, rfl, rfl, ha, hs⟩
    · rw [heq] at h
      cases (Prod.mk.inj h).1
    · rw [heq] at h
      cases (Prod.mk.inj h).1
    · obtain ⟨rfl, rfl⟩ := List.cons.inj ht
      have hnext := hq.concat (String.ofList name) (fits_of_parseInt ha) service
      rw [enter_cons ha hs] at h
      dsimp only at h
      split at h
      · exact ih hnext (by rwa [List.length_append, List.length_singleton])
      · split at h
        · cases (Prod.mk.inj h).1
        · obtain rfl := (Prod.mk.inj h).2
          exact ⟨hnext, by simp⟩

/-! ## Round trip -/

/-- A number as text. -/
def shown (v : ℤ) : List Char := (intText v).map fun b => Char.ofNat b.toNat

def lines (ls : List (List Char)) : List Char := ['\n'].intercalate ls

theorem toNat_ofNat_digit {b : UInt8} (h : IsDigit b) : (Char.ofNat b.toNat).toNat = b.toNat := by
  have hvalid : b.toNat.isValidChar := .inl (by
    have hle := h.2
    omega)
  rw [Char.ofNat, dif_pos hvalid]
  rfl

theorem digits_map {bs : List UInt8} (h : ∀ b ∈ bs, IsDigit b) (acc : ℕ) :
    digits other acc (bs.map fun b => Char.ofNat b.toNat) = some (digitsValue acc bs) := by
  induction bs generalizing acc with
  | nil => rfl
  | cons b bs ih =>
    obtain ⟨hb, hbs⟩ := List.forall_mem_cons.mp h
    have hdigit : digit other (Char.ofNat b.toNat) = some (b.toNat - 48) := by
      rw [digit, toNat_ofNat_digit hb]
      exact if_pos hb
    rw [List.map_cons, digits, hdigit, Option.bind_some, ih hbs, digitsValue, if_pos hb]

theorem unsigned_natText (m : ℕ) :
    unsigned other ((natText m).map fun b => Char.ofNat b.toNat) = some m := by
  rw [unsigned, if_neg (by simpa using natText_ne_nil m), digits_map (isDigit_natText m),
    digitsValue_natText]

theorem inRange_of_fits {v : ℤ} (h : FitsInt v) : inRange v = some v :=
  if_pos ⟨h.1, by
    have hlt := h.2
    omega⟩

theorem parseInt_shown {v : ℤ} (h : FitsInt v) : parseInt other (shown v) = some v := by
  unfold shown intText
  split
  · rename_i hneg
    have habs : -(v.natAbs : ℤ) = v := by omega
    rw [List.map_cons]
    show (unsigned other ((natText v.natAbs).map fun b => Char.ofNat b.toNat)).bind _ = _
    rw [unsigned_natText, Option.bind_some, habs, inRange_of_fits h]
  · rename_i hpos
    have habs : (v.natAbs : ℤ) = v := by omega
    have hread : (unsigned other ((natText v.natAbs).map fun b => Char.ofNat b.toNat)).bind
        (fun m : ℕ => inRange m) = some v := by
      rw [unsigned_natText, Option.bind_some, habs, inRange_of_fits h]
    have hdigit := isDigit_natText v.natAbs
    cases htext : natText v.natAbs with
    | nil => exact absurd htext (natText_ne_nil _)
    | cons b bs =>
      rw [htext] at hread hdigit
      have hb := toNat_ofNat_digit (hdigit b List.mem_cons_self)
      have hlow := (hdigit b List.mem_cons_self).1
      rw [List.map_cons] at hread ⊢
      unfold parseInt
      split
      · rename_i heq
        rw [(List.cons.inj heq).1] at hb
        have hminus : 45 = b.toNat := hb
        omega
      · rename_i heq
        rw [(List.cons.inj heq).1] at hb
        have hplus : 43 = b.toNat := hb
        omega
      · exact hread

theorem tokens_lines {ls : List (List Char)} (hne : ls ≠ []) (h : ∀ l ∈ ls, l ≠ [] ∧ '\n' ∉ l) :
    tokens (lines ls) = ls := by
  rw [tokens, lines, List.splitOn_intercalate _ (fun l hl => (h l hl).2) hne]
  exact List.filter_eq_self.mpr fun l hl => decide_eq_true (h l hl).1

/-- The entries are read one after the other. -/
theorem enter_shown (es : List (List Char × ℤ × ℤ)) (hne : es ≠ [])
    (hfit : ∀ e ∈ es, FitsInt e.2.1 ∧ FitsInt e.2.2) (q : List Process) :
    enter other message q.length (es.map fun e => e.1) (es.map fun e => shown e.2.1)
        (es.map fun e => shown e.2.2) q =
      (.accepted, q ++ es.mapIdx fun k e =>
        Process.create (String.ofList e.1) e.2.1 e.2.2 (q.length + k)) := by
  induction es generalizing q with
  | nil => exact absurd rfl hne
  | cons e es ih =>
    obtain ⟨he, hes⟩ := List.forall_mem_cons.mp hfit
    rw [List.map_cons, List.map_cons, List.map_cons,
      enter_cons (parseInt_shown he.1) (parseInt_shown he.2), List.mapIdx_cons]
    dsimp only
    cases es with
    | nil => simp
    | cons e' es =>
      have hrest := ih (List.cons_ne_nil e' es) hes
        (q ++ [Process.create (String.ofList e.1) e.2.1 e.2.2 q.length])
      rw [List.length_append, List.length_singleton] at hrest
      rw [if_pos ⟨List.cons_ne_nil _ _, List.cons_ne_nil _ _, List.cons_ne_nil _ _⟩, hrest,
        List.append_assoc, List.singleton_append]
      simp only [add_zero, add_assoc, add_comm 1]

theorem mem_lines {c : Char} (hc : c ≠ '\n') (ls : List (List Char)) :
    c ∈ lines ls ↔ ∃ l ∈ ls, c ∈ l := by
  unfold lines
  induction ls with
  | nil => simp
  | cons l ls ih =>
    cases ls with
    | nil => simp
    | cons l' ls =>
      rw [List.intercalate_cons_cons, List.mem_append, List.mem_append, ih, List.mem_singleton,
        List.exists_mem_cons_iff]
      simp [hc]

theorem shown_line (v : ℤ) : shown v ≠ [] ∧ '\n' ∉ shown v := by
  refine ⟨by simpa [shown] using intText_ne_nil v, fun hmem => ?_⟩
  obtain ⟨b, hb, heq⟩ := List.mem_map.mp hmem
  rcases intText_mem hb with rfl | hdigit
  · exact absurd heq (by decide)
  · have hval := toNat_ofNat_digit hdigit
    have hlow := hdigit.1
    rw [heq] at hval
    have hnl : 10 = b.toNat := hval
    omega

/-- **Round trip.** Entries that are written into the fields are read back, if one of the arrivals has
the digit `0`. -/
theorem getParms_roundTrip (other : Char → Option ℕ) (message : List Char → String)
    (es : List (List Char × ℤ × ℤ)) (hne : es ≠ [])
    (hname : ∀ e ∈ es, e.1 ≠ [] ∧ '\n' ∉ e.1)
    (hfit : ∀ e ∈ es, FitsInt e.2.1 ∧ FitsInt e.2.2) :
    getParms other message
        ⟨lines (es.map fun e => e.1), lines (es.map fun e => shown e.2.1),
          lines (es.map fun e => shown e.2.2)⟩ [] =
      if ∃ e ∈ es, '0' ∈ shown e.2.1 then
        (.accepted, es.mapIdx fun k e => Process.create (String.ofList e.1) e.2.1 e.2.2 k)
      else (.refused "There should be atleast one case with arrival time = 0", []) := by
  have hzero : '0' ∈ lines (es.map fun e => shown e.2.1) ↔ ∃ e ∈ es, '0' ∈ shown e.2.1 := by
    simp only [mem_lines (show '0' ≠ '\n' by decide), List.mem_map, exists_exists_and_eq_and]
  have hproc : tokens (lines (es.map fun e => e.1)) = es.map fun e => e.1 :=
    tokens_lines (by simpa using hne) fun l hl => by
      obtain ⟨e, he, rfl⟩ := List.mem_map.mp hl
      exact hname e he
  have htokens : ∀ f : List Char × ℤ × ℤ → ℤ,
      tokens (lines (es.map fun e => shown (f e))) = es.map fun e => shown (f e) := fun f =>
    tokens_lines (by simpa using hne) fun l hl => by
      obtain ⟨e, -, rfl⟩ := List.mem_map.mp hl
      exact shown_line (f e)
  have henter : enter other message 0 (es.map fun e => e.1) (es.map fun e => shown e.2.1)
      (es.map fun e => shown e.2.2) [] = _ := enter_shown es hne hfit []
  unfold getParms
  simp only [hzero, hproc, htokens]
  split
  · simpa using henter
  · rfl

theorem getParms_roundTrip_sample : getParms (fun _ => none) (fun _ => "")
    ⟨lines [['A'], ['B']], lines [shown 0, shown 2], lines [shown 3, shown 6]⟩ [] =
      if ∃ e ∈ [(['A'], (0 : ℤ), (3 : ℤ)), (['B'], 2, 6)], '0' ∈ shown e.2.1 then
        (.accepted, [Process.create "A" 0 3 0, Process.create "B" 2 6 1])
      else (.refused "There should be atleast one case with arrival time = 0", []) :=
  getParms_roundTrip _ _ [(['A'], 0, 3), (['B'], 2, 6)] (by decide) (by decide) (by decide)

/-! ## Clicks -/

/-- The processes need service and are all done before the greatest `int`; the axis ends before it. -/
structure Serviceable (ps : List Process) : Prop where
  pos : ∀ p ∈ ps, 0 < p.serviceTime
  total : (ps.map (·.serviceTime)).sum ≤ maxInt
  ends : ∀ p ∈ ps, p.arrivalTime + (ps.map (·.serviceTime)).sum ≤ maxInt
  axis : ∃ p ∈ ps, p.arrivalTime + (ps.map (·.serviceTime)).sum < maxInt

instance (ps : List Process) : Decidable (Serviceable ps) :=
  decidable_of_iff ((∀ p ∈ ps, 0 < p.serviceTime) ∧ (ps.map (·.serviceTime)).sum ≤ maxInt ∧
      (∀ p ∈ ps, p.arrivalTime + (ps.map (·.serviceTime)).sum ≤ maxInt) ∧
      ∃ p ∈ ps, p.arrivalTime + (ps.map (·.serviceTime)).sum < maxInt)
    ⟨fun ⟨hpos, htotal, hends, haxis⟩ => ⟨hpos, htotal, hends, haxis⟩,
      fun h => ⟨h.pos, h.total, h.ends, h.axis⟩⟩

theorem sum_service (ps : List Process) :
    ∑ i, (ps.get i).serviceTime = (ps.map (·.serviceTime)).sum :=
  Fin.sum_univ_fun_getElem ps (·.serviceTime)

/-- The processes that the fields gave, as they are before a run. -/
def workload (ps : List Process) (hentered : Entered ps) (hne : ps ≠ []) (h : Serviceable ps) :
    Workload ps.length where
  name i := (ps.get i).name
  arrival i := (ps.get i).arrivalTime
  service i := (ps.get i).serviceTime
  entered := List.length_pos_iff.mpr hne
  service_pos i := h.pos _ (List.get_mem ps i)
  arrival_ge i := (hentered.fits _ (List.get_mem ps i)).1
  total_le := (sum_service ps).trans_le h.total
  end_le i := by
    rw [sum_service]
    exact h.ends _ (List.get_mem ps i)

section Workload
variable {ps : List Process} (hentered : Entered ps) (hne : ps ≠ []) (h : Serviceable ps)

theorem workload_heap : (workload ps hentered hne h).heap = ps.get :=
  funext fun i => (hentered.numbered i i.isLt).symm

theorem workload_axis : (workload ps hentered hne h).base +
    ∑ i, (workload ps hentered hne h).service i < maxInt := by
  obtain ⟨p, hp, hlt⟩ := h.axis
  obtain ⟨i, rfl⟩ := List.mem_iff_get.mp hp
  have hbase := (workload ps hentered hne h).base_le i
  have hsum : ∑ i, (workload ps hentered hne h).service i = _ := sum_service ps
  rw [hsum]
  exact (Int.add_le_add_right hbase _).trans_lt hlt

end Workload

theorem getParms_accepted {texts : Texts} {ps : List Process}
    (h : getParms other message texts [] = (.accepted, ps)) : Entered ps ∧ ps ≠ [] := by
  unfold getParms at h
  split at h
  · exact enter_accepted entered_nil rfl h
  · cases (Prod.mk.inj h).1

theorem getParms_thrown {texts : Texts} {q' : List Process}
    (h : getParms other message texts [] = (.thrown, q')) : q' = [] := by
  unfold getParms at h
  split at h
  · exact (enter_thrown h).2
  · cases (Prod.mk.inj h).1

/-- What the fields give, if they are accepted, can be served. -/
def FieldsServiceable (other : Char → Option ℕ) (message : List Char → String) (texts : Texts) :
    Prop :=
  ∀ ps, getParms other message texts [] = (.accepted, ps) → Serviceable ps

/-- A step of the session: a click that finds `Q` empty leaves it empty. -/
theorem clicked_empties {a : Algorithm} {width height : ℤ} {texts : Texts}
    (h : FieldsServiceable other message texts) :
    (∃ q', Clicked other message a width height texts [] q') ∧
      ∀ q', Clicked other message a width height texts [] q' → q' = [] := by
  have hgrid : ∀ ps (hps : getParms other message texts [] = (.accepted, ps)),
      ∃ b s', setgrid ps.get width height false (List.finRange ps.length) = .ok b ∧
        Returns a (start ps.get (List.finRange ps.length) b.inc1) s' ∧
        ∀ s'', Returns a (start ps.get (List.finRange ps.length) b.inc1) s'' →
          s''.q = [] := fun ps hps => by
    obtain ⟨hentered, hne⟩ := getParms_accepted hps
    have hheap := workload_heap hentered hne (h ps hps)
    obtain ⟨b, hb, hbase, -⟩ := (workload ps hentered hne (h ps hps)).setgrid_ok width height
      (workload_axis hentered hne (h ps hps))
    obtain ⟨s', hs'⟩ := exists_returns (workload ps hentered hne (h ps hps)) a
    rw [hheap] at hb
    rw [Workload.start, hheap, ← hbase] at hs'
    refine ⟨b, s', hb false, hs', fun s'' hs'' => ?_⟩
    rw [hbase, ← hheap] at hs''
    exact (completed_of_returns hs'').q
  constructor
  · cases hparms : getParms other message texts [] with
    | mk parms q =>
      cases parms with
      | accepted =>
        obtain ⟨b, s', hb, hs', -⟩ := hgrid q hparms
        exact ⟨_, .ran q b s' hparms hb hs'⟩
      | refused status => exact ⟨_, .refused status q hparms⟩
      | thrown => exact ⟨_, .thrown q hparms⟩
  · intro q' hclick
    cases hclick with
    | refused => rfl
    | thrown _ hparms => exact getParms_thrown hparms
    | gridThrown _ hparms hthrown =>
      obtain ⟨b, s', hb, -⟩ := hgrid q' hparms
      exact absurd (hthrown.symm.trans hb) (by simp)
    | ran ps b s' hparms hb hrun =>
      obtain ⟨b', s'', hb', -, hall⟩ := hgrid ps hparms
      obtain rfl := Except.ok.inj (hb.symm.trans hb')
      rw [hall s' hrun]
      rfl

/-- Clicks one after the other: the button is disabled while a run goes on. -/
inductive Clicks (other : Char → Option ℕ) (message : List Char → String) (width height : ℤ) :
    List (Algorithm × Texts) → List Process → List Process → Prop where
  | nil (q : List Process) : Clicks other message width height [] q q
  | cons {a : Algorithm} {texts : Texts} {rest : List (Algorithm × Texts)} {q q' q'' : List Process}
      (h : Clicked other message a width height texts q q')
      (hrest : Clicks other message width height rest q' q'') :
      Clicks other message width height ((a, texts) :: rest) q q''

/-- **A session** of clicks on fields whose processes can be served always goes on, and every click finds
`Q` empty and leaves it empty. -/
theorem session_empties (other : Char → Option ℕ) (message : List Char → String) (width height : ℤ)
    (clicks : List (Algorithm × Texts)) (h : ∀ c ∈ clicks, FieldsServiceable other message c.2) :
    (∃ q, Clicks other message width height clicks [] q) ∧
      ∀ q, Clicks other message width height clicks [] q → q = [] := by
  induction clicks with
  | nil =>
    refine ⟨⟨[], .nil []⟩, fun q hq => ?_⟩
    cases hq
    rfl
  | cons c rest ih =>
    obtain ⟨hc, hrest⟩ := List.forall_mem_cons.mp h
    obtain ⟨⟨q', hclick⟩, hempty⟩ := clicked_empties hc
    obtain ⟨⟨q, hgo⟩, hend⟩ := ih hrest
    constructor
    · obtain rfl := hempty q' hclick
      exact ⟨q, .cons hclick hgo⟩
    · intro q hq
      cases hq with
      | cons hclick hgo =>
        obtain rfl := hempty _ hclick
        exact hend q hgo

theorem session_empties_sample :
    (∃ q, Clicks (fun _ => none) (fun _ => "") 800 300
      [(.srt, ⟨['A'], ['0'], ['2']⟩), (.rr4, ⟨['A'], ['1'], ['2']⟩)] [] q) ∧
      ∀ q, Clicks (fun _ => none) (fun _ => "") 800 300
        [(.srt, ⟨['A'], ['0'], ['2']⟩), (.rr4, ⟨['A'], ['1'], ['2']⟩)] [] q → q = [] := by
  refine session_empties _ _ _ _ _ fun c hc ps hps => ?_
  simp only [List.mem_cons, List.not_mem_nil, or_false] at hc
  rcases hc with rfl | rfl
  · have hread : getParms (fun _ => none) (fun _ => "") ⟨['A'], ['0'], ['2']⟩ [] =
        (.accepted, [Process.create "A" 0 2 0]) := by decide
    obtain rfl := (Prod.mk.inj (hread.symm.trans hps)).2
    decide
  · have hread : getParms (fun _ => none) (fun _ => "") ⟨['A'], ['1'], ['2']⟩ [] =
        (.refused "There should be atleast one case with arrival time = 0", []) := by decide
    exact Parms.noConfusion (Prod.mk.inj (hread.symm.trans hps)).1

end Session

end El32.Scheduling

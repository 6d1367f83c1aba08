import El32.Foundations.Processes
import El32.Foundations.Transition
import Mathlib.Data.Fin.VecNotation
import Mathlib.Data.List.Range
import Mathlib.Logic.Function.Basic

/-! The ring of `semseq.c`: four processes that wait, print and post in turn.

The four semaphores were created beforehand; a process is in the ring from the end of `init_params`
on. Each `sem_wait`, `printf` and `sem_post` is a step of its own. -/
namespace El32.SemSeq
open Processes Transition
set_option autoImplicit false

/-- The semaphores by their names. -/
inductive Sem where
  | a
  | b
  | c
  | d
deriving DecidableEq

/-- The globals that `init_params` sets: the two semaphores it opens and the characters to print. -/
structure Params where
  thisSem : Sem
  nextSem : Sem
  prnchars : Fin 2 → Char

def initParams (pid : ℤ) : Option Params :=
  match pid with
  | 0 => some ⟨.a, .b, ![ '1', '5']⟩
  | 1 => some ⟨.b, .c, ![ '2', '6']⟩
  | 2 => some ⟨.c, .d, ![ '3', '7']⟩
  | 3 => some ⟨.d, .a, ![ '4', '8']⟩
  | _ => none

/-- Where a process is in the loop; the index is that of the character of this half. -/
inductive Pc where
  | wait (k : Fin 2)
  | print (k : Fin 2)
  | post (k : Fin 2)
deriving DecidableEq

structure Proc where
  params : Params
  pc : Pc

/-- The values of the semaphores, and the characters printed by all processes. -/
structure Shared where
  sems : Sem → ℕ
  printed : List Char

def prog (s : Shared) (p : Proc) : Option (Shared × Proc) :=
  match p.pc with
  | .wait k =>
    if 0 < s.sems p.params.thisSem then
      some ({ s with
        sems := Function.update s.sems p.params.thisSem (s.sems p.params.thisSem - 1) },
        { p with pc := .print k })
    else none
  | .print k =>
    some ({ s with printed := s.printed ++ [p.params.prnchars k] }, { p with pc := .post k })
  | .post k =>
    some ({ s with
      sems := Function.update s.sems p.params.nextSem (s.sems p.params.nextSem + 1) },
      { p with pc := .wait (k + 1) })

structure State where
  shared : Shared
  procs : List Proc

/-- `A` was created with 1 and the others with 0; one process for each of the numbers. -/
def initial : State where
  shared := ⟨fun sem => if sem = .a then 1 else 0, []⟩
  procs := ([0, 1, 2, 3].filterMap initParams).map fun p => ⟨p, .wait 0⟩

/-- The process at place `i` takes its next step. -/
def step (s : State) (i : ℕ) : Option State :=
  (stepAt prog s.shared s.procs i).map fun r => ⟨r.1, r.2⟩

theorem step_eq_some {s s' : State} {i : ℕ} :
    step s i = some s' ↔ ∃ p q, s.procs[i]? = some p ∧
      prog s.shared p = some (s'.shared, q) ∧ s'.procs = s.procs.set i q := by
  obtain ⟨shared, procs⟩ := s'
  rw [← stepAt_eq_some]
  simp [step]

/-! ## The ring after `t` steps -/

def order : List Char := ['1', '2', '3', '4', '5', '6', '7', '8']

/-- The character of turn `k`. -/
def turnChar (k : ℕ) : Char := order.get ⟨k % 8, Nat.mod_lt k (by decide)⟩

/-- The semaphore that process `j` waits for. -/
def semOf (j : ℕ) : Sem := (![.a, .b, .c, .d] : Fin 4 → Sem) (Fin.ofNat 4 j)

def paramsOf (j : ℕ) : Params where
  thisSem := semOf j
  nextSem := semOf (j + 1)
  prnchars k := turnChar (j + 4 * k)

/-- Which half process `j` is in when turn `k` begins: it has had `(k + 3 - j) / 4` turns. -/
def half (j k : ℕ) : Fin 2 := Fin.ofNat 2 ((k + 3 - j) / 4)

/-- A turn is three steps of one process; turn `k` is that of process `k % 4`. -/
def pcOf (t j : ℕ) : Pc :=
  if t / 3 % 4 = j then
    match t % 3 with
    | 0 => .wait (half j (t / 3))
    | 1 => .print (half j (t / 3))
    | _ => .post (half j (t / 3))
  else .wait (half j (t / 3))

def procOf (t j : ℕ) : Proc := ⟨paramsOf j, pcOf t j⟩

/-- Between two turns the semaphore of the next process is up, during a turn none is. -/
def semsAt (t : ℕ) (sem : Sem) : ℕ := if t % 3 = 0 ∧ sem = semOf (t / 3) then 1 else 0

def ringAt (t : ℕ) : State where
  shared := ⟨semsAt t, (List.range ((t + 1) / 3)).map turnChar⟩
  procs := (List.range 4).map (procOf t)

theorem turnChar_congr {m n : ℕ} (h : m % 8 = n % 8) : turnChar m = turnChar n := by
  simp only [turnChar, h]

theorem semOf_mod (j : ℕ) : semOf (j % 4) = semOf j := by simp [semOf, Fin.ofNat]

theorem semOf_inj : ∀ i < 4, ∀ j < 4, semOf i = semOf j → i = j := by decide

/-- The two characters of a process are four turns apart. -/
theorem prnchars_eq (j : ℕ) : ![turnChar j, turnChar (j + 4)] = (paramsOf j).prnchars := by
  funext k
  match k with
  | 0 => rfl
  | 1 => rfl

theorem initParams_eq {j : ℕ} (hj : j < 4) : initParams j = some (paramsOf j) := by
  have heta : paramsOf j = ⟨semOf j, semOf (j + 1), ![turnChar j, turnChar (j + 4)]⟩ := by
    rw [prnchars_eq]
    rfl
  rw [heta]
  match j with
  | 0 | 1 | 2 | 3 => rfl

theorem ringAt_zero : ringAt 0 = initial := by
  have hsems : semsAt 0 = initial.shared.sems := by
    funext sem
    simp [semsAt, initial, semOf]
  have hprocs : (ringAt 0).procs = initial.procs := by
    have hparams : ([0, 1, 2, 3] : List ℤ).filterMap initParams = (List.range 4).map paramsOf := by
      have hrange : ([0, 1, 2, 3] : List ℤ) = (List.range 4).map fun j => (j : ℤ) := rfl
      rw [hrange, List.filterMap_map, ← List.filterMap_eq_map]
      exact List.filterMap_congr fun j hj => initParams_eq (List.mem_range.mp hj)
    rw [initial, hparams]
    rfl
  rw [ringAt, hsems]
  exact congrArg (State.mk _) hprocs

section Turn
variable {t j : ℕ}

/-- The turn of a process takes it to its other half. -/
theorem half_succ (j k : ℕ) (hj : j < 4) :
    half j (k + 1) = if k % 4 = j then half j k + 1 else half j k := by
  unfold half
  split
  · have hturns : (k + 1 + 3 - j) / 4 = (k + 3 - j) / 4 + 1 := by omega
    rw [hturns]
    apply Fin.ext
    simp [Fin.ofNat, Fin.val_add]
  · have hturns : (k + 1 + 3 - j) / 4 = (k + 3 - j) / 4 := by omega
    rw [hturns]

theorem prnchars_half (k : ℕ) : (paramsOf (k % 4)).prnchars (half (k % 4) k) = turnChar k := by
  apply turnChar_congr
  simp only [half, Fin.ofNat]
  omega

/-- A process out of turn waits. -/
theorem pcOf_other (h : t / 3 % 4 ≠ j) : pcOf t j = .wait (half j (t / 3)) := if_neg h

theorem pcOf_between (h : t % 3 = 0) : pcOf t j = .wait (half j (t / 3)) := by
  simp [pcOf, h]

theorem procOf_succ_other (hj : j < 4) (h : t / 3 % 4 ≠ j) : procOf (t + 1) j = procOf t j := by
  have hhalf := half_succ j (t / 3) hj
  rw [if_neg h] at hhalf
  by_cases hlast : t % 3 = 2
  · have hnext : (t + 1) / 3 = t / 3 + 1 := by omega
    rw [procOf, procOf, pcOf_other h, pcOf_between (by omega), hnext, hhalf]
  · have hsame : (t + 1) / 3 = t / 3 := by omega
    rw [procOf, procOf, pcOf_other h, pcOf_other (by rw [hsame]; exact h), hsame]

theorem prog_other (hj : j < 4) (h : t / 3 % 4 ≠ j) :
    prog (ringAt t).shared (procOf t j) = none := by
  have hsem : semOf j ≠ semOf (t / 3) := by
    rw [← semOf_mod (t / 3)]
    intro heq
    exact h (semOf_inj j hj (t / 3 % 4) (Nat.mod_lt _ (by decide)) heq).symm
  simp [prog, procOf, pcOf_other h, ringAt, semsAt, paramsOf, hsem]

theorem prog_wait (h : t / 3 % 4 = j) (h0 : t % 3 = 0) :
    prog (ringAt t).shared (procOf t j) = some ((ringAt (t + 1)).shared, procOf (t + 1) j) := by
  have hsem : semOf j = semOf (t / 3) := by rw [← h, semOf_mod]
  have hturn : (t + 1) / 3 = t / 3 := by omega
  have hprinted : (t + 1 + 1) / 3 = (t + 1) / 3 := by omega
  have hphase : (t + 1) % 3 = 1 := by omega
  have hproc : procOf t j = ⟨paramsOf j, .wait (half j (t / 3))⟩ := by
    simp [procOf, pcOf_between h0]
  have hproc' : procOf (t + 1) j = ⟨paramsOf j, .print (half j (t / 3))⟩ := by
    simp [procOf, pcOf, hturn, h, hphase]
  have hup : semsAt t (semOf j) = 1 := by simp [semsAt, h0, hsem]
  have hdown : Function.update (semsAt t) (semOf j) 0 = semsAt (t + 1) := by
    funext sem
    by_cases heq : sem = semOf j
    · simp [semsAt, hphase, heq]
    · simp [semsAt, hphase, heq, ← hsem]
  rw [hproc, hproc']
  simp [prog, ringAt, paramsOf, hup, hdown, hprinted]

theorem prog_print (h : t / 3 % 4 = j) (h1 : t % 3 = 1) :
    prog (ringAt t).shared (procOf t j) = some ((ringAt (t + 1)).shared, procOf (t + 1) j) := by
  have hturn : (t + 1) / 3 = t / 3 := by omega
  have hprinted : (t + 1 + 1) / 3 = (t + 1) / 3 + 1 := by omega
  have hphase : (t + 1) % 3 = 2 := by omega
  have hproc : procOf t j = ⟨paramsOf j, .print (half j (t / 3))⟩ := by
    simp [procOf, pcOf, h, h1]
  have hproc' : procOf (t + 1) j = ⟨paramsOf j, .post (half j (t / 3))⟩ := by
    simp [procOf, pcOf, hturn, h, hphase]
  have hsems : semsAt t = semsAt (t + 1) := by
    funext sem
    simp [semsAt, h1, hphase]
  have hchar : (paramsOf j).prnchars (half j (t / 3)) = turnChar ((t + 1) / 3) := by
    rw [← h, prnchars_half, hturn]
  rw [hproc, hproc']
  simp [prog, ringAt, hsems, hchar, hprinted, List.range_succ]

theorem prog_post (h : t / 3 % 4 = j) (h2 : t % 3 = 2) :
    prog (ringAt t).shared (procOf t j) = some ((ringAt (t + 1)).shared, procOf (t + 1) j) := by
  have hturn : (t + 1) / 3 = t / 3 + 1 := by omega
  have hprinted : (t + 1 + 1) / 3 = (t + 1) / 3 := by omega
  have hphase : (t + 1) % 3 = 0 := by omega
  have hproc : procOf t j = ⟨paramsOf j, .post (half j (t / 3))⟩ := by
    simp [procOf, pcOf, h, h2]
  have hproc' : procOf (t + 1) j = ⟨paramsOf j, .wait (half j (t / 3) + 1)⟩ := by
    have hhalf := half_succ j (t / 3) (by omega)
    rw [if_pos h] at hhalf
    rw [procOf, pcOf_between hphase, hturn, hhalf]
  have hnext : semOf (j + 1) = semOf (t / 3 + 1) := by
    rw [← semOf_mod (t / 3 + 1), ← semOf_mod (j + 1)]
    congr 1
    omega
  have hup : Function.update (semsAt t) (semOf (j + 1)) (semsAt t (semOf (j + 1)) + 1) =
      semsAt (t + 1) := by
    funext sem
    by_cases heq : sem = semOf (j + 1)
    · simp [semsAt, h2, hphase, hturn, heq, hnext]
    · simp [semsAt, h2, hphase, hturn, heq, ← hnext]
  rw [hproc, hproc']
  simp [prog, ringAt, paramsOf, hup, hprinted]

theorem prog_turn (h : t / 3 % 4 = j) :
    prog (ringAt t).shared (procOf t j) = some ((ringAt (t + 1)).shared, procOf (t + 1) j) := by
  obtain h0 | h1 | h2 : t % 3 = 0 ∨ t % 3 = 1 ∨ t % 3 = 2 := by omega
  · exact prog_wait h h0
  · exact prog_print h h1
  · exact prog_post h h2

theorem procs_succ (h : t / 3 % 4 = j) :
    (ringAt t).procs.set j (procOf (t + 1) j) = (ringAt (t + 1)).procs := by
  apply List.ext_getElem
  · simp [ringAt]
  · intro i hi hi'
    have hi4 : i < 4 := by simpa [ringAt] using hi'
    by_cases hij : j = i
    · subst hij
      simp [ringAt]
    · have hsame := procOf_succ_other hi4 (h.trans_ne hij)
      simp [ringAt, hij, hsame]

/-- Only the process whose turn it is can go on, and it takes the ring one step further. -/
theorem ringAt_step (t i : ℕ) (s' : State) :
    step (ringAt t) i = some s' ↔ i = t / 3 % 4 ∧ s' = ringAt (t + 1) := by
  rw [step_eq_some]
  constructor
  · rintro ⟨p, q, hp, hprog, hprocs⟩
    obtain ⟨hi, rfl⟩ : i < 4 ∧ procOf t i = p := by
      simpa [ringAt, List.getElem?_eq_some_iff] using hp
    by_cases h : t / 3 % 4 = i
    · rw [prog_turn h, Option.some.injEq, Prod.mk.injEq] at hprog
      obtain ⟨hshared, rfl⟩ := hprog
      obtain ⟨shared, procs⟩ := s'
      obtain rfl : (ringAt (t + 1)).shared = shared := hshared
      obtain rfl : procs = (ringAt (t + 1)).procs := hprocs.trans (procs_succ h)
      exact ⟨h.symm, rfl⟩
    · rw [prog_other hi h] at hprog
      exact absurd hprog (by simp)
  · rintro ⟨rfl, rfl⟩
    have hlt : t / 3 % 4 < 4 := Nat.mod_lt _ (by decide)
    have hp : (ringAt t).procs[t / 3 % 4]? = some (procOf t (t / 3 % 4)) := by
      simp [ringAt, hlt]
    exact ⟨_, _, hp, prog_turn rfl, (procs_succ rfl).symm⟩

end Turn

/-! ## What is printed -/

theorem printed_rounds (n : ℕ) :
    (List.range (8 * n)).map turnChar = (List.replicate n order).flatten := by
  induction n with
  | zero => rfl
  | succ n ih =>
    have hround : (List.range 8).map (turnChar ∘ fun m => 8 * n + m) = order := by
      have hsame : ∀ m ∈ List.range 8, (turnChar ∘ fun m => 8 * n + m) m = turnChar m :=
        fun m _ => turnChar_congr (Nat.mul_add_mod 8 n m)
      rw [List.map_congr_left hsame]
      rfl
    rw [Nat.mul_succ, List.range_add, List.map_append, ih, List.map_map, hround,
      List.replicate_succ', List.flatten_append]
    simp

theorem prefix_range {m n : ℕ} (h : m ≤ n) : List.range m <+: List.range n := by
  obtain ⟨k, rfl⟩ := Nat.exists_eq_add_of_le h
  rw [List.range_add]
  exact List.prefix_append ..

/-- **The ring prints in order for ever.** In every run what is printed is a prefix of rounds of the
eight characters, one character for every three steps, and some process can go on. -/
theorem prints_in_order {ls : List ℕ} {s : State} (h : after step initial ls = some s) :
    (∃ n, s.shared.printed <+: (List.replicate n order).flatten) ∧
      s.shared.printed.length = (ls.length + 1) / 3 ∧ ∃ i s', step s i = some s' := by
  rw [← ringAt_zero] at h
  obtain rfl := after_determined (fun t i s' hstep => ((ringAt_step t i s').mp hstep).2) h
  rw [Nat.zero_add]
  generalize ls.length = t
  refine ⟨⟨(t + 1) / 3, ?_⟩, by simp [ringAt], t / 3 % 4, ringAt (t + 1),
    (ringAt_step t _ _).mpr ⟨rfl, rfl⟩⟩
  rw [← printed_rounds]
  have hle : (t + 1) / 3 ≤ 8 * ((t + 1) / 3) := by omega
  exact (prefix_range hle).map turnChar

/-- One round of the ring, and the first character of the next. -/
def oneRound : List ℕ :=
  [0, 0, 0, 1, 1, 1, 2, 2, 2, 3, 3, 3, 0, 0, 0, 1, 1, 1, 2, 2, 2, 3, 3, 3, 0, 0]

theorem after_oneRound : (after step initial oneRound).map (fun s => s.shared.printed) =
    some ['1', '2', '3', '4', '5', '6', '7', '8', '1'] := by decide

theorem prints_in_order_oneRound : ∃ s, after step initial oneRound = some s ∧
    s.shared.printed = ['1', '2', '3', '4', '5', '6', '7', '8', '1'] ∧
    (∃ n, s.shared.printed <+: (List.replicate n order).flatten) ∧
    ∃ i s', step s i = some s' := by
  obtain ⟨s, hs, hprinted⟩ := Option.map_eq_some_iff.mp after_oneRound
  obtain ⟨hrounds, -, hnext⟩ := prints_in_order hs
  exact ⟨s, hs, hprinted, hrounds, hnext⟩

end El32.SemSeq

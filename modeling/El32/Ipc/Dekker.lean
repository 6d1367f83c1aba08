import El32.Foundations.Alternation
import El32.Foundations.Transition
import Mathlib.Data.Int.Notation

/-! `dekker_p0.c` and `dekker_p1.c`: two processes that print the numbers 1 to 6 in turn.

The turn is a byte in shared memory, which `p0` makes and `p1` opens. Every call is a step of its own;
a process that spins on the turn takes no step. -/
namespace El32.Dekker
open Alternation Transition
set_option autoImplicit false

inductive Call where
  | shmCreate
  | shmOpen
  | ftruncate
  | lseek
  | mmap
  | setTurn (turn : ℕ)
  | waitForTurn (turn : ℕ)
  | print (n : ℕ)
  | close
  | shmUnlink
deriving DecidableEq

/-- `main` of `dekker_p0.c`, with `my_shm_create`. -/
def p0 : List Call :=
  [.shmCreate, .ftruncate, .mmap, .setTurn 0,
    .waitForTurn 0, .print 1, .setTurn 1,
    .waitForTurn 0, .print 3, .setTurn 1,
    .waitForTurn 0, .print 5, .setTurn 1,
    .waitForTurn 0, .close, .shmUnlink]

/-- `main` of `dekker_p1.c`, with `my_shm_open`. -/
def p1 : List Call :=
  [.shmOpen, .lseek, .mmap,
    .waitForTurn 1, .print 2, .setTurn 0,
    .waitForTurn 1, .print 4, .setTurn 0,
    .waitForTurn 1, .print 6, .setTurn 0]

/-- Whether the name is there, the size and the first byte of its object, and all that was printed. -/
structure Shared where
  named : Bool
  size : ℕ
  byte : ℕ
  printed : List ℕ
deriving DecidableEq

/-- `fd` and `mapped` tell whether `shm_fd` and `shm_addr` are valid; `size` is the length to map. -/
structure Proc where
  pc : ℕ
  fd : Bool
  size : ℤ
  mapped : Bool
  crashed : Bool
deriving DecidableEq

def Proc.next (p : Proc) : Proc := { p with pc := p.pc + 1 }

/-- An error of the calls on the object is reported, and the process goes on. An access through
`MAP_FAILED` ends it. -/
def exec (s : Shared) (p : Proc) : Call → Option (Shared × Proc)
  | .shmCreate =>
    if s.named then some (s, { p with fd := false }.next)
    else some ({ s with named := true, size := 0, byte := 0 }, { p with fd := true }.next)
  | .shmOpen => some (s, { p with fd := s.named }.next)
  | .ftruncate => some (if p.fd then { s with size := 1 } else s, p.next)
  | .lseek => some (s, { p with size := if p.fd then s.size else -1 }.next)
  | .mmap => some (s, { p with mapped := p.fd && decide (0 < p.size) }.next)
  | .setTurn turn =>
    if p.mapped then some ({ s with byte := turn }, p.next)
    else some (s, { p with crashed := true })
  | .waitForTurn turn =>
    if p.mapped then if s.byte = turn then some (s, p.next) else none
    else some (s, { p with crashed := true })
  | .print n => some ({ s with printed := s.printed ++ [n] }, p.next)
  | .close => some (s, { p with fd := false }.next)
  | .shmUnlink => some ({ s with named := false }, p.next)

def run (prog : List Call) (s : Shared) (p : Proc) : Option (Shared × Proc) :=
  if p.crashed then none else prog[p.pc]?.bind (exec s p)

structure State where
  shared : Shared
  proc0 : Proc
  proc1 : Proc
deriving DecidableEq

inductive Label where
  | p0
  | p1
deriving DecidableEq

def step (s : State) : Label → Option State
  | .p0 => (run p0 s.shared s.proc0).map fun r => { s with shared := r.1, proc0 := r.2 }
  | .p1 => (run p1 s.shared s.proc1).map fun r => { s with shared := r.1, proc1 := r.2 }

/-- Nobody has made the object yet. `SHM_SIZE` is 1. -/
def fresh : State where
  shared := ⟨false, 0, 0, []⟩
  proc0 := ⟨0, false, 1, false, false⟩
  proc1 := ⟨0, false, 0, false, false⟩

/-! ## The rounds -/

def odd (r : ℕ) : ℕ := 2 * r + 1

def even (r : ℕ) : ℕ := 2 * r + 2

/-- The calls between setting up and the end, as rounds. -/
def callAt (turn : ℕ) (item : ℕ → ℕ) (k : ℕ) : Call :=
  match k % 3 with
  | 0 => .waitForTurn turn
  | 1 => .print (item (k / 3))
  | _ => .setTurn (1 - turn)

theorem p0_rounds : ∀ k < 10, p0[4 + k]? = some (callAt 0 odd k) := by decide

theorem p1_rounds : ∀ k < 9, p1[3 + k]? = some (callAt 1 even k) := by decide

/-- The state of the rounds; the last wait of `p0` is the first call of a fourth round. -/
def State.rounds (s : State) : Alternation.State ℕ where
  first := min (s.proc0.pc - 4) 10
  second := s.proc1.pc - 3
  turn := s.shared.byte = 1
  out := s.shared.printed

/-- `p0` along its calls: what is valid and what it has made. -/
structure Inv0 (s : Shared) (p : Proc) : Prop where
  alive : p.crashed = false
  length : p.pc ≤ 16
  size : p.size = 1
  fd : p.fd = true ↔ 1 ≤ p.pc ∧ p.pc ≤ 14
  mapped : p.mapped = true ↔ 3 ≤ p.pc
  named : s.named = true ↔ 1 ≤ p.pc ∧ p.pc ≤ 15
  object : s.size = if 2 ≤ p.pc then 1 else 0

/-- `p1` along its calls: it maps what `lseek` found, and crashes at the first access to nothing. -/
structure Inv1 (p : Proc) : Prop where
  length : p.pc ≤ 12
  fd : 2 ≤ p.pc → 0 < p.size → p.fd = true
  mapped : 3 ≤ p.pc → (p.mapped = true ↔ 0 < p.size)
  rounds : 3 < p.pc → p.mapped = true
  crashed : p.crashed = true → p.pc = 3 ∧ p.mapped = false

structure Inv (s : State) : Prop where
  inv0 : Inv0 s.shared s.proc0
  inv1 : Inv1 s.proc1
  binary : s.shared.byte = 0 ∨ s.shared.byte = 1
  ordered : Ordered odd even s.rounds

section Rounds
variable {s s' : State}

/-- A call of the rounds is the action of the abstract party. -/
theorem exec_callAt {s : Shared} {p : Proc} (mine : Bool) (item : ℕ → ℕ) (k : ℕ)
    (hb : s.byte = 0 ∨ s.byte = 1) (hm : p.mapped = true) :
    exec s p (callAt (if mine then 1 else 0) item k) =
      (act mine item k (decide (s.byte = 1)) s.printed).map fun r =>
        ({ s with byte := if r.1 then 1 else 0, printed := r.2 }, p.next) := by
  obtain ⟨named, size, byte, printed⟩ := s
  have hk : k % 3 = 0 ∨ k % 3 = 1 ∨ k % 3 = 2 := by omega
  obtain hk | hk | hk := hk
  · obtain rfl | rfl : byte = 0 ∨ byte = 1 := hb
    · cases mine <;> simp [callAt, act, hk, exec, hm]
    · cases mine <;> simp [callAt, act, hk, exec, hm]
  · obtain rfl | rfl : byte = 0 ∨ byte = 1 := hb
    · simp [callAt, act, hk, exec]
    · simp [callAt, act, hk, exec]
  · cases mine <;> simp [callAt, act, hk, exec, hm]

/-- The state after a step of the rounds. -/
def State.after (s : State) (r : Alternation.State ℕ) : State :=
  { s with shared := { s.shared with byte := if r.turn then 1 else 0, printed := r.out } }

theorem p0_step_rounds (h : Inv s) (hge : 4 ≤ s.proc0.pc) (hlt : s.proc0.pc < 14) :
    step s .p0 = (stepFirst odd s.rounds).map fun r =>
      { s.after r with proc0 := s.proc0.next } := by
  have hcall := p0_rounds (s.proc0.pc - 4) (by omega)
  rw [show 4 + (s.proc0.pc - 4) = s.proc0.pc by omega] at hcall
  have hexec := exec_callAt (s := s.shared) (p := s.proc0) false odd (s.proc0.pc - 4) h.binary
    (h.inv0.mapped.mpr (by omega))
  have hfirst : s.rounds.first = s.proc0.pc - 4 := Nat.min_eq_left (by omega)
  simp only [step, run, h.inv0.alive, Bool.false_eq_true, if_false, hcall, Option.bind_some]
  rw [show callAt 0 odd (s.proc0.pc - 4) = callAt (if false then 1 else 0) odd (s.proc0.pc - 4)
    from rfl, hexec, stepFirst, hfirst, Option.map_map, Option.map_map]
  rfl

theorem p1_step_rounds (h : Inv s) (hge : 3 ≤ s.proc1.pc) (hlt : s.proc1.pc < 12)
    (hm : s.proc1.mapped = true) :
    step s .p1 = (stepSecond even s.rounds).map fun r =>
      { s.after r with proc1 := s.proc1.next } := by
  have hcall := p1_rounds (s.proc1.pc - 3) (by omega)
  rw [show 3 + (s.proc1.pc - 3) = s.proc1.pc by omega] at hcall
  have hexec := exec_callAt (s := s.shared) (p := s.proc1) true even (s.proc1.pc - 3) h.binary hm
  have halive : s.proc1.crashed = false := by
    by_contra hc
    have := (h.inv1.crashed (by simpa using hc)).2
    rw [hm] at this
    exact nomatch this
  simp only [step, run, halive, Bool.false_eq_true, if_false, hcall, Option.bind_some]
  rw [show callAt 1 even (s.proc1.pc - 3) = callAt (if true then 1 else 0) even (s.proc1.pc - 3)
    from rfl, hexec, stepSecond, Option.map_map, Option.map_map]
  rfl

theorem turn_false (h : Inv s) (hfirst : s.rounds.first = 0) : s.shared.byte = 0 := by
  refine h.binary.resolve_right fun hbyte => ?_
  have hy := (h.ordered.yours (decide_eq_true hbyte)).2
  rw [hfirst] at hy
  omega

/-- A call of the rounds. -/
theorem Inv.round {r : Alternation.State ℕ} (hr : Ordered odd even r) (h0 : Inv0 s'.shared s'.proc0)
    (h1 : Inv1 s'.proc1) (hbyte : s'.shared.byte = if r.turn then 1 else 0)
    (hout : s'.shared.printed = r.out) (hfirst : s'.rounds.first = r.first)
    (hsecond : s'.rounds.second = r.second) : Inv s' := by
  have hturn : s'.rounds.turn = r.turn := by
    show decide (s'.shared.byte = 1) = r.turn
    rw [hbyte]
    cases r.turn <;> rfl
  have hrounds : s'.rounds = r := Alternation.State.ext hfirst hsecond hturn hout
  refine ⟨h0, h1, ?_, hrounds ▸ hr⟩
  rw [hbyte]
  cases r.turn <;> simp

/-- A call outside the rounds leaves them alone. -/
theorem Inv.outside (h : Inv s) (h0 : Inv0 s'.shared s'.proc0) (h1 : Inv1 s'.proc1)
    (hbyte : s'.shared.byte = s.shared.byte) (hout : s'.shared.printed = s.shared.printed)
    (hfirst : s'.rounds.first = s.rounds.first) (hsecond : s'.rounds.second = s.rounds.second) :
    Inv s' := by
  have hturn : s'.rounds.turn = s.rounds.turn := by
    show decide (s'.shared.byte = 1) = decide (s.shared.byte = 1)
    rw [hbyte]
  have hrounds : s'.rounds = s.rounds := Alternation.State.ext hfirst hsecond hturn hout
  exact ⟨h0, h1, by rw [hbyte]; exact h.binary, hrounds ▸ h.ordered⟩

theorem Inv0.next {sh sh' : Shared} {p : Proc} (h : Inv0 sh p) (hge : 4 ≤ p.pc) (hlt : p.pc < 14)
    (hnamed : sh'.named = sh.named) (hsize : sh'.size = sh.size) : Inv0 sh' p.next where
  alive := h.alive
  length := Nat.succ_le_of_lt (by omega)
  size := h.size
  fd := h.fd.trans (by show _ ↔ 1 ≤ p.pc + 1 ∧ p.pc + 1 ≤ 14; omega)
  mapped := h.mapped.trans (by show _ ↔ 3 ≤ p.pc + 1; omega)
  named := by
    rw [hnamed]
    exact h.named.trans (by show _ ↔ 1 ≤ p.pc + 1 ∧ p.pc + 1 ≤ 15; omega)
  object := by
    rw [hsize, h.object, if_pos (by omega)]
    exact (if_pos (by show 2 ≤ p.pc + 1; omega)).symm

theorem inv_p0_rounds (h : Inv s) (hge : 4 ≤ s.proc0.pc) (hlt : s.proc0.pc < 14)
    (hstep : step s .p0 = some s') : Inv s' := by
  rw [p0_step_rounds h hge hlt] at hstep
  obtain ⟨r, hr, rfl⟩ := Option.map_eq_some_iff.mp hstep
  have hord := h.ordered.first_step hr
  obtain ⟨a, -, rfl⟩ := Option.map_eq_some_iff.mp hr
  refine Inv.round hord (h.inv0.next hge hlt rfl rfl) h.inv1 rfl rfl ?_ rfl
  show min (s.proc0.pc + 1 - 4) 10 = min (s.proc0.pc - 4) 10 + 1
  omega

theorem inv_p0 (h : Inv s) (hstep : step s .p0 = some s') : Inv s' := by
  by_cases hrounds : 4 ≤ s.proc0.pc ∧ s.proc0.pc < 14
  · exact inv_p0_rounds h hrounds.1 hrounds.2 hstep
  · obtain ⟨shared, ⟨pc, fd, size, mapped, crashed⟩, proc1⟩ := s
    obtain ⟨rfl, hlength, rfl, hfd, hmapped, hnamed, hobject⟩ := h.inv0
    dsimp only at hrounds hlength hfd hmapped hnamed hobject
    have hturn := turn_false h
    obtain rfl | rfl | rfl | rfl | rfl | rfl | rfl :
        pc = 0 ∨ pc = 1 ∨ pc = 2 ∨ pc = 3 ∨ pc = 14 ∨ pc = 15 ∨ pc = 16 := by omega
    · -- `shm_open` with `O_EXCL`
      have hname : shared.named = false := by simpa using hnamed
      obtain rfl : _ = s' := by simpa [step, run, p0, exec, hname] using hstep
      exact h.outside ⟨rfl, by simp [Proc.next], rfl, by simp [Proc.next],
        by simpa [Proc.next] using hmapped, by simp [Proc.next], by simp [Proc.next]⟩
        h.inv1 (hturn rfl).symm rfl rfl rfl
    · obtain rfl : _ = s' := by simpa [step, run, p0, exec, hfd] using hstep
      exact h.outside ⟨rfl, by simp [Proc.next], rfl, by simpa [Proc.next] using hfd,
        by simpa [Proc.next] using hmapped, by simpa [Proc.next] using hnamed, by simp [Proc.next]⟩
        h.inv1 rfl rfl rfl rfl
    · obtain rfl : _ = s' := by simpa [step, run, p0, exec, hfd] using hstep
      exact h.outside ⟨rfl, by simp [Proc.next], rfl, by simpa [Proc.next] using hfd,
        by simp [Proc.next, hfd], by simpa [Proc.next] using hnamed,
        by simpa [Proc.next] using hobject⟩ h.inv1 rfl rfl rfl rfl
    · obtain rfl : _ = s' := by simpa [step, run, p0, exec, hmapped] using hstep
      exact h.outside ⟨rfl, by simp [Proc.next], rfl, by simpa [Proc.next] using hfd,
        by simpa [Proc.next] using hmapped, by simpa [Proc.next] using hnamed,
        by simpa [Proc.next] using hobject⟩ h.inv1 (hturn rfl).symm rfl rfl rfl
    · obtain rfl : _ = s' := by simpa [step, run, p0, exec] using hstep
      exact h.outside ⟨rfl, by simp [Proc.next], rfl, by simp [Proc.next],
        by simpa [Proc.next] using hmapped, by simpa [Proc.next] using hnamed,
        by simpa [Proc.next] using hobject⟩ h.inv1 rfl rfl rfl rfl
    · obtain rfl : _ = s' := by simpa [step, run, p0, exec] using hstep
      exact h.outside ⟨rfl, by simp [Proc.next], rfl, by simpa [Proc.next] using hfd,
        by simpa [Proc.next] using hmapped, by simp [Proc.next],
        by simpa [Proc.next] using hobject⟩ h.inv1 rfl rfl rfl rfl
    · exact absurd hstep (by simp [step, run, p0])

theorem Inv1.next {p : Proc} (h : Inv1 p) (hge : 3 ≤ p.pc) (hlt : p.pc < 12)
    (hm : p.mapped = true) : Inv1 p.next where
  length := Nat.succ_le_of_lt (by omega)
  fd _ := h.fd (by omega)
  mapped _ := h.mapped hge
  rounds _ := hm
  crashed hc := by
    have := (h.crashed hc).2
    rw [hm] at this
    exact nomatch this

theorem inv_p1_rounds (h : Inv s) (hge : 3 ≤ s.proc1.pc) (hlt : s.proc1.pc < 12)
    (hm : s.proc1.mapped = true) (hstep : step s .p1 = some s') : Inv s' := by
  rw [p1_step_rounds h hge hlt hm] at hstep
  obtain ⟨r, hr, rfl⟩ := Option.map_eq_some_iff.mp hstep
  have hord := h.ordered.second_step hr
  obtain ⟨a, -, rfl⟩ := Option.map_eq_some_iff.mp hr
  refine Inv.round hord ⟨h.inv0.alive, h.inv0.length, h.inv0.size, h.inv0.fd, h.inv0.mapped,
    h.inv0.named, h.inv0.object⟩ (h.inv1.next hge hlt hm) rfl rfl rfl ?_
  show s.proc1.pc + 1 - 3 = s.proc1.pc - 3 + 1
  omega

theorem inv_p1 (h : Inv s) (hstep : step s .p1 = some s') : Inv s' := by
  by_cases hrounds : 3 ≤ s.proc1.pc ∧ s.proc1.pc < 12 ∧ s.proc1.mapped = true
  · exact inv_p1_rounds h hrounds.1 hrounds.2.1 hrounds.2.2 hstep
  · obtain ⟨shared, proc0, ⟨pc, fd, size, mapped, crashed⟩⟩ := s
    obtain ⟨hlength, hfd, hmapped, hround, hcrashed⟩ := h.inv1
    dsimp only at hrounds hlength hfd hmapped hround hcrashed
    cases crashed with
    | true => exact absurd hstep (by simp [step, run])
    | false =>
      have hpc : pc ≤ 3 ∨ pc = 12 := by
        by_contra hpc
        exact hrounds ⟨by omega, by omega, hround (by omega)⟩
      obtain rfl | rfl | rfl | rfl | rfl : pc = 0 ∨ pc = 1 ∨ pc = 2 ∨ pc = 3 ∨ pc = 12 := by omega
      · obtain rfl : _ = s' := by simpa [step, run, p1, exec] using hstep
        exact h.outside h.inv0 ⟨by simp [Proc.next], by simp [Proc.next], by simp [Proc.next],
          by simp [Proc.next], nofun⟩ rfl rfl rfl rfl
      · obtain rfl : _ = s' := by simpa [step, run, p1, exec] using hstep
        refine h.outside h.inv0 ⟨by simp [Proc.next], fun _ hpos => ?_, by simp [Proc.next],
          by simp [Proc.next], nofun⟩ rfl rfl rfl rfl
        cases fd with
        | true => rfl
        | false => exact absurd hpos (by simp [Proc.next])
      · obtain rfl : _ = s' := by simpa [step, run, p1, exec] using hstep
        refine h.outside h.inv0 ⟨by simp [Proc.next], fun _ => hfd (by decide), fun _ => ?_,
          by simp [Proc.next], nofun⟩ rfl rfl rfl rfl
        simpa [Proc.next] using hfd (by decide)
      · -- the first access
        obtain rfl : mapped = false := by simpa using hrounds
        obtain rfl : _ = s' := by simpa [step, run, p1, exec] using hstep
        exact h.outside h.inv0 ⟨by simp, hfd, hmapped, by simp, fun _ => ⟨rfl, rfl⟩⟩
          rfl rfl rfl rfl
      · exact absurd hstep (by simp [step, run, p1])

theorem inv_fresh : Inv fresh :=
  ⟨⟨rfl, by decide, rfl, by decide, by decide, by decide, by decide⟩,
    ⟨by decide, by decide, by decide, by decide, by decide⟩, .inl rfl, ordered_start⟩

theorem inv_reachable {ls : List Label} (h : after step fresh ls = some s) : Inv s := by
  refine invariant_after (fun s a s' hs hstep => ?_) inv_fresh h
  cases a with
  | p0 => exact inv_p0 hs hstep
  | p1 => exact inv_p1 hs hstep

end Rounds

/-! ## Every run -/

/-- `p1` looked for the size before `p0` had given the object one. -/
def Hurried (s : State) : Prop := 2 ≤ s.proc1.pc ∧ ¬ 0 < s.proc1.size

def Stuck (s : State) : Prop := ∀ a, step s a = none

/-- Both programs have returned. -/
def Finished (s : State) : Prop := s.proc0.pc = 16 ∧ s.proc1.pc = 12

section Runs
variable {s t : State}

theorem p0_finished (h : Inv s) : step s .p0 = none ↔
    s.proc0.pc = 16 ∨ s.proc0.pc < 14 ∧ 4 ≤ s.proc0.pc ∧ s.rounds.turn = true := by
  by_cases hrounds : 4 ≤ s.proc0.pc ∧ s.proc0.pc < 14
  · rw [p0_step_rounds h hrounds.1 hrounds.2, Option.map_eq_none_iff, ← Option.not_isSome_iff_eq_none,
      h.ordered.first_enabled, Bool.not_eq_false]
    constructor
    · exact fun ht => .inr ⟨hrounds.2, hrounds.1, ht⟩
    · rintro (h16 | ⟨-, -, ht⟩)
      · omega
      · exact ht
  · obtain ⟨shared, ⟨pc, fd, size, mapped, crashed⟩, proc1⟩ := s
    obtain ⟨rfl, hlength, rfl, hfd, hmapped, hnamed, hobject⟩ := h.inv0
    dsimp only at hrounds hlength hfd hmapped hnamed hobject ⊢
    obtain rfl | rfl | rfl | rfl | rfl | rfl | rfl :
        pc = 0 ∨ pc = 1 ∨ pc = 2 ∨ pc = 3 ∨ pc = 14 ∨ pc = 15 ∨ pc = 16 := by omega
    · have hname : shared.named = false := by simpa using hnamed
      simp [step, run, p0, exec, hname]
    · simp [step, run, p0, exec]
    · simp [step, run, p0, exec]
    · simp [step, run, p0, exec, hmapped]
    · simp [step, run, p0, exec]
    · simp [step, run, p0, exec]
    · simp [step, run, p0]

theorem p1_finished (h : Inv s) : step s .p1 = none ↔
    s.proc1.pc = 12 ∨ s.proc1.crashed = true ∨
      s.proc1.mapped = true ∧ 3 ≤ s.proc1.pc ∧ s.proc1.pc < 12 ∧ s.rounds.turn = false := by
  by_cases hrounds : 3 ≤ s.proc1.pc ∧ s.proc1.pc < 12 ∧ s.proc1.mapped = true
  · obtain ⟨hge, hlt, hm⟩ := hrounds
    rw [p1_step_rounds h hge hlt hm, Option.map_eq_none_iff, ← Option.not_isSome_iff_eq_none,
      h.ordered.second_enabled, Bool.not_eq_true]
    constructor
    · exact fun ht => .inr (.inr ⟨hm, hge, hlt, ht⟩)
    · rintro (h12 | hc | ⟨-, -, -, ht⟩)
      · omega
      · have := (h.inv1.crashed hc).2
        rw [hm] at this
        exact nomatch this
      · exact ht
  · obtain ⟨shared, proc0, ⟨pc, fd, size, mapped, crashed⟩⟩ := s
    obtain ⟨hlength, hfd, hmapped, hround, hcrashed⟩ := h.inv1
    dsimp only at hrounds hlength hfd hmapped hround hcrashed ⊢
    cases crashed with
    | true => simp [step, run]
    | false =>
      have hpc : pc ≤ 3 ∨ pc = 12 := by
        by_contra hpc
        exact hrounds ⟨by omega, by omega, hround (by omega)⟩
      obtain rfl | rfl | rfl | rfl | rfl : pc = 0 ∨ pc = 1 ∨ pc = 2 ∨ pc = 3 ∨ pc = 12 := by omega
      · simp [step, run, p1, exec]
      · simp [step, run, p1, exec]
      · simp [step, run, p1, exec]
      · have hnot : mapped = false := by simpa using hrounds
        simp [step, run, p1, exec, hnot]
      · simp [step, run, p1]

/-! ### What is printed -/

def numbers : List ℕ := [1, 2, 3, 4, 5, 6]

theorem numbers_eq : numbers = (List.range 6).map (merged odd even) := by decide

theorem printed_take (h : Inv s) : s.shared.printed =
    numbers.take ((s.rounds.first + 1) / 3 + (s.rounds.second + 1) / 3) := by
  have hfirst : s.rounds.first ≤ 10 := Nat.min_le_right _ _
  have hsecond : s.rounds.second ≤ 9 := by
    have := h.inv1.length
    show s.proc1.pc - 3 ≤ 9
    omega
  have hout : s.shared.printed = _ := h.ordered.out
  rw [hout, numbers_eq, ← List.map_take, List.take_range, Nat.min_eq_left (by omega)]

/-- A process that found no size to map has not begun its rounds. -/
theorem Hurried.pc (hh : Hurried s) (h : Inv s) : s.proc1.pc ≤ 3 := by
  by_contra hpc
  exact hh.2 ((h.inv1.mapped (by omega)).mp (h.inv1.rounds (by omega)))

theorem hurried_of_crashed (h : Inv s) (hc : s.proc1.crashed = true) : Hurried s := by
  obtain ⟨hpc, hm⟩ := h.inv1.crashed hc
  refine ⟨by omega, fun hpos => ?_⟩
  rw [(h.inv1.mapped (by omega)).mpr hpos] at hm
  exact nomatch hm

theorem stuck_hurried (h : Inv s) (hh : Hurried s) :
    Stuck s ↔ s.proc1.crashed = true ∧ s.proc0.pc = 7 := by
  have hpc := hh.pc h
  have hm : 3 ≤ s.proc1.pc → ¬ s.proc1.mapped = true := fun hge hm =>
    hh.2 ((h.inv1.mapped hge).mp hm)
  have hsecond : s.rounds.second = 0 := Nat.sub_eq_zero_of_le hpc
  have hfirst : s.rounds.first = min (s.proc0.pc - 4) 10 := rfl
  constructor
  · intro hstuck
    have hc : s.proc1.crashed = true := by
      obtain h12 | hc | ⟨hmap, hge, -, -⟩ := (p1_finished h).mp (hstuck .p1)
      · omega
      · exact hc
      · exact absurd hmap (hm hge)
    refine ⟨hc, ?_⟩
    obtain h16 | ⟨hlt, hge, ht⟩ := (p0_finished h).mp (hstuck .p0)
    · -- the rounds of `p0` do not end without those of `p1`
      have hten : s.rounds.first = 10 := by rw [hfirst, h16]; rfl
      cases ht : s.rounds.turn with
      | false =>
        have := (h.ordered.mine ht).2
        omega
      | true =>
        have := (h.ordered.yours ht).1
        omega
    · have hy := h.ordered.yours ht
      omega
  · rintro ⟨hc, hseven⟩ a
    have hthree : s.rounds.first = 3 := by rw [hfirst, hseven]; rfl
    cases a with
    | p0 =>
      refine (p0_finished h).mpr (.inr ⟨by omega, by omega, ?_⟩)
      cases ht : s.rounds.turn with
      | true => rfl
      | false =>
        have := (h.ordered.mine ht).2
        omega
    | p1 => exact (p1_finished h).mpr (.inr (.inl hc))

theorem stuck_finished (h : Inv s) (hh : ¬ Hurried s) : Stuck s ↔ Finished s := by
  have hfirst : s.rounds.first = min (s.proc0.pc - 4) 10 := rfl
  have hsecond : s.rounds.second = s.proc1.pc - 3 := rfl
  have h0 := h.inv0.length
  have h1 := h.inv1.length
  constructor
  · intro hstuck
    obtain h12 | hc | ⟨-, hge, hlt, ht⟩ := (p1_finished h).mp (hstuck .p1)
    · obtain h16 | ⟨hlt, hge, ht⟩ := (p0_finished h).mp (hstuck .p0)
      · exact ⟨h16, h12⟩
      · have hy := h.ordered.yours ht
        omega
    · exact absurd (hurried_of_crashed h hc) hh
    · have hm := h.ordered.mine ht
      obtain h16 | ⟨-, -, ht'⟩ := (p0_finished h).mp (hstuck .p0)
      · omega
      · exact nomatch ht.symm.trans ht'
  · rintro ⟨h16, h12⟩ a
    cases a with
    | p0 => exact (p0_finished h).mpr (.inl h16)
    | p1 => exact (p1_finished h).mpr (.inl h12)

/-! ### How long it takes -/

/-- The calls made, with the access that ended a process. -/
def Proc.calls (p : Proc) : ℕ := p.pc + if p.crashed then 1 else 0

/-- A call goes on, or it is the access that crashes. -/
theorem exec_moves {sh sh' : Shared} {p p' : Proc} {c : Call} (h : exec sh p c = some (sh', p')) :
    (p'.pc = p.pc + 1 ∧ p'.crashed = p.crashed) ∨ (p'.pc = p.pc ∧ p'.crashed = true) := by
  cases c with
  | shmCreate =>
    simp only [exec] at h
    split at h
    · cases h
      exact .inl ⟨rfl, rfl⟩
    · cases h
      exact .inl ⟨rfl, rfl⟩
  | setTurn turn =>
    simp only [exec] at h
    split at h
    · cases h
      exact .inl ⟨rfl, rfl⟩
    · cases h
      exact .inr ⟨rfl, rfl⟩
  | waitForTurn turn =>
    simp only [exec] at h
    split at h
    · split at h
      · cases h
        exact .inl ⟨rfl, rfl⟩
      · exact nomatch h
    · cases h
      exact .inr ⟨rfl, rfl⟩
  | _ =>
    cases h
    exact .inl ⟨rfl, rfl⟩

theorem run_calls {prog : List Call} {sh sh' : Shared} {p p' : Proc}
    (h : run prog sh p = some (sh', p')) : p'.calls = p.calls + 1 := by
  unfold run at h
  split at h
  · exact nomatch h
  · next hc =>
    obtain ⟨c, -, h⟩ := Option.bind_eq_some_iff.mp h
    rw [Proc.calls, Proc.calls, if_neg hc]
    obtain ⟨hpc, hcr⟩ | ⟨hpc, hcr⟩ := exec_moves h
    · rw [hpc, hcr, if_neg hc]
    · rw [hpc, if_pos hcr]

theorem step_calls {a : Label} (h : step s a = some t) :
    t.proc0.calls + t.proc1.calls = s.proc0.calls + s.proc1.calls + 1 := by
  cases a with
  | p0 =>
    obtain ⟨r, hr, rfl⟩ := Option.map_eq_some_iff.mp h
    have := run_calls hr
    dsimp only
    omega
  | p1 =>
    obtain ⟨r, hr, rfl⟩ := Option.map_eq_some_iff.mp h
    have := run_calls hr
    dsimp only
    omega

theorem length_eq_calls {ls : List Label} (h : after step fresh ls = some t) :
    ls.length = t.proc0.calls + t.proc1.calls := by
  refine after_induction (Q := fun ls t => ls.length = t.proc0.calls + t.proc1.calls) rfl ?_ h
  intro ks u a u' _ hks hstep
  rw [List.length_append, hks, step_calls hstep, List.length_singleton]

/-- **The numbers come in order**, and every run comes to its end. It ends with all numbers, unless
`p1` looked for the size of the object before it had one: then `p1` crashes, `p0` prints `1` and waits
for ever, and the name stays. -/
theorem dekker_runs {ls : List Label} (h : after step fresh ls = some t) :
    t.shared.printed <+: numbers ∧ ls.length ≤ 28 ∧
      (¬ Hurried t → (Stuck t ↔ Finished t)) ∧
      (Finished t → t.shared.printed = numbers ∧ t.shared.named = false) ∧
      (Hurried t → t.shared.printed <+: [1] ∧
        (Stuck t ↔ t.proc1.crashed = true ∧ t.proc0.pc = 7) ∧
        (Stuck t → t.shared.printed = [1] ∧ t.shared.named = true)) := by
  have hinv := inv_reachable h
  have hprinted := printed_take hinv
  have hfirst : t.rounds.first = min (t.proc0.pc - 4) 10 := rfl
  have hsecond : t.rounds.second = t.proc1.pc - 3 := rfl
  refine ⟨?_, ?_, stuck_finished hinv, ?_, ?_⟩
  · rw [hprinted]
    exact List.take_prefix _ _
  · rw [length_eq_calls h, Proc.calls, Proc.calls, hinv.inv0.alive]
    have h0 := hinv.inv0.length
    have h1 := hinv.inv1.length
    cases hc : t.proc1.crashed with
    | false => simp; omega
    | true =>
      have := (hinv.inv1.crashed hc).1
      simp
      omega
  · rintro ⟨h16, h12⟩
    have hsix : (t.rounds.first + 1) / 3 + (t.rounds.second + 1) / 3 = 6 := by omega
    refine ⟨by rw [hprinted, hsix]; rfl, ?_⟩
    have hnamed := hinv.inv0.named
    rw [h16] at hnamed
    simpa using hnamed
  · intro hh
    have hpc := hh.pc hinv
    have hone : (t.rounds.first + 1) / 3 + (t.rounds.second + 1) / 3 ≤ 1 := by
      cases ht : t.rounds.turn with
      | false =>
        have := (hinv.ordered.mine ht).2
        omega
      | true =>
        have := hinv.ordered.yours ht
        omega
    refine ⟨?_, stuck_hurried hinv hh, fun hstuck => ?_⟩
    · rw [hprinted]
      exact (List.take_prefix_take_left hone).trans (List.prefix_refl [1])
    · have hseven := ((stuck_hurried hinv hh).mp hstuck).2
      have hone : (t.rounds.first + 1) / 3 + (t.rounds.second + 1) / 3 = 1 := by omega
      exact ⟨by rw [hprinted, hone]; rfl, hinv.inv0.named.mpr (by omega)⟩

end Runs

/-- `p1` opens the object while `p0` prints its first number, and then they alternate. -/
def inTime : List Label :=
  List.replicate 6 .p0 ++ [.p1, .p1, .p1, .p0] ++
    (List.replicate 2 (List.replicate 3 Label.p1 ++ List.replicate 3 .p0)).flatten ++
    List.replicate 3 .p1 ++ List.replicate 3 .p0

theorem inTime_runs : (after step fresh inTime).isSome := by decide

theorem dekker_runs_inTime : ∃ t, after step fresh inTime = some t ∧
    t.shared.printed = numbers ∧ t.shared.named = false := by
  have hrun := (Option.some_get inTime_runs).symm
  exact ⟨_, hrun, (dekker_runs hrun).2.2.2.1 ⟨by decide, by decide⟩⟩

end El32.Dekker

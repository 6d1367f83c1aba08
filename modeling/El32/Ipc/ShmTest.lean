import El32.Foundations.Transition
import Mathlib.Data.Int.Notation
import Mathlib.Logic.Function.Basic

/-! `shm_a.c` and `shm_b.c`: one process makes a shared memory, writes the alphabet into it and waits
for a capital `A` at the start; the other waits for the small `a`, reads everything back and answers
with the capital.

Both wait by looking once a second, and give up after a number of looks. An access to the memory is a
step of its own, and the steps of the two come in any order. -/
namespace El32.ShmTest
open Transition
set_option autoImplicit false

def shmSize : ℕ := 26

/-- `TIME_OUT` of `shm_a.c`. -/
def timeOutA : ℕ := 60

/-- `TIME_OUT` of `shm_b.c`. -/
def timeOutB : ℕ := 20

/-- The letter of a place: `a` is 97. -/
def letter (index : ℕ) : UInt8 := UInt8.ofNat (97 + index)

def capitalA : UInt8 := 65

/-- Whether the name is there, and the size and the bytes of its object. The bytes past the size are
those of the rest of the page. -/
structure Shared where
  named : Bool
  size : ℕ
  bytes : ℕ → UInt8

/-- What is printed after the wait. -/
inductive Message where
  | found
  | timeOut
deriving DecidableEq

/-! ## `shm_a.c` -/

inductive PcA where
  | shmOpen
  | ftruncate
  | mmap
  | write
  | look
  | wait
  | close
  | shmUnlink
  | done
  | crashed
deriving DecidableEq

/-- `fd` and `mapped` tell whether `shm_fd` and `shm_addr` are valid; `shown` are the bytes printed
while waiting. -/
structure ProcA where
  pc : PcA
  fd : Bool
  mapped : Bool
  index : ℕ
  cntr : ℕ
  shown : List UInt8
  message : Option Message

/-- An error of the calls on the object is reported, and the process goes on. An access through
`MAP_FAILED` ends it. -/
def stepA (s : Shared) (p : ProcA) : Option (Shared × ProcA) :=
  match p.pc with
  | .shmOpen =>
    if s.named then some (s, { p with pc := .ftruncate })
    else some (⟨true, 0, fun _ => 0⟩, { p with pc := .ftruncate, fd := true })
  | .ftruncate => some (if p.fd then { s with size := shmSize } else s, { p with pc := .mmap })
  | .mmap => some (s, { p with pc := .write, mapped := p.fd })
  | .write =>
    if p.mapped then
      some ({ s with bytes := Function.update s.bytes p.index (letter p.index) },
        { p with index := p.index + 1, pc := if p.index + 1 < shmSize then .write else .look })
    else some (s, { p with pc := .crashed })
  | .look => some (s, { p with pc := .wait, shown := p.shown ++ [s.bytes 0] })
  | .wait =>
    let cntr := p.cntr + 1
    if s.bytes 0 ≠ capitalA ∧ cntr < timeOutA then some (s, { p with pc := .look, cntr })
    else
      -- the capital at the last look is reported as a time-out, too
      let message := if timeOutA ≤ cntr then Message.timeOut else .found
      some (s, { p with pc := .close, cntr, message := some message })
  | .close => some (s, { p with pc := .shmUnlink, fd := false })
  | .shmUnlink => some ({ s with named := false }, { p with pc := .done })
  | .done => none
  | .crashed => none

/-! ## `shm_b.c` -/

inductive PcB where
  | shmOpen
  | lseek
  | mmap
  | look
  | wait
  | read
  | write
  | done
  | crashed
deriving DecidableEq

/-- `readBack` are the bytes printed after the wait. -/
structure ProcB where
  pc : PcB
  fd : Bool
  size : ℤ
  mapped : Bool
  cntr : ℕ
  index : ℕ
  shown : List UInt8
  message : Option Message
  readBack : List UInt8

def stepB (s : Shared) (p : ProcB) : Option (Shared × ProcB) :=
  match p.pc with
  | .shmOpen => some (s, { p with pc := .lseek, fd := s.named })
  | .lseek => some (s, { p with pc := .mmap, size := if p.fd then s.size else -1 })
  | .mmap => some (s, { p with pc := .look, mapped := p.fd && decide (0 < p.size) })
  | .look =>
    if p.mapped then some (s, { p with pc := .wait, shown := p.shown ++ [s.bytes 0] })
    else some (s, { p with pc := .crashed })
  | .wait =>
    let cntr := p.cntr + 1
    if s.bytes 0 ≠ letter 0 ∧ cntr < timeOutB then some (s, { p with pc := .look, cntr })
    else
      let message := if timeOutB ≤ cntr then Message.timeOut else .found
      some (s, { p with pc := .read, cntr, message := some message })
  | .read =>
    -- the byte at `size` is read, too
    some (s, { p with
      readBack := p.readBack ++ [s.bytes p.index]
      index := p.index + 1
      pc := if (p.index + 1 : ℤ) ≤ p.size then .read else .write })
  | .write =>
    some ({ s with bytes := Function.update s.bytes 0 capitalA }, { p with pc := .done })
  | .done => none
  | .crashed => none

/-! ## The two together -/

structure State where
  shared : Shared
  a : ProcA
  b : ProcB

inductive Label where
  | a
  | b
deriving DecidableEq

def step (s : State) : Label → Option State
  | .a => (stepA s.shared s.a).map fun r => { s with shared := r.1, a := r.2 }
  | .b => (stepB s.shared s.b).map fun r => { s with shared := r.1, b := r.2 }

/-- Nobody has made the object yet. -/
def fresh : State where
  shared := ⟨false, 0, fun _ => 0⟩
  a := ⟨.shmOpen, false, false, 0, 0, [], none⟩
  b := ⟨.shmOpen, false, 0, false, 0, 0, [], none, []⟩

def Stuck (s : State) : Prop := ∀ l, step s l = none

/-! ## Where the processes are -/

/-- What is known at each place of `shm_a`. -/
def PlaceA (s : Shared) (p : ProcA) : Prop :=
  match p.pc with
  | .shmOpen => s.named = false ∧ p.index = 0 ∧ p.cntr = 0
  | .ftruncate | .mmap => p.fd = true ∧ p.index = 0 ∧ p.cntr = 0
  | .write => p.mapped = true ∧ p.index < shmSize ∧ p.cntr = 0
  | .look | .wait => p.index = shmSize ∧ p.cntr < timeOutA
  | .close | .shmUnlink => p.index = shmSize ∧ p.message ≠ none
  | .done => p.index = shmSize ∧ p.message ≠ none ∧ s.named = false
  | .crashed => False

/-- What is known at each place of `shm_b`. -/
def PlaceB (p : ProcB) : Prop :=
  match p.pc with
  | .shmOpen | .lseek => p.index = 0 ∧ p.cntr = 0
  | .mmap => p.index = 0 ∧ p.cntr = 0 ∧ (p.size = shmSize ∧ p.fd = true ∨ p.size ≤ 0)
  | .look => p.index = 0 ∧ p.cntr < timeOutB ∧ (p.mapped = true → p.size = shmSize) ∧
      (p.mapped = false → p.size ≤ 0)
  | .wait => p.index = 0 ∧ p.cntr < timeOutB ∧ p.size = shmSize ∧ p.mapped = true
  | .read => p.index ≤ shmSize ∧ p.size = shmSize
  | .write | .done => p.index = shmSize + 1 ∧ p.size = shmSize
  | .crashed => p.size ≤ 0

/-- The steps that `shm_a` has taken, and those it has left out by leaving its wait early. -/
def rankA (p : ProcA) : ℕ :=
  match p.pc with
  | .shmOpen => 0
  | .ftruncate => 1
  | .mmap => 2
  | .write => 3 + p.index
  | .look => 29 + 2 * p.cntr
  | .wait => 30 + 2 * p.cntr
  | .close => 149
  | .shmUnlink => 150
  | .done | .crashed => 151

def rankB (p : ProcB) : ℕ :=
  match p.pc with
  | .shmOpen => 0
  | .lseek => 1
  | .mmap => 2
  | .look => 3 + 2 * p.cntr
  | .wait => 4 + 2 * p.cntr
  | .read => 43 + p.index
  | .write => 70
  | .done | .crashed => 71

/-! ### What a step does -/

inductive ActA (s : Shared) (p : ProcA) : Shared → ProcA → Prop
  | present (pc : p.pc = .shmOpen) (named : s.named = true) :
      ActA s p s { p with pc := .ftruncate }
  | create (pc : p.pc = .shmOpen) (named : s.named = false) :
      ActA s p ⟨true, 0, fun _ => 0⟩ { p with pc := .ftruncate, fd := true }
  | ftruncate (pc : p.pc = .ftruncate) (fd : p.fd = true) :
      ActA s p { s with size := shmSize } { p with pc := .mmap }
  | unsized (pc : p.pc = .ftruncate) (fd : p.fd = false) : ActA s p s { p with pc := .mmap }
  | mmap (pc : p.pc = .mmap) : ActA s p s { p with pc := .write, mapped := p.fd }
  | write (pc : p.pc = .write) (mapped : p.mapped = true) :
      ActA s p { s with bytes := Function.update s.bytes p.index (letter p.index) }
        { p with index := p.index + 1, pc := if p.index + 1 < shmSize then .write else .look }
  | crash (pc : p.pc = .write) (mapped : p.mapped = false) : ActA s p s { p with pc := .crashed }
  | look (pc : p.pc = .look) : ActA s p s { p with pc := .wait, shown := p.shown ++ [s.bytes 0] }
  | again (pc : p.pc = .wait) (early : p.cntr + 1 < timeOutA) (absent : s.bytes 0 ≠ capitalA) :
      ActA s p s { p with pc := .look, cntr := p.cntr + 1 }
  | found (pc : p.pc = .wait) (early : p.cntr + 1 < timeOutA) (capital : s.bytes 0 = capitalA) :
      ActA s p s { p with pc := .close, cntr := p.cntr + 1, message := some .found }
  | late (pc : p.pc = .wait) (late : timeOutA ≤ p.cntr + 1) :
      ActA s p s { p with pc := .close, cntr := p.cntr + 1, message := some .timeOut }
  | close (pc : p.pc = .close) : ActA s p s { p with pc := .shmUnlink, fd := false }
  | shmUnlink (pc : p.pc = .shmUnlink) :
      ActA s p { s with named := false } { p with pc := .done }

inductive ActB (s : Shared) (p : ProcB) : Shared → ProcB → Prop
  | shmOpen (pc : p.pc = .shmOpen) : ActB s p s { p with pc := .lseek, fd := s.named }
  | lseek (pc : p.pc = .lseek) :
      ActB s p s { p with pc := .mmap, size := if p.fd then s.size else -1 }
  | mmap (pc : p.pc = .mmap) :
      ActB s p s { p with pc := .look, mapped := p.fd && decide (0 < p.size) }
  | look (pc : p.pc = .look) (mapped : p.mapped = true) :
      ActB s p s { p with pc := .wait, shown := p.shown ++ [s.bytes 0] }
  | crash (pc : p.pc = .look) (mapped : p.mapped = false) : ActB s p s { p with pc := .crashed }
  | again (pc : p.pc = .wait) (early : p.cntr + 1 < timeOutB) (absent : s.bytes 0 ≠ letter 0) :
      ActB s p s { p with pc := .look, cntr := p.cntr + 1 }
  | found (pc : p.pc = .wait) (early : p.cntr + 1 < timeOutB) (small : s.bytes 0 = letter 0) :
      ActB s p s { p with pc := .read, cntr := p.cntr + 1, message := some .found }
  | late (pc : p.pc = .wait) (late : timeOutB ≤ p.cntr + 1) :
      ActB s p s { p with pc := .read, cntr := p.cntr + 1, message := some .timeOut }
  | read (pc : p.pc = .read) (more : (p.index + 1 : ℤ) ≤ p.size) :
      ActB s p s { p with
        readBack := p.readBack ++ [s.bytes p.index], index := p.index + 1, pc := .read }
  | last (pc : p.pc = .read) (done : p.size < p.index + 1) :
      ActB s p s { p with
        readBack := p.readBack ++ [s.bytes p.index], index := p.index + 1, pc := .write }
  | write (pc : p.pc = .write) :
      ActB s p { s with bytes := Function.update s.bytes 0 capitalA } { p with pc := .done }

section Inversion
variable {s s' : Shared} {p p' : ProcA} {q q' : ProcB}

theorem stepA_cases (hstep : stepA s p = some (s', p')) : ActA s p s' p' := by
  unfold stepA at hstep
  cases hpc : p.pc <;> simp only [hpc] at hstep
  case shmOpen =>
    split at hstep
    · next hnamed =>
      cases hstep
      exact .present hpc hnamed
    · next hnamed =>
      cases hstep
      exact .create hpc (by simpa using hnamed)
  case ftruncate =>
    cases hstep
    split
    · next hfd => exact .ftruncate hpc hfd
    · next hfd => exact .unsized hpc (by simpa using hfd)
  case mmap =>
    cases hstep
    exact .mmap hpc
  case write =>
    split at hstep
    · next hmapped =>
      cases hstep
      exact .write hpc hmapped
    · next hmapped =>
      cases hstep
      exact .crash hpc (by simpa using hmapped)
  case look =>
    cases hstep
    exact .look hpc
  case wait =>
    split at hstep
    · next hgo =>
      cases hstep
      exact .again hpc hgo.2 hgo.1
    · next hstop =>
      cases hstep
      by_cases hlate : timeOutA ≤ p.cntr + 1
      · rw [if_pos hlate]
        exact .late hpc hlate
      · rw [if_neg hlate]
        have hearly := Nat.lt_of_not_le hlate
        exact .found hpc hearly (not_not.mp fun hne => hstop ⟨hne, hearly⟩)
  case close =>
    cases hstep
    exact .close hpc
  case shmUnlink =>
    cases hstep
    exact .shmUnlink hpc
  case done => exact nomatch hstep
  case crashed => exact nomatch hstep

theorem stepB_cases (hstep : stepB s q = some (s', q')) : ActB s q s' q' := by
  unfold stepB at hstep
  cases hpc : q.pc <;> simp only [hpc] at hstep
  case shmOpen =>
    cases hstep
    exact .shmOpen hpc
  case lseek =>
    cases hstep
    exact .lseek hpc
  case mmap =>
    cases hstep
    exact .mmap hpc
  case look =>
    split at hstep
    · next hmapped =>
      cases hstep
      exact .look hpc hmapped
    · next hmapped =>
      cases hstep
      exact .crash hpc (by simpa using hmapped)
  case wait =>
    split at hstep
    · next hgo =>
      cases hstep
      exact .again hpc hgo.2 hgo.1
    · next hstop =>
      cases hstep
      by_cases hlate : timeOutB ≤ q.cntr + 1
      · rw [if_pos hlate]
        exact .late hpc hlate
      · rw [if_neg hlate]
        have hearly := Nat.lt_of_not_le hlate
        exact .found hpc hearly (not_not.mp fun hne => hstop ⟨hne, hearly⟩)
  case read =>
    cases hstep
    by_cases hmore : (q.index + 1 : ℤ) ≤ q.size
    · rw [if_pos hmore]
      exact .read hpc hmore
    · rw [if_neg hmore]
      exact .last hpc (Int.lt_of_not_ge hmore)
  case write =>
    cases hstep
    exact .write hpc
  case done => exact nomatch hstep
  case crashed => exact nomatch hstep

end Inversion

section Places
variable {s s' : Shared} {p p' : ProcA} {q q' : ProcB}

theorem PlaceA.index_le (h : PlaceA s p) : p.index ≤ shmSize := by
  unfold PlaceA at h
  cases hpc : p.pc <;> simp only [hpc] at h <;> omega

theorem placeA_step (h : PlaceA s p) (hstep : stepA s p = some (s', p')) : PlaceA s' p' := by
  unfold PlaceA at h
  cases stepA_cases hstep with
  | present pc named =>
    simp only [pc] at h
    exact nomatch h.1.symm.trans named
  | create pc =>
    simp only [pc] at h
    exact ⟨rfl, h.2⟩
  | unsized pc fd =>
    simp only [pc] at h
    exact nomatch h.1.symm.trans fd
  | mmap pc =>
    simp only [pc] at h
    exact ⟨h.1, by rw [h.2.1]; decide, h.2.2⟩
  | write pc =>
    simp only [pc] at h
    by_cases hlt : p.index + 1 < shmSize
    · simp only [PlaceA, if_pos hlt]
      exact ⟨h.1, hlt, h.2.2⟩
    · simp only [PlaceA, if_neg hlt]
      exact ⟨by omega, by rw [h.2.2]; decide⟩
  | crash pc mapped =>
    simp only [pc] at h
    exact nomatch h.1.symm.trans mapped
  | again pc early =>
    simp only [pc] at h
    exact ⟨h.1, early⟩
  | found pc | late pc =>
    simp only [pc] at h
    exact ⟨h.1, nofun⟩
  | shmUnlink pc =>
    simp only [pc] at h
    exact ⟨h.1, h.2, rfl⟩
  | ftruncate pc | look pc | close pc =>
    simp only [pc] at h
    exact h

theorem placeB_step (hsize : s.size = 0 ∨ s.size = shmSize) (h : PlaceB q)
    (hstep : stepB s q = some (s', q')) : PlaceB q' := by
  unfold PlaceB at h
  cases stepB_cases hstep with
  | lseek pc =>
    simp only [pc] at h
    refine ⟨h.1, h.2, ?_⟩
    show (if q.fd then (s.size : ℤ) else -1) = shmSize ∧ q.fd = true ∨
      (if q.fd then (s.size : ℤ) else -1) ≤ 0
    cases q.fd with
    | false => exact .inr (by simp)
    | true => exact hsize.symm.imp (fun h => ⟨congrArg Nat.cast h, rfl⟩) fun h => by rw [h]; decide
  | mmap pc =>
    simp only [pc] at h
    refine ⟨h.1, by rw [h.2.1]; decide, fun hm => ?_, fun hm => ?_⟩
    · have hpos : 0 < q.size := by simpa using (Bool.and_eq_true_iff.mp hm).2
      exact (h.2.2.resolve_right (by omega)).1
    · obtain ⟨hsize, hfd⟩ | hle := h.2.2
      · rw [hsize, hfd] at hm
        exact nomatch hm
      · exact hle
  | look pc mapped =>
    simp only [pc] at h
    exact ⟨h.1, h.2.1, h.2.2.1 mapped, mapped⟩
  | crash pc mapped =>
    simp only [pc] at h
    exact h.2.2.2 mapped
  | again pc early =>
    simp only [pc] at h
    exact ⟨h.1, early, fun _ => h.2.2.1, fun hm => nomatch h.2.2.2.symm.trans hm⟩
  | found pc | late pc =>
    simp only [pc] at h
    exact ⟨by rw [h.1]; decide, h.2.2.1⟩
  | read pc more =>
    simp only [pc] at h
    refine ⟨?_, h.2⟩
    show q.index + 1 ≤ shmSize
    omega
  | last pc done =>
    simp only [pc] at h
    refine ⟨?_, h.2⟩
    show q.index + 1 = shmSize + 1
    omega
  | shmOpen pc | write pc =>
    simp only [pc] at h
    exact h

theorem rankA_step (h : PlaceA s p) (hstep : stepA s p = some (s', p')) :
    rankA p + 1 ≤ rankA p' := by
  unfold PlaceA shmSize timeOutA at h
  cases stepA_cases hstep with
  | write pc =>
    simp only [pc] at h
    by_cases hlt : p.index + 1 < shmSize
    · simp only [rankA, pc, if_pos hlt]
      omega
    · simp only [rankA, pc, if_neg hlt]
      omega
  | _ pc =>
    simp only [pc] at h
    simp only [rankA, pc]
    omega

theorem rankB_step (h : PlaceB q) (hstep : stepB s q = some (s', q')) :
    rankB q + 1 ≤ rankB q' := by
  unfold PlaceB shmSize timeOutB at h
  cases stepB_cases hstep with
  | _ pc =>
    simp only [pc] at h
    simp only [rankB, pc]
    omega

theorem PlaceA.rank_le (h : PlaceA s p) : rankA p ≤ 151 := by
  unfold PlaceA shmSize timeOutA at h
  unfold rankA
  cases hpc : p.pc <;> simp only [hpc] at h ⊢ <;> omega

theorem PlaceB.rank_le (h : PlaceB q) : rankB q ≤ 71 := by
  unfold PlaceB shmSize timeOutB at h
  unfold rankB
  cases hpc : q.pc <;> simp only [hpc] at h ⊢ <;> omega

end Places

/-! ## The memory and the messages -/

/-- The letters stand in the places that `shm_a` has written, but for the first one, which may be the
answer of `shm_b`. -/
structure Memory (s : Shared) (written : ℕ) (answered : Prop) : Prop where
  size : s.size = 0 ∨ s.size = shmSize
  first : s.bytes 0 = capitalA ∧ answered ∨ s.bytes 0 = if 0 < written then letter 0 else 0
  rest : ∀ i, i ≠ 0 → s.bytes i = if i < written then letter i else 0

/-- What `shm_b` has read back, and what it is told when its wait has found the small letter. -/
structure Heard (s : Shared) (written : ℕ) (q : ProcB) : Prop where
  length : q.readBack.length = q.index
  read : ∀ (i : ℕ) (c : UInt8), q.readBack[i]? = some c → c = 0 ∨ i < shmSize ∧ c = letter i
  found : q.message = some .found → 0 < written ∧
    (∀ c : UInt8, q.readBack[0]? = some c → c = letter 0) ∧ (q.pc = .done → s.bytes 0 = capitalA)

structure Inv (s : State) : Prop where
  placeA : PlaceA s.shared s.a
  placeB : PlaceB s.b
  memory : Memory s.shared s.a.index (s.b.pc = .done)
  heard : Heard s.shared s.a.index s.b
  told : s.a.message = some .found → s.b.pc = .done
  late : s.a.message = some .timeOut → timeOutA ≤ s.a.cntr

section Steps
variable {s s' : Shared} {p p' : ProcA} {q q' : ProcB} {answered : Prop}

theorem not_capitalA (written : ℕ) : (if 0 < written then letter 0 else 0) ≠ capitalA := by
  split <;> decide

/-- What a step of `shm_a` does to the bytes. -/
theorem stepA_bytes (h : PlaceA s p) (hstep : stepA s p = some (s', p')) :
    (s'.bytes = s.bytes ∧ p'.index = p.index) ∨
      (p.index = 0 ∧ s'.bytes = (fun _ => 0) ∧ p'.index = 0) ∨
      (s'.bytes = Function.update s.bytes p.index (letter p.index) ∧ p'.index = p.index + 1) := by
  cases stepA_cases hstep with
  | create pc =>
    simp only [PlaceA, pc] at h
    exact .inr (.inl ⟨h.2.1, rfl, h.2.1⟩)
  | write => exact .inr (.inr ⟨rfl, rfl⟩)
  | _ => exact .inl ⟨rfl, rfl⟩

theorem stepA_size (hsize : s.size = 0 ∨ s.size = shmSize) (hstep : stepA s p = some (s', p')) :
    s'.size = 0 ∨ s'.size = shmSize := by
  cases stepA_cases hstep with
  | create => exact .inl rfl
  | ftruncate => exact .inr rfl
  | _ => exact hsize

theorem Memory.stepA (h : Memory s p.index answered) (hp : PlaceA s p)
    (hstep : stepA s p = some (s', p')) : Memory s' p'.index answered := by
  refine ⟨stepA_size h.size hstep, ?_, fun i hi => ?_⟩
  · obtain ⟨hb, hindex⟩ | ⟨h0, hb, hindex⟩ | ⟨hb, hindex⟩ := stepA_bytes hp hstep
    · rw [hb, hindex]
      exact h.first
    · rw [hb, hindex]
      exact .inr rfl
    · rw [hb, hindex, if_pos (Nat.succ_pos _)]
      by_cases h0 : p.index = 0
      · rw [h0, Function.update_self]
        exact .inr rfl
      · rw [Function.update_of_ne (Ne.symm h0)]
        refine h.first.imp id fun hf => ?_
        rw [hf, if_pos (Nat.pos_of_ne_zero h0)]
  · obtain ⟨hb, hindex⟩ | ⟨h0, hb, hindex⟩ | ⟨hb, hindex⟩ := stepA_bytes hp hstep
    · rw [hb, hindex]
      exact h.rest i hi
    · rw [hb, hindex, if_neg (Nat.not_lt_zero i)]
    · rw [hb, hindex]
      by_cases hip : i = p.index
      · rw [hip, Function.update_self, if_pos (Nat.lt_succ_self _)]
      · rw [Function.update_of_ne hip, h.rest i hi]
        exact if_congr (by omega) rfl rfl

/-- Once a letter is written, `shm_a` leaves the first byte alone. -/
theorem stepA_first (hp : PlaceA s p) (hpos : 0 < p.index) (hstep : stepA s p = some (s', p')) :
    s'.bytes 0 = s.bytes 0 ∧ p.index ≤ p'.index := by
  obtain ⟨hb, hindex⟩ | ⟨h0, -, -⟩ | ⟨hb, hindex⟩ := stepA_bytes hp hstep
  · exact ⟨by rw [hb], by omega⟩
  · omega
  · refine ⟨?_, by omega⟩
    rw [hb, Function.update_of_ne (by omega)]

/-- The message of `shm_a` is set at the end of its wait. -/
theorem stepA_message (hstep : stepA s p = some (s', p')) :
    (p'.message = p.message ∧ p.cntr ≤ p'.cntr) ∨
      (p'.message = some .found ∧ s.bytes 0 = capitalA) ∨
      (p'.message = some .timeOut ∧ timeOutA ≤ p'.cntr) := by
  cases stepA_cases hstep with
  | again => exact .inl ⟨rfl, Nat.le_succ _⟩
  | found _ _ capital => exact .inr (.inl ⟨rfl, capital⟩)
  | late _ late => exact .inr (.inr ⟨rfl, late⟩)
  | _ => exact .inl ⟨rfl, le_rfl⟩

theorem Memory.stepB {w : ℕ} (h : Memory s w (q.pc = .done)) (hstep : stepB s q = some (s', q')) :
    Memory s' w (q'.pc = .done) := by
  cases stepB_cases hstep with
  | write =>
    exact ⟨h.size, .inl ⟨Function.update_self 0 capitalA s.bytes, rfl⟩, fun i hi =>
      (Function.update_of_ne hi capitalA s.bytes).trans (h.rest i hi)⟩
  | _ pc =>
    refine ⟨h.size, .inr (h.first.resolve_left fun hd => ?_), h.rest⟩
    exact nomatch pc.symm.trans hd.2

/-- A byte of the memory, seen before the answer. -/
theorem Memory.byte {w : ℕ} (h : Memory s w answered) (hw : w ≤ shmSize) (hno : ¬ answered)
    (i : ℕ) : s.bytes i = 0 ∧ w ≤ i ∨ s.bytes i = letter i ∧ i < shmSize ∧ i < w := by
  have hbyte : s.bytes i = if i < w then letter i else 0 := by
    by_cases h0 : i = 0
    · rw [h0]
      exact h.first.resolve_left fun hd => hno hd.2
    · exact h.rest i h0
  by_cases hlt : i < w
  · rw [hbyte, if_pos hlt]
    exact .inr ⟨rfl, hlt.trans_le hw, hlt⟩
  · rw [hbyte, if_neg hlt]
    exact .inl ⟨rfl, Nat.le_of_not_lt hlt⟩

theorem getElem?_concat_cases {l : List UInt8} {x c : UInt8} {i : ℕ}
    (h : (l ++ [x])[i]? = some c) : l[i]? = some c ∨ i = l.length ∧ c = x := by
  rcases Nat.lt_trichotomy i l.length with hlt | rfl | hgt
  · rw [List.getElem?_append_left hlt] at h
    exact .inl h
  · rw [List.getElem?_concat_length] at h
    exact .inr ⟨rfl, (Option.some.inj h).symm⟩
  · rw [List.getElem?_eq_none (by rw [List.length_append]; exact hgt)] at h
    exact nomatch h

/-- The next byte that is read back. -/
theorem Heard.read_step {w : ℕ} (h : Heard s w q) (hmem : Memory s w (q.pc = .done))
    (hw : w ≤ shmSize) (hno : ¬ q.pc = .done) (pc : PcB) (hpc : pc ≠ .done) :
    Heard s w { q with
      readBack := q.readBack ++ [s.bytes q.index], index := q.index + 1, pc := pc } := by
  refine ⟨by rw [List.length_append, h.length]; rfl, fun i c hi => ?_,
    fun hf => ⟨(h.found hf).1, fun c hc => ?_, fun hdone => absurd hdone hpc⟩⟩
  · obtain hi | ⟨rfl, rfl⟩ := getElem?_concat_cases hi
    · exact h.read i c hi
    · rw [← h.length]
      exact (hmem.byte hw hno _).imp And.left fun h => ⟨h.2.1, h.1⟩
  · obtain hc | ⟨h0, rfl⟩ := getElem?_concat_cases hc
    · exact (h.found hf).2.1 c hc
    · rw [← h.length, ← h0]
      obtain ⟨-, hzero⟩ | ⟨hletter, -⟩ := hmem.byte hw hno 0
      · exact absurd (h.found hf).1 (Nat.not_lt_of_le hzero)
      · exact hletter

theorem Heard.stepB {w : ℕ} (h : Heard s w q) (hmem : Memory s w (q.pc = .done)) (hw : w ≤ shmSize)
    (hplace : PlaceB q) (hstep : stepB s q = some (s', q')) : Heard s' w q' := by
  have hkeep := fun hf => h.found hf
  cases stepB_cases hstep with
  | found pc early small =>
    have hno : ¬ q.pc = .done := by rw [pc]; exact nofun
    simp only [PlaceB, pc] at hplace
    refine ⟨h.length, h.read, fun _ => ⟨?_, fun c hc => ?_, nofun⟩⟩
    · obtain ⟨hzero, -⟩ | ⟨-, -, hpos⟩ := hmem.byte hw hno 0
      · exact absurd (hzero.symm.trans small) (by decide)
      · exact hpos
    · have hnil : q.readBack = [] := List.eq_nil_of_length_eq_zero (h.length.trans hplace.1)
      rw [hnil] at hc
      exact nomatch hc
  | late => exact ⟨h.length, h.read, nofun⟩
  | read pc => exact h.read_step hmem hw (by rw [pc]; exact nofun) .read nofun
  | last pc => exact h.read_step hmem hw (by rw [pc]; exact nofun) .write nofun
  | write =>
    exact ⟨h.length, h.read, fun hf => ⟨(hkeep hf).1, (hkeep hf).2.1, fun _ =>
      Function.update_self 0 capitalA s.bytes⟩⟩
  | _ => exact ⟨h.length, h.read, fun hf => ⟨(hkeep hf).1, (hkeep hf).2.1, nofun⟩⟩

end Steps

/-! ## Runs -/

section Runs
variable {s s' t : State} {l : Label} {ls : List Label}

theorem stepB_named {s s' : Shared} {q q' : ProcB} (hstep : stepB s q = some (s', q')) :
    s'.named = s.named := by
  cases stepB_cases hstep with
  | _ => rfl

theorem PlaceA.congr {s s' : Shared} {p : ProcA} (h : PlaceA s p) (hnamed : s'.named = s.named) :
    PlaceA s' p := by
  unfold PlaceA at h ⊢
  rw [hnamed]
  exact h

theorem inv_a (h : Inv s) (hstep : step s .a = some s') : Inv s' := by
  obtain ⟨⟨shared, p⟩, hr, rfl⟩ := Option.map_eq_some_iff.mp hstep
  have hfirst := fun hpos => stepA_first h.placeA hpos hr
  refine ⟨placeA_step h.placeA hr, h.placeB, h.memory.stepA h.placeA hr,
    ⟨h.heard.length, h.heard.read, fun hf => ?_⟩, fun hf => ?_, fun hl => ?_⟩
  · obtain ⟨hpos, hread, hdone⟩ := h.heard.found hf
    obtain ⟨hbyte, hle⟩ := hfirst hpos
    exact ⟨hpos.trans_le hle, hread, fun hd => hbyte.trans (hdone hd)⟩
  · obtain ⟨hm, -⟩ | ⟨-, hbyte⟩ | ⟨hm, -⟩ := stepA_message hr
    · exact h.told (hm.symm.trans hf)
    · -- the capital can only be the answer
      obtain ⟨-, hdone⟩ | hf := h.memory.first
      · exact hdone
      · exact absurd (hf.symm.trans hbyte) (not_capitalA _)
    · exact nomatch hm.symm.trans hf
  · obtain ⟨hm, hle⟩ | ⟨hm, -⟩ | ⟨-, hlate⟩ := stepA_message hr
    · exact (h.late (hm.symm.trans hl)).trans hle
    · exact nomatch hm.symm.trans hl
    · exact hlate

theorem inv_b (h : Inv s) (hstep : step s .b = some s') : Inv s' := by
  obtain ⟨⟨shared, q⟩, hr, rfl⟩ := Option.map_eq_some_iff.mp hstep
  refine ⟨h.placeA.congr (stepB_named hr), placeB_step h.memory.size h.placeB hr,
    h.memory.stepB hr, h.heard.stepB h.memory h.placeA.index_le h.placeB hr, fun hf => ?_, h.late⟩
  have hdone := h.told hf
  rw [stepB, hdone] at hr
  exact nomatch hr

theorem inv_fresh : Inv fresh where
  placeA := ⟨rfl, rfl, rfl⟩
  placeB := ⟨rfl, rfl⟩
  memory := ⟨.inl rfl, .inr rfl, fun i _ => (if_neg (Nat.not_lt_zero i)).symm⟩
  heard := ⟨rfl, nofun, nofun⟩
  told := nofun
  late := nofun

theorem inv_step (h : Inv s) (hstep : step s l = some s') : Inv s' := by
  cases l with
  | a => exact inv_a h hstep
  | b => exact inv_b h hstep

def rank (s : State) : ℕ := rankA s.a + rankB s.b

theorem rank_step (h : Inv s) (hstep : step s l = some s') : rank s + 1 ≤ rank s' := by
  cases l with
  | a =>
    obtain ⟨⟨shared, p⟩, hr, rfl⟩ := Option.map_eq_some_iff.mp hstep
    have hrank := rankA_step h.placeA hr
    show rankA s.a + rankB s.b + 1 ≤ rankA p + rankB s.b
    omega
  | b =>
    obtain ⟨⟨shared, q⟩, hr, rfl⟩ := Option.map_eq_some_iff.mp hstep
    have hrank := rankB_step h.placeB hr
    show rankA s.a + rankB s.b + 1 ≤ rankA s.a + rankB q
    omega

theorem length_le_rank (h : after step fresh ls = some t) : Inv t ∧ ls.length ≤ rank t := by
  refine after_induction (Q := fun ls t => Inv t ∧ ls.length ≤ rank t)
    ⟨inv_fresh, Nat.zero_le _⟩ ?_ h
  rintro ks u l u' - ⟨hinv, hlen⟩ hstep
  refine ⟨inv_step hinv hstep, ?_⟩
  rw [List.length_append, List.length_singleton]
  exact (Nat.succ_le_succ hlen).trans (rank_step hinv hstep)

theorem stuck_iff (h : Inv s) :
    Stuck s ↔ s.a.pc = .done ∧ (s.b.pc = .done ∨ s.b.pc = .crashed) := by
  constructor
  · intro hstuck
    have ha : stepA s.shared s.a = none := Option.map_eq_none_iff.mp (hstuck .a)
    have hb : stepB s.shared s.b = none := Option.map_eq_none_iff.mp (hstuck .b)
    refine ⟨?_, ?_⟩
    · have hplace := h.placeA
      unfold stepA at ha
      unfold PlaceA at hplace
      cases hpc : s.a.pc <;> simp only [hpc] at ha hplace
      case shmOpen => split at ha <;> exact nomatch ha
      case write => split at ha <;> exact nomatch ha
      case wait => split at ha <;> exact nomatch ha
      case done => rfl
      all_goals exact nomatch ha
    · unfold stepB at hb
      cases hpc : s.b.pc <;> simp only [hpc] at hb
      case done => exact .inl rfl
      case crashed => exact .inr rfl
      case look => split at hb <;> exact nomatch hb
      case wait => split at hb <;> exact nomatch hb
      all_goals exact nomatch hb
  · rintro ⟨ha, hb⟩ l
    cases l with
    | a => simp only [step, stepA, ha, Option.map_none]
    | b => rcases hb with hb | hb <;> simp only [step, stepB, hb, Option.map_none]

/-- **Any order of steps comes to its end.** Then `shm_a` has removed the name, and `shm_b` has read
27 bytes back, each the letter of its place or none yet; or it found no object, or one without a
size, and crashed. -/
theorem shm_test_ends (h : after step fresh ls = some t) :
    ls.length ≤ 222 ∧
      (Stuck t ↔ t.a.pc = .done ∧ (t.b.pc = .done ∨ t.b.pc = .crashed)) ∧
      (t.a.pc = .done → t.shared.named = false) ∧ (t.b.pc = .crashed → t.b.size ≤ 0) ∧
      (t.b.pc = .done → t.b.readBack.length = 27) ∧
      ∀ (i : ℕ) (c : UInt8), t.b.readBack[i]? = some c → c = 0 ∨ i < 26 ∧ c = letter i := by
  obtain ⟨hinv, hlen⟩ := length_le_rank h
  have hrank : rank t ≤ 151 + 71 := Nat.add_le_add hinv.placeA.rank_le hinv.placeB.rank_le
  refine ⟨hlen.trans hrank, stuck_iff hinv, fun hpc => ?_, fun hpc => ?_, fun hpc => ?_,
    hinv.heard.read⟩
  · have hplace := hinv.placeA
    unfold PlaceA at hplace
    rw [hpc] at hplace
    exact hplace.2.2
  · have hplace := hinv.placeB
    unfold PlaceB at hplace
    rw [hpc] at hplace
    exact hplace
  · have hplace := hinv.placeB
    unfold PlaceB at hplace
    rw [hpc] at hplace
    exact hinv.heard.length.trans hplace.1

/-- `shm_a` has reported the capital, and its wait is over. -/
def Told (p : ProcA) : Prop :=
  p.message = some .found ∧ (p.pc = .close ∨ p.pc = .shmUnlink ∨ p.pc = .done)

theorem stepA_answered {s s' : Shared} {p p' : ProcA} (hbyte : s.bytes 0 = capitalA)
    (h : p.cntr + 1 < timeOutA ∨ Told p) (hstep : stepA s p = some (s', p')) :
    p'.cntr + 1 < timeOutA ∨ Told p' := by
  cases stepA_cases hstep with
  | again _ _ absent => exact absurd hbyte absent
  | found => exact .inr ⟨rfl, .inl rfl⟩
  | late pc late =>
    obtain hearly | ⟨-, hpc⟩ := h
    · exact absurd late (Nat.not_le_of_lt hearly)
    · rw [pc] at hpc
      simp at hpc
  | close => exact h.imp id fun hm => ⟨hm.1, .inr (.inl rfl)⟩
  | shmUnlink => exact h.imp id fun hm => ⟨hm.1, .inr (.inr rfl)⟩
  | _ pc =>
    refine .inl (h.resolve_right fun hm => ?_)
    have hpc := hm.2
    rw [pc] at hpc
    simp at hpc

/-- **The answer to what was found is not lost.** `shm_a` reports the capital only if `shm_b` has
written it; and if the wait of `shm_b` has found the small letter, it reads that back, its capital
stays, and `shm_a` reports it in the end unless it has looked 59 times by then. -/
theorem answer_seen (h : after step fresh ls = some t) :
    (t.a.message = some .found → t.b.pc = .done) ∧
      (t.b.message = some .found →
        (∀ c : UInt8, t.b.readBack[0]? = some c → c = letter 0) ∧
        (t.b.pc = .done → ∀ (ks : List Label) (u : State), after step t ks = some u →
          u.shared.bytes 0 = capitalA ∧
            (t.a.cntr < 59 → Stuck u → u.a.message = some .found))) := by
  have hinv := (length_le_rank h).1
  refine ⟨hinv.told, fun hfound => ⟨(hinv.heard.found hfound).2.1, fun hdone ks u hu => ?_⟩⟩
  have hkept : Inv u ∧ (u.b.message = some .found ∧ u.b.pc = .done) ∧
      (t.a.cntr < 59 → u.a.cntr + 1 < timeOutA ∨ Told u.a) := by
    refine invariant_after (I := fun u => Inv u ∧ (u.b.message = some .found ∧ u.b.pc = .done) ∧
      (t.a.cntr < 59 → u.a.cntr + 1 < timeOutA ∨ Told u.a)) ?_
      ⟨hinv, ⟨hfound, hdone⟩, fun hc => .inl (Nat.succ_lt_succ hc)⟩ hu
    rintro v l v' ⟨hv, ⟨hm, hpc⟩, hc⟩ hstep
    have hv' := inv_step hv hstep
    cases l with
    | a =>
      obtain ⟨⟨shared, p⟩, hr, rfl⟩ := Option.map_eq_some_iff.mp hstep
      have hbyte := (hv.heard.found hm).2.2 hpc
      exact ⟨hv', ⟨hm, hpc⟩, fun hlt => stepA_answered hbyte (hc hlt) hr⟩
    | b =>
      obtain ⟨⟨shared, q⟩, hr, rfl⟩ := Option.map_eq_some_iff.mp hstep
      rw [stepB, hpc] at hr
      exact nomatch hr
  obtain ⟨hu, ⟨hm, hpc⟩, hc⟩ := hkept
  refine ⟨(hu.heard.found hm).2.2 hpc, fun hlt hstuck => ?_⟩
  obtain hearly | htold := hc hlt
  · have hplace := hu.placeA
    unfold PlaceA at hplace
    rw [((stuck_iff hu).mp hstuck).1] at hplace
    cases hmessage : u.a.message with
    | none => exact absurd hmessage hplace.2.1
    | some m =>
      cases m with
      | found => rfl
      | timeOut => exact absurd (hu.late hmessage) (by omega)
  · exact htold.1

/-! ## A run -/

/-- The alphabet is written, read back and answered. -/
def answered : List Label := List.replicate 29 .a ++ List.replicate 33 .b

/-- The answer is found at the first look. -/
def reported : List Label := List.replicate 4 .a

theorem answered_runs : (after step fresh answered).isSome := by decide +kernel

theorem reported_runs :
    (after step ((after step fresh answered).get answered_runs) reported).isSome := by
  decide +kernel

theorem shm_test_ends_answered :
    ∃ t, after step fresh answered = some t ∧ t.b.readBack.length = 27 := by
  have hrun := (Option.some_get answered_runs).symm
  have hdone : ((after step fresh answered).get answered_runs).b.pc = .done := by decide +kernel
  exact ⟨_, hrun, (shm_test_ends hrun).2.2.2.2.1 hdone⟩

theorem answer_seen_reported :
    ∃ t u, after step fresh answered = some t ∧ after step t reported = some u ∧
      u.a.message = some .found := by
  have hrun := (Option.some_get answered_runs).symm
  have hreport := (Option.some_get reported_runs).symm
  have hfound : ((after step fresh answered).get answered_runs).b.message = some .found := by
    decide +kernel
  have hdone : ((after step fresh answered).get answered_runs).b.pc = .done := by decide +kernel
  have hcntr : ((after step fresh answered).get answered_runs).a.cntr < 59 := by decide +kernel
  have hend : (((after step _ reported).get reported_runs).a.pc = .done ∧
      ((after step _ reported).get reported_runs).b.pc = .done) := by decide +kernel
  have hinv := (length_le_rank ((after_append hrun reported).trans hreport)).1
  have hstuck := (stuck_iff hinv).mpr ⟨hend.1, .inl hend.2⟩
  exact ⟨_, _, hrun, hreport,
    (((answer_seen hrun).2 hfound).2 hdone reported _ hreport).2 hcntr hstuck⟩

end Runs

end El32.ShmTest

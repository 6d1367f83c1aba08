import El32.Foundations.Mutex
import El32.Foundations.Trace
import El32.Foundations.Transition
import El32.Ipc.Rendez

/-! The rendezvous is a barrier for the processes 0 to 3, and nobody is left waiting in it.

`Local` is what a process knows: bits once in the byte stay there, so it is kept by what the others
do. The semaphore of the byte is a mutex. On the other one, the posts and the waits of the
processes balance: a process that saw all four flags posts twice, another waits and posts. -/
namespace El32.Rendez
open Processes Mutex Trace Transition
set_option autoImplicit false

def numbers : List ℤ := [0, 1, 2, 3]

/-! ## Bits -/

/-- The bits of `a` are in `b`. -/
def Within (a b : UInt8) : Prop := b ||| a = b

instance decidableWithin (a b : UInt8) : Decidable (Within a b) :=
  inferInstanceAs (Decidable (b ||| a = b))

theorem within_refl (a : UInt8) : Within a a := UInt8.or_self

theorem within_or {a b : UInt8} (h : Within a b) (m : UInt8) : Within a (b ||| m) := by
  unfold Within at *
  rw [UInt8.or_assoc, UInt8.or_comm m a, ← UInt8.or_assoc, h]

theorem within_or_self (a m : UInt8) : Within m (a ||| m) := by
  unfold Within
  rw [UInt8.or_assoc, UInt8.or_self]

theorem or_within {a b c : UInt8} (ha : Within a c) (hb : Within b c) : Within (a ||| b) c := by
  unfold Within at *
  rw [← UInt8.or_assoc, ha, hb]

theorem within_antisymm {a b : UInt8} (hab : Within a b) (hba : Within b a) : a = b := by
  unfold Within at *
  rw [← hba, UInt8.or_comm, hab]

theorem or_and (b m k : UInt8) : (b ||| m) &&& k = (b &&& k) ||| (m &&& k) := by
  rw [← UInt8.toBitVec_inj]
  exact BitVec.and_or_distrib_right

/-- The flag of a number. -/
def flagOf (n : ℤ) : UInt8 := createMask n 0

theorem flagOf_cases (n : ℤ) :
    n = 0 ∧ flagOf n = 0x1 ∨ n = 1 ∧ flagOf n = 0x2 ∨ n = 2 ∧ flagOf n = 0x4 ∨
      n = 3 ∧ flagOf n = 0x8 ∨ flagOf n = 0 := by
  unfold flagOf createMask
  split <;> simp

theorem flagOf_within (n : ℤ) : Within (flagOf n) 0x0F := by
  rcases flagOf_cases n with ⟨-, h⟩ | ⟨-, h⟩ | ⟨-, h⟩ | ⟨-, h⟩ | h <;> rw [h] <;> decide

theorem eq_of_flagOf {n pid : ℤ} (hn : n ∈ numbers) (h : flagOf pid &&& flagOf n ≠ 0) :
    pid = n := by
  simp only [numbers, List.mem_cons, List.not_mem_nil, or_false] at hn
  rcases hn with rfl | rfl | rfl | rfl <;>
    rcases flagOf_cases pid with ⟨hp, h'⟩ | ⟨hp, h'⟩ | ⟨hp, h'⟩ | ⟨hp, h'⟩ | h' <;>
      first
      | exact hp
      | (rw [h'] at h; exact absurd (by decide) h)

theorem eq_zero_of_or {a c : UInt8} (h : a ||| c = 0) : c = 0 := by
  have hc : Within c 0 := by
    rw [← h]
    exact within_or_self a c
  simpa [Within] using hc

theorem full_and {b : UInt8} (h : Within 0x0F b) {n : ℤ} (hn : n ∈ numbers) :
    b &&& flagOf n ≠ 0 := by
  unfold Within at h
  rw [← h, or_and]
  intro h0
  have hn0 := eq_zero_of_or h0
  simp only [numbers, List.mem_cons, List.not_mem_nil, or_false] at hn
  rcases hn with rfl | rfl | rfl | rfl <;> exact absurd hn0 (by decide)

/-! ## What a step keeps -/

def Pc.wrote : Pc → Bool
  | .unlock | .check | .pass | .wait | .post | .statement2 | .cleanup => true
  | _ => false

def Pc.past : Pc → Bool
  | .post | .statement2 | .cleanup => true
  | _ => false

def inside (p : Proc) : Bool :=
  match p.pc with
  | .read | .mask | .write | .unlock => true
  | _ => false

/-- What the process inside has of the byte. -/
def Held (s : Shared) (p : Proc) : Prop :=
  (p.pc = .mask → p.flags = s.store) ∧ (p.pc = .write → p.flags = s.store ||| p.mask) ∧
    (p.pc = .unlock → p.flags = s.store)

structure Local (s : Shared) (p : Proc) : Prop where
  mask : p.mask = flagOf p.pid
  greeted : p.pc ≠ .statement1 → (.first, p.pid) ∈ s.printed
  wrote : p.pc.wrote = true → Within p.mask s.store
  seen : p.pc.wrote = true → Within p.flags s.store
  pass : p.pc = .pass → p.flags = 0x0F
  wait : p.pc = .wait → p.flags ≠ 0x0F
  past : p.pc.past = true → Within 0x0F s.store

def AfterFirst (pre : List (Statement × ℤ)) (e : Statement × ℤ) : Prop :=
  e.1 = .second → ∀ n ∈ numbers, (.first, n) ∈ pre

structure Global (s : Shared) : Prop where
  low : Within s.store 0x0F
  named : ∀ n ∈ numbers, s.store &&& flagOf n ≠ 0 → (.first, n) ∈ s.printed
  opened : 0 < s.semSync → Within 0x0F s.store
  ordered : Each AfterFirst s.printed

/-- What a step does to the shared state as far as the other processes can tell. -/
structure Grows (s s' : Shared) : Prop where
  store : ∀ a, Within a s.store → Within a s'.store
  printed : ∀ e ∈ s.printed, e ∈ s'.printed

theorem Local.mono {s s' : Shared} {p : Proc} (h : Local s p) (hg : Grows s s') : Local s' p where
  mask := h.mask
  greeted hpc := hg.printed _ (h.greeted hpc)
  wrote hpc := hg.store _ (h.wrote hpc)
  seen hpc := hg.store _ (h.seen hpc)
  pass := h.pass
  wait := h.wait
  past hpc := hg.store _ (h.past hpc)

theorem Grows.refl (s : Shared) : Grows s s := ⟨fun _ h => h, fun _ h => h⟩

theorem grows_of_store {s s' : Shared} (hs : s'.store = s.store)
    (hp : ∃ es, s'.printed = s.printed ++ es) : Grows s s' where
  store a h := by rw [hs]; exact h
  printed e h := by
    obtain ⟨es, hes⟩ := hp
    rw [hes]
    exact List.mem_append_left es h

section Step
variable {s s' : Shared} {p q : Proc}

/-- What a step of a process does at each place. -/
inductive Does (s : Shared) (pid : ℤ) (mask flags : UInt8) : Pc → Shared → Proc → Prop
  | statement1 : Does s pid mask flags .statement1
      { s with printed := s.printed ++ [(.first, pid)] } ⟨pid, mask, flags, .lock⟩
  | lock : 0 < s.semFlags → Does s pid mask flags .lock
      { s with semFlags := s.semFlags - 1 } ⟨pid, mask, flags, .read⟩
  | read : Does s pid mask flags .read s ⟨pid, mask, s.store, .mask⟩
  | mask : Does s pid mask flags .mask s ⟨pid, mask, flags ||| mask, .write⟩
  | write : Does s pid mask flags .write { s with store := flags } ⟨pid, mask, flags, .unlock⟩
  | unlock : Does s pid mask flags .unlock
      { s with semFlags := s.semFlags + 1 } ⟨pid, mask, flags, .check⟩
  | checkFull : flags = 0x0F → Does s pid mask flags .check s ⟨pid, mask, flags, .pass⟩
  | checkWait : flags ≠ 0x0F → Does s pid mask flags .check s ⟨pid, mask, flags, .wait⟩
  | pass : Does s pid mask flags .pass
      { s with semSync := s.semSync + 1 } ⟨pid, mask, flags, .post⟩
  | wait : 0 < s.semSync → Does s pid mask flags .wait
      { s with semSync := s.semSync - 1 } ⟨pid, mask, flags, .post⟩
  | post : Does s pid mask flags .post
      { s with semSync := s.semSync + 1 } ⟨pid, mask, flags, .statement2⟩
  | statement2 : Does s pid mask flags .statement2
      { s with printed := s.printed ++ [(.second, pid)] } ⟨pid, mask, flags, .cleanup⟩

theorem prog_cases {pid : ℤ} {mask flags : UInt8} {pc : Pc}
    (h : prog s ⟨pid, mask, flags, pc⟩ = some (s', q)) : Does s pid mask flags pc s' q := by
  cases pc with
  | lock =>
    obtain ⟨hpos, rfl, rfl⟩ := by simpa [prog] using h
    exact .lock hpos
  | wait =>
    obtain ⟨hpos, rfl, rfl⟩ := by simpa [prog] using h
    exact .wait hpos
  | check =>
    obtain ⟨rfl, rfl⟩ := by simpa [prog] using h
    split
    · exact .checkFull ‹_›
    · exact .checkWait ‹_›
  | cleanup => simp [prog] at h
  | statement1 | read | mask | write | unlock | pass | post | statement2 =>
    obtain ⟨rfl, rfl⟩ := by simpa [prog] using h
    constructor

theorem grows_step (hh : inside p = true → Held s p) (h : prog s p = some (s', q)) :
    Grows s s' := by
  obtain ⟨pid, mask, flags, pc⟩ := p
  cases prog_cases h with
  | write =>
    have hflags : flags = s.store ||| mask := (hh rfl).2.1 rfl
    refine ⟨fun a ha => ?_, fun _ he => he⟩
    show Within a flags
    rw [hflags]
    exact within_or ha mask
  | statement1 | statement2 => exact grows_of_store rfl ⟨_, rfl⟩
  | lock | unlock | pass | wait | post =>
    exact grows_of_store rfl ⟨[], (List.append_nil _).symm⟩
  | read | mask | checkFull | checkWait => exact Grows.refl s

theorem global_step (hg : Global s) (hl : Local s p) (hh : inside p = true → Held s p)
    (h : prog s p = some (s', q)) : Global s' := by
  obtain ⟨pid, mask, flags, pc⟩ := p
  cases prog_cases h with
  | statement1 =>
    refine ⟨hg.low, fun n hn hb => List.mem_append_left _ (hg.named n hn hb), hg.opened, ?_⟩
    exact each_concat.mpr ⟨hg.ordered, fun he => absurd he (by simp)⟩
  | statement2 =>
    refine ⟨hg.low, fun n hn hb => List.mem_append_left _ (hg.named n hn hb), hg.opened, ?_⟩
    have hfull : Within 0x0F s.store := hl.past rfl
    exact each_concat.mpr ⟨hg.ordered, fun _ n hn => hg.named n hn (full_and hfull hn)⟩
  | write =>
    have hflags : flags = s.store ||| mask := (hh rfl).2.1 rfl
    have hmask : mask = flagOf pid := hl.mask
    refine ⟨?_, fun n hn hb => ?_, fun hs => ?_, hg.ordered⟩
    · show Within flags 0x0F
      rw [hflags, hmask]
      exact or_within hg.low (flagOf_within pid)
    · change flags &&& flagOf n ≠ 0 at hb
      by_cases hold : s.store &&& flagOf n = 0
      · rw [hflags, or_and, hold, hmask, UInt8.zero_or] at hb
        rw [← eq_of_flagOf hn hb]
        exact hl.greeted (by simp)
      · exact hg.named n hn hold
    · show Within 0x0F flags
      rw [hflags]
      exact within_or (hg.opened hs) mask
  | pass =>
    have hflags : flags = 0x0F := hl.pass rfl
    refine ⟨hg.low, hg.named, fun _ => ?_, hg.ordered⟩
    show Within 0x0F s.store
    rw [← hflags]
    exact hl.seen rfl
  | post => exact ⟨hg.low, hg.named, fun _ => hl.past rfl, hg.ordered⟩
  | wait hpos => exact ⟨hg.low, hg.named, fun _ => hg.opened hpos, hg.ordered⟩
  | lock | unlock => exact ⟨hg.low, hg.named, hg.opened, hg.ordered⟩
  | read | mask | checkFull | checkWait => exact hg

theorem local_step (hg : Global s) (hl : Local s p) (hh : inside p = true → Held s p)
    (h : prog s p = some (s', q)) : Local s' q := by
  have hmono := hl.mono (grows_step hh h)
  obtain ⟨pid, mask, flags, pc⟩ := p
  cases prog_cases h with
  | statement1 =>
    exact ⟨hl.mask, fun _ => List.mem_concat_self, nofun, nofun, nofun, nofun, nofun⟩
  | lock | read | mask =>
    exact ⟨hl.mask, fun _ => hl.greeted (by simp), nofun, nofun, nofun, nofun, nofun⟩
  | write =>
    have hflags : flags = s.store ||| mask := (hh rfl).2.1 rfl
    refine ⟨hl.mask, fun _ => hl.greeted (by simp), fun _ => ?_, fun _ => within_refl flags, nofun,
      nofun, nofun⟩
    show Within mask flags
    rw [hflags]
    exact within_or_self s.store mask
  | unlock =>
    exact ⟨hl.mask, fun _ => hl.greeted (by simp), fun _ => hl.wrote rfl, fun _ => hl.seen rfl,
      nofun, nofun, nofun⟩
  | checkFull hfull =>
    exact ⟨hl.mask, fun _ => hl.greeted (by simp), fun _ => hl.wrote rfl, fun _ => hl.seen rfl,
      fun _ => hfull, nofun, nofun⟩
  | checkWait hwait =>
    exact ⟨hl.mask, fun _ => hl.greeted (by simp), fun _ => hl.wrote rfl, fun _ => hl.seen rfl,
      nofun, fun _ => hwait, nofun⟩
  | pass =>
    have hflags : flags = 0x0F := hl.pass rfl
    refine ⟨hl.mask, fun _ => hl.greeted (by simp), fun _ => hl.wrote rfl, fun _ => hl.seen rfl,
      nofun, nofun, fun _ => ?_⟩
    show Within 0x0F s.store
    rw [← hflags]
    exact hl.seen rfl
  | wait hpos =>
    exact ⟨hl.mask, fun _ => hl.greeted (by simp), fun _ => hl.wrote rfl, fun _ => hl.seen rfl,
      nofun, nofun, fun _ => hg.opened hpos⟩
  | post =>
    exact ⟨hl.mask, fun _ => hl.greeted (by simp), fun _ => hl.wrote rfl, fun _ => hl.seen rfl,
      nofun, nofun, fun _ => hl.past rfl⟩
  | statement2 =>
    exact ⟨hl.mask, fun _ => hmono.greeted (by simp), fun _ => hl.wrote rfl, fun _ => hl.seen rfl,
      nofun, nofun, fun _ => hl.past rfl⟩

end Step

/-! ## The two semaphores -/

def posts (p : Proc) : ℕ :=
  match p.pc with
  | .post => if p.flags = 0x0F then 1 else 0
  | .statement2 | .cleanup => if p.flags = 0x0F then 2 else 1
  | _ => 0

def waits (p : Proc) : ℕ := if p.pc.past = true ∧ p.flags ≠ 0x0F then 1 else 0

structure Inv (s : State) : Prop where
  guarded : Guarded inside (fun _ => True) Held s.shared.semFlags s.shared s.procs
  global : Global s.shared
  each : ∀ p ∈ s.procs, Local s.shared p
  last : s.shared.store ≠ 0 → ∃ p ∈ s.procs, p.pc.wrote = true ∧ p.flags = s.shared.store
  balance : s.shared.semSync + tally waits s.procs = tally posts s.procs

theorem guarded_act {s s' : Shared} {ps : List Proc} {i : ℕ} {p q : Proc}
    (h : Guarded inside (fun _ => True) Held s.semFlags s ps) (hp : ps[i]? = some p)
    (hstep : prog s p = some (s', q)) :
    Guarded inside (fun _ => True) Held s'.semFlags s' (ps.set i q) := by
  obtain ⟨pid, mask, flags, pc⟩ := p
  cases prog_cases hstep with
  | lock hpos => exact h.enter hp rfl rfl hpos fun _ => ⟨nofun, nofun, nofun⟩
  | read => exact h.within hp rfl rfl fun _ => ⟨fun _ => rfl, nofun, nofun⟩
  | mask =>
    refine h.within hp rfl rfl fun hh => ⟨nofun, fun _ => ?_, nofun⟩
    show flags ||| mask = s.store ||| mask
    rw [show flags = s.store from hh.1 rfl]
  | write => exact h.within hp rfl rfl fun _ => ⟨nofun, nofun, fun _ => rfl⟩
  | unlock => exact h.leave hp rfl rfl fun _ => trivial
  | statement1 | checkFull | checkWait | pass | wait | post | statement2 =>
    exact h.outside hp rfl rfl id fun _ _ _ hr => hr

theorem wrote_step {s s' : Shared} {p q : Proc} (h : prog s p = some (s', q))
    (hp : p.pc.wrote = true) : q.pc.wrote = true ∧ q.flags = p.flags ∧ s'.store = s.store := by
  obtain ⟨pid, mask, flags, pc⟩ := p
  cases prog_cases h with
  | unlock | checkFull | checkWait | pass | wait | post | statement2 => exact ⟨rfl, rfl, rfl⟩
  | statement1 | lock | read | mask | write => simp [Pc.wrote] at hp

theorem store_step {s s' : Shared} {p q : Proc} (h : prog s p = some (s', q)) :
    s'.store = s.store ∨ q.pc.wrote = true ∧ q.flags = s'.store := by
  obtain ⟨pid, mask, flags, pc⟩ := p
  cases prog_cases h with
  | write => exact .inr ⟨rfl, rfl⟩
  | statement1 | lock | read | mask | unlock | checkFull | checkWait | pass | wait | post
  | statement2 => exact .inl rfl

/-- A post and a wait of the process show in the value of the semaphore. -/
theorem balance_step {s s' : Shared} {p q : Proc} (hl : Local s p)
    (h : prog s p = some (s', q)) :
    s'.semSync + posts p + waits q = s.semSync + posts q + waits p := by
  obtain ⟨pid, mask, flags, pc⟩ := p
  cases prog_cases h with
  | checkFull | checkWait => simp [posts, waits, Pc.past]
  | pass =>
    have hf : flags = 0x0F := hl.pass rfl
    simp [posts, waits, Pc.past, hf]
  | wait hpos =>
    have hf : flags ≠ 0x0F := hl.wait rfl
    simpa [posts, waits, Pc.past, hf] using Nat.sub_add_cancel hpos
  | post => by_cases hf : flags = 0x0F <;> simp [posts, waits, Pc.past, hf]
  | statement1 | lock | read | mask | write | unlock | statement2 =>
    simp [posts, waits, Pc.past]

theorem inv_initial : Inv initial where
  guarded := ⟨rfl, fun _ => trivial, by simp [initial, Proc.start, inside]⟩
  global := by
    refine ⟨by decide, fun n hn hb => ?_, nofun, each_nil⟩
    exact absurd UInt8.zero_and hb
  each := by
    refine List.forall_mem_singleton.mpr ?_
    exact ⟨rfl, fun h => absurd rfl h, nofun, nofun, nofun, nofun, nofun⟩
  last h := absurd rfl h
  balance := rfl

theorem inv_join {s : State} (h : Inv s) (pid : ℤ) :
    Inv { s with procs := s.procs ++ [Proc.start pid] } where
  guarded := h.guarded.join rfl
  global := h.global
  each := forall_mem_concat h.each
    ⟨rfl, fun hpc => absurd rfl hpc, nofun, nofun, nofun, nofun, nofun⟩
  last hs := by
    obtain ⟨p, hp, hw⟩ := h.last hs
    exact ⟨p, List.mem_append_left _ hp, hw⟩
  balance := by
    rw [tally_concat, tally_concat]
    exact h.balance

theorem inv_act {s : State} {s' : Shared} {i : ℕ} {p q : Proc} (h : Inv s)
    (hp : s.procs[i]? = some p) (hstep : prog s.shared p = some (s', q)) :
    Inv ⟨s', s.procs.set i q⟩ := by
  have hmem := List.mem_of_getElem? hp
  have hi : i < s.procs.length := (List.getElem?_eq_some_iff.mp hp).1
  have hh := h.guarded.held p hmem
  have hl := h.each p hmem
  have hgrows := grows_step hh hstep
  refine ⟨guarded_act h.guarded hp hstep, global_step h.global hl hh hstep, ?_, fun hs => ?_, ?_⟩
  · apply forall_mem_set
    · intro r hr
      exact (h.each r hr).mono hgrows
    · exact local_step h.global hl hh hstep
  · rcases store_step hstep with hstore | ⟨hw, hf⟩
    · rw [hstore] at hs ⊢
      apply exists_mem_set hp (h.last hs)
      intro hpw
      obtain ⟨hw, hf⟩ := hpw
      obtain ⟨hw', hf', -⟩ := wrote_step hstep hw
      exact ⟨hw', hf'.trans hf⟩
    · exact ⟨q, List.mem_set hi q, hw, hf⟩
  · have hb := h.balance
    have hstep := balance_step hl hstep
    have hposts := tally_set posts hp q
    have hwaits := tally_set waits hp q
    show s'.semSync + tally waits (s.procs.set i q) = tally posts (s.procs.set i q)
    omega

theorem inv_step (s : State) (a : Label) (s' : State) (h : Inv s) (hstep : step s a = some s') :
    Inv s' := by
  cases a with
  | join pid =>
    obtain ⟨-, rfl⟩ := by simpa [step] using hstep
    exact inv_join h pid
  | act i =>
    obtain ⟨p, q, hp, hprog, hprocs⟩ := step_act.mp hstep
    obtain ⟨shared, procs⟩ := s'
    obtain rfl : procs = s.procs.set i q := hprocs
    exact inv_act h hp hprog

theorem inv_after {ls : List Label} {s : State} (h : after step initial ls = some s) : Inv s :=
  invariant_after inv_step inv_initial h

/-! ## Nobody is left waiting -/

theorem blocked {s : Shared} {p : Proc} (h : prog s p = none) :
    p.pc = .lock ∧ s.semFlags = 0 ∨ p.pc = .wait ∧ s.semSync = 0 ∨ p.pc = .cleanup := by
  obtain ⟨pid, mask, flags, pc⟩ := p
  cases pc with
  | lock =>
    have h0 : s.semFlags = 0 := by simpa [prog] using h
    exact .inl ⟨rfl, h0⟩
  | wait =>
    have h0 : s.semSync = 0 := by simpa [prog] using h
    exact .inr (.inl ⟨rfl, h0⟩)
  | cleanup => exact .inr (.inr rfl)
  | statement1 | read | mask | write | unlock | check | pass | post | statement2 =>
    simp [prog] at h

/-- The posts of a process that is blocked at `wait` or finished, over its waits. -/
def surplus (p : Proc) : ℕ := if p.pc = .cleanup ∧ p.flags = 0x0F then 2 else 0

theorem posts_of_blocked {p : Proc} (h : p.pc = .wait ∨ p.pc = .cleanup) :
    posts p = waits p + surplus p := by
  rcases h with h | h
  · simp [posts, waits, surplus, Pc.past, h]
  · by_cases hf : p.flags = 0x0F <;> simp [posts, waits, surplus, Pc.past, h, hf]

theorem full_of_flagged {s : State} (h : Inv s)
    (hall : ∀ n ∈ numbers, ∃ p ∈ s.procs, p.pid = n ∧ p.pc.wrote = true) :
    s.shared.store = 0x0F := by
  have hflag : ∀ n ∈ numbers, Within (flagOf n) s.shared.store := by
    intro n hn
    obtain ⟨p, hp, rfl, hw⟩ := hall n hn
    have hl := h.each p hp
    rw [← hl.mask]
    exact hl.wrote hw
  have hfull : (0x0F : UInt8) = flagOf 0 ||| flagOf 1 ||| (flagOf 2 ||| flagOf 3) := by decide
  apply within_antisymm h.global.low
  rw [hfull]
  apply or_within
  · exact or_within (hflag 0 (by simp [numbers])) (hflag 1 (by simp [numbers]))
  · exact or_within (hflag 2 (by simp [numbers])) (hflag 3 (by simp [numbers]))

theorem exists_enabled {s : State} (h : Inv s)
    (hall : ∀ n ∈ numbers, ∃ p ∈ s.procs, p.pid = n ∧ p.pc.wrote = true) {p : Proc}
    (hp : p ∈ s.procs) (hwait : p.pc = .wait) : ∃ i, (step s (.act i)).isSome = true := by
  by_contra hstuck
  have hnone : ∀ r ∈ s.procs, prog s.shared r = none := by
    intro r hr
    obtain ⟨i, hi⟩ := List.getElem?_of_mem hr
    have hstep : (step s (.act i)).isSome ≠ true := fun hs => hstuck ⟨i, hs⟩
    simpa [step, stepAt, hi] using hstep
  have hout : ∀ r ∈ s.procs, load inside r = 0 := by
    intro r hr
    apply load_of_outside
    unfold inside
    rcases blocked (hnone r hr) with ⟨hpc, -⟩ | ⟨hpc, -⟩ | hpc <;> rw [hpc]
  have hflags : s.shared.semFlags = 1 := by
    have hcount := h.guarded.count
    rwa [tally_eq_zero.mpr hout, Nat.add_zero] at hcount
  have hsync : s.shared.semSync = 0 := by
    rcases blocked (hnone p hp) with ⟨hpc, -⟩ | ⟨-, h0⟩ | hpc
    · exact absurd (hwait.symm.trans hpc) (by decide)
    · exact h0
    · exact absurd (hwait.symm.trans hpc) (by decide)
  have hpc : ∀ r ∈ s.procs, r.pc = .wait ∨ r.pc = .cleanup := by
    intro r hr
    rcases blocked (hnone r hr) with ⟨-, h0⟩ | ⟨hpc, -⟩ | hpc
    · exact absurd (hflags.symm.trans h0) Nat.one_ne_zero
    · exact .inl hpc
    · exact .inr hpc
  have hposts : tally posts s.procs = tally waits s.procs + tally surplus s.procs := by
    rw [← tally_add]
    unfold tally
    rw [List.map_congr_left fun r hr => posts_of_blocked (hpc r hr)]
  have hsurplus : tally surplus s.procs = 0 := by
    have hb := h.balance
    omega
  have hfull := full_of_flagged h hall
  obtain ⟨q, hq, -, hqf⟩ := h.last (by rw [hfull]; decide)
  rw [hfull] at hqf
  rcases hpc q hq with hqw | hqc
  · exact (h.each q hq).wait hqw hqf
  · have hq0 := tally_eq_zero.mp hsurplus q hq
    simp [surplus, hqc, hqf] at hq0

/-- **The rendezvous is a barrier.** Before a `statement_2`, each of the processes 0 to 3 has
printed its `statement_1`; and once they all have set their flag, a process at `sem_wait(sync)`
leaves some step possible. -/
theorem rendez_barrier {ls : List Label} {s : State} (h : after step initial ls = some s) :
    (∀ pre pid post, s.shared.printed = pre ++ (.second, pid) :: post →
      ∀ n ∈ numbers, (.first, n) ∈ pre) ∧
    ((∀ n ∈ numbers, ∃ p ∈ s.procs, p.pid = n ∧ p.pc.wrote = true) →
      ∀ p ∈ s.procs, p.pc = .wait → ∃ i, (step s (.act i)).isSome = true) := by
  have hinv := inv_after h
  constructor
  · intro pre pid post hprinted
    exact hinv.global.ordered pre (.second, pid) post hprinted rfl
  · intro hall p hp hwait
    exact exists_enabled hinv hall hp hwait

/-- All four arrive and process 3, the last, goes through. -/
def arrival : List Label :=
  [[.join 1, .join 2, .join 3], .replicate 7 (.act 0), .replicate 7 (.act 1),
    .replicate 7 (.act 2), .replicate 10 (.act 3)].flatten

def arrived : State where
  shared := ⟨1, 2, 0x0F, [(.first, 0), (.first, 1), (.first, 2), (.first, 3), (.second, 3)]⟩
  procs := [⟨0, 0x1, 0x1, .wait⟩, ⟨1, 0x2, 0x3, .wait⟩, ⟨2, 0x4, 0x7, .wait⟩,
    ⟨3, 0x8, 0x0F, .cleanup⟩]

theorem after_arrival : after step initial arrival = some arrived := by decide +kernel

theorem rendez_barrier_arrived :
    (∀ n ∈ numbers, (.first, n) ∈ arrived.shared.printed.take 4) ∧
      ∃ i, (step arrived (.act i)).isSome = true := by
  obtain ⟨hfirst, hwait⟩ := rendez_barrier after_arrival
  refine ⟨hfirst _ 3 [] rfl, hwait ?_ ⟨0, 0x1, 0x1, .wait⟩ (by decide) rfl⟩
  decide

end El32.Rendez

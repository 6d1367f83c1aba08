import El32.Foundations.Mutex
import El32.Foundations.Listing
import El32.Foundations.RingLayout
import El32.Foundations.Transition
import El32.Ipc.RingBuffer

/-! The ring buffer loses and duplicates nothing.

The semaphore `s` is a mutex over the words and the cells. The other two count: a place is a unit of
`e`, in the hands of a process, or filled; a value is a unit of `n`, in the hands of a process, or
taken. All of it as long as the values fit their words. -/
namespace El32.RingBuffer
open Processes Mutex Listing RingLayout Transition
set_option autoImplicit false

/-! ## The invariant -/

def Memory.produced (m : Memory) : ℕ := m.appended.length

def Memory.consumed (m : Memory) : ℕ := m.taken.length

def inside : Proc → Bool
  | .producer p =>
    match p.pc with
    | .readIn | .readData | .readCell | .writeCell | .writeData | .writeIn | .postS => true
    | .waitE | .waitS | .postN | .left => false
  | .consumer c =>
    match c.pc with
    | .readOut | .readCell | .clearCell | .writeOut | .postS => true
    | .waitN | .waitS | .postE | .left => false

/-- The process holds an empty place: it waited for it and has not filled it, or emptied it and not
posted it. -/
def places : Proc → ℕ
  | .producer p =>
    match p.pc with
    | .waitS | .readIn | .readData | .readCell | .writeCell => 1
    | _ => 0
  | .consumer c =>
    match c.pc with
    | .clearCell | .writeOut | .postS | .postE => 1
    | _ => 0

/-- The process holds a value, in the same way. -/
def values : Proc → ℕ
  | .producer p =>
    match p.pc with
    | .writeData | .writeIn | .postS | .postN => 1
    | _ => 0
  | .consumer c =>
    match c.pc with
    | .waitS | .readOut | .readCell => 1
    | _ => 0

section Invariant
variable (size : ℕ)

abbrev Cells (m : Memory) (out : ℕ) : Prop := Layout size item 0 out m.produced m.buffer

/-- The words and the cells while nobody is inside. -/
structure Free (m : Memory) : Prop where
  cells : Cells size m m.consumed
  data : m.data = word m.produced
  inn : m.inn = word m.produced
  out : m.out = word m.consumed

/-- What the process inside knows, and what it has not yet stored. -/
def Held (m : Memory) : Proc → Prop
  | .producer p =>
    match p.pc with
    | .readData => Free size m ∧ p.inn = word m.produced
    | .readCell | .writeCell => Free size m ∧ p.inn = word m.produced ∧ p.new = item m.produced
    | .writeData => Cells size m m.consumed ∧ m.out = word m.consumed ∧
        p.inn = word m.produced ∧ p.new = word m.produced
    | .writeIn => Cells size m m.consumed ∧ m.out = word m.consumed ∧
        p.inn = word m.produced ∧ m.data = word m.produced
    | .readIn | .postS => Free size m
    | _ => True
  | .consumer c =>
    match c.pc with
    | .readCell => Free size m ∧ c.out = word m.consumed
    | .clearCell => ∃ k, m.consumed = k + 1 ∧ Cells size m k ∧ m.data = word m.produced ∧
        m.inn = word m.produced ∧ c.out = word k
    | .writeOut => Cells size m m.consumed ∧ m.data = word m.produced ∧
        m.inn = word m.produced ∧ c.out = word m.consumed
    | .readOut | .postS => Free size m
    | _ => True

structure Inv (s : State) : Prop where
  guarded : Guarded inside (Free size) (Held size) s.shared.s s.shared.mem s.procs
  balanceE : s.shared.e + tally places s.procs + s.shared.mem.produced =
    size + s.shared.mem.consumed
  balanceN : s.shared.n + tally values s.procs + s.shared.mem.consumed = s.shared.mem.produced
  appended : s.shared.mem.appended = (List.range s.shared.mem.produced).map item
  taken : s.shared.mem.taken = (List.range s.shared.mem.consumed).map item
  found : ∀ c ∈ s.shared.mem.found, c = 0

/-- The words count the values without wrapping. -/
def Fits (m : Memory) : Prop := m.produced < 2 ^ 64 - 1

end Invariant

/-! ## The memory -/

section Memory
variable {size : ℕ} {m m' : Memory}

/-- What a step of `append` does at each place. -/
inductive Appends (size : ℕ) (m : Memory) (inn new current : UInt64) :
    ProducerPc → Memory → Producer → Prop
  | readIn : Appends size m inn new current .readIn m ⟨.readData, m.inn, new, current⟩
  | readData : Appends size m inn new current .readData m ⟨.readCell, inn, m.data + 1, current⟩
  | readCell : Appends size m inn new current .readCell
      { m with found := m.found ++ [m.buffer (inn.toNat % size)] }
      ⟨.writeCell, inn, new, m.buffer (inn.toNat % size)⟩
  | writeCell : Appends size m inn new current .writeCell
      { m with
        buffer := Function.update m.buffer (inn.toNat % size) new
        appended := m.appended ++ [new] }
      ⟨.writeData, inn + 1, new, current⟩
  | writeData : Appends size m inn new current .writeData
      { m with data := new } ⟨.writeIn, inn, new, current⟩
  | writeIn : Appends size m inn new current .writeIn
      { m with inn := inn } ⟨.postS, inn, new, current⟩

theorem append_cases {inn new current : UInt64} {pc : ProducerPc} {q : Producer}
    (h : append size m ⟨pc, inn, new, current⟩ = some (m', q)) :
    Appends size m inn new current pc m' q := by
  cases pc with
  | readIn | readData | readCell | writeCell | writeData | writeIn =>
    obtain ⟨rfl, rfl⟩ := by simpa [append] using h
    constructor
  | waitE | waitS | postS | postN | left => simp [append] at h

/-- What a step of `take` does at each place. -/
inductive Takes (size : ℕ) (m : Memory) (out current : UInt64) :
    ConsumerPc → Memory → Consumer → Prop
  | readOut : Takes size m out current .readOut m ⟨.readCell, m.out, current⟩
  | readCell : Takes size m out current .readCell
      { m with taken := m.taken ++ [m.buffer (out.toNat % size)] }
      ⟨.clearCell, out, m.buffer (out.toNat % size)⟩
  | clearCell : Takes size m out current .clearCell
      { m with buffer := Function.update m.buffer (out.toNat % size) 0 }
      ⟨.writeOut, out + 1, current⟩
  | writeOut : Takes size m out current .writeOut { m with out := out } ⟨.postS, out, current⟩

theorem take_cases {out current : UInt64} {pc : ConsumerPc} {d : Consumer}
    (h : take size m ⟨pc, out, current⟩ = some (m', d)) : Takes size m out current pc m' d := by
  cases pc with
  | readOut | readCell | clearCell | writeOut =>
    obtain ⟨rfl, rfl⟩ := by simpa [take] using h
    constructor
  | waitN | waitS | postS | postE | left => simp [take] at h

theorem append_inside {p q : Producer} (h : append size m p = some (m', q)) :
    inside (.producer p) = true ∧ inside (.producer q) = true := by
  obtain ⟨pc, inn, new, current⟩ := p
  cases append_cases h <;> exact ⟨rfl, rfl⟩

theorem take_inside {c d : Consumer} (h : take size m c = some (m', d)) :
    inside (.consumer c) = true ∧ inside (.consumer d) = true := by
  obtain ⟨pc, out, current⟩ := c
  cases take_cases h <;> exact ⟨rfl, rfl⟩

theorem produced_write (m : Memory) (buffer : ℕ → UInt64) (v : UInt64) :
    Memory.produced { m with buffer := buffer, appended := m.appended ++ [v] } =
      m.produced + 1 := List.length_append

theorem consumed_read (m : Memory) (v : UInt64) :
    Memory.consumed { m with taken := m.taken ++ [v] } = m.consumed + 1 := List.length_append

theorem held_append {p q : Producer} (hfits : Fits m) (hle : m.consumed ≤ m.produced)
    (hroom : places (.producer p) = 1 → m.produced < m.consumed + size)
    (hh : Held size m (.producer p)) (h : append size m p = some (m', q)) :
    Held size m' (.producer q) := by
  obtain ⟨pc, inn, new, current⟩ := p
  cases append_cases h with
  | readIn =>
    have hf : Free size m := hh
    exact ⟨hf, hf.inn⟩
  | readData =>
    obtain ⟨hf, hinn⟩ := hh
    refine ⟨hf, hinn, ?_⟩
    show m.data + 1 = item m.produced
    rw [hf.data, word_succ]
    rfl
  | readCell =>
    obtain ⟨hf, hinn, hnew⟩ := hh
    exact ⟨⟨hf.cells, hf.data, hf.inn, hf.out⟩, hinn, hnew⟩
  | writeCell =>
    obtain ⟨hf, hinn, hnew⟩ := hh
    obtain rfl : inn = word m.produced := hinn
    obtain rfl : new = item m.produced := hnew
    have hnat : (word m.produced).toNat = m.produced := word_toNat (by unfold Fits at hfits; omega)
    have hcells := hf.cells.append hle (hroom rfl)
    rw [hnat]
    refine ⟨?_, hf.out, ?_, ?_⟩
    · rw [Cells, produced_write]
      exact hcells
    · rw [produced_write]
      exact word_succ m.produced
    · rw [produced_write]
      rfl
  | writeData =>
    obtain ⟨hcells, hout, hinn, hnew⟩ := hh
    exact ⟨hcells, hout, hinn, hnew⟩
  | writeIn =>
    obtain ⟨hcells, hout, hinn, hdata⟩ := hh
    exact ⟨hcells, hdata, hinn, hout⟩

theorem held_take {c d : Consumer} (hfits : Fits m) (hle : m.consumed ≤ m.produced)
    (hroom : places (.consumer c) = 1 → m.produced < m.consumed + size)
    (hh : Held size m (.consumer c)) (h : take size m c = some (m', d)) :
    Held size m' (.consumer d) := by
  obtain ⟨pc, out, current⟩ := c
  cases take_cases h with
  | readOut =>
    have hf : Free size m := hh
    exact ⟨hf, hf.out⟩
  | readCell =>
    obtain ⟨hf, hout⟩ := hh
    exact ⟨m.consumed, consumed_read m _, hf.cells, hf.data, hf.inn, hout⟩
  | clearCell =>
    obtain ⟨k, hk, hcells, hdata, hinn, hout⟩ := hh
    obtain rfl : out = word k := hout
    have hroom : m.produced < m.consumed + size := hroom rfl
    have hnat : (word k).toNat = k := word_toNat (by unfold Fits at hfits; omega)
    have hcells := hcells.take (show k < m.produced by omega) (by omega)
    rw [hnat]
    refine ⟨?_, hdata, hinn, ?_⟩
    · show Layout size item 0 m.consumed m.produced _
      rw [hk]
      exact hcells
    · show word k + 1 = word m.consumed
      rw [hk, word_succ]
  | writeOut =>
    obtain ⟨hcells, hdata, hinn, hout⟩ := hh
    exact ⟨hcells, hdata, hinn, hout⟩

/-! ## The logs -/

theorem append_logs {p q : Producer} (hfits : Fits m)
    (hroom : places (.producer p) = 1 → m.produced < m.consumed + size)
    (hh : Held size m (.producer p)) (h : append size m p = some (m', q)) :
    m'.taken = m.taken ∧
    (m'.appended = m.appended ∨ m'.appended = m.appended ++ [item m.produced]) ∧
    (m'.found = m.found ∨ m'.found = m.found ++ [0]) ∧
    m'.produced + places (.producer q) = m.produced + places (.producer p) ∧
    m'.produced + values (.producer p) = m.produced + values (.producer q) := by
  obtain ⟨pc, inn, new, current⟩ := p
  cases append_cases h with
  | readCell =>
    obtain ⟨hf, hinn, -⟩ := hh
    obtain rfl : inn = word m.produced := hinn
    have hnat : (word m.produced).toNat = m.produced := word_toNat (by unfold Fits at hfits; omega)
    refine ⟨rfl, .inl rfl, .inr ?_, rfl, rfl⟩
    rw [hnat, hf.cells.next_hole (hroom rfl)]
  | writeCell =>
    obtain ⟨-, -, hnew⟩ := hh
    refine ⟨rfl, .inr ?_, .inl rfl, ?_, ?_⟩
    · rw [show new = item m.produced from hnew]
    · rw [produced_write]
      rfl
    · rw [produced_write]
      rfl
  | readIn | readData | writeData | writeIn =>
    exact ⟨rfl, .inl rfl, .inl rfl, rfl, rfl⟩

theorem take_logs {c d : Consumer} (hfits : Fits m) (hle : m.consumed ≤ m.produced)
    (hvalue : values (.consumer c) = 1 → m.consumed < m.produced)
    (hh : Held size m (.consumer c)) (h : take size m c = some (m', d)) :
    m'.appended = m.appended ∧ m'.found = m.found ∧
    (m'.taken = m.taken ∨ m'.taken = m.taken ++ [item m.consumed]) ∧
    m'.consumed + places (.consumer c) = m.consumed + places (.consumer d) ∧
    m'.consumed + values (.consumer d) = m.consumed + values (.consumer c) := by
  obtain ⟨pc, out, current⟩ := c
  cases take_cases h with
  | readCell =>
    obtain ⟨hf, hout⟩ := hh
    obtain rfl : out = word m.consumed := hout
    have hnat : (word m.consumed).toNat = m.consumed := word_toNat (by unfold Fits at hfits; omega)
    refine ⟨rfl, rfl, .inr ?_, ?_, ?_⟩
    · rw [hnat, hf.cells.first_item (hvalue rfl)]
    · rw [consumed_read]
      rfl
    · rw [consumed_read]
      rfl
  | readOut | clearCell | writeOut =>
    exact ⟨rfl, rfl, .inl rfl, rfl, rfl⟩

end Memory

/-! ## The whole system -/

section System
variable {size : ℕ}

theorem Producer.work_cases {m m' : Shared} {p q : Producer} (h : p.work size m = some (m', q)) :
    (p.pc = .waitE ∧ 0 < m.e ∧ m' = { m with e := m.e - 1 } ∧ q = { p with pc := .waitS }) ∨
    (p.pc = .waitS ∧ 0 < m.s ∧ m' = { m with s := m.s - 1 } ∧ q = { p with pc := .readIn }) ∨
    (p.pc = .postS ∧ m' = { m with s := m.s + 1 } ∧ q = { p with pc := .postN }) ∨
    (p.pc = .postN ∧ m' = { m with n := m.n + 1 } ∧ q = { p with pc := .waitE }) ∨
    ∃ mem, append size m.mem p = some (mem, q) ∧ m' = { m with mem := mem } := by
  obtain ⟨pc, inn, new, current⟩ := p
  cases pc with
  | waitE =>
    obtain ⟨hpos, rfl, rfl⟩ := by simpa [Producer.work] using h
    exact .inl ⟨rfl, hpos, rfl, rfl⟩
  | waitS =>
    obtain ⟨hpos, rfl, rfl⟩ := by simpa [Producer.work] using h
    exact .inr (.inl ⟨rfl, hpos, rfl, rfl⟩)
  | postS =>
    obtain ⟨rfl, rfl⟩ := by simpa [Producer.work] using h
    exact .inr (.inr (.inl ⟨rfl, rfl, rfl⟩))
  | postN =>
    obtain ⟨rfl, rfl⟩ := by simpa [Producer.work] using h
    exact .inr (.inr (.inr (.inl ⟨rfl, rfl, rfl⟩)))
  | readIn | readData | readCell | writeCell | writeData | writeIn | left =>
    unfold Producer.work at h
    obtain ⟨⟨mem, r⟩, hr, hm⟩ := Option.map_eq_some_iff.mp h
    obtain ⟨rfl, rfl⟩ := Prod.mk.inj hm
    exact .inr (.inr (.inr (.inr ⟨mem, hr, rfl⟩)))

theorem Consumer.work_cases {m m' : Shared} {c d : Consumer} (h : c.work size m = some (m', d)) :
    (c.pc = .waitN ∧ 0 < m.n ∧ m' = { m with n := m.n - 1 } ∧ d = { c with pc := .waitS }) ∨
    (c.pc = .waitS ∧ 0 < m.s ∧ m' = { m with s := m.s - 1 } ∧ d = { c with pc := .readOut }) ∨
    (c.pc = .postS ∧ m' = { m with s := m.s + 1 } ∧ d = { c with pc := .postE }) ∨
    (c.pc = .postE ∧ m' = { m with e := m.e + 1 } ∧ d = { c with pc := .waitN }) ∨
    ∃ mem, take size m.mem c = some (mem, d) ∧ m' = { m with mem := mem } := by
  obtain ⟨pc, out, current⟩ := c
  cases pc with
  | waitN =>
    obtain ⟨hpos, rfl, rfl⟩ := by simpa [Consumer.work] using h
    exact .inl ⟨rfl, hpos, rfl, rfl⟩
  | waitS =>
    obtain ⟨hpos, rfl, rfl⟩ := by simpa [Consumer.work] using h
    exact .inr (.inl ⟨rfl, hpos, rfl, rfl⟩)
  | postS =>
    obtain ⟨rfl, rfl⟩ := by simpa [Consumer.work] using h
    exact .inr (.inr (.inl ⟨rfl, rfl, rfl⟩))
  | postE =>
    obtain ⟨rfl, rfl⟩ := by simpa [Consumer.work] using h
    exact .inr (.inr (.inr (.inl ⟨rfl, rfl, rfl⟩)))
  | readOut | readCell | clearCell | writeOut | left =>
    unfold Consumer.work at h
    obtain ⟨⟨mem, r⟩, hr, hm⟩ := Option.map_eq_some_iff.mp h
    obtain ⟨rfl, rfl⟩ := Prod.mk.inj hm
    exact .inr (.inr (.inr (.inr ⟨mem, hr, rfl⟩)))

namespace Inv
variable {s : State} {i : ℕ}

theorem consumed_le (h : Inv size s) : s.shared.mem.consumed ≤ s.shared.mem.produced := by
  have hv := h.balanceN
  omega

theorem room (h : Inv size s) {p : Proc} (hp : p ∈ s.procs) (hpl : places p = 1) :
    s.shared.mem.produced < s.shared.mem.consumed + size := by
  have hle := le_tally places hp
  have hpl' := h.balanceE
  omega

theorem value (h : Inv size s) {p : Proc} (hp : p ∈ s.procs) (hv : values p = 1) :
    s.shared.mem.consumed < s.shared.mem.produced := by
  have hle := le_tally values hp
  have hv' := h.balanceN
  omega

/-- A step that leaves the memory alone. -/
theorem frame (h : Inv size s) {m' : Shared} {p q : Proc} (hp : s.procs[i]? = some p)
    (hmem : m'.mem = s.shared.mem)
    (hguarded : Guarded inside (Free size) (Held size) m'.s m'.mem (s.procs.set i q))
    (he : m'.e + places q = s.shared.e + places p) (hn : m'.n + values q = s.shared.n + values p) :
    Inv size ⟨m', s.procs.set i q⟩ := by
  have hplaces := tally_set places hp q
  have hvalues := tally_set values hp q
  have h1 := h.balanceE
  have h2 := h.balanceN
  refine ⟨hguarded, ?_, ?_, ?_, ?_, ?_⟩
  · show m'.e + tally places (s.procs.set i q) + m'.mem.produced = size + m'.mem.consumed
    rw [hmem]
    omega
  · show m'.n + tally values (s.procs.set i q) + m'.mem.consumed = m'.mem.produced
    rw [hmem]
    omega
  · show m'.mem.appended = _
    rw [hmem]
    exact h.appended
  · show m'.mem.taken = _
    rw [hmem]
    exact h.taken
  · show ∀ c ∈ m'.mem.found, c = 0
    rw [hmem]
    exact h.found

/-- A step outside the critical section leaves the memory and the mutex alone. -/
theorem frame_outside (h : Inv size s) {m' : Shared} {p q : Proc} (hp : s.procs[i]? = some p)
    (hmem : m'.mem = s.shared.mem) (hs : m'.s = s.shared.s) (hinp : inside p = false)
    (hinq : inside q = false) (he : m'.e + places q = s.shared.e + places p)
    (hn : m'.n + values q = s.shared.n + values p) : Inv size ⟨m', s.procs.set i q⟩ := by
  refine h.frame hp hmem ?_ he hn
  rw [hmem, hs]
  exact h.guarded.outside hp hinp hinq id fun _ _ _ hr => hr

theorem producer (h : Inv size s) (hfits : Fits s.shared.mem) {m' : Shared} {p q : Producer}
    (hp : s.procs[i]? = some (.producer p)) (hstep : p.work size s.shared = some (m', q)) :
    Inv size ⟨m', s.procs.set i (.producer q)⟩ := by
  have hmem := List.mem_of_getElem? hp
  rcases Producer.work_cases hstep with ⟨hpc, hpos, rfl, rfl⟩ | ⟨hpc, hpos, rfl, rfl⟩ |
    ⟨hpc, rfl, rfl⟩ | ⟨hpc, rfl, rfl⟩ | ⟨mem, happend, rfl⟩
  · refine h.frame_outside hp rfl rfl ?_ rfl ?_ ?_
    · simp [inside, hpc]
    · simp only [places, hpc]
      omega
    · simp [values, hpc]
  · refine h.frame hp rfl (h.guarded.enter hp ?_ rfl hpos id) ?_ ?_
    · simp [inside, hpc]
    · simp [places, hpc]
    · simp [values, hpc]
  · have hheld : Held size s.shared.mem (.producer p) → Free size s.shared.mem := by
      simp [Held, hpc]
    refine h.frame hp rfl (h.guarded.leave hp ?_ rfl hheld) ?_ ?_
    · simp [inside, hpc]
    · simp [places, hpc]
    · simp [values, hpc]
  · refine h.frame_outside hp rfl rfl ?_ rfl ?_ ?_
    · simp [inside, hpc]
    · simp [places, hpc]
    · simp [values, hpc]
  · obtain ⟨hinp, hinq⟩ := append_inside happend
    have hheld := h.guarded.held _ hmem hinp
    obtain ⟨htaken, happended, hfound, hpl, hva⟩ :=
      append_logs hfits (h.room hmem) hheld happend
    have hplaces := tally_set places hp (.producer q)
    have hvalues := tally_set values hp (.producer q)
    have hconsumed : mem.consumed = s.shared.mem.consumed := congrArg List.length htaken
    have h1 := h.balanceE
    have h2 := h.balanceN
    refine ⟨?_, ?_, ?_, ?_, ?_, ?_⟩
    · exact h.guarded.within hp hinp hinq fun hh =>
        held_append hfits h.consumed_le (h.room hmem) hh happend
    · show s.shared.e + tally places (s.procs.set i _) + mem.produced = size + mem.consumed
      omega
    · show s.shared.n + tally values (s.procs.set i _) + mem.consumed = mem.produced
      omega
    · exact listing_step h.appended happended
    · show mem.taken = (List.range mem.consumed).map item
      rw [htaken, hconsumed]
      exact h.taken
    · exact zeros_step h.found hfound

theorem consumer (h : Inv size s) (hfits : Fits s.shared.mem) {m' : Shared} {c d : Consumer}
    (hp : s.procs[i]? = some (.consumer c)) (hstep : c.work size s.shared = some (m', d)) :
    Inv size ⟨m', s.procs.set i (.consumer d)⟩ := by
  have hmem := List.mem_of_getElem? hp
  rcases Consumer.work_cases hstep with ⟨hpc, hpos, rfl, rfl⟩ | ⟨hpc, hpos, rfl, rfl⟩ |
    ⟨hpc, rfl, rfl⟩ | ⟨hpc, rfl, rfl⟩ | ⟨mem, htake, rfl⟩
  · refine h.frame_outside hp rfl rfl ?_ rfl ?_ ?_
    · simp [inside, hpc]
    · simp [places, hpc]
    · simp only [values, hpc]
      omega
  · refine h.frame hp rfl (h.guarded.enter hp ?_ rfl hpos id) ?_ ?_
    · simp [inside, hpc]
    · simp [places, hpc]
    · simp [values, hpc]
  · have hheld : Held size s.shared.mem (.consumer c) → Free size s.shared.mem := by
      simp [Held, hpc]
    refine h.frame hp rfl (h.guarded.leave hp ?_ rfl hheld) ?_ ?_
    · simp [inside, hpc]
    · simp [places, hpc]
    · simp [values, hpc]
  · refine h.frame_outside hp rfl rfl ?_ rfl ?_ ?_
    · simp [inside, hpc]
    · simp [places, hpc]
    · simp [values, hpc]
  · obtain ⟨hinp, hinq⟩ := take_inside htake
    have hheld := h.guarded.held _ hmem hinp
    obtain ⟨happended, hfound, htaken, hpl, hva⟩ :=
      take_logs hfits h.consumed_le (h.value hmem) hheld htake
    have hplaces := tally_set places hp (.consumer d)
    have hvalues := tally_set values hp (.consumer d)
    have hproduced : mem.produced = s.shared.mem.produced := congrArg List.length happended
    have h1 := h.balanceE
    have h2 := h.balanceN
    refine ⟨?_, ?_, ?_, ?_, ?_, ?_⟩
    · exact h.guarded.within hp hinp hinq fun hh =>
        held_take hfits h.consumed_le (h.room hmem) hh htake
    · show s.shared.e + tally places (s.procs.set i _) + mem.produced = size + mem.consumed
      omega
    · show s.shared.n + tally values (s.procs.set i _) + mem.consumed = mem.produced
      omega
    · show mem.appended = (List.range mem.produced).map item
      rw [happended, hproduced]
      exact h.appended
    · exact listing_step h.taken htaken
    · show ∀ c ∈ mem.found, c = 0
      rw [hfound]
      exact h.found

theorem join (h : Inv size s) {q : Proc} (hin : inside q = false) (hpl : places q = 0)
    (hv : values q = 0) : Inv size { s with procs := s.procs ++ [q] } := by
  refine ⟨h.guarded.join hin, ?_, ?_, h.appended, h.taken, h.found⟩
  · rw [tally_concat, hpl]
    exact h.balanceE
  · rw [tally_concat, hv]
    exact h.balanceN

theorem leave (h : Inv size s) {p q : Proc} (hp : s.procs[i]? = some p)
    (hleave : leave p = some q) : Inv size { s with procs := s.procs.set i q } := by
  cases p with
  | producer p =>
    obtain ⟨hpc, rfl⟩ : p.pc = .waitE ∧ Proc.producer { p with pc := .left } = q := by
      simpa [RingBuffer.leave] using hleave
    refine h.frame_outside hp rfl rfl ?_ rfl ?_ ?_
    · simp [inside, hpc]
    · simp [places, hpc]
    · simp [values, hpc]
  | consumer c =>
    obtain ⟨hpc, rfl⟩ : c.pc = .waitN ∧ Proc.consumer { c with pc := .left } = q := by
      simpa [RingBuffer.leave] using hleave
    refine h.frame_outside hp rfl rfl ?_ rfl ?_ ?_
    · simp [inside, hpc]
    · simp [places, hpc]
    · simp [values, hpc]

end Inv

theorem produced_append {m m' : Memory} {p q : Producer} (h : append size m p = some (m', q)) :
    m.produced ≤ m'.produced := by
  obtain ⟨pc, inn, new, current⟩ := p
  cases append_cases h with
  | writeCell =>
    rw [produced_write]
    exact Nat.le_succ _
  | readIn | readData | readCell | writeData | writeIn => exact le_rfl

theorem produced_take {m m' : Memory} {c d : Consumer} (h : take size m c = some (m', d)) :
    m'.produced = m.produced := by
  obtain ⟨pc, out, current⟩ := c
  cases take_cases h <;> rfl

theorem produced_prog {m m' : Shared} {p q : Proc} (h : prog size m p = some (m', q)) :
    m.mem.produced ≤ m'.mem.produced := by
  cases p with
  | producer p =>
    obtain ⟨⟨m₁, r⟩, hr, hm⟩ := Option.map_eq_some_iff.mp h
    obtain ⟨rfl, -⟩ := Prod.mk.inj hm
    rcases Producer.work_cases hr with ⟨-, -, rfl, -⟩ | ⟨-, -, rfl, -⟩ | ⟨-, rfl, -⟩ |
      ⟨-, rfl, -⟩ | ⟨mem, happend, rfl⟩
    · exact le_rfl
    · exact le_rfl
    · exact le_rfl
    · exact le_rfl
    · exact produced_append happend
  | consumer c =>
    obtain ⟨⟨m₁, r⟩, hr, hm⟩ := Option.map_eq_some_iff.mp h
    obtain ⟨rfl, -⟩ := Prod.mk.inj hm
    rcases Consumer.work_cases hr with ⟨-, -, rfl, -⟩ | ⟨-, -, rfl, -⟩ | ⟨-, rfl, -⟩ |
      ⟨-, rfl, -⟩ | ⟨mem, htake, rfl⟩
    · exact le_rfl
    · exact le_rfl
    · exact le_rfl
    · exact le_rfl
    · exact (produced_take htake).ge

theorem inv_initial (size : ℕ) : Inv size (initial size) where
  guarded := by
    refine ⟨rfl, fun _ => ⟨layout_empty 0 fun _ => rfl, rfl, rfl, rfl⟩, ?_⟩
    exact List.forall_mem_singleton.mpr nofun
  balanceE := rfl
  balanceN := rfl
  appended := rfl
  taken := rfl
  found := nofun

/-- While the values fit their words, a step keeps the invariant. -/
theorem inv_step (s : State) (a : Label) (s' : State) (h : Fits s.shared.mem → Inv size s)
    (hstep : step size s a = some s') (hfits : Fits s'.shared.mem) : Inv size s' := by
  cases a with
  | joinProducer =>
    obtain rfl := by simpa [step] using hstep
    exact (h hfits).join rfl rfl rfl
  | joinConsumer =>
    obtain rfl := by simpa [step] using hstep
    exact (h hfits).join rfl rfl rfl
  | leave i =>
    obtain ⟨p, q, hp, hleave, rfl⟩ := (step_leave size).mp hstep
    exact (h hfits).leave hp hleave
  | act i =>
    obtain ⟨p, q, hp, hprog, hprocs⟩ := (step_act size).mp hstep
    obtain ⟨shared, procs⟩ := s'
    obtain rfl : procs = s.procs.set i q := hprocs
    have hold : Fits s.shared.mem := lt_of_le_of_lt (produced_prog hprog) hfits
    cases p with
    | producer p =>
      obtain ⟨⟨m₁, r⟩, hr, hm⟩ := Option.map_eq_some_iff.mp hprog
      obtain ⟨rfl, rfl⟩ := Prod.mk.inj hm
      exact (h hold).producer hold hp hr
    | consumer c =>
      obtain ⟨⟨m₁, r⟩, hr, hm⟩ := Option.map_eq_some_iff.mp hprog
      obtain ⟨rfl, rfl⟩ := Prod.mk.inj hm
      exact (h hold).consumer hold hp hr

theorem inv_after {ls : List Label} {s : State} (h : after (step size) (initial size) ls = some s)
    (hfits : Fits s.shared.mem) : Inv size s :=
  invariant_after (I := fun s => Fits s.shared.mem → Inv size s) inv_step
    (fun _ => inv_initial size) h hfits

/-- **The ring buffer loses and duplicates nothing.** The values taken are 1, 2, 3 and so on; an
append finds 0 at its position, a take never; and the values untaken fit the buffer. -/
theorem ring_buffer {ls : List Label} {s : State}
    (h : after (step size) (initial size) ls = some s)
    (hfits : s.shared.mem.appended.length < 2 ^ 64 - 1) :
    s.shared.mem.appended.map UInt64.toNat = List.range' 1 s.shared.mem.appended.length ∧
      s.shared.mem.taken.map UInt64.toNat = List.range' 1 s.shared.mem.taken.length ∧
      (∀ c ∈ s.shared.mem.found, c = 0) ∧ (∀ v ∈ s.shared.mem.taken, v ≠ 0) ∧
      s.shared.mem.taken.length ≤ s.shared.mem.appended.length ∧
      s.shared.mem.appended.length ≤ s.shared.mem.taken.length + size := by
  have hinv := inv_after h hfits
  have hle : s.shared.mem.taken.length ≤ s.shared.mem.appended.length := hinv.consumed_le
  have htaken : s.shared.mem.taken.map UInt64.toNat =
      List.range' 1 s.shared.mem.taken.length :=
    toNat_of_listing hinv.taken (lt_of_le_of_lt hle hfits)
  refine ⟨toNat_of_listing hinv.appended hfits, htaken, hinv.found, ?_, hle, ?_⟩
  · intro v hv h0
    have hmem := List.mem_map_of_mem (f := UInt64.toNat) hv
    rw [htaken, h0, List.mem_range'_1] at hmem
    exact absurd hmem.1 (by decide)
  · have hb := hinv.balanceE
    unfold Memory.produced Memory.consumed at hb
    omega

end System

/-- Two values go through a buffer of one cell. -/
def passing : List Label :=
  [[.joinConsumer], .replicate 10 (.act 0), .replicate 8 (.act 1), .replicate 10 (.act 0),
    .replicate 4 (.act 1)].flatten

theorem after_passing : ((after (step 1) (initial 1) passing).map fun s =>
    (s.shared.mem.appended, s.shared.mem.taken, s.shared.mem.found)) =
      some ([1, 2], [1, 2], [0, 0]) := by
  decide +kernel

theorem ring_buffer_passing : ∃ s, after (step 1) (initial 1) passing = some s ∧
    s.shared.mem.taken.map UInt64.toNat = [1, 2] := by
  obtain ⟨s, hs, hlogs⟩ := Option.map_eq_some_iff.mp after_passing
  obtain ⟨happended, hlogs⟩ := Prod.mk.inj hlogs
  obtain ⟨htaken, -⟩ := Prod.mk.inj hlogs
  refine ⟨s, hs, ?_⟩
  rw [(ring_buffer hs (by rw [happended]; decide)).2.1, htaken]
  rfl

end El32.RingBuffer

import El32.Foundations.Listing
import El32.Foundations.RingLayout
import El32.Foundations.Transition
import El32.Ipc.ProducerConsumer

/-! When the producer and its consumers stay in step.

The producer counts its position and a consumer its own, and a new consumer starts at 0; a reset
sends the producer back to 0 and leaves the semaphores. Under `Guard` the positions agree, modulo the
size, whenever a consumer is at work, and the semaphores count the values in the ring. -/
namespace El32.ProducerConsumer
open Listing RingLayout Transition
set_option autoImplicit false

/-! ## The invariant -/

def State.produced (m : State) : ℕ := m.appended.length

def State.consumed (m : State) : ℕ := m.taken.length

/-- The producer holds an empty place: it waited for it and has not filled it. -/
def ProducerPc.places : ProducerPc → ℕ
  | .waitS | .readCell | .writeCell => 1
  | _ => 0

/-- The producer holds a value it has not posted. -/
def ProducerPc.values : ProducerPc → ℕ
  | .postS | .postN => 1
  | _ => 0

def consumerPlaces (c : Option Consumer) : ℕ :=
  match c.map Consumer.pc with
  | some .postS | some .postE => 1
  | _ => 0

def consumerValues (c : Option Consumer) : ℕ :=
  match c.map Consumer.pc with
  | some .waitS | some .readCell | some .clearCell => 1
  | _ => 0

section Invariant
variable (size : ℕ)

structure Counts (m : State) : Prop where
  places : m.e + m.producer.pc.places + consumerPlaces m.consumer + m.produced = size + m.consumed
  values : m.n + m.producer.pc.values + consumerValues m.consumer + m.consumed = m.produced
  cells : Layout size item 0 m.consumed m.produced m.buffer

def ProducerOk (produced consumed : ℕ) (p : Producer) : Prop :=
  match p.pc with
  | .clear _ | .zero => produced = 0 ∧ consumed = 0
  | _ => p.inn = produced ∧ p.data = word produced

/-- A consumer at work is at the position of the next value. -/
def InStep (consumed : ℕ) (c : Consumer) : Prop :=
  match c.pc with
  | .menu => True
  | .clearCell => c.out % size = (consumed + 1) % size ∧ c.idx = consumed % size ∧
      c.data = item consumed
  | _ => c.out % size = consumed % size

structure Logs (m : State) : Prop where
  found : ∀ c ∈ m.found, c = 0
  appended : m.appended = (List.range m.produced).map item
  taken : m.taken = (List.range m.consumed).map item
  bound : m.produced ≤ intMax

structure Inv (m : State) : Prop where
  counts : Counts size m
  producer : ProducerOk m.produced m.consumed m.producer
  consumer : ∀ c, m.consumer = some c → InStep size m.consumed c
  logs : Logs m

/-- The condition on a step. A reset is chosen only when every value was taken and a consumer at work
is at a multiple of the size; a consumer is set to work only at the position of the next value. -/
def Guard (m : State) : Label → Prop
  | .reset => m.appended.length = m.taken.length ∧
      ∀ c ∈ m.consumer, c.pc = .menu ∨ c.out % size = 0
  | .consumerStart => ∀ c ∈ m.consumer, c.out % size = m.taken.length % size
  | _ => True

instance decidableGuard (m : State) : (a : Label) → Decidable (Guard size m a)
  | .reset => inferInstanceAs (Decidable (m.appended.length = m.taken.length ∧
      ∀ c ∈ m.consumer, c.pc = .menu ∨ c.out % size = 0))
  | .consumerStart =>
    inferInstanceAs (Decidable (∀ c ∈ m.consumer, c.out % size = m.taken.length % size))
  | .start | .pause | .dump | .produce | .consumerOpen | .consumerPause | .consumerQuit
  | .consume => inferInstanceAs (Decidable True)

/-- Since the last reset no append found its position occupied, no take returned 0, and the values
taken are the first ones produced, in order. -/
def Good (m : State) : Prop :=
  (∀ c ∈ m.found, c = 0) ∧ (∀ v ∈ m.taken, v ≠ 0) ∧ m.taken <+: m.appended ∧
    m.appended.map UInt64.toNat = List.range' 1 m.appended.length

end Invariant

section Steps
variable {size : ℕ} {m m' : State}

theorem consumed_le (h : Inv size m) : m.consumed ≤ m.produced := by
  have hv := h.counts.values
  omega

theorem Inv.good (h : Inv size m) : Good m := by
  have hle := consumed_le h
  have hbound := h.logs.bound
  have hlt : m.produced < 2 ^ 64 - 1 := by
    unfold intMax at hbound
    omega
  have happended := toNat_of_listing h.logs.appended hlt
  have hfront : m.taken <+: m.appended := by
    have htake : m.taken = m.appended.take m.consumed := by
      rw [h.logs.taken, h.logs.appended, ← List.map_take, List.take_range, Nat.min_eq_left hle]
    rw [htake]
    exact List.take_prefix _ _
  refine ⟨h.logs.found, fun v hv h0 => ?_, hfront, happended⟩
  have hmem := List.mem_map_of_mem (f := UInt64.toNat) (hfront.subset hv)
  rw [happended, h0, List.mem_range'_1] at hmem
  exact absurd hmem.1 (by decide)

/-- A step that changes semaphores and places only. -/
theorem Inv.frame (h : Inv size m) {e n s : ℕ} {p : Producer} {c : Option Consumer}
    (he : e + p.pc.places + consumerPlaces c =
      m.e + m.producer.pc.places + consumerPlaces m.consumer)
    (hn : n + p.pc.values + consumerValues c =
      m.n + m.producer.pc.values + consumerValues m.consumer)
    (hp : ProducerOk m.produced m.consumed p)
    (hc : ∀ d, c = some d → InStep size m.consumed d) :
    Inv size { m with e := e, n := n, s := s, producer := p, consumer := c } := by
  refine ⟨⟨?_, ?_, h.counts.cells⟩, hp, hc, ⟨h.logs.found, h.logs.appended, h.logs.taken,
    h.logs.bound⟩⟩
  · show e + p.pc.places + consumerPlaces c + m.produced = size + m.consumed
    rw [he]
    exact h.counts.places
  · show n + p.pc.values + consumerValues c + m.consumed = m.produced
    rw [hn]
    exact h.counts.values

theorem room_of_place (h : Inv size m) (hpl : m.producer.pc.places = 1) :
    m.produced < m.consumed + size := by
  have hb := h.counts.places
  omega

/-- The producer goes on at another place, with what it knows of its position. -/
theorem Inv.producer_to (h : Inv size m) {p : Producer} {e n s : ℕ} (hm : m.producer = p)
    (pc : ProducerPc) (he : e + pc.places = m.e + p.pc.places)
    (hn : n + pc.values = m.n + p.pc.values)
    (hp : ProducerOk m.produced m.consumed { p with pc := pc }) :
    Inv size { m with e := e, n := n, s := s, producer := { p with pc := pc } } := by
  subst hm
  refine h.frame ?_ ?_ hp h.consumer
  · rw [he]
  · rw [hn]

theorem inv_appendRead (h : Inv size m) (hpc : m.producer.pc = .readCell) :
    Inv size { m with
      found := m.found ++ [m.buffer (m.producer.inn % size)]
      producer := { m.producer with pc := .writeCell } } := by
  have hp := h.producer
  have hpos : m.producer.inn = m.produced ∧ m.producer.data = word m.produced := by
    simpa [ProducerOk, hpc] using hp
  have hzero : m.buffer (m.producer.inn % size) = 0 := by
    rw [hpos.1]
    exact h.counts.cells.next_hole (room_of_place h (by rw [hpc]; rfl))
  have hnext := h.producer_to (s := m.s) rfl .writeCell (by rw [hpc]; rfl) (by rw [hpc]; rfl) hpos
  rw [hzero]
  exact ⟨⟨hnext.counts.places, hnext.counts.values, hnext.counts.cells⟩, hnext.producer,
    hnext.consumer, ⟨zeros_step h.logs.found (.inr rfl), h.logs.appended, h.logs.taken,
      h.logs.bound⟩⟩

theorem inv_appendWrite (h : Inv size m) (hpc : m.producer.pc = .writeCell)
    (hmax : m.producer.inn < intMax) :
    Inv size { m with
      buffer := Function.update m.buffer (m.producer.inn % size) (m.producer.data + 1)
      appended := m.appended ++ [m.producer.data + 1]
      producer := ⟨.postS, m.producer.inn + 1, m.producer.data + 1⟩ } := by
  have hp := h.producer
  obtain ⟨hinn, hdata⟩ : m.producer.inn = m.produced ∧ m.producer.data = word m.produced := by
    simpa [ProducerOk, hpc] using hp
  have hvalue : m.producer.data + 1 = item m.produced := by
    rw [hdata, word_succ]
    rfl
  have hroom := room_of_place h (by rw [hpc]; rfl)
  have hpl := h.counts.places
  have hva := h.counts.values
  simp only [hpc, ProducerPc.places] at hpl
  simp only [hpc, ProducerPc.values] at hva
  rw [hvalue, hinn]
  have hlen : (m.appended ++ [item m.produced]).length = m.produced + 1 := List.length_append
  refine ⟨⟨?_, ?_, ?_⟩, ⟨hlen.symm, ?_⟩, h.consumer,
    ⟨h.logs.found, listing_step h.logs.appended (.inr rfl), h.logs.taken, ?_⟩⟩
  · show m.e + 0 + consumerPlaces m.consumer + (m.appended ++ [item m.produced]).length =
      size + m.consumed
    omega
  · show m.n + 1 + consumerValues m.consumer + m.consumed =
      (m.appended ++ [item m.produced]).length
    omega
  · show Layout size item 0 m.consumed (m.appended ++ [item m.produced]).length _
    rw [hlen]
    exact h.counts.cells.append (consumed_le h) hroom
  · show item m.produced = word (m.appended ++ [item m.produced]).length
    rw [hlen]
    rfl
  · show (m.appended ++ [item m.produced]).length ≤ intMax
    rw [hlen]
    omega

theorem inv_clear (h : Inv size m) {i : ℕ} (hpc : m.producer.pc = .clear i) :
    Inv size { m with
      buffer := Function.update m.buffer i 0
      producer := { m.producer with pc := .clear (i + 1) } } := by
  have hp := h.producer
  have hempty : m.produced = 0 ∧ m.consumed = 0 := by simpa [ProducerOk, hpc] using hp
  have hnext :=
    h.producer_to (s := m.s) rfl (.clear (i + 1)) (by rw [hpc]; rfl) (by rw [hpc]; rfl) hempty
  have hcells : Layout size item 0 m.consumed m.produced (Function.update m.buffer i 0) := by
    have hcells := h.counts.cells
    rw [hempty.1, hempty.2] at hcells ⊢
    exact hcells.clear i
  exact ⟨⟨hnext.counts.places, hnext.counts.values, hcells⟩, hnext.producer, hnext.consumer,
    ⟨h.logs.found, h.logs.appended, h.logs.taken, h.logs.bound⟩⟩

theorem inv_produce (h : Inv size m) (hstep : produce size m = some m') : Inv size m' := by
  have hp := h.producer
  unfold produce at hstep
  cases hpc : m.producer.pc with
  | menu => simp [hpc] at hstep
  | waitE =>
    obtain ⟨hpos, rfl⟩ := by simpa [hpc] using hstep
    refine h.producer_to rfl .waitS ?_ (by rw [hpc]; rfl) (by simpa [ProducerOk, hpc] using hp)
    simp only [hpc, ProducerPc.places]
    omega
  | waitS =>
    obtain ⟨hpos, rfl⟩ := by simpa [hpc] using hstep
    exact h.producer_to rfl .readCell (by rw [hpc]; rfl) (by rw [hpc]; rfl)
      (by simpa [ProducerOk, hpc] using hp)
  | readCell =>
    obtain rfl := by simpa [hpc] using hstep
    exact inv_appendRead h hpc
  | writeCell =>
    obtain ⟨hmax, rfl⟩ := by simpa [hpc] using hstep
    exact inv_appendWrite h hpc hmax
  | postS =>
    obtain rfl := by simpa [hpc] using hstep
    exact h.producer_to rfl .postN (by rw [hpc]; rfl) (by rw [hpc]; rfl)
      (by simpa [ProducerOk, hpc] using hp)
  | postN =>
    obtain rfl := by simpa [hpc] using hstep
    exact h.producer_to rfl .poll (by rw [hpc]; rfl) (by rw [hpc]; rfl)
      (by simpa [ProducerOk, hpc] using hp)
  | poll =>
    obtain rfl := by simpa [hpc] using hstep
    exact h.producer_to rfl .waitE (by rw [hpc]; rfl) (by rw [hpc]; rfl)
      (by simpa [ProducerOk, hpc] using hp)
  | clear i =>
    by_cases hi : i < size
    · obtain rfl := by simpa [hpc, hi] using hstep
      exact inv_clear h hpc
    · obtain rfl := by simpa [hpc, hi] using hstep
      exact h.producer_to rfl .zero (by rw [hpc]; rfl) (by rw [hpc]; rfl)
        (by simpa [ProducerOk, hpc] using hp)
  | zero =>
    obtain rfl := by simpa [hpc] using hstep
    obtain ⟨hproduced, -⟩ : m.produced = 0 ∧ m.consumed = 0 := by simpa [ProducerOk, hpc] using hp
    refine h.frame ?_ ?_ ⟨hproduced.symm, by rw [hproduced]; rfl⟩ h.consumer
    · simp only [hpc, ProducerPc.places]
    · simp only [hpc, ProducerPc.values]

theorem producerOk_of_pos {produced consumed : ℕ} {p : Producer}
    (h : ProducerOk produced consumed p) (hpos : 0 < produced) (k : ℕ) :
    ProducerOk produced k p := by
  unfold ProducerOk at *
  cases hpc : p.pc with
  | clear i =>
    simp only [hpc] at h
    omega
  | zero =>
    simp only [hpc] at h
    omega
  | menu | waitE | waitS | readCell | writeCell | postS | postN | poll =>
    simpa only [hpc] using h

theorem Inv.consumer_to (h : Inv size m) {c : Consumer} {e n s : ℕ} (hc : m.consumer = some c)
    (d : Consumer) (he : e + consumerPlaces (some d) = m.e + consumerPlaces (some c))
    (hn : n + consumerValues (some d) = m.n + consumerValues (some c))
    (hd : InStep size m.consumed d) :
    Inv size { m with e := e, n := n, s := s, consumer := some d } := by
  refine h.frame ?_ ?_ h.producer fun d' hd' => ?_
  · rw [hc]
    omega
  · rw [hc]
    omega
  · obtain rfl := Option.some.inj hd'
    exact hd

theorem inv_takeClear (h : Inv size m) {c : Consumer} (hc : m.consumer = some c)
    (hpc : c.pc = .clearCell) :
    Inv size { m with
      buffer := Function.update m.buffer c.idx 0
      taken := m.taken ++ [c.data]
      consumer := some { c with pc := .postS } } := by
  have hin := h.consumer c hc
  obtain ⟨hout, hidx, hdata⟩ : c.out % size = (m.consumed + 1) % size ∧
      c.idx = m.consumed % size ∧ c.data = item m.consumed := by
    simpa only [InStep, hpc] using hin
  have hpl := h.counts.places
  have hva := h.counts.values
  simp only [hc, consumerPlaces, Option.map_some, hpc] at hpl
  simp only [hc, consumerValues, Option.map_some, hpc] at hva
  have hlen : (m.taken ++ [item m.consumed]).length = m.consumed + 1 := List.length_append
  rw [hdata, hidx]
  refine ⟨⟨?_, ?_, ?_⟩, ?_, ?_, ⟨h.logs.found, h.logs.appended,
    listing_step h.logs.taken (.inr rfl), h.logs.bound⟩⟩
  · show m.e + m.producer.pc.places + 1 + m.produced =
      size + (m.taken ++ [item m.consumed]).length
    omega
  · show m.n + m.producer.pc.values + 0 + (m.taken ++ [item m.consumed]).length = m.produced
    omega
  · show Layout size item 0 (m.taken ++ [item m.consumed]).length m.produced _
    rw [hlen]
    exact h.counts.cells.take (by omega) (by omega)
  · exact producerOk_of_pos h.producer (by omega) _
  · intro d hd
    obtain rfl := Option.some.inj hd
    show c.out % size = (m.taken ++ [item m.consumed]).length % size
    rw [hlen]
    exact hout

theorem inv_consume (h : Inv size m) {c : Consumer} (hc : m.consumer = some c)
    (hstep : consume size m c = some m') : Inv size m' := by
  have hin := h.consumer c hc
  unfold consume at hstep
  cases hpc : c.pc with
  | menu => simp [hpc] at hstep
  | waitN =>
    obtain ⟨hpos, rfl⟩ := by simpa [hpc] using hstep
    refine h.consumer_to hc _ ?_ ?_ (by simpa only [InStep, hpc] using hin)
    · simp [consumerPlaces, hpc]
    · simp only [consumerValues, Option.map_some, hpc]
      omega
  | waitS =>
    obtain ⟨hpos, rfl⟩ := by simpa [hpc] using hstep
    refine h.consumer_to hc _ ?_ ?_ (by simpa only [InStep, hpc] using hin)
    · simp [consumerPlaces, hpc]
    · simp [consumerValues, hpc]
  | readCell =>
    obtain ⟨hmax, rfl⟩ := by simpa [hpc] using hstep
    have hout : c.out % size = m.consumed % size := by simpa only [InStep, hpc] using hin
    have hva := h.counts.values
    simp only [hc, consumerValues, Option.map_some, hpc] at hva
    have hlt : m.consumed < m.produced := by omega
    refine h.consumer_to hc _ ?_ ?_ ⟨Nat.add_mod_eq_add_mod_right 1 hout, hout, ?_⟩
    · simp [consumerPlaces, hpc]
    · simp [consumerValues, hpc]
    · show m.buffer (c.out % size) = item m.consumed
      rw [hout]
      exact h.counts.cells.first_item hlt
  | clearCell =>
    obtain rfl := by simpa [hpc] using hstep
    exact inv_takeClear h hc hpc
  | postS =>
    obtain rfl := by simpa [hpc] using hstep
    refine h.consumer_to hc _ ?_ ?_ (by simpa only [InStep, hpc] using hin)
    · simp [consumerPlaces, hpc]
    · simp [consumerValues, hpc]
  | postE =>
    obtain rfl := by simpa [hpc] using hstep
    refine h.consumer_to hc _ ?_ ?_ (by simpa only [InStep, hpc] using hin)
    · simp only [consumerPlaces, Option.map_some, hpc]
    · simp [consumerValues, hpc]
  | poll =>
    obtain rfl := by simpa [hpc] using hstep
    refine h.consumer_to hc _ ?_ ?_ (by simpa only [InStep, hpc] using hin)
    · simp [consumerPlaces, hpc]
    · simp [consumerValues, hpc]

theorem inv_menu (h : Inv size m) (hpc : m.producer.pc = .menu ∨ m.producer.pc = .poll)
    {pc : ProducerPc} (hpc' : pc = .menu ∨ pc = .waitE) :
    Inv size { m with producer := { m.producer with pc := pc } } := by
  have hp := h.producer
  refine h.frame ?_ ?_ ?_ h.consumer
  · rcases hpc with hpc | hpc <;> rcases hpc' with rfl | rfl <;> simp [hpc, ProducerPc.places]
  · rcases hpc with hpc | hpc <;> rcases hpc' with rfl | rfl <;> simp [hpc, ProducerPc.values]
  · rcases hpc with hpc | hpc <;> rcases hpc' with rfl | rfl <;>
      simpa [ProducerOk, hpc] using hp

theorem inv_reset (h : Inv size m) (hpc : m.producer.pc = .menu) (hg : Guard size m .reset) :
    Inv size { m with
      producer := { m.producer with pc := .clear 0 }
      found := []
      appended := []
      taken := [] } := by
  obtain ⟨htaken, hmult⟩ := hg
  have hall : m.produced = m.consumed := htaken
  have hpl := h.counts.places
  have hva := h.counts.values
  have hcells := h.counts.cells
  simp only [hpc, ProducerPc.places] at hpl
  simp only [hpc, ProducerPc.values] at hva
  rw [hall] at hcells
  refine ⟨⟨?_, ?_, hcells.move 0⟩, ⟨rfl, rfl⟩, ?_, ⟨nofun, rfl, rfl, Nat.zero_le _⟩⟩
  · show m.e + 0 + consumerPlaces m.consumer + 0 = size + 0
    omega
  · show m.n + 0 + consumerValues m.consumer + 0 = 0
    omega
  · intro c hc
    have hc : m.consumer = some c := hc
    rw [hc] at hva
    show InStep size 0 c
    unfold InStep
    cases hcpc : c.pc with
    | menu => trivial
    | clearCell =>
      simp only [consumerValues, Option.map_some, hcpc] at hva
      omega
    | waitN | waitS | readCell | postS | postE | poll =>
      show c.out % size = 0 % size
      rw [Nat.zero_mod]
      exact (hmult c hc).resolve_left (by simp [hcpc])

theorem inv_consumer (h : Inv size m) {c : Option Consumer}
    (hpl : consumerPlaces c = consumerPlaces m.consumer)
    (hva : consumerValues c = consumerValues m.consumer)
    (hin : ∀ d, c = some d → InStep size m.consumed d) : Inv size { m with consumer := c } := by
  refine h.frame ?_ ?_ h.producer hin
  · rw [hpl]
  · rw [hva]

theorem inv_step (s : State) (a : Label) (s' : State) (h : Inv size s) (hg : Guard size s a)
    (hstep : step size s a = some s') : Inv size s' := by
  cases a with
  | start =>
    obtain ⟨hpc, rfl⟩ := by simpa [step] using hstep
    exact inv_menu h (.inl hpc) (.inr rfl)
  | pause =>
    obtain ⟨hpc, rfl⟩ := by simpa [step] using hstep
    exact inv_menu h (.inr hpc) (.inl rfl)
  | dump =>
    obtain ⟨-, rfl⟩ := by simpa [step] using hstep
    exact h
  | reset =>
    obtain ⟨hpc, rfl⟩ := by simpa [step] using hstep
    exact inv_reset h hpc hg
  | produce => exact inv_produce h hstep
  | consumerOpen =>
    cases hc : s.consumer with
    | some c => simp [step, hc] at hstep
    | none =>
      obtain rfl := by simpa [step, hc] using hstep
      refine inv_consumer h (by rw [hc]; rfl) (by rw [hc]; rfl) fun d hd => ?_
      obtain rfl := Option.some.inj hd
      trivial
  | consumerStart =>
    cases hc : s.consumer with
    | none => simp [step, hc] at hstep
    | some c =>
      obtain ⟨hpc, rfl⟩ := by simpa [step, hc] using hstep
      refine h.consumer_to hc _ ?_ ?_ (hg c hc)
      · simp [consumerPlaces, hpc]
      · simp [consumerValues, hpc]
  | consumerPause =>
    cases hc : s.consumer with
    | none => simp [step, hc] at hstep
    | some c =>
      obtain ⟨hpc, rfl⟩ := by simpa [step, hc] using hstep
      refine h.consumer_to hc _ ?_ ?_ trivial
      · simp [consumerPlaces, hpc]
      · simp [consumerValues, hpc]
  | consumerQuit =>
    cases hc : s.consumer with
    | none => simp [step, hc] at hstep
    | some c =>
      obtain ⟨hpc, rfl⟩ := by simpa [step, hc] using hstep
      refine inv_consumer h ?_ ?_ nofun
      · simp [hc, consumerPlaces, hpc]
      · simp [hc, consumerValues, hpc]
  | consume =>
    obtain ⟨c, hc, hstep⟩ := Option.bind_eq_some_iff.mp hstep
    exact inv_consume h hc hstep

theorem inv_initial (size : ℕ) : Inv size (initial size) where
  counts := ⟨rfl, rfl, layout_empty 0 fun _ => rfl⟩
  producer := ⟨rfl, rfl⟩
  consumer := nofun
  logs := ⟨nofun, rfl, rfl, Nat.zero_le _⟩

/-- **Where the steps meet `Guard`, producer and consumer stay in step.** -/
theorem stay_in_step {ls : List Label} (h : AllSteps (step size) (Guard size) (initial size) ls) :
    AllStates (step size) Good (initial size) ls :=
  allStates_of_allSteps inv_step (fun _ => Inv.good) (inv_initial size) h

end Steps

/-- One value goes through a buffer of two cells; then the consumer quits and the producer resets. -/
def inStep : List Label :=
  [[.start, .consumerOpen, .consumerStart], .replicate 6 .produce, .replicate 6 .consume,
    [.consumerPause, .consumerQuit, .pause, .dump, .reset], .replicate 4 .produce,
    [.consumerOpen, .consumerStart]].flatten

theorem inStep_guarded : AllSteps (step 2) (Guard 2) (initial 2) inStep := by decide +kernel

theorem stay_in_step_once : AllStates (step 2) Good (initial 2) inStep :=
  stay_in_step inStep_guarded

/-- A second consumer starts at 0 when the next value is in cell 1. -/
def restarted : List Label :=
  [[.start, .consumerOpen, .consumerStart], .replicate 6 .produce, .replicate 6 .consume,
    [.consumerPause, .consumerQuit, .consumerOpen, .consumerStart], .replicate 7 .produce,
    .replicate 4 .consume].flatten

theorem after_restarted :
    (after (step 2) (initial 2) restarted).map State.taken = some [1, 0] := by
  decide +kernel

theorem restarted_out_of_step : ¬ AllStates (step 2) Good (initial 2) restarted := by
  intro h
  obtain ⟨s, hs, htaken⟩ := Option.map_eq_some_iff.mp after_restarted
  obtain ⟨-, hzero, -⟩ := h.after hs
  exact hzero 0 (by rw [htaken]; simp) rfl

end El32.ProducerConsumer

import El32.Foundations.Transition
import El32.Socket.EchoHandler

/-! `TCPEchoClient.c` against an echo server: what it prints as received.

The client sends its arguments one by one and after each makes a single `recv`. The two byte streams
keep no boundaries, so a `recv` may return less than an answer, and more than the last one. -/
namespace El32.EchoClient
open CString ByteStream Socket Transition
set_option autoImplicit false

/-- A data argument, without its terminator. -/
abbrev Arg := { s : List UInt8 // s ≠ [] ∧ (0 : UInt8) ∉ s }

/-- Where the client is in its loop. Once an array was overrun nothing more is known of it. -/
inductive ClientPc where
  | send
  | recv
  | closed
  | overrun
deriving DecidableEq

structure Client where
  i : ℕ
  echoBuffer : CBuf rcvBufSize
  printed : List (List UInt8)
  pc : ClientPc
deriving DecidableEq

structure State where
  client : Client
  conn : Conn
deriving DecidableEq

def initial (clientBuffer serverBuffer : CBuf rcvBufSize) : State where
  client := ⟨0, clientBuffer, [], .send⟩
  conn := ⟨Handler.start serverBuffer, ⟨[], false⟩, ⟨[], false⟩⟩

def sendingToServer : List UInt8 :=
  ['S', 'e', 'n', 'd', 'i', 'n', 'g', ' ', 't', 'o', ' ', 's', 'e', 'r', 'v', 'e', 'r', ':', ' ',
    ' '].map Char.toUInt8

/-- The client or the handler takes its next step, in which a `recv` returns `n` bytes. -/
inductive Label where
  | client (n : ℕ)
  | server (n : ℕ)
deriving DecidableEq

/-- A `send`, with the `info_s` behind it, and a `recv`, with what is printed, are steps. -/
def clientStep (args : List Arg) (s : State) (n : ℕ) : Option State :=
  match s.client.pc with
  | .send =>
    match args[s.client.i]? with
    | none => some ⟨{ s.client with pc := .closed }, { s.conn with up := s.conn.up.close }⟩
    | some echoString =>
      let pc := match infoS sendingToServer (echoString.val ++ [0]) with
        | some () => ClientPc.recv
        | none => ClientPc.overrun
      some ⟨{ s.client with pc := pc }, { s.conn with up := s.conn.up.send echoString.val }⟩
  | .recv => do
    let (chunk, down) ← s.conn.down.recv (rcvBufSize - 1) n
    let echoBuffer ← s.client.echoBuffer.writeAt 0 chunk
    let echoBuffer ← addNt echoBuffer chunk.length
    let received ← text echoBuffer.bytes
    some ⟨⟨s.client.i + 1, echoBuffer, s.client.printed ++ [received], .send⟩,
      { s.conn with down := down }⟩
  | .closed | .overrun => none

def step (args : List Arg) (s : State) : Label → Option State
  | .client n => clientStep args s n
  | .server n => (s.conn.step n).map fun conn => { s with conn := conn }

/-- What the client should print for the arguments. -/
def answers (args : List Arg) : List (List UInt8) := args.map fun a => a.val.map swapCase

/-- The strings printed so far are the answers in order; the client goes on until it has printed them
all. -/
structure Aligned (args : List Arg) (s : State) : Prop where
  intact : s.client.pc ≠ .overrun
  printed : s.client.printed <+: answers args
  complete : s.client.pc = .closed → s.client.printed = answers args
  goesOn : s.client.pc ≠ .closed → ∃ a, (step args s a).isSome

/-- The condition on a step: the text of `info_s` fits its array, and a `recv` of the client returns
as many bytes as the argument it has sent. -/
def WholeReply (args : List Arg) (s : State) : Label → Prop
  | .server _ => True
  | .client n => ∀ a, args[s.client.i]? = some a →
    match s.client.pc with
    | .send => a.val.length < 57
    | .recv => n = a.val.length
    | .closed | .overrun => True

/-! ## What every step keeps -/

/-- The arguments sent. -/
def sentArgs (args : List Arg) (c : Client) : List Arg :=
  match c.pc with
  | .send | .closed => args.take c.i
  | .recv | .overrun => args.take (c.i + 1)

/-- What was printed and what is still to come are the answers to what was sent. -/
structure Inv (args : List Arg) (s : State) : Prop where
  flow : ∃ bytes, s.conn.Flow bytes ∧
    s.client.printed.flatten ++ bytes = (answers (sentArgs args s.client)).flatten
  count : s.client.printed.length = s.client.i
  sending : s.client.pc = .recv → s.client.i < args.length
  closed : s.client.pc = .closed → args.length ≤ s.client.i
  open_up : s.conn.up.closed = true → s.client.pc = .closed
  open_down : s.conn.down.closed = true → s.conn.up.closed = true

section Conn
variable {c : Conn} {bytes bs chunk : List UInt8} {n : ℕ}

theorem flow_sent (hf : c.Flow bytes) (hopen : c.up.closed = false) (h0 : (0 : UInt8) ∉ bs) :
    Conn.Flow { c with up := c.up.send bs } (bytes ++ bs.map swapCase) := by
  obtain ⟨hup, hend, out, hp, hbytes⟩ := hf
  refine ⟨by simp [Stream.send, hup, h0], ?_, out, hp, ?_⟩
  · intro hpc
    rw [(hend hpc).2] at hopen
    cases hopen
  · rw [← hbytes]
    simp [Stream.send]

theorem flow_closed (hf : c.Flow bytes) : Conn.Flow { c with up := c.up.close } bytes := by
  obtain ⟨hup, hend, out, hp, hbytes⟩ := hf
  exact ⟨hup, fun hpc => ⟨(hend hpc).1, rfl⟩, out, hp, hbytes⟩

theorem flow_taken {size : ℕ} {down : Stream UInt8} (hf : c.Flow bytes)
    (hr : c.down.recv size n = some (chunk, down)) :
    ∃ rest, bytes = chunk ++ rest ∧ Conn.Flow { c with down := down } rest := by
  obtain ⟨hup, hend, out, hp, hbytes⟩ := hf
  obtain ⟨hdown, -⟩ := Stream.recv_cases hr
  refine ⟨down.bytes ++ out ++ c.up.bytes.map swapCase, ?_, hup, hend, out, hp, rfl⟩
  rw [← hbytes, hdown]
  simp

/-- While an answer is to come, either the client can read a part of it or the handler has something to
do. -/
theorem flow_enabled (hf : c.Flow bytes) (hne : bytes ≠ []) :
    0 < c.down.bytes.length ∨ (c.step 1).isSome := by
  by_cases hdown : c.down.bytes = []
  · right
    obtain ⟨-, hend, out, hp, hbytes⟩ := id hf
    have hpc : c.handler.pc ≠ .closed := by
      intro hpc
      have hnil : out = [] := by simpa [Handler.Pending, hpc] using hp
      rw [hdown, hnil, (hend hpc).1] at hbytes
      exact hne hbytes.symm
    have hrecv : c.handler.pc = .recv → (c.up.recv (rcvBufSize - 1) 1).isSome := by
      intro hpc
      have hnil : out = [] := by simpa [Handler.Pending, hpc] using hp
      have hup : 1 ≤ c.up.bytes.length := by
        rw [hdown, hnil] at hbytes
        rw [Nat.one_le_iff_ne_zero, ne_eq, List.length_eq_zero_iff]
        intro hup
        rw [hup] at hbytes
        exact hne hbytes.symm
      rw [Stream.recv_some _ Nat.one_pos (by decide) hup]
      rfl
    obtain ⟨c', hc', -⟩ := flow_goes_on hf hpc hrecv
    rw [hc']
    rfl
  · exact .inl (List.length_pos_iff.mpr hdown)

end Conn

section Step
variable {args : List Arg} {s s' : State} {a : Arg} {n : ℕ}

theorem nul_notMem_answers (as : List Arg) : (0 : UInt8) ∉ (answers as).flatten := by
  simp only [answers, List.mem_flatten, List.mem_map]
  rintro ⟨_, ⟨a, -, rfl⟩, h0⟩
  exact a.property.2 ((zero_mem_map_swapCase a.val).mp h0)

theorem answers_take_succ {i : ℕ} (h : args[i]? = some a) :
    answers (args.take (i + 1)) = answers (args.take i) ++ [a.val.map swapCase] := by
  rw [List.take_add_one, h]
  simp [answers]

theorem inv_initial (args : List Arg) (clientBuffer serverBuffer : CBuf rcvBufSize) :
    Inv args (initial clientBuffer serverBuffer) where
  flow := ⟨[], ⟨by simp [initial], nofun, [], rfl, rfl⟩, rfl⟩
  count := rfl
  sending := nofun
  closed := nofun
  open_up := nofun
  open_down := nofun

theorem inv_server {conn : Conn} (h : Inv args s) (hstep : s.conn.step n = some conn) :
    Inv args { s with conn := conn } := by
  obtain ⟨⟨bytes, hf, hbytes⟩, hcount, hsending, hclosed, hopen, hdown⟩ := h
  obtain ⟨hf', hup⟩ := flow_step hf hstep
  refine ⟨⟨bytes, hf', hbytes⟩, hcount, hsending, hclosed, fun hc => hopen (hup.symm.trans hc), ?_⟩
  intro hc
  obtain hold | hnew := step_closed hstep hc
  · exact hup.trans (hdown hold)
  · exact hnew

/-- What a `recv` stored and `add_nt` terminated is printed whole. -/
theorem received_text {chunk : List UInt8} (buf : CBuf rcvBufSize) (h0 : (0 : UInt8) ∉ chunk)
    (hlen : chunk.length < rcvBufSize) : ∃ b₁ b₂, buf.writeAt 0 chunk = some b₁ ∧
      addNt b₁ chunk.length = some b₂ ∧ text b₂.bytes = some chunk := by
  obtain ⟨b₁, b₂, rest, hb₁, hb₂, hbytes⟩ := received_bytes buf hlen
  exact ⟨b₁, b₂, hb₁, hb₂, by rw [hbytes, text_of_terminated h0]⟩

theorem send_cases (hpc : s.client.pc = .send) (hstep : step args s (.client n) = some s') :
    (args[s.client.i]? = none ∧
      s' = ⟨{ s.client with pc := .closed }, { s.conn with up := s.conn.up.close }⟩) ∨
    ∃ a pc, args[s.client.i]? = some a ∧ (pc = ClientPc.recv ∧ a.val.length < 57 ∨
        pc = ClientPc.overrun ∧ 57 ≤ a.val.length) ∧
      s' = ⟨{ s.client with pc := pc }, { s.conn with up := s.conn.up.send a.val }⟩ := by
  simp only [step, clientStep, hpc] at hstep
  cases hget : args[s.client.i]? with
  | none =>
    rw [hget] at hstep
    exact .inl ⟨rfl, (Option.some.inj hstep).symm⟩
  | some a =>
    simp only [hget] at hstep
    have htext : text (a.val ++ [0]) = some a.val := text_of_terminated a.property.2 []
    have hprefix : sendingToServer.length = 20 := rfl
    refine .inr ⟨a, _, rfl, ?_, (Option.some.inj hstep).symm⟩
    rw [infoS, htext, bind_eq, some_bind]
    by_cases hlen : a.val.length < 57
    · rw [if_pos (by omega)]
      exact .inl ⟨rfl, hlen⟩
    · rw [if_neg (by omega)]
      exact .inr ⟨rfl, by omega⟩

/-- A `recv` of the client takes the next bytes of the answers, as many as TCP gives it. -/
theorem recv_cases (hinv : Inv args s) (hpc : s.client.pc = .recv)
    (hstep : step args s (.client n) = some s') :
    ∃ chunk rest buf down, s.conn.down.recv (rcvBufSize - 1) n = some (chunk, down) ∧
      chunk.length = n ∧ Conn.Flow { s.conn with down := down } rest ∧
      s.client.printed.flatten ++ chunk ++ rest = (answers (args.take (s.client.i + 1))).flatten ∧
      s' = ⟨⟨s.client.i + 1, buf, s.client.printed ++ [chunk], .send⟩,
        { s.conn with down := down }⟩ := by
  obtain ⟨bytes, hf, hbytes⟩ := hinv.flow
  simp only [step, clientStep, hpc, bind_eq] at hstep
  obtain ⟨⟨chunk, down⟩, hr, hstep⟩ := Option.bind_eq_some_iff.mp hstep
  obtain ⟨-, -, hlen, hsize, -⟩ := Stream.recv_cases hr
  obtain ⟨rest, rfl, hrest⟩ := flow_taken hf hr
  simp only [sentArgs, hpc, ← List.append_assoc] at hbytes
  have h0 : (0 : UInt8) ∉ chunk := by
    have hall := nul_notMem_answers (args.take (s.client.i + 1))
    rw [← hbytes] at hall
    exact fun hmem => hall (List.mem_append_left _ (List.mem_append_right _ hmem))
  have hlt : chunk.length < rcvBufSize := by
    rw [hlen]
    exact Nat.lt_of_le_of_lt hsize (by decide)
  obtain ⟨b₁, b₂, hb₁, hb₂, htext⟩ := received_text s.client.echoBuffer h0 hlt
  simp only [hb₁, hb₂, htext, some_bind] at hstep
  exact ⟨chunk, rest, b₂, down, hr, hlen, hrest, hbytes, (Option.some.inj hstep).symm⟩

theorem inv_client (h : Inv args s) (hstep : step args s (.client n) = some s') : Inv args s' := by
  obtain ⟨bytes, hf, hbytes⟩ := h.flow
  cases hpc : s.client.pc with
  | send =>
    have hopen : s.conn.up.closed = false := by
      by_contra hup
      have hend := h.open_up (by simpa using hup)
      rw [hpc] at hend
      cases hend
    simp only [sentArgs, hpc] at hbytes
    obtain ⟨hget, rfl⟩ | ⟨a, pc, hget, hend, rfl⟩ := send_cases hpc hstep
    · exact ⟨⟨bytes, flow_closed hf, hbytes⟩, h.count, nofun,
        fun _ => List.getElem?_eq_none_iff.mp hget, fun _ => rfl, fun _ => rfl⟩
    · refine ⟨⟨_, flow_sent hf hopen a.property.2, ?_⟩, h.count,
        fun _ => (List.getElem?_eq_some_iff.mp hget).1, ?_, ?_, h.open_down⟩
      · have hsent : sentArgs args { s.client with pc := pc } = args.take (s.client.i + 1) := by
          obtain ⟨rfl, -⟩ | ⟨rfl, -⟩ := hend <;> rfl
        rw [hsent, answers_take_succ hget, List.flatten_concat, ← hbytes, List.append_assoc]
      · rintro rfl
        simp at hend
      · intro hup
        rw [show (s.conn.up.send a.val).closed = s.conn.up.closed from rfl, hopen] at hup
        cases hup
  | recv =>
    obtain ⟨chunk, rest, buf, down, hr, hlen, hrest, hflat, rfl⟩ := recv_cases h hpc hstep
    have hsame := (Stream.recv_cases hr).2.1
    refine ⟨⟨rest, hrest, ?_⟩, by simp [h.count], nofun, nofun, ?_,
      fun hc => h.open_down (hsame.symm.trans hc)⟩
    · simpa [sentArgs] using hflat
    · intro hup
      have hend := h.open_up hup
      rw [hpc] at hend
      cases hend
  | closed => simp [step, clientStep, hpc] at hstep
  | overrun => simp [step, clientStep, hpc] at hstep

theorem inv_step (s : State) (l : Label) (s' : State) (h : Inv args s)
    (hstep : step args s l = some s') : Inv args s' := by
  cases l with
  | client n => exact inv_client h hstep
  | server n =>
    obtain ⟨conn, hconn, rfl⟩ := Option.map_eq_some_iff.mp hstep
    exact inv_server h hconn

/-! ## When the strings stay aligned -/

theorem printed_eq (h : Inv args s) (hpre : s.client.printed <+: answers args) :
    s.client.printed = answers (args.take s.client.i) := by
  rw [List.prefix_iff_eq_take.mp hpre, h.count, answers, answers, List.map_take]

/-- While the strings are aligned, nothing but the answer to the last argument is to come. -/
theorem next_answer (h : Inv args s) (hpre : s.client.printed <+: answers args)
    (hpc : s.client.pc = .recv) :
    ∃ a, args[s.client.i]? = some a ∧ s.conn.Flow (a.val.map swapCase) := by
  obtain ⟨bytes, hf, hbytes⟩ := h.flow
  have hget := List.getElem?_eq_getElem (h.sending hpc)
  simp only [sentArgs, hpc] at hbytes
  rw [answers_take_succ hget, List.flatten_concat, printed_eq h hpre] at hbytes
  obtain rfl := List.append_cancel_left hbytes
  exact ⟨_, hget, hf⟩

theorem goes_on (h : Inv args s) (hpre : s.client.printed <+: answers args)
    (hintact : s.client.pc ≠ .overrun) (hpc : s.client.pc ≠ .closed) :
    ∃ l, (step args s l).isSome := by
  cases hp : s.client.pc with
  | send =>
    refine ⟨.client 0, ?_⟩
    simp only [step, clientStep, hp]
    cases args[s.client.i]? <;> rfl
  | recv =>
    obtain ⟨a, -, hf⟩ := next_answer h hpre hp
    obtain hdown | hserver := flow_enabled hf (by simpa using a.property.1)
    · refine ⟨.client 1, ?_⟩
      have hr : s.conn.down.recv (rcvBufSize - 1) 1 = _ :=
        s.conn.down.recv_some Nat.one_pos (by decide) hdown
      obtain ⟨rest, hrest, -⟩ := flow_taken hf hr
      have h0 : (0 : UInt8) ∉ s.conn.down.bytes.take 1 := by
        have ha := (zero_mem_map_swapCase a.val).not.mpr a.property.2
        rw [hrest] at ha
        exact fun hmem => ha (List.mem_append_left _ hmem)
      have hlen : (s.conn.down.bytes.take 1).length < rcvBufSize := by
        rw [List.length_take_of_le hdown]
        decide
      obtain ⟨b₁, b₂, hb₁, hb₂, htext⟩ := received_text s.client.echoBuffer h0 hlen
      simp only [step, clientStep, hp, hr, bind_eq, some_bind, hb₁, hb₂, htext]
      rfl
    · exact ⟨.server 1, by simpa [step] using hserver⟩
  | closed => exact absurd hp hpc
  | overrun => exact absurd hp hintact

theorem aligned_of (h : Inv args s) (hpre : s.client.printed <+: answers args)
    (hintact : s.client.pc ≠ .overrun) : Aligned args s where
  intact := hintact
  printed := hpre
  complete hpc := by
    rw [printed_eq h hpre, List.take_of_length_le (h.closed hpc)]
  goesOn := goes_on h hpre hintact

theorem aligned_send (h : Inv args s) (hal : Aligned args s) (hpc : s.client.pc = .send)
    (hstep : step args s (.client n) = some s') :
    Aligned args s' ↔ WholeReply args s (.client n) := by
  have hinv := inv_client h hstep
  obtain ⟨hget, rfl⟩ | ⟨a, pc, hget, hend, rfl⟩ := send_cases hpc hstep
  · simp only [WholeReply, hget]
    exact iff_of_true (aligned_of hinv hal.printed (by simp)) nofun
  · simp only [WholeReply, hget, hpc, Option.some.injEq, forall_eq']
    obtain ⟨rfl, hlen⟩ | ⟨rfl, hlen⟩ := hend
    · exact iff_of_true (aligned_of hinv hal.printed (by simp)) hlen
    · exact iff_of_false (fun hbad => hbad.intact rfl) (by omega)

theorem aligned_recv (h : Inv args s) (hal : Aligned args s) (hpc : s.client.pc = .recv)
    (hstep : step args s (.client n) = some s') :
    Aligned args s' ↔ WholeReply args s (.client n) := by
  have hinv := inv_client h hstep
  obtain ⟨a, hget, -⟩ := next_answer h hal.printed hpc
  obtain ⟨chunk, rest, buf, down, -, rfl, -, hflat, rfl⟩ := recv_cases h hpc hstep
  have hsplit : chunk ++ rest = a.val.map swapCase := by
    rw [answers_take_succ hget, List.flatten_concat, printed_eq h hal.printed,
      List.append_assoc] at hflat
    exact List.append_cancel_left hflat
  simp only [WholeReply, hget, hpc, Option.some.injEq, forall_eq']
  constructor
  · intro hbad
    have hnext := printed_eq hinv hbad.printed
    rw [answers_take_succ hget, printed_eq h hal.printed] at hnext
    have hchunk : [chunk] = [a.val.map swapCase] := List.append_cancel_left hnext
    rw [List.singleton_inj.mp hchunk, List.length_map]
  · intro hlen
    have hchunk : chunk = a.val.map swapCase :=
      (List.append_inj (hsplit.trans (List.append_nil _).symm) (by simpa using hlen)).1
    refine aligned_of hinv ?_ (by simp)
    rw [printed_eq h hal.printed, hchunk, ← answers_take_succ hget, answers, answers, List.map_take]
    exact List.take_prefix _ _

theorem aligned_iff (s : State) (l : Label) (s' : State) (h : Inv args s) (hal : Aligned args s)
    (hstep : step args s l = some s') : Aligned args s' ↔ WholeReply args s l := by
  cases l with
  | client n =>
    cases hpc : s.client.pc with
    | send => exact aligned_send h hal hpc hstep
    | recv => exact aligned_recv h hal hpc hstep
    | closed => simp [step, clientStep, hpc] at hstep
    | overrun => simp [step, clientStep, hpc] at hstep
  | server n =>
    have hinv := inv_step s _ s' h hstep
    obtain ⟨conn, -, rfl⟩ := Option.map_eq_some_iff.mp hstep
    exact iff_of_true (aligned_of hinv hal.printed hal.intact) trivial

/-- An answer of one byte comes in one piece. -/
theorem wholeReply_of_one (hall : ∀ a ∈ args, a.val.length = 1) (h : Inv args s)
    (hal : Aligned args s) {l : Label} (hstep : step args s l = some s') : WholeReply args s l := by
  cases l with
  | server n => trivial
  | client n =>
    intro a hget
    have hone := hall a (List.mem_of_getElem? hget)
    cases hpc : s.client.pc with
    | send =>
      show a.val.length < 57
      omega
    | recv =>
      show n = a.val.length
      obtain ⟨chunk, rest, buf, down, hr, rfl, -, hflat, -⟩ := recv_cases h hpc hstep
      rw [answers_take_succ hget, List.flatten_concat, printed_eq h hal.printed,
        List.append_assoc] at hflat
      have hlen := congrArg List.length (List.append_cancel_left hflat)
      rw [List.length_append, List.length_map] at hlen
      obtain hzero | hpos := Nat.eq_zero_or_pos chunk.length
      · have hend := h.open_up (h.open_down ((Stream.recv_cases hr).2.2.2.2 hzero).2)
        rw [hpc] at hend
        cases hend
      · omega
    | closed => trivial
    | overrun => trivial

end Step

/-! ## Answers cut after one byte -/

/-- The client sends an argument, the handler takes a byte of it and the client prints the answer to
that. -/
def oneByte : List Label := [.client 0, .server 1, .server 0, .server 0, .client 1]

structure Idle (s : State) : Prop where
  send : s.client.pc = .send
  recv : s.conn.handler.pc = .recv
  up : s.conn.up.bytes = []
  down : s.conn.down.bytes = []

section Idle
variable {args : List Arg} {s : State} {a : Arg}

theorem after_server (s : State) (ns : List ℕ) {conn : Conn}
    (h : after Conn.step s.conn ns = some conn) :
    after (step args) s (ns.map .server) = some { s with conn := conn } := by
  induction ns generalizing s with
  | nil =>
    obtain rfl : s.conn = conn := by simpa [after] using h
    rfl
  | cons n ns ih =>
    cases hn : s.conn.step n with
    | none => simp [after, hn] at h
    | some c =>
      rw [after_cons hn] at h
      have hs : step args s (.server n) = some { s with conn := c } := by simp [step, hn]
      rw [List.map_cons, after_cons hs]
      exact ih { s with conn := c } h

/-- The handler has sent the answer to the first byte `b` of the argument. -/
theorem after_sent {b : UInt8} {bytes : List UInt8} (hidle : Idle s)
    (hget : args[s.client.i]? = some a) (hcons : a.val = b :: bytes) (hlen : a.val.length < 57) :
    ∃ s', after (step args) s [.client 0, .server 1, .server 0, .server 0] = some s' ∧
      s'.client = { s.client with pc := .recv } ∧ s'.conn.handler.pc = .recv ∧
      s'.conn.up.bytes = bytes ∧ s'.conn.down.bytes = [swapCase b] := by
  have h0 : (0 : UInt8) ∉ [b] := by
    have ha := a.property.2
    rw [hcons] at ha
    simpa using fun hb : (0 : UInt8) = b => ha (hb ▸ List.mem_cons_self)
  let s₁ : State :=
    ⟨{ s.client with pc := .recv }, { s.conn with up := s.conn.up.send a.val }⟩
  have hs₁ : step args s (.client 0) = some s₁ := by
    have htext : text (a.val ++ [0]) = some a.val := text_of_terminated a.property.2 []
    have hprefix : sendingToServer.length = 20 := rfl
    have hinfo : infoS sendingToServer (a.val ++ [0]) = some () := by
      rw [infoS, htext, bind_eq, some_bind, if_pos (by omega)]
    simp only [step, clientStep, hidle.send, hget, hinfo]
    rfl
  have hup : s₁.conn.up.bytes = [b] ++ bytes := by
    simp [s₁, Stream.send, hidle.up, hcons]
  obtain ⟨h', hround, hpc⟩ := handler_round (c := s₁.conn) hidle.recv hup h0 Nat.one_pos
    (by rw [List.length_singleton]; decide)
  refine ⟨_, (after_cons hs₁ _).trans (after_server s₁ _ hround), rfl, hpc, rfl, ?_⟩
  simp [Stream.send, s₁, hidle.down]

theorem recv_one (args : List Arg) {b : UInt8} (hpc : s.client.pc = .recv)
    (hdown : s.conn.down.bytes = [b]) (hb : b ≠ 0) :
    ∃ buf, step args s (.client 1) = some ⟨⟨s.client.i + 1, buf, s.client.printed ++ [[b]], .send⟩,
      { s.conn with down := { s.conn.down with bytes := [] } }⟩ := by
  have hr : s.conn.down.recv (rcvBufSize - 1) 1 =
      some ([b], { s.conn.down with bytes := [] }) := by
    rw [Stream.recv_some _ Nat.one_pos (by decide) (by simp [hdown]), hdown]
    rfl
  have h0 : (0 : UInt8) ∉ [b] := by simpa using hb.symm
  obtain ⟨b₁, b₂, hb₁, hb₂, htext⟩ := received_text s.client.echoBuffer h0
    (by rw [List.length_singleton]; decide)
  refine ⟨b₂, ?_⟩
  simp only [step, clientStep, hpc, hr, bind_eq, some_bind, hb₁, hb₂, htext]

theorem one_of_oneByte (hidle : Idle s) (hget : args[s.client.i]? = some a)
    (h : ∀ ls, AllSteps (step args) (WholeReply args) s ls) :
    a.val.length = 1 ∧ ∃ s', after (step args) s oneByte = some s' ∧ Idle s' ∧
      s'.client.i = s.client.i + 1 := by
  obtain ⟨b, bytes, hcons⟩ := List.exists_cons_of_ne_nil a.property.1
  have hlen : a.val.length < 57 := by
    obtain ⟨s₁, hs₁⟩ : ∃ s₁, step args s (.client 0) = some s₁ := by
      simp [step, clientStep, hidle.send, hget]
    simpa [WholeReply, hget, hidle.send] using (h [.client 0] s₁ hs₁).1 a hget
  obtain ⟨s', hs', hclient, hpc, hup, hdown⟩ := after_sent hidle hget hcons hlen
  have hb : swapCase b ≠ 0 := by
    have ha := a.property.2
    rw [hcons] at ha
    exact fun hzero => ha ((swapCase_eq_zero b).mp hzero ▸ List.mem_cons_self)
  obtain ⟨buf, hs₅⟩ := recv_one args (by rw [hclient]) hdown hb
  have hone : a.val.length = 1 := by
    have hwhole := (AllSteps.append (h (_ ++ [.client 1])) hs' _ hs₅).1
    simp only [WholeReply, hclient] at hwhole
    exact (hwhole a hget).symm
  refine ⟨hone, _, (after_append hs' [.client 1]).trans (after_cons hs₅ []), ⟨rfl, hpc, ?_, rfl⟩, ?_⟩
  · rw [hcons, List.length_cons] at hone
    exact hup.trans (List.length_eq_zero_iff.mp (by omega))
  · rw [hclient]

/-- Where every way to cut the streams keeps the strings aligned, each argument is a single byte. -/
theorem one_of_allSteps {rest : List Arg} (hidle : Idle s) (hrest : args.drop s.client.i = rest)
    (h : ∀ ls, AllSteps (step args) (WholeReply args) s ls) : ∀ a ∈ rest, a.val.length = 1 := by
  induction rest generalizing s with
  | nil => simp
  | cons a rest ih =>
    have hget : args[s.client.i]? = some a := by
      rw [← List.head?_drop, hrest]
      rfl
    obtain ⟨hone, s', hs', hidle', hi⟩ := one_of_oneByte hidle hget h
    have hdrop : args.drop s'.client.i = rest := by
      rw [hi, ← List.drop_drop, hrest]
      rfl
    rw [List.forall_mem_cons]
    exact ⟨hone, ih hidle' hdrop fun ls => AllSteps.append (h (oneByte ++ ls)) hs'⟩

end Idle

section
variable (args : List Arg) (clientBuffer serverBuffer : CBuf rcvBufSize)

theorem allStates_iff (ls : List Label) :
    AllStates (step args) (Aligned args) (initial clientBuffer serverBuffer) ls ↔
      AllSteps (step args) (WholeReply args) (initial clientBuffer serverBuffer) ls :=
  allStates_iff_allSteps inv_step aligned_iff (inv_initial args clientBuffer serverBuffer)
    (aligned_of (inv_initial args clientBuffer serverBuffer) List.nil_prefix (by simp [initial])) ls

/-- **The client prints the answers to its arguments as long as each fits the text of `info_s` and each
answer comes in one piece.** Whatever TCP does with the streams, that is so only for arguments of one
byte. -/
theorem aligned_exactly :
    (∀ ls, AllStates (step args) (Aligned args) (initial clientBuffer serverBuffer) ls ↔
      AllSteps (step args) (WholeReply args) (initial clientBuffer serverBuffer) ls) ∧
    ((∀ ls, AllStates (step args) (Aligned args) (initial clientBuffer serverBuffer) ls) ↔
      ∀ a ∈ args, a.val.length = 1) := by
  have hinv := inv_initial args clientBuffer serverBuffer
  have hal := aligned_of hinv List.nil_prefix (by simp [initial])
  refine ⟨allStates_iff args clientBuffer serverBuffer, ?_⟩
  simp only [allStates_iff]
  constructor
  · intro h
    exact one_of_allSteps ⟨rfl, rfl, rfl, rfl⟩ rfl h
  · intro hone ls
    refine allSteps_of_invariant (I := fun s => Inv args s ∧ Aligned args s) ?_ ⟨hinv, hal⟩ ls
    rintro s l s' ⟨hi, ha⟩ hstep
    have hwhole := wholeReply_of_one hone hi ha hstep
    exact ⟨hwhole, inv_step s l s' hi hstep, (aligned_iff s l s' hi ha hstep).mpr hwhole⟩

end

def ab : Arg := ⟨['a', 'B'].map Char.toUInt8, by decide⟩

/-- When the bytes of `aB` reach the handler one by one, the first half of the answer is printed as the
answer to it. -/
theorem ab_not_aligned : ¬ ∀ ls, AllStates (step [ab]) (Aligned [ab])
    (initial (CBuf.zero 32) (CBuf.zero 32)) ls := by
  intro h
  obtain ⟨s, hs, hprinted⟩ : ∃ s, after (step [ab]) (initial (CBuf.zero 32) (CBuf.zero 32)) oneByte =
      some s ∧ s.client.printed = [['A'].map Char.toUInt8] := by
    decide +kernel
  have hpre := (AllStates.after (h oneByte) hs).printed
  rw [hprinted] at hpre
  exact absurd hpre (by decide +kernel)

end El32.EchoClient

import El32.Foundations.ByteStream
import El32.Foundations.Transition
import El32.Socket.Auxiliary

/-! `HandleTCPClient.c`: one connection of an echo server.

The handler works on its own buffer and its own socket. A `recv` and a `send` are steps, and so is
what it does between them; the client's bytes come in on one stream and the answers go out on the
other. -/
namespace El32.Socket
open CString ByteStream
set_option autoImplicit false

/-- Where the handler is; after a `recv` it has the number of bytes received. -/
inductive HandlerPc where
  | recv
  | convert (recvMsgSize : ℕ)
  | send (recvMsgSize : ℕ)
  | closed
deriving DecidableEq

structure Handler where
  echoBuffer : CBuf rcvBufSize
  pc : HandlerPc
deriving DecidableEq

/-- The buffer is not initialised. -/
def Handler.start (echoBuffer : CBuf rcvBufSize) : Handler := ⟨echoBuffer, .recv⟩

/-- What `recv` stored; zero bytes indicate the end of transmission, and the socket is closed. -/
def Handler.received (h : Handler) (chunk : List UInt8) : Option Handler := do
  let echoBuffer ← h.echoBuffer.writeAt 0 chunk
  some ⟨echoBuffer, if chunk.length = 0 then .closed else .convert chunk.length⟩

def Handler.converted (h : Handler) (recvMsgSize : ℕ) : Option Handler := do
  let echoBuffer ← addNt h.echoBuffer recvMsgSize
  -- the received text is printed
  let _ ← text echoBuffer.bytes
  let echoBuffer ← invertCase echoBuffer
  some ⟨echoBuffer, .send recvMsgSize⟩

def sendToClient : List UInt8 :=
  ['S', 'e', 'n', 'd', ' ', 't', 'o', ' ', 'c', 'l', 'i', 'e', 'n', 't', ':', ' ', ' ', ' ', ' ',
    ' ', ' '].map Char.toUInt8

/-- The bytes sent, and the handler before its next `recv`. -/
def Handler.sent (h : Handler) (recvMsgSize : ℕ) : Option (List UInt8 × Handler) := do
  let _ ← infoS sendToClient h.echoBuffer.bytes
  some (h.echoBuffer.bytes.take recvMsgSize, ⟨h.echoBuffer, .recv⟩)

/-- A connection: its handler, the bytes from the client and those to the client. -/
structure Conn where
  handler : Handler
  up : Stream UInt8
  down : Stream UInt8
deriving DecidableEq

/-- The next step of the handler; `n` is what a `recv` returns. -/
def Conn.step (c : Conn) (n : ℕ) : Option Conn :=
  match c.handler.pc with
  | .recv => do
    let (chunk, up) ← c.up.recv (rcvBufSize - 1) n
    let handler ← c.handler.received chunk
    some ⟨handler, up, if chunk.length = 0 then c.down.close else c.down⟩
  | .convert recvMsgSize => do
    let handler ← c.handler.converted recvMsgSize
    some { c with handler := handler }
  | .send recvMsgSize => do
    let (bytes, handler) ← c.handler.sent recvMsgSize
    some { c with handler := handler, down := c.down.send bytes }
  | .closed => none

/-! ## What the handler has still to send -/

/-- `out` is what the handler will send before its next `recv`. -/
def Handler.Pending (h : Handler) (out : List UInt8) : Prop :=
  match h.pc with
  | .recv => out = []
  | .convert recvMsgSize => ∃ chunk rest, h.echoBuffer.bytes = chunk ++ rest ∧
      chunk.length = recvMsgSize ∧ recvMsgSize < rcvBufSize ∧ (0 : UInt8) ∉ chunk ∧
      out = chunk.map swapCase
  | .send recvMsgSize => ∃ tail, h.echoBuffer.bytes = out ++ 0 :: tail ∧
      out.length = recvMsgSize ∧ (0 : UInt8) ∉ out
  | .closed => out = []

section Handler
variable {h : Handler} {chunk out : List UInt8} {k : ℕ}

theorem received_pending (h : Handler) (h0 : (0 : UInt8) ∉ chunk) (hlen : chunk.length < rcvBufSize) :
    ∃ h', h.received chunk = some h' ∧ h'.Pending (chunk.map swapCase) ∧
      h'.pc = if chunk.length = 0 then .closed else .convert chunk.length := by
  obtain ⟨buf, hbuf, hbytes⟩ := h.echoBuffer.writeAt_some 0 chunk (by omega)
  refine ⟨_, by rw [Handler.received, hbuf, bind_eq, some_bind], ?_, rfl⟩
  by_cases hnil : chunk.length = 0
  · obtain rfl := List.length_eq_zero_iff.mp hnil
    rfl
  · simp only [Handler.Pending, if_neg hnil]
    exact ⟨chunk, _, by simpa using hbytes, rfl, hlen, h0, rfl⟩

/-- Whatever an earlier and longer chunk left in the buffer, the conversion reaches the bytes of this
one and no others. -/
theorem converted_pending (hpc : h.pc = .convert k) (hp : h.Pending out) :
    ∃ h', h.converted k = some h' ∧ h'.Pending out ∧ h'.pc = .send k := by
  simp only [Handler.Pending, hpc] at hp
  obtain ⟨chunk, rest, hbytes, hlen, hk, h0, rfl⟩ := hp
  obtain ⟨b₁, hb₁, hbytes₁⟩ := h.echoBuffer.store_set 0 hk
  have hterm : b₁.bytes = chunk ++ 0 :: rest.tail := by
    have hrest : rest ≠ [] := by
      rintro rfl
      have hbuf := h.echoBuffer.length_bytes
      rw [hbytes, List.append_nil] at hbuf
      omega
    obtain ⟨c, rest, rfl⟩ := List.exists_cons_of_ne_nil hrest
    rw [hbytes₁, hbytes, ← hlen, List.set_append_right _ _ (Nat.le_refl _), Nat.sub_self]
    rfl
  obtain ⟨b₂, hb₂, hbytes₂⟩ := invertCase_swap hterm h0
  refine ⟨⟨b₂, .send k⟩, ?_, ⟨rest.tail, hbytes₂, by simpa using hlen, ?_⟩, rfl⟩
  · have htext : text b₁.bytes = some chunk := by rw [hterm, text_of_terminated h0]
    simp only [Handler.converted, addNt, hb₁, htext, hb₂, bind_eq, some_bind]
  · rw [zero_mem_map_swapCase]
    exact h0

theorem sent_pending (hpc : h.pc = .send k) (hp : h.Pending out) :
    h.sent k = some (out, ⟨h.echoBuffer, .recv⟩) := by
  simp only [Handler.Pending, hpc] at hp
  obtain ⟨tail, hbytes, rfl, h0⟩ := hp
  have htext : text h.echoBuffer.bytes = some out := by rw [hbytes, text_of_terminated h0]
  have hlen : out.length < 32 := by
    have hbuf : h.echoBuffer.bytes.length = 32 := h.echoBuffer.length_bytes
    rw [hbytes, List.length_append, List.length_cons] at hbuf
    omega
  have hinfo : infoS sendToClient h.echoBuffer.bytes = some () := by
    have hprefix : sendToClient.length = 21 := rfl
    rw [infoS, htext, bind_eq, some_bind, if_pos (by omega)]
  rw [Handler.sent, hinfo, bind_eq, some_bind, hbytes, List.take_left]

end Handler

/-! ## What the client has still to get -/

/-- The answers on their way to the client, in the handler, and to the bytes that are on their way to
the handler are `bytes`. -/
def Conn.Flow (c : Conn) (bytes : List UInt8) : Prop :=
  (0 : UInt8) ∉ c.up.bytes ∧
    (c.handler.pc = .closed → c.up.bytes = [] ∧ c.up.closed = true) ∧
    ∃ out, c.handler.Pending out ∧ c.down.bytes ++ out ++ c.up.bytes.map swapCase = bytes

section Conn
variable {c c' : Conn} {bytes : List UInt8} {n : ℕ}

theorem flow_recv {chunk : List UInt8} {up : Stream UInt8} (hf : c.Flow bytes)
    (hpc : c.handler.pc = .recv) (hr : c.up.recv (rcvBufSize - 1) n = some (chunk, up)) :
    ∃ c', c.step n = some c' ∧ c'.Flow bytes ∧ c'.up.closed = c.up.closed := by
  obtain ⟨h0, -, out, hp, hbytes⟩ := hf
  obtain ⟨hup, hclosed, hlen, hsize, hzero⟩ := Stream.recv_cases hr
  have hnil : out = [] := by simpa [Handler.Pending, hpc] using hp
  obtain ⟨h0c, h0u⟩ : (0 : UInt8) ∉ chunk ∧ (0 : UInt8) ∉ up.bytes := by simpa [hup] using h0
  have hlt : chunk.length < rcvBufSize := by
    rw [hlen]
    exact Nat.lt_of_le_of_lt hsize (by decide)
  obtain ⟨h', hh', hpend, hpc'⟩ := received_pending c.handler h0c hlt
  have hstep : c.step n =
      some ⟨h', up, if chunk.length = 0 then c.down.close else c.down⟩ := by
    simp only [Conn.step, hpc, hr, hh', bind_eq, some_bind]
  refine ⟨_, hstep, ⟨h0u, ?_, _, hpend, ?_⟩, hclosed⟩
  · intro hend
    have hn : n = 0 := by
      by_contra hne
      rw [hpc', if_neg (by omega)] at hend
      exact absurd hend (by simp)
    exact ⟨(hzero hn).1, hclosed.trans (hzero hn).2⟩
  · have hdown : (if chunk.length = 0 then c.down.close else c.down).bytes = c.down.bytes := by
      split <;> rfl
    rw [hdown, ← hbytes, hnil, hup]
    simp

theorem flow_convert {k : ℕ} (hf : c.Flow bytes) (hpc : c.handler.pc = .convert k) :
    ∃ c', c.step n = some c' ∧ c'.Flow bytes ∧ c'.up.closed = c.up.closed := by
  obtain ⟨h0, -, out, hp, hbytes⟩ := hf
  obtain ⟨h', hh', hpend, hpc'⟩ := converted_pending hpc hp
  have hstep : c.step n = some { c with handler := h' } := by
    simp only [Conn.step, hpc, hh', bind_eq, some_bind]
  exact ⟨_, hstep, ⟨h0, by simp [hpc'], out, hpend, hbytes⟩, rfl⟩

theorem flow_send {k : ℕ} (hf : c.Flow bytes) (hpc : c.handler.pc = .send k) :
    ∃ c', c.step n = some c' ∧ c'.Flow bytes ∧ c'.up.closed = c.up.closed := by
  obtain ⟨h0, -, out, hp, hbytes⟩ := hf
  have hsent := sent_pending hpc hp
  have hstep : c.step n = some { c with
      handler := ⟨c.handler.echoBuffer, .recv⟩, down := c.down.send out } := by
    simp only [Conn.step, hpc, hsent, bind_eq, some_bind]
  refine ⟨_, hstep, ⟨h0, by simp, [], rfl, ?_⟩, rfl⟩
  rw [← hbytes]
  simp [Stream.send]

/-- A handler that has not closed its socket goes on with whatever `recv` gives it. -/
theorem flow_goes_on (hf : c.Flow bytes) (hpc : c.handler.pc ≠ .closed)
    (hrecv : c.handler.pc = .recv → (c.up.recv (rcvBufSize - 1) n).isSome) :
    ∃ c', c.step n = some c' ∧ c'.Flow bytes ∧ c'.up.closed = c.up.closed := by
  cases hp : c.handler.pc with
  | recv =>
    obtain ⟨⟨chunk, up⟩, hr⟩ := Option.isSome_iff_exists.mp (hrecv hp)
    exact flow_recv hf hp hr
  | convert k => exact flow_convert hf hp
  | send k => exact flow_send hf hp
  | closed => exact absurd hp hpc

/-- A step of the handler moves answers, and loses none. -/
theorem flow_step (hf : c.Flow bytes) (hstep : c.step n = some c') :
    c'.Flow bytes ∧ c'.up.closed = c.up.closed := by
  have hpc : c.handler.pc ≠ .closed := by
    intro hpc
    simp [Conn.step, hpc] at hstep
  have hrecv : c.handler.pc = .recv → (c.up.recv (rcvBufSize - 1) n).isSome := by
    intro hpc
    cases hr : c.up.recv (rcvBufSize - 1) n with
    | none => simp [Conn.step, hpc, hr] at hstep
    | some r => rfl
  obtain ⟨d, hd, hflow, hclosed⟩ := flow_goes_on hf hpc hrecv
  obtain rfl : d = c' := Option.some.inj (hd.symm.trans hstep)
  exact ⟨hflow, hclosed⟩

/-- A bound on the steps the handler has left: three for each byte on its way, those of the round it
is in, and the `recv` that sees the end. -/
def Conn.left (c : Conn) : ℕ :=
  3 * c.up.bytes.length + match c.handler.pc with
    | .recv => 1
    | .convert _ => 3
    | .send _ => 2
    | .closed => 0

/-- Every step brings the end nearer. -/
theorem step_left (hstep : c.step n = some c') : c'.left < c.left := by
  cases hpc : c.handler.pc with
  | recv =>
    simp only [Conn.step, hpc, bind_eq] at hstep
    obtain ⟨⟨chunk, up⟩, hr, hstep⟩ := Option.bind_eq_some_iff.mp hstep
    obtain ⟨h', hh', hc⟩ := Option.bind_eq_some_iff.mp hstep
    obtain rfl := Option.some.inj hc
    obtain ⟨echoBuffer, -, hb⟩ := Option.bind_eq_some_iff.mp hh'
    obtain rfl := Option.some.inj hb
    have hup : c.up.bytes.length = chunk.length + up.bytes.length := by
      rw [(Stream.recv_cases hr).1, List.length_append]
    by_cases hn : chunk.length = 0
    · simp only [Conn.left, hpc, if_pos hn]
      omega
    · simp only [Conn.left, hpc, if_neg hn]
      omega
  | convert k =>
    simp only [Conn.step, hpc, bind_eq] at hstep
    obtain ⟨h', hh', hc⟩ := Option.bind_eq_some_iff.mp hstep
    obtain rfl := Option.some.inj hc
    have hpc' : h'.pc = .send k := by
      simp only [Handler.converted, bind_eq] at hh'
      obtain ⟨b₁, -, hh'⟩ := Option.bind_eq_some_iff.mp hh'
      obtain ⟨-, -, hh'⟩ := Option.bind_eq_some_iff.mp hh'
      obtain ⟨b₂, -, hh'⟩ := Option.bind_eq_some_iff.mp hh'
      obtain rfl := Option.some.inj hh'
      rfl
    simp only [Conn.left, hpc, hpc']
    omega
  | send k =>
    simp only [Conn.step, hpc, bind_eq] at hstep
    obtain ⟨⟨bytes, h'⟩, hsent, hc⟩ := Option.bind_eq_some_iff.mp hstep
    obtain rfl := Option.some.inj hc
    obtain ⟨-, -, hh'⟩ := Option.bind_eq_some_iff.mp hsent
    obtain rfl : _ = h' := congrArg Prod.snd (Option.some.inj hh')
    simp only [Conn.left, hpc]
    omega
  | closed => simp [Conn.step, hpc] at hstep

/-- The handler closes its socket only behind its client. -/
theorem step_closed (hstep : c.step n = some c') (hclosed : c'.down.closed = true) :
    c.down.closed = true ∨ c'.up.closed = true := by
  cases hpc : c.handler.pc with
  | recv =>
    simp only [Conn.step, hpc, bind_eq] at hstep
    obtain ⟨⟨chunk, up⟩, hr, hstep⟩ := Option.bind_eq_some_iff.mp hstep
    obtain ⟨h', -, hc⟩ := Option.bind_eq_some_iff.mp hstep
    obtain rfl := Option.some.inj hc
    obtain ⟨-, hup, hlen, -, hzero⟩ := Stream.recv_cases hr
    by_cases hn : chunk.length = 0
    · exact .inr (hup.trans (hzero (hlen.symm.trans hn)).2)
    · exact .inl (by simpa [hn] using hclosed)
  | convert k =>
    simp only [Conn.step, hpc, bind_eq] at hstep
    obtain ⟨h', -, hc⟩ := Option.bind_eq_some_iff.mp hstep
    obtain rfl := Option.some.inj hc
    exact .inl hclosed
  | send k =>
    simp only [Conn.step, hpc, bind_eq] at hstep
    obtain ⟨⟨bytes, h'⟩, -, hc⟩ := Option.bind_eq_some_iff.mp hstep
    obtain rfl := Option.some.inj hc
    exact .inl hclosed
  | closed => simp [Conn.step, hpc] at hstep

/-- One round of the loop: what a `recv` took is converted and sent. -/
theorem handler_round {chunk rest : List UInt8} (hpc : c.handler.pc = .recv)
    (hup : c.up.bytes = chunk ++ rest) (h0 : (0 : UInt8) ∉ chunk) (hpos : 0 < chunk.length)
    (hlen : chunk.length < rcvBufSize) :
    ∃ h', Transition.after Conn.step c [chunk.length, 0, 0] =
      some ⟨h', { c.up with bytes := rest }, c.down.send (chunk.map swapCase)⟩ ∧ h'.pc = .recv := by
  have hr : c.up.recv (rcvBufSize - 1) chunk.length = _ :=
    c.up.recv_some hpos (Nat.le_sub_one_of_lt hlen) (by simp [hup])
  simp only [hup, List.take_left, List.drop_left] at hr
  obtain ⟨h₁, hh₁, hp₁, hpc₁⟩ := received_pending c.handler h0 hlen
  rw [if_neg (by omega)] at hpc₁
  obtain ⟨h₂, hh₂, hp₂, hpc₂⟩ := converted_pending hpc₁ hp₁
  have hh₃ := sent_pending hpc₂ hp₂
  refine ⟨⟨h₂.echoBuffer, .recv⟩, ?_, rfl⟩
  have hs₁ : c.step chunk.length = some ⟨h₁, { c.up with bytes := rest }, c.down⟩ := by
    simp only [Conn.step, hpc, hr, hh₁, bind_eq, some_bind, if_neg (Nat.ne_of_gt hpos)]
  rw [Transition.after_cons hs₁]
  simp [Transition.after, Conn.step, hpc₁, hh₂, hpc₂, hh₃]

end Conn

end El32.Socket

import El32.Foundations.Processes
import El32.Foundations.Transition
import El32.Socket.EchoHandler

/-! The threads of `TCPEchoServer-Thread.c`: one handler for each client, interleaved.

The socket is handed to `pthread_create` by value and everything else a handler writes is on its own
stack, so the threads share nothing. -/
namespace El32.EchoServer
open CString ByteStream Processes Socket Transition
set_option autoImplicit false

/-- What a client sends: the bytes of C strings, without their terminators. -/
abbrev Text := { s : List UInt8 // (0 : UInt8) ∉ s }

/-- A thread, with all that its client sends. -/
structure Thread where
  stream : Text
  conn : Conn

/-- A client's bytes arrive in any pieces; when there are no more, it has closed its side. -/
def Thread.start (stream : Text) (echoBuffer : CBuf rcvBufSize) : Thread where
  stream := stream
  conn := ⟨Handler.start echoBuffer, ⟨stream.val, true⟩, ⟨[], false⟩⟩

/-- The main thread accepts a client and creates a thread for it, or thread `i` takes a step, in
which a `recv` returns `n` bytes. -/
inductive Label where
  | accept (stream : Text) (echoBuffer : CBuf rcvBufSize)
  | act (i n : ℕ)

def step (ts : List Thread) : Label → Option (List Thread)
  | .accept stream echoBuffer => some (ts ++ [Thread.start stream echoBuffer])
  | .act i n => do
    let t ← ts[i]?
    let conn ← t.conn.step n
    some (ts.set i { t with conn := conn })

/-- The socket is closed and all that `stream` asks for is sent. -/
def Answered (stream : Text) (c : Conn) : Prop :=
  c.handler.pc = .closed ∧ c.down.bytes = stream.val.map swapCase

/-- A thread has answered a part of its stream, when it ends all of it; until then it goes on with
whatever `recv` gives it, and by its own steps it comes to the end. -/
structure Echoes (t : Thread) : Prop where
  sent : t.conn.down.bytes <+: t.stream.val.map swapCase
  finished : t.conn.handler.pc = .closed → t.conn.down.bytes = t.stream.val.map swapCase
  goesOn : t.conn.handler.pc ≠ .closed → (∃ n, (t.conn.step n).isSome) ∧
    ∀ n, (t.conn.handler.pc = .recv → (t.conn.up.recv (rcvBufSize - 1) n).isSome) →
      (t.conn.step n).isSome
  nearer : ∀ n c, t.conn.step n = some c → c.left < t.conn.left
  comes : Inevitable Conn.step (Answered t.stream) t.conn

/-- The steps of the handlers, once no more clients are accepted: thread `i` takes one, in which a
`recv` returns `n` bytes. -/
def handlersStep (ts : List Thread) (a : ℕ × ℕ) : Option (List Thread) := step ts (.act a.1 a.2)

/-! ## What a step keeps -/

def ThreadInv (t : Thread) : Prop :=
  t.conn.Flow (t.stream.val.map swapCase) ∧ t.conn.up.closed = true

theorem threadInv_start (stream : Text) (echoBuffer : CBuf rcvBufSize) :
    ThreadInv (Thread.start stream echoBuffer) :=
  ⟨⟨stream.property, nofun, [], rfl, rfl⟩, rfl⟩

theorem threadInv_step (ts : List Thread) (a : Label) (ts' : List Thread)
    (h : ∀ t ∈ ts, ThreadInv t) (hstep : step ts a = some ts') : ∀ t ∈ ts', ThreadInv t := by
  cases a with
  | accept stream echoBuffer =>
    obtain rfl := Option.some.inj hstep
    exact forall_mem_concat h (threadInv_start stream echoBuffer)
  | act i n =>
    obtain ⟨t, ht, hstep⟩ := Option.bind_eq_some_iff.mp hstep
    obtain ⟨conn, hconn, hts⟩ := Option.bind_eq_some_iff.mp hstep
    obtain rfl := Option.some.inj hts
    obtain ⟨hflow, hclosed⟩ := h t (List.mem_of_getElem? ht)
    obtain ⟨hflow', hclosed'⟩ := flow_step hflow hconn
    exact forall_mem_set h ⟨hflow', hclosed'.trans hclosed⟩

theorem ThreadInv.recv {t : Thread} (h : ThreadInv t) :
    ∃ n, (t.conn.up.recv (rcvBufSize - 1) n).isSome := by
  cases hup : t.conn.up.bytes with
  | nil => exact ⟨0, by rw [Stream.recv_end hup h.2]; rfl⟩
  | cons b bytes =>
    have hlen : 1 ≤ t.conn.up.bytes.length := by
      rw [hup]
      simp
    exact ⟨1, by rw [Stream.recv_some _ Nat.one_pos (by decide) hlen]; rfl⟩

theorem ThreadInv.finished {t : Thread} (h : ThreadInv t) (hpc : t.conn.handler.pc = .closed) :
    Answered t.stream t.conn := by
  obtain ⟨-, hend, out, hp, hbytes⟩ := h.1
  have hnil : out = [] := by simpa [Handler.Pending, hpc] using hp
  refine ⟨hpc, ?_⟩
  rw [← hbytes, hnil, (hend hpc).1]
  simp

theorem ThreadInv.goesOn {t : Thread} (h : ThreadInv t) (hpc : t.conn.handler.pc ≠ .closed)
    {n : ℕ} (hrecv : t.conn.handler.pc = .recv → (t.conn.up.recv (rcvBufSize - 1) n).isSome) :
    ∃ c, t.conn.step n = some c := by
  obtain ⟨c, hc, -⟩ := flow_goes_on h.1 hpc hrecv
  exact ⟨c, hc⟩

theorem ThreadInv.enabled {t : Thread} (h : ThreadInv t) (hpc : t.conn.handler.pc ≠ .closed) :
    ∃ n c, t.conn.step n = some c := by
  obtain ⟨n, hn⟩ := h.recv
  exact ⟨n, h.goesOn hpc fun _ => hn⟩

/-- By its own steps a thread comes to the end of its stream: each brings it nearer. -/
theorem ThreadInv.comes {t : Thread} (h : ThreadInv t) :
    Inevitable Conn.step (Answered t.stream) t.conn := by
  refine inevitable_of_measure (I := fun c => ThreadInv { t with conn := c }) ?_ Conn.left
    (fun _ _ _ => step_left) ?_ h
  · rintro c n c' ⟨hflow, hclosed⟩ hstep
    obtain ⟨hflow', hclosed'⟩ := flow_step hflow hstep
    exact ⟨hflow', hclosed'.trans hclosed⟩
  · intro c hc hnot
    have hpc : c.handler.pc ≠ .closed := fun hpc => hnot (hc.finished hpc)
    exact hc.enabled hpc

theorem ThreadInv.echoes {t : Thread} (h : ThreadInv t) : Echoes t where
  sent := by
    obtain ⟨-, -, out, -, hbytes⟩ := h.1
    exact ⟨out ++ t.conn.up.bytes.map swapCase, by rw [← hbytes, List.append_assoc]⟩
  finished hpc := (h.finished hpc).2
  goesOn hpc := by
    constructor
    · obtain ⟨n, c, hc⟩ := h.enabled hpc
      exact ⟨n, Option.isSome_iff_exists.mpr ⟨c, hc⟩⟩
    · exact fun n hrecv => Option.isSome_iff_exists.mpr (h.goesOn hpc hrecv)
  nearer _ _ := step_left
  comes := h.comes

theorem handlersStep_left {ts ts' : List Thread} {a : ℕ × ℕ} (h : handlersStep ts a = some ts') :
    tally (fun t => t.conn.left) ts' < tally (fun t => t.conn.left) ts := by
  obtain ⟨t, ht, hstep⟩ := Option.bind_eq_some_iff.mp h
  obtain ⟨conn, hconn, hts⟩ := Option.bind_eq_some_iff.mp hstep
  obtain rfl := Option.some.inj hts
  have hleft := step_left hconn
  have hset := tally_set (fun t => t.conn.left) ht { t with conn := conn }
  dsimp only at hset
  omega

/-- Once no more clients are accepted, every interleaving of the threads ends, with every client
answered. -/
theorem handlers_answer {ts : List Thread} (h : ∀ t ∈ ts, ThreadInv t) :
    Inevitable handlersStep (fun us => ∀ t ∈ us, Answered t.stream t.conn) ts := by
  refine inevitable_of_measure (fun us a us' => threadInv_step us (.act a.1 a.2) us')
    (tally fun t => t.conn.left) (fun _ _ _ => handlersStep_left) ?_ h
  intro us hus hnot
  obtain ⟨t, ht, hopen⟩ : ∃ t ∈ us, ¬ Answered t.stream t.conn := by
    simpa only [not_forall, exists_prop] using hnot
  have hpc : t.conn.handler.pc ≠ .closed := fun hpc => hopen ((hus t ht).finished hpc)
  obtain ⟨n, c, hc⟩ := (hus t ht).enabled hpc
  obtain ⟨i, hi⟩ := List.getElem?_of_mem ht
  refine ⟨(i, n), us.set i { t with conn := c }, ?_⟩
  simp [handlersStep, step, hi, hc]

/-- **Every client gets its own stream back with the case of its letters swapped**, however it was cut
and whatever the other threads did in between; swapping twice gives the stream. -/
theorem echo_own_stream {ls : List Label} {ts : List Thread} (h : after step [] ls = some ts) :
    ((∀ t ∈ ts, Echoes t) ∧
      Inevitable handlersStep (fun us => ∀ t ∈ us, Answered t.stream t.conn) ts) ∧
    ∀ s : List UInt8, (s.map swapCase).map swapCase = s := by
  have hstart : ∀ t ∈ ([] : List Thread), ThreadInv t := by simp
  have hinv := invariant_after threadInv_step hstart h
  refine ⟨⟨fun t ht => (hinv t ht).echoes, handlers_answer hinv⟩, fun s => ?_⟩
  have htwice : swapCase ∘ swapCase = id := funext swapCase_swapCase
  rw [List.map_map, htwice, List.map_id]

def abc : Text := ⟨['a', 'B', '1'].map Char.toUInt8, by decide⟩

/-- Two clients send the same; the handlers get it in different pieces. -/
def twoClients : List Label :=
  [.accept abc (CBuf.zero 32), .act 0 2, .accept abc (CBuf.zero 32), .act 1 3, .act 0 0, .act 1 0,
    .act 1 0, .act 0 0, .act 0 1, .act 0 0, .act 0 0, .act 0 0]

theorem after_twoClients :
    (after step [] twoClients).map (fun ts => ts.map fun t => t.conn.down.bytes) =
      some [['A', 'b', '1'].map Char.toUInt8, ['A', 'b', '1'].map Char.toUInt8] := by
  decide +kernel

theorem echo_own_stream_twoClients : ∃ ts, after step [] twoClients = some ts ∧
    (∀ t ∈ ts, Echoes t) ∧ ts.map (fun t => t.conn.down.bytes) =
      [['A', 'b', '1'].map Char.toUInt8, ['A', 'b', '1'].map Char.toUInt8] := by
  obtain ⟨ts, hts, hsent⟩ := Option.map_eq_some_iff.mp after_twoClients
  exact ⟨ts, hts, (echo_own_stream hts).1.1, hsent⟩

end El32.EchoServer

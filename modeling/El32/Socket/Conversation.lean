import El32.Socket.ChatServer
import Mathlib.Data.List.TakeWhile

/-! `TCPChatClient.c` and a session of `TCPChatServer.c` on one connection.

Both programs have the same turn: a line is typed and sent, and one `recv` gets the answer. The two
byte streams keep no boundaries, and the network decides how much a `recv` returns. -/
namespace El32.Conversation
open CString ByteStream Socket Transition ChatServer
set_option autoImplicit false

/-! ## The client -/

inductive ClientPc where
  | check
  | enter
  | compare
  | receive
  | closed
  | died
deriving DecidableEq

structure Client where
  line : CBuf 80
  echoBuffer : CBuf rcvBufSize
  up : Stream UInt8
  pc : ClientPc

/-- One call of `main`, or one comparison. `l` is the line typed, `r` what the `recv` gets, `ok`
whether the `send` succeeds; `DieWithError` ends the process, and its socket closes. -/
def Client.step (c : Client) (l : Line) (r : Recv) (ok : Bool) : Option Client :=
  match c.pc with
  | .check =>
    some (if isQuit c.line then { c with pc := .closed, up := c.up.close }
      else { c with pc := .enter })
  | .enter => do
    let line ← c.line.writeAt 0 (l.val ++ [0])
    let line ← removeNl line
    let _ ← infoS entered line.bytes
    let msg ← text line.bytes
    if ok then some { c with line := line, up := c.up.send msg, pc := .compare }
    else some { c with line := line, up := c.up.close, pc := .died }
  | .compare => some { c with pc := if isQuit c.line then .check else .receive }
  | .receive =>
    match r with
    | .failed => some { c with up := c.up.close, pc := .died }
    | .bytes chunk =>
      -- nothing is printed at the end of the stream, and the loop goes on
      if chunk.val = [] then some { c with pc := .check }
      else do
        let echoBuffer ← c.echoBuffer.writeAt 0 chunk.val
        let echoBuffer ← addNt echoBuffer chunk.val.length
        let _ ← text echoBuffer.bytes
        some { c with echoBuffer := echoBuffer, pc := .check }
  | .closed | .died => none

/-! ## The connection -/

/-- `said` are the lines sent, `shown` the bytes printed as received. -/
structure State where
  client : Client
  server : Chat
  clientSaid : List Line
  serverSaid : List Line
  clientShown : List UInt8
  serverShown : List UInt8

/-- What the user of a program would type next, what its `recv` returns (`none` for an error), and
whether its `send` succeeds. -/
structure Turn where
  line : Line
  n : Option ℕ
  ok : Bool

inductive Label where
  | client (t : Turn)
  | server (t : Turn)

/-- A `recv` fails only when the other side has closed. -/
def fetch (s : Stream UInt8) : Option ℕ → Option (Recv × Stream UInt8)
  | none => if s.closed then some (.failed, s) else none
  | some n => do
    let (chunk, s) ← s.recv (rcvBufSize - 1) n
    if h : chunk.length < rcvBufSize then some (.bytes ⟨chunk, h⟩, s) else none

/-- The text of the `printf` for what a `recv` stored. -/
def printed (r : Recv) (echoBuffer : CBuf rcvBufSize) : List UInt8 :=
  match r with
  | .failed => []
  | .bytes chunk => if chunk.val = [] then [] else (text echoBuffer.bytes).getD []

/-- A `send` fails only when the other side has closed. -/
def Turn.sends (t : Turn) (other : Stream UInt8) : Bool := t.ok || !other.closed

def clientStep (s : State) (t : Turn) : Option State :=
  match s.client.pc with
  | .receive => do
    let (r, down) ← fetch s.server.down t.n
    let client ← s.client.step t.line r t.ok
    return { s with
      client := client
      server := { s.server with down := down }
      clientShown := s.clientShown ++ printed r client.echoBuffer }
  | pc => do
    let ok := t.sends s.server.down
    let client ← s.client.step t.line .failed ok
    return { s with
      client := client
      clientSaid := if pc = .enter ∧ ok then s.clientSaid ++ [t.line] else s.clientSaid }

/-- The socket of a process that died closes too. -/
def hangUp (c : Chat) : Chat := if c.pc = .died then { c with down := c.down.close } else c

/-- The handler before a `recv` that gets `r`. -/
def facing (c : Chat) (r : Recv) : Chat := { c with recvs := [r] }

/-- The handler before a line is typed. -/
def typing (c : Chat) (l : Line) (ok : Bool) : Chat := { c with typed := [l], sends := [ok] }

def serverStep (s : State) (t : Turn) : Option State :=
  match s.server.pc with
  | .receive => do
    let (r, up) ← fetch s.client.up t.n
    let server ← (facing s.server r).step
    return { s with
      client := { s.client with up := up }
      server := hangUp server
      serverShown := s.serverShown ++ printed r server.echoBuffer }
  | pc => do
    let ok := t.sends s.client.up
    let server ← (typing s.server t.line ok).step
    return { s with
      server := hangUp server
      serverSaid := if pc = .enter ∧ ok then s.serverSaid ++ [t.line] else s.serverSaid }

def step (s : State) : Label → Option State
  | .client t => clientStep s t
  | .server t => serverStep s t

/-- The connection is accepted; what the arrays hold is not known. -/
structure Starts (s : State) : Prop where
  client : s.client.pc = .check ∧ s.client.up = ⟨[], false⟩
  server : s.server.pc = .check ∧ s.server.down = ⟨[], false⟩
  said : s.clientSaid = [] ∧ s.serverSaid = []
  shown : s.clientShown = [] ∧ s.serverShown = []

/-! ## What a step does -/

abbrev Chunk := { c : List UInt8 // c.length < rcvBufSize }

/-- What a `recv` gets: an error or the end when the other side has closed, or some of the bytes. -/
inductive Fetched (s : Stream UInt8) : Recv → Stream UInt8 → Prop
  | reset (h : s.closed = true) : Fetched s .failed s
  | finished (h : s.bytes = []) (hclosed : s.closed = true) (chunk : Chunk)
      (hchunk : chunk.val = []) : Fetched s (.bytes chunk) s
  | some (chunk : Chunk) (rest : List UInt8) (hne : chunk.val ≠ [])
      (h : s.bytes = chunk.val ++ rest) : Fetched s (.bytes chunk) { s with bytes := rest }

theorem fetch_cases {s s' : Stream UInt8} {n : Option ℕ} {r : Recv}
    (h : fetch s n = some (r, s')) : Fetched s r s' := by
  cases n with
  | none =>
    simp only [fetch] at h
    split at h
    · next hclosed =>
      cases h
      exact .reset hclosed
    · exact nomatch h
  | some n =>
    simp only [fetch, bind_eq] at h
    obtain ⟨⟨chunk, rest⟩, hrecv, h⟩ := Option.bind_eq_some_iff.mp h
    dsimp only at h
    split at h
    · next hlen =>
      cases h
      obtain ⟨hbytes, hclosed, hn, -, hend⟩ := Stream.recv_cases hrecv
      obtain ⟨rest, closed⟩ := s'
      obtain rfl : closed = s.closed := hclosed
      by_cases hnil : chunk = []
      · obtain ⟨hrest, hsclosed⟩ := hend (by rw [← hn, hnil]; rfl)
        obtain rfl : rest = [] := hrest
        have hs : s = ⟨[], s.closed⟩ := by
          obtain ⟨bytes, closed⟩ := s
          simp only [hnil, List.nil_append] at hbytes
          rw [hbytes]
        rw [hnil] at hbytes
        rw [← hs]
        exact .finished hbytes hsclosed _ hnil
      · exact .some ⟨chunk, hlen⟩ rest hnil hbytes
    · exact nomatch h

theorem exists_fetch {s : Stream UInt8} (h : s.bytes ≠ [] ∨ s.closed = true) :
    ∃ n r s', fetch s n = some (r, s') := by
  by_cases hclosed : s.closed = true
  · exact ⟨none, .failed, s, if_pos hclosed⟩
  · have hne := h.resolve_right hclosed
    have hpos := List.length_pos_iff.mpr hne
    have hlen : (s.bytes.take 1).length < rcvBufSize :=
      Nat.lt_of_le_of_lt (List.length_take_le 1 s.bytes) (by decide)
    have hrecv : s.recv (rcvBufSize - 1) 1 =
        some (s.bytes.take 1, { s with bytes := s.bytes.drop 1 }) :=
      s.recv_some Nat.one_pos (by decide) hpos
    refine ⟨some 1, .bytes ⟨s.bytes.take 1, hlen⟩, { s with bytes := s.bytes.drop 1 }, ?_⟩
    simp only [fetch, bind_eq, hrecv, some_bind, dif_pos hlen]

/-- What a step of the client makes of the state. -/
inductive ClientStep (s : State) (t : Turn) : State → Prop
  | leaves (pc : s.client.pc = .check) : ClientStep s t
      { s with client := { s.client with up := s.client.up.close, pc := .closed } }
  | goesOn (pc : s.client.pc = .check) :
      ClientStep s t { s with client := { s.client with pc := .enter } }
  | speaks (pc : s.client.pc = .enter) {line : CBuf 80} (fits : t.line.Fits)
      (quits : isQuit line = true ↔ chomp t.line.text = quit) : ClientStep s t
      { s with
        client := { s.client with
          line := line, up := s.client.up.send (chomp t.line.text), pc := .compare }
        clientSaid := s.clientSaid ++ [t.line] }
  | breaks (pc : s.client.pc = .enter) {line : CBuf 80} (closed : s.server.down.closed = true) :
      ClientStep s t
        { s with client := { s.client with line := line, up := s.client.up.close, pc := .died } }
  | ends (pc : s.client.pc = .compare) :
      ClientStep s t { s with client := { s.client with pc := .check } }
  | waits (pc : s.client.pc = .compare) :
      ClientStep s t { s with client := { s.client with pc := .receive } }
  | reset (pc : s.client.pc = .receive) (closed : s.server.down.closed = true) : ClientStep s t
      { s with client := { s.client with up := s.client.up.close, pc := .died } }
  | deaf (pc : s.client.pc = .receive) (closed : s.server.down.closed = true) :
      ClientStep s t { s with client := { s.client with pc := .check } }
  | hears (pc : s.client.pc = .receive) {chunk : Chunk} {rest : List UInt8}
      {echoBuffer : CBuf rcvBufSize} (ne : chunk.val ≠ [])
      (bytes : s.server.down.bytes = chunk.val ++ rest) : ClientStep s t
      { s with
        client := { s.client with echoBuffer := echoBuffer, pc := .check }
        server := { s.server with down := { s.server.down with bytes := rest } }
        clientShown := s.clientShown ++ chunk.val.takeWhile (· ≠ 0) }

/-- What a step of the server makes of the state; `server` is the handler afterwards. -/
inductive ServerStep (s : State) (t : Turn) : State → Prop
  | leaves (pc : s.server.pc = .check) {server : Chat} (next : server.pc = .closed)
      (down : server.down = s.server.down.close) : ServerStep s t { s with server := server }
  | goesOn (pc : s.server.pc = .check) {server : Chat} (next : server.pc = .receive)
      (down : server.down = s.server.down) : ServerStep s t { s with server := server }
  | speaks (pc : s.server.pc = .enter) {server : Chat} (fits : t.line.Fits)
      (next : server.pc = .check) (down : server.down = s.server.down.send (chomp t.line.text)) :
      ServerStep s t { s with server := server, serverSaid := s.serverSaid ++ [t.line] }
  | breaks (pc : s.server.pc = .enter) {server : Chat} (next : server.pc = .died)
      (down : server.down = s.server.down.close) (closed : s.client.up.closed = true) :
      ServerStep s t { s with server := server }
  | reset (pc : s.server.pc = .receive) {server : Chat} (next : server.pc = .died)
      (down : server.down = s.server.down.close) (closed : s.client.up.closed = true) :
      ServerStep s t { s with server := server }
  | deaf (pc : s.server.pc = .receive) {server : Chat} (next : server.pc = .receive)
      (down : server.down = s.server.down) (closed : s.client.up.closed = true) :
      ServerStep s t { s with server := server }
  | hears (pc : s.server.pc = .receive) {server : Chat} (next : server.pc = .enter)
      (down : server.down = s.server.down) {chunk : Chunk} {rest : List UInt8}
      (ne : chunk.val ≠ []) (bytes : s.client.up.bytes = chunk.val ++ rest) : ServerStep s t
      { s with
        client := { s.client with up := { s.client.up with bytes := rest } }
        server := server
        serverShown := s.serverShown ++ chunk.val.takeWhile (· ≠ 0) }

/-- The array after a `recv`, and what is printed of it. -/
theorem stored_chunk (echoBuffer : CBuf rcvBufSize) (chunk : Chunk) :
    ∃ b₁ b₂, echoBuffer.writeAt 0 chunk.val = some b₁ ∧ addNt b₁ chunk.val.length = some b₂ ∧
      text b₂.bytes = some (chunk.val.takeWhile (· ≠ 0)) := by
  obtain ⟨b₁, b₂, rest, hb₁, hb₂, hbytes⟩ := received_bytes echoBuffer chunk.property
  obtain ⟨tail, htail⟩ := terminated_split chunk.val rest
  exact ⟨b₁, b₂, hb₁, hb₂, by rw [hbytes, htail, text_of_terminated (nul_notMem_takeWhile _)]⟩

/-- The calls between `fgets` and `send`, on a line that fits. -/
theorem entered_fits (line : CBuf 80) {l : Line} (hl : l.Fits) : ∃ line₁ line₂,
    line.writeAt 0 (l.val ++ [0]) = some line₁ ∧ removeNl line₁ = some line₂ ∧
      infoS entered line₂.bytes = some () ∧ text line₂.bytes = some (chomp l.text) ∧
      (isQuit line₂ = true ↔ chomp l.text = quit) := by
  obtain ⟨hne, hlen⟩ := hl
  obtain ⟨line₁, tail₁, hline₁, hbytes₁⟩ := fgets_line line l
  obtain ⟨line₂, tail, hline₂, hbytes⟩ := removeNl_text hbytes₁ (nul_notMem_text l) hne
  have h0 := nul_notMem_chomp (nul_notMem_text l)
  have htext : text line₂.bytes = some (chomp l.text) := by rw [hbytes, text_of_terminated h0]
  have hinfo : infoS entered line₂.bytes = some () := by
    have hentered : entered.length = 10 := rfl
    rw [infoS, htext, bind_eq, some_bind, if_pos (by omega)]
  exact ⟨line₁, line₂, hline₁, hline₂, hinfo, htext, isQuit_iff hbytes h0⟩

theorem entered_unfit (line : CBuf 80) {l : Line} (hl : ¬ l.Fits) {line₁ line₂ : CBuf 80}
    (hline₁ : line.writeAt 0 (l.val ++ [0]) = some line₁) (hline₂ : removeNl line₁ = some line₂) :
    infoS entered line₂.bytes = none := by
  obtain ⟨line₁', tail₁, hline₁', hbytes₁⟩ := fgets_line line l
  obtain rfl : line₁ = line₁' := Option.some.inj (hline₁.symm.trans hline₁')
  by_cases hne : l.text = []
  · rw [hne] at hbytes₁
    rw [removeNl_nil hbytes₁] at hline₂
    exact nomatch hline₂
  · obtain ⟨line, tail, hline, hbytes⟩ := removeNl_text hbytes₁ (nul_notMem_text l) hne
    obtain rfl : line₂ = line := Option.some.inj (hline₂.symm.trans hline)
    have htext : text line₂.bytes = some (chomp l.text) := by
      rw [hbytes, text_of_terminated (nul_notMem_chomp (nul_notMem_text l))]
    have hentered : entered.length = 10 := rfl
    have hlen : ¬ (chomp l.text).length < 67 := fun h => hl ⟨hne, h⟩
    rw [infoS, htext, bind_eq, some_bind, if_neg (by omega)]

section Client
variable {s s' : State} {t : Turn}

theorem client_receives (hpc : s.client.pc = .receive) (h : clientStep s t = some s') :
    ClientStep s t s' := by
  simp only [clientStep, hpc, bind_eq] at h
  obtain ⟨⟨r, down⟩, hfetch, h⟩ := Option.bind_eq_some_iff.mp h
  obtain ⟨client, hclient, h⟩ := Option.bind_eq_some_iff.mp h
  obtain rfl := Option.some.inj h
  simp only [Client.step, hpc] at hclient
  cases fetch_cases hfetch with
  | reset hclosed =>
    obtain rfl := Option.some.inj hclient
    simp only [printed, List.append_nil]
    exact .reset hpc hclosed
  | finished hbytes hclosed chunk hnil =>
    simp only [hnil, if_true] at hclient
    obtain rfl := Option.some.inj hclient
    simp only [printed, hnil, if_true, List.append_nil]
    exact .deaf hpc hclosed
  | some chunk rest hne hbytes =>
    obtain ⟨b₁, b₂, hb₁, hb₂, htext⟩ := stored_chunk s.client.echoBuffer chunk
    simp only [if_neg hne, hb₁, hb₂, htext, bind_eq, some_bind] at hclient
    obtain rfl := Option.some.inj hclient
    simp only [printed, if_neg hne, htext, Option.getD_some]
    exact .hears hpc hne hbytes

theorem sends_or_closed (t : Turn) (other : Stream UInt8) :
    t.sends other = true ∨ t.sends other = false ∧ other.closed = true := by
  unfold Turn.sends
  cases t.ok <;> cases other.closed <;> simp

theorem client_speaks (hpc : s.client.pc = .enter) (h : clientStep s t = some s') :
    ClientStep s t s' := by
  simp only [clientStep, hpc, bind_eq] at h
  obtain ⟨client, hclient, h⟩ := Option.bind_eq_some_iff.mp h
  obtain rfl := Option.some.inj h
  simp only [Client.step, hpc, bind_eq] at hclient
  by_cases hfits : t.line.Fits
  · obtain ⟨line₁, line₂, hline₁, hline₂, hinfo, htext, hquit⟩ :=
      entered_fits s.client.line hfits
    simp only [hline₁, hline₂, hinfo, htext, some_bind] at hclient
    obtain hok | ⟨hok, hclosed⟩ := sends_or_closed t s.server.down
    · simp only [hok, if_true] at hclient
      obtain rfl := Option.some.inj hclient
      simp only [hok, and_self, if_true]
      exact .speaks hpc hfits hquit
    · simp only [hok, Bool.false_eq_true, if_false] at hclient
      obtain rfl := Option.some.inj hclient
      simp only [hok, Bool.false_eq_true, and_false, if_false]
      exact .breaks hpc hclosed
  · obtain ⟨line₁, hline₁, hclient⟩ := Option.bind_eq_some_iff.mp hclient
    obtain ⟨line₂, hline₂, hclient⟩ := Option.bind_eq_some_iff.mp hclient
    rw [entered_unfit s.client.line hfits hline₁ hline₂] at hclient
    exact nomatch hclient

theorem client_step (h : clientStep s t = some s') : ClientStep s t s' := by
  cases hpc : s.client.pc with
  | check =>
    simp only [clientStep, hpc, bind_eq, Client.step, some_bind] at h
    obtain rfl := Option.some.inj h
    simp only [reduceCtorEq, false_and, if_false]
    split
    · exact .leaves hpc
    · exact .goesOn hpc
  | enter => exact client_speaks hpc h
  | compare =>
    simp only [clientStep, hpc, bind_eq, Client.step, some_bind] at h
    obtain rfl := Option.some.inj h
    simp only [reduceCtorEq, false_and, if_false]
    split
    · exact .ends hpc
    · exact .waits hpc
  | receive => exact client_receives hpc h
  | closed =>
    simp only [clientStep, hpc, bind_eq, Client.step] at h
    exact nomatch h
  | died =>
    simp only [clientStep, hpc, bind_eq, Client.step] at h
    exact nomatch h

end Client

section Server
variable {s s' : State} {t : Turn}

theorem server_receives (hpc : s.server.pc = .receive) (h : serverStep s t = some s') :
    ServerStep s t s' := by
  simp only [serverStep, hpc, bind_eq] at h
  obtain ⟨⟨r, up⟩, hfetch, h⟩ := Option.bind_eq_some_iff.mp h
  obtain ⟨server, hserver, h⟩ := Option.bind_eq_some_iff.mp h
  obtain rfl := Option.some.inj h
  have hpc' : (facing s.server r).pc = .receive := hpc
  have hrecvs : (facing s.server r).recvs = [r] := rfl
  simp only [Chat.step, hpc', hrecvs] at hserver
  cases fetch_cases hfetch with
  | reset hclosed =>
    obtain rfl := Option.some.inj hserver
    simp only [printed, List.append_nil]
    exact .reset hpc rfl rfl hclosed
  | finished hbytes hclosed chunk hnil =>
    simp only [hnil, if_true] at hserver
    obtain rfl := Option.some.inj hserver
    simp only [printed, hnil, if_true, List.append_nil]
    exact .deaf hpc rfl rfl hclosed
  | some chunk rest hne hbytes =>
    obtain ⟨b₁, b₂, hb₁, hb₂, htext⟩ := stored_chunk s.server.echoBuffer chunk
    have hecho : (facing s.server (.bytes chunk)).echoBuffer = s.server.echoBuffer := rfl
    simp only [if_neg hne, hecho, hb₁, hb₂, htext, bind_eq, some_bind] at hserver
    obtain rfl := Option.some.inj hserver
    simp only [printed, if_neg hne, htext, Option.getD_some]
    refine .hears hpc ?_ ?_ hne hbytes
    · rfl
    · rfl

theorem server_speaks (hpc : s.server.pc = .enter) (h : serverStep s t = some s') :
    ServerStep s t s' := by
  simp only [serverStep, hpc, bind_eq] at h
  obtain ⟨server, hserver, h⟩ := Option.bind_eq_some_iff.mp h
  obtain rfl := Option.some.inj h
  by_cases hfits : t.line.Fits
  · obtain ⟨line, -, hstep⟩ := enter_fits
      (c := typing s.server t.line (t.sends s.client.up)) hpc rfl hfits
    rw [hserver] at hstep
    obtain rfl := Option.some.inj hstep
    have hsends : (typing s.server t.line (t.sends s.client.up)).sends.headD true =
      t.sends s.client.up := rfl
    rw [hsends]
    obtain hok | ⟨hok, hclosed⟩ := sends_or_closed t s.client.up
    · simp only [hok, and_self, if_true]
      refine .speaks hpc hfits ?_ ?_
      · rfl
      · rfl
    · simp only [hok, Bool.false_eq_true, and_false, if_false]
      refine .breaks hpc ?_ ?_ hclosed
      · rfl
      · rfl
  · rw [enter_unfit (c := typing s.server t.line (t.sends s.client.up)) hpc rfl hfits] at hserver
    exact nomatch hserver

theorem server_step (h : serverStep s t = some s') : ServerStep s t s' := by
  cases hpc : s.server.pc with
  | check =>
    have hpc' : (typing s.server t.line (t.sends s.client.up)).pc = .check := hpc
    simp only [serverStep, hpc, bind_eq, Chat.step, hpc', some_bind] at h
    obtain rfl := Option.some.inj h
    simp only [reduceCtorEq, false_and, if_false]
    split
    · exact .leaves hpc rfl rfl
    · exact .goesOn hpc rfl rfl
  | enter => exact server_speaks hpc h
  | receive => exact server_receives hpc h
  | closed =>
    have hpc' : (typing s.server t.line (t.sends s.client.up)).pc = .closed := hpc
    simp only [serverStep, hpc, bind_eq, Chat.step, hpc', Option.bind_none, reduceCtorEq] at h
  | died =>
    have hpc' : (typing s.server t.line (t.sends s.client.up)).pc = .died := hpc
    simp only [serverStep, hpc, bind_eq, Chat.step, hpc', Option.bind_none, reduceCtorEq] at h

end Server

/-! ## Nothing is lost -/

/-- The bytes of the lines, as they are sent. -/
def texts (ls : List Line) : List UInt8 := ls.flatMap fun l => chomp l.text

/-- What one side has printed, with what is still under way, is what the other side has said. -/
structure Intact (s : State) : Prop where
  up : s.serverShown ++ s.client.up.bytes = texts s.clientSaid
  down : s.clientShown ++ s.server.down.bytes = texts s.serverSaid

section Intact
variable {s s' t : State}

theorem zero_not_mem_texts (ls : List Line) : (0 : UInt8) ∉ texts ls := by
  intro h
  obtain ⟨l, -, hl⟩ := List.mem_flatMap.mp h
  exact nul_notMem_chomp (nul_notMem_text l) hl

theorem texts_concat (ls : List Line) (l : Line) : texts (ls ++ [l]) = texts ls ++ chomp l.text := by
  simp [texts]

/-- What a program prints of the bytes it gets is all of them: no line holds a NUL. -/
theorem shown_chunk {shown rest bytes : List UInt8} {ls : List Line} (chunk : Chunk)
    (h : shown ++ bytes = texts ls) (hbytes : bytes = chunk.val ++ rest) :
    shown ++ chunk.val.takeWhile (· ≠ 0) ++ rest = texts ls := by
  rw [hbytes] at h
  have hall : chunk.val.takeWhile (· ≠ 0) = chunk.val := by
    refine List.takeWhile_eq_self_iff.mpr fun c hc => ?_
    have hne : c ≠ 0 := by
      rintro rfl
      refine zero_not_mem_texts ls ?_
      rw [← h]
      simp [hc]
    simpa using hne
  rw [hall, List.append_assoc, h]

theorem Intact.client (h : Intact s) {turn : Turn} (hstep : ClientStep s turn s') : Intact s' := by
  cases hstep with
  | speaks pc fits quits =>
    refine ⟨?_, h.down⟩
    show s.serverShown ++ (s.client.up.bytes ++ _) = _
    rw [← List.append_assoc, h.up, texts_concat]
  | hears pc ne bytes => exact ⟨h.up, shown_chunk _ h.down bytes⟩
  | _ => exact ⟨h.up, h.down⟩

theorem Intact.server (h : Intact s) {turn : Turn} (hstep : ServerStep s turn s') : Intact s' := by
  cases hstep with
  | speaks pc fits next down =>
    refine ⟨h.up, ?_⟩
    rw [down, texts_concat, ← h.down]
    exact (List.append_assoc _ _ _).symm
  | hears pc next down ne bytes => exact ⟨shown_chunk _ h.up bytes, by rw [down]; exact h.down⟩
  | leaves pc next down => exact ⟨h.up, by rw [down]; exact h.down⟩
  | goesOn pc next down => exact ⟨h.up, by rw [down]; exact h.down⟩
  | breaks pc next down closed => exact ⟨h.up, by rw [down]; exact h.down⟩
  | reset pc next down closed => exact ⟨h.up, by rw [down]; exact h.down⟩
  | deaf pc next down closed => exact ⟨h.up, by rw [down]; exact h.down⟩

theorem Starts.intact (h : Starts s) : Intact s := by
  refine ⟨?_, ?_⟩
  · rw [h.shown.2, h.client.2, h.said.1]
    rfl
  · rw [h.shown.1, h.server.2, h.said.2]
    rfl

end Intact

/-! ## Who is to speak -/

/-- Both sides wait for the other, with nothing under way. -/
structure Waiting (s : State) : Prop where
  client : s.client.pc = .receive
  server : s.server.pc = .receive
  up : s.client.up = ⟨[], false⟩
  down : s.server.down = ⟨[], false⟩

def Stuck (s : State) : Prop := ∀ a, step s a = none

/-- Both programs have left their loops. -/
def Over (s : State) : Prop :=
  (s.client.pc = .closed ∨ s.client.pc = .died) ∧ (s.server.pc = .closed ∨ s.server.pc = .died)

/-- A line without text sends no bytes. -/
def Blank (l : Line) : Prop := chomp l.text = []

/-- The lines that were sent by either side. -/
def said (s : State) : List Line := s.clientSaid ++ s.serverSaid

def BlankSaid (s : State) : Prop := ∃ l ∈ said s, Blank l

/-- Somebody is to speak, something is under way, or somebody has left. -/
def Lively (s : State) : Prop :=
  s.client.pc ∈ [.check, .enter, .closed, .died] ∨ s.server.pc ∈ [.enter, .closed, .died] ∨
    s.client.up.bytes ≠ [] ∨ s.server.down.bytes ≠ []

/-- A stream is closed exactly when its program has left. -/
structure Closing (s : State) : Prop where
  client : s.client.up.closed = true ↔ s.client.pc = .closed ∨ s.client.pc = .died
  server : s.server.down.closed = true ↔ s.server.pc = .closed ∨ s.server.pc = .died

section Speaking
variable {s s' t : State} {turn : Turn}

theorem Closing.client_step (h : Closing s) (hstep : ClientStep s turn s') : Closing s' := by
  obtain ⟨hclient, hserver⟩ := h
  cases hstep with
  | leaves pc => exact ⟨iff_of_true rfl (.inl rfl), hserver⟩
  | breaks pc closed => exact ⟨iff_of_true rfl (.inr rfl), hserver⟩
  | reset pc closed => exact ⟨iff_of_true rfl (.inr rfl), hserver⟩
  | _ pc =>
    rw [pc] at hclient
    exact ⟨hclient.trans (by simp), hserver⟩

theorem Closing.server_step (h : Closing s) (hstep : ServerStep s turn s') : Closing s' := by
  obtain ⟨hclient, hserver⟩ := h
  cases hstep with
  | leaves pc next down => exact ⟨hclient, by rw [down]; exact iff_of_true rfl (.inl next)⟩
  | breaks pc next down closed => exact ⟨hclient, by rw [down]; exact iff_of_true rfl (.inr next)⟩
  | reset pc next down closed => exact ⟨hclient, by rw [down]; exact iff_of_true rfl (.inr next)⟩
  | goesOn pc next down =>
    rw [pc] at hserver
    exact ⟨hclient, by rw [down, next]; exact hserver.trans (by simp)⟩
  | speaks pc fits next down =>
    rw [pc] at hserver
    exact ⟨hclient, by rw [down, next]; exact hserver.trans (by simp)⟩
  | deaf pc next down closed =>
    rw [pc] at hserver
    exact ⟨hclient, by rw [down, next]; exact hserver.trans (by simp)⟩
  | hears pc next down ne bytes =>
    rw [pc] at hserver
    exact ⟨hclient, by rw [down, next]; exact hserver.trans (by simp)⟩

theorem send_ne_nil {st : Stream UInt8} {bs : List UInt8} (h : bs ≠ []) :
    (st.send bs).bytes ≠ [] := fun hnil => h (List.append_eq_nil_iff.mp hnil).2

theorem BlankSaid.client_step (h : BlankSaid s) (hstep : ClientStep s turn s') :
    BlankSaid s' := by
  obtain ⟨l, hl, hblank⟩ := h
  refine ⟨l, ?_, hblank⟩
  cases hstep with
  | speaks pc fits quits => exact List.mem_append.mpr <|
      (List.mem_append.mp hl).imp_left fun hl => List.mem_append_left _ hl
  | _ => exact hl

theorem BlankSaid.server_step (h : BlankSaid s) (hstep : ServerStep s turn s') :
    BlankSaid s' := by
  obtain ⟨l, hl, hblank⟩ := h
  refine ⟨l, ?_, hblank⟩
  cases hstep with
  | speaks pc fits next down => exact List.mem_append.mpr <|
      (List.mem_append.mp hl).imp_right fun hl => List.mem_append_left _ hl
  | _ => exact hl

/-- Who hears something is to speak; who speaks a line with text puts it under way. -/
theorem Lively.client_step (h : Lively s) (hstep : ClientStep s turn s') :
    BlankSaid s' ∨ Lively s' := by
  cases hstep with
  | speaks pc fits quits =>
    by_cases hblank : Blank turn.line
    · exact .inl ⟨turn.line, by simp [said], hblank⟩
    · exact .inr (.inr (.inr (.inl (send_ne_nil hblank))))
  | waits pc =>
    refine .inr (.inr (h.resolve_left ?_))
    rw [pc]
    decide
  | goesOn pc => exact .inr (.inl (by simp))
  | leaves pc => exact .inr (.inl (by simp))
  | breaks pc closed => exact .inr (.inl (by simp))
  | ends pc => exact .inr (.inl (by simp))
  | reset pc closed => exact .inr (.inl (by simp))
  | deaf pc closed => exact .inr (.inl (by simp))
  | hears pc ne bytes => exact .inr (.inl (by simp))

/-- A server that does not speak leaves it to the client or to what is under way. -/
theorem Lively.keep {server : Chat} (h : Lively s)
    (hnot : s.server.pc ∉ [ChatPc.enter, .closed, .died])
    (down : server.down = s.server.down) : Lively { s with server := server } := by
  obtain h | h | h | h := h
  · exact .inl h
  · exact absurd h hnot
  · exact .inr (.inr (.inl h))
  · exact .inr (.inr (.inr (by rw [down]; exact h)))

theorem Lively.server_step (h : Lively s) (hstep : ServerStep s turn s') :
    BlankSaid s' ∨ Lively s' := by
  cases hstep with
  | speaks pc fits next down =>
    by_cases hblank : Blank turn.line
    · exact .inl ⟨turn.line, by simp [said], hblank⟩
    · exact .inr (.inr (.inr (.inr (by rw [down]; exact send_ne_nil hblank))))
  | goesOn pc next down => exact .inr (h.keep (by rw [pc]; decide) down)
  | deaf pc next down closed => exact .inr (h.keep (by rw [pc]; decide) down)
  | leaves pc next down => exact .inr (.inr (.inl (by simp [next])))
  | breaks pc next down closed => exact .inr (.inr (.inl (by simp [next])))
  | reset pc next down closed => exact .inr (.inr (.inl (by simp [next])))
  | hears pc next down ne bytes => exact .inr (.inr (.inl (by simp [next])))

theorem Starts.closing (h : Starts s) : Closing s := by
  refine ⟨?_, ?_⟩
  · rw [h.client.1, h.client.2]
    simp
  · rw [h.server.1, h.server.2]
    simp

theorem Starts.lively (h : Starts s) : Lively s := .inl (by rw [h.client.1]; simp)

/-- A line that fits, and has a text. -/
def hello : Line := ⟨[104, 10], by decide⟩

theorem hello_fits : hello.Fits := ⟨by decide, by decide⟩

theorem client_enabled (hpc : s.client.pc ≠ .closed ∧ s.client.pc ≠ .died)
    (hrecv : s.client.pc = .receive → s.server.down.bytes ≠ [] ∨ s.server.down.closed = true) :
    ∃ turn s', clientStep s turn = some s' := by
  cases hc : s.client.pc with
  | check => exact ⟨⟨hello, none, true⟩, by simp [clientStep, hc, Client.step]⟩
  | compare => exact ⟨⟨hello, none, true⟩, by simp [clientStep, hc, Client.step]⟩
  | enter =>
    obtain ⟨line₁, line₂, hline₁, hline₂, hinfo, htext, -⟩ :=
      entered_fits s.client.line hello_fits
    refine ⟨⟨hello, none, true⟩, ?_⟩
    simp [clientStep, hc, Client.step, hline₁, hline₂, hinfo, htext, Turn.sends]
  | receive =>
    obtain ⟨n, r, down, hfetch⟩ := exists_fetch (hrecv hc)
    refine ⟨⟨hello, n, true⟩, ?_⟩
    simp only [clientStep, hc, bind_eq, hfetch, some_bind, Client.step]
    cases r with
    | failed => exact ⟨_, rfl⟩
    | bytes chunk =>
      obtain ⟨b₁, b₂, hb₁, hb₂, htext⟩ := stored_chunk s.client.echoBuffer chunk
      simp only [hb₁, hb₂, htext, some_bind]
      split <;> exact ⟨_, rfl⟩
  | closed => exact absurd hc hpc.1
  | died => exact absurd hc hpc.2

theorem server_enabled (hpc : s.server.pc ≠ .closed ∧ s.server.pc ≠ .died)
    (hrecv : s.server.pc = .receive → s.client.up.bytes ≠ [] ∨ s.client.up.closed = true) :
    ∃ turn s', serverStep s turn = some s' := by
  cases hc : s.server.pc with
  | check =>
    have hc' : (typing s.server hello (Turn.sends ⟨hello, none, true⟩ s.client.up)).pc = .check :=
      hc
    exact ⟨⟨hello, none, true⟩, by simp [serverStep, hc, Chat.step, hc']⟩
  | enter =>
    obtain ⟨line, -, hstep⟩ := enter_fits
      (c := typing s.server hello (Turn.sends ⟨hello, none, true⟩ s.client.up)) hc rfl hello_fits
    exact ⟨⟨hello, none, true⟩, by simp [serverStep, hc, hstep]⟩
  | receive =>
    obtain ⟨n, r, up, hfetch⟩ := exists_fetch (hrecv hc)
    refine ⟨⟨hello, n, true⟩, ?_⟩
    have hc' : (facing s.server r).pc = .receive := hc
    have hrecvs : (facing s.server r).recvs = [r] := rfl
    simp only [serverStep, hc, bind_eq, hfetch, some_bind, Chat.step, hc', hrecvs]
    cases r with
    | failed => exact ⟨_, rfl⟩
    | bytes chunk =>
      obtain ⟨b₁, b₂, hb₁, hb₂, htext⟩ := stored_chunk s.server.echoBuffer chunk
      have hecho : (facing s.server (.bytes chunk)).echoBuffer = s.server.echoBuffer := rfl
      simp only [hecho, hb₁, hb₂, htext, some_bind]
      split <;> exact ⟨_, rfl⟩
  | closed => exact absurd hc hpc.1
  | died => exact absurd hc hpc.2

theorem fetch_idle {st : Stream UInt8} (hbytes : st.bytes = []) (hclosed : st.closed = false)
    (n : Option ℕ) : fetch st n = none := by
  cases hf : fetch st n with
  | none => rfl
  | some p =>
    obtain ⟨r, st'⟩ := p
    cases fetch_cases hf with
    | reset h => rw [hclosed] at h; exact nomatch h
    | finished h hc chunk hnil => rw [hclosed] at hc; exact nomatch hc
    | some chunk rest hne h => exact absurd (List.append_eq_nil_iff.mp (h.symm.trans hbytes)).1 hne

theorem Waiting.stuck (h : Waiting s) : Stuck s := by
  intro a
  cases a with
  | client turn =>
    have hf := fetch_idle (show s.server.down.bytes = [] by rw [h.down]) (by rw [h.down]) turn.n
    simp only [step, clientStep, h.client, bind_eq, hf, Option.bind_none]
  | server turn =>
    have hf := fetch_idle (show s.client.up.bytes = [] by rw [h.up]) (by rw [h.up]) turn.n
    simp only [step, serverStep, h.server, bind_eq, hf, Option.bind_none]

theorem Over.stuck (h : Over s) : Stuck s := by
  obtain ⟨hclient, hserver⟩ := h
  intro a
  cases a with
  | client turn =>
    cases hs : step s (.client turn) with
    | none => rfl
    | some s' =>
      have hpc : s.client.pc ≠ .closed ∧ s.client.pc ≠ .died := by
        cases client_step hs with
        | _ pc => simp [pc]
      exact absurd hclient (not_or.mpr hpc)
  | server turn =>
    cases hs : step s (.server turn) with
    | none => rfl
    | some s' =>
      have hpc : s.server.pc ≠ .closed ∧ s.server.pc ≠ .died := by
        cases server_step hs with
        | _ pc => simp [pc]
      exact absurd hserver (not_or.mpr hpc)

theorem Waiting.not_lively (h : Waiting s) : ¬ Lively s := by
  simp [Lively, h.client, h.server, h.up, h.down]

theorem idle_stream {st : Stream UInt8} (hbytes : st.bytes = []) (hopen : ¬ st.closed = true) :
    st = ⟨[], false⟩ := by
  obtain ⟨bytes, closed⟩ := st
  rw [Bool.not_eq_true] at hopen
  exact congrArg₂ Stream.mk hbytes hopen

/-- Only two programs that wait for each other are stuck before both have left. -/
theorem stuck_iff (h : Closing s) : Stuck s ↔ Waiting s ∨ Over s := by
  refine ⟨fun hstuck => ?_, fun h => h.elim Waiting.stuck Over.stuck⟩
  have hclient : ¬ ∃ turn s', clientStep s turn = some s' := by
    rintro ⟨turn, s', hs⟩
    exact nomatch (hstuck (.client turn)).symm.trans hs
  have hserver : ¬ ∃ turn s', serverStep s turn = some s' := by
    rintro ⟨turn, s', hs⟩
    exact nomatch (hstuck (.server turn)).symm.trans hs
  by_cases hc : s.client.pc = .closed ∨ s.client.pc = .died
  · -- the end of the stream reaches the server
    refine .inr ⟨hc, ?_⟩
    by_contra hs
    exact hserver (server_enabled (not_or.mp hs) fun _ => .inr (h.client.mpr hc))
  · have hquiet : ¬ (s.client.pc = .receive →
        s.server.down.bytes ≠ [] ∨ s.server.down.closed = true) :=
      fun hrecv => hclient (client_enabled (not_or.mp hc) hrecv)
    obtain ⟨hpc, hdown⟩ := Classical.not_imp.mp hquiet
    obtain ⟨hbytes, hopen⟩ := not_or.mp hdown
    have hs : ¬ (s.server.pc = .closed ∨ s.server.pc = .died) := fun hs => hopen (h.server.mpr hs)
    have hquiet' : ¬ (s.server.pc = .receive →
        s.client.up.bytes ≠ [] ∨ s.client.up.closed = true) :=
      fun hrecv => hserver (server_enabled (not_or.mp hs) hrecv)
    obtain ⟨hpc', hup⟩ := Classical.not_imp.mp hquiet'
    obtain ⟨hbytes', hopen'⟩ := not_or.mp hup
    exact .inl ⟨hpc, hpc',
      idle_stream (not_not.mp hbytes') hopen', idle_stream (not_not.mp hbytes) hopen⟩

/-- A blank line, typed at the client when nothing is under way and the server waits for it. -/
theorem blank_waits (hclient : t.client.pc = .enter) (hserver : t.server.pc = .receive)
    (hup : t.client.up = ⟨[], false⟩) (hdown : t.server.down = ⟨[], false⟩)
    (hfits : turn.line.Fits) (hblank : Blank turn.line) :
    ∃ u, after step t [.client turn, .client turn] = some u ∧ Waiting u := by
  obtain ⟨line₁, line₂, hline₁, hline₂, hinfo, htext, hquit⟩ := entered_fits t.client.line hfits
  have hsends : turn.sends t.server.down = true := by simp [Turn.sends, hdown]
  have hnot : ¬ isQuit line₂ = true := fun h => nomatch hblank.symm.trans (hquit.mp h)
  let t₁ : State := { t with
    client := { t.client with line := line₂, up := t.client.up.send [], pc := .compare }
    clientSaid := t.clientSaid ++ [turn.line] }
  have hfirst : step t (.client turn) = some t₁ := by
    simp only [step, clientStep, hclient, bind_eq, Client.step, hline₁, hline₂, hinfo, htext,
      hsends, some_bind, if_true, and_self, t₁, show chomp turn.line.text = [] from hblank]
    rfl
  let t₂ : State := { t₁ with client := { t₁.client with pc := .receive } }
  have hsecond : step t₁ (.client turn) = some t₂ := by
    simp only [step, clientStep, t₁, t₂, bind_eq, Client.step, some_bind, if_neg hnot,
      reduceCtorEq, false_and, if_false]
    rfl
  refine ⟨t₂, by rw [after_cons hfirst, after_cons hsecond]; rfl, rfl, hserver, ?_, hdown⟩
  show t.client.up.send [] = _
  rw [hup]
  rfl

/-- **The conversation goes on while the lines have text**: over every run, the two programs are
stuck exactly when both have left or both wait; they wait only after a blank line, and always when
one is typed at the client with nothing else to be heard. -/
theorem conversation_goes_on {ls : List Label} (hs : Starts s) (h : after step s ls = some t) :
    (Stuck t ↔ Waiting t ∨ Over t) ∧ (Waiting t → BlankSaid t) ∧
      (t.client.pc = .enter → t.server.pc = .receive → t.client.up.bytes = [] →
        t.server.down.bytes = [] → ∀ turn : Turn, turn.line.Fits → Blank turn.line →
        ∃ u, after step t [.client turn, .client turn] = some u ∧ Waiting u) := by
  have hinv : Closing t ∧ (BlankSaid t ∨ Lively t) := by
    refine invariant_after (I := fun s => Closing s ∧ (BlankSaid s ∨ Lively s)) ?_
      ⟨hs.closing, .inr hs.lively⟩ h
    rintro s a s' ⟨hclosing, hlively⟩ hstep
    cases a with
    | client turn =>
      have hc := client_step hstep
      exact ⟨hclosing.client_step hc, hlively.elim (fun h => .inl (h.client_step hc))
        fun h => h.client_step hc⟩
    | server turn =>
      have hc := server_step hstep
      exact ⟨hclosing.server_step hc, hlively.elim (fun h => .inl (h.server_step hc))
        fun h => h.server_step hc⟩
  refine ⟨stuck_iff hinv.1, fun hw => hinv.2.resolve_right hw.not_lively, ?_⟩
  intro hclient hserver hup hdown turn hfits hblank
  have hupOpen : ¬ t.client.up.closed = true := by simp [hinv.1.client, hclient]
  have hdownOpen : ¬ t.server.down.closed = true := by simp [hinv.1.server, hserver]
  exact blank_waits hclient hserver (idle_stream hup hupOpen) (idle_stream hdown hdownOpen) hfits
    hblank

end Speaking

/-! ## Runs -/

def opened : State where
  client := ⟨CBuf.zero 80, CBuf.zero rcvBufSize, ⟨[], false⟩, .check⟩
  server := Chat.start ⟨CBuf.zero 80, CBuf.zero rcvBufSize, [], [], []⟩
  clientSaid := []
  serverSaid := []
  clientShown := []
  serverShown := []

theorem starts_opened : Starts opened := ⟨⟨rfl, rfl⟩, ⟨rfl, rfl⟩, ⟨rfl, rfl⟩, ⟨rfl, rfl⟩⟩

def turn (l : Line) (n : ℕ) : Turn := ⟨l, some n, true⟩

def newline : Line := ⟨[10], by decide⟩

def listening : List Label := [.client (turn newline 0), .server (turn newline 0)]

theorem listening_runs : (after step opened listening).isSome := by decide +kernel

/-- The client's user presses return at once. -/
theorem conversation_goes_on_newline : ∃ t u, after step opened listening = some t ∧
    after step t [.client (turn newline 0), .client (turn newline 0)] = some u ∧ Waiting u := by
  have hrun := (Option.some_get listening_runs).symm
  obtain ⟨u, hu, hw⟩ := (conversation_goes_on starts_opened hrun).2.2 (by decide +kernel)
    (by decide +kernel) (by decide +kernel) (by decide +kernel) (turn newline 0)
    ⟨by decide, by decide⟩ (show chomp newline.text = [] by decide)
  exact ⟨_, u, hrun, hu, hw⟩

end El32.Conversation

import El32.Foundations.ByteStream
import El32.Foundations.Transition
import El32.Socket.Auxiliary

/-! `HandleTCPChatClient.c` in the loop of `TCPChatServer.c`: when a session ends.

The server and its user take turns: a message from the client is printed, a line typed at the server
is sent back, until that line is `Quit`. Nothing the client sends ends a session. -/
namespace El32.ChatServer
open CString ByteStream Socket Transition
set_option autoImplicit false

/-- A `recv` fails or stores its bytes; none of them at the end of the stream. -/
inductive Recv where
  | failed
  | bytes (chunk : { c : List UInt8 // c.length < rcvBufSize })

/-- What `fgets` stores of a typed line, before the terminator. -/
abbrev Line := { l : List UInt8 // l ≠ [] ∧ l.length < 80 }

/-- What a session gets. The arrays are not initialised; behind `recvs` every `recv` reports the end of
the stream, and behind `sends` every `send` succeeds. `fgets` waits for a line to be typed. -/
structure Session where
  line : CBuf 80
  echoBuffer : CBuf rcvBufSize
  recvs : List Recv
  typed : List Line
  sends : List Bool

inductive ChatPc where
  | check
  | receive
  | enter
  | closed
  | died
deriving DecidableEq

structure Chat extends Session where
  down : Stream UInt8
  pc : ChatPc

def Chat.start (s : Session) : Chat := { s with down := ⟨[], false⟩, pc := .check }

def quit : List UInt8 := ['Q', 'u', 'i', 't'].map Char.toUInt8

/-- `strcmp (line, "Quit") == 0`; the comparison stops at the first difference. -/
def isQuit (line : CBuf 80) : Bool := (quit ++ [0]).isPrefixOf line.bytes

def entered : List UInt8 := ['E', 'n', 't', 'e', 'r', 'e', 'd', ':', ' ', ' '].map Char.toUInt8

/-- One call of the handler, or one comparison: an access outside an array has no value. -/
def Chat.step (c : Chat) : Option Chat :=
  match c.pc with
  | .check =>
    some (if isQuit c.line then { c with pc := .closed, down := c.down.close }
      else { c with pc := .receive })
  | .receive =>
    match c.recvs with
    | [] => some c
    | .failed :: recvs => some { c with recvs := recvs, pc := .died }
    | .bytes chunk :: recvs =>
      -- the loop goes on while `bytesRcvd` is 0
      if chunk.val = [] then some { c with recvs := recvs }
      else do
        let echoBuffer ← c.echoBuffer.writeAt 0 chunk.val
        let echoBuffer ← addNt echoBuffer chunk.val.length
        -- the message is printed
        let _ ← text echoBuffer.bytes
        some { c with echoBuffer := echoBuffer, recvs := recvs, pc := .enter }
  | .enter =>
    match c.typed with
    | [] => none
    | l :: typed => do
      let line ← c.line.writeAt 0 (l.val ++ [0])
      let line ← removeNl line
      let _ ← infoS entered line.bytes
      let msg ← text line.bytes
      let sent := { c with line := line, typed := typed, sends := c.sends.tail }
      if c.sends.headD true then some { sent with down := c.down.send msg, pc := .check }
      else some { sent with pc := .died }
  | .closed | .died => none

/-- `main`: it accepts a client or is in the handler of one; `served` are the connections of the clients
before. -/
inductive Server where
  | accept (served : List (Stream UInt8))
  | handle (served : List (Stream UInt8)) (c : Chat)

/-- What the server does without a new client. -/
def Server.act : Server → Option Server
  | .accept _ => none
  | .handle served c =>
    if c.pc = .closed then some (.accept (served ++ [c.down])) else c.step.map (.handle served)

/-- The handler has closed its socket and the server accepts the next client. -/
def Accepts (served : List (Stream UInt8)) (t : Server) : Prop :=
  ∃ down, t = .accept (served ++ [down]) ∧ down.closed = true

def SessionEnds (served : List (Stream UInt8)) (s : Session) : Prop :=
  Arrives Server.act (Accepts served) (.handle served (Chat.start s))

/-! ## The condition -/

/-- The messages a session receives before a `recv` fails. -/
def messages : List Recv → ℕ
  | [] | .failed :: _ => 0
  | .bytes chunk :: recvs => if chunk.val = [] then messages recvs else messages recvs + 1

/-- The string in the array after `fgets`. -/
def Line.text (l : Line) : List UInt8 := l.val.takeWhile (· ≠ 0)

/-- There is a last character to look at, and the line fits the text of `info_s`. -/
def Line.Fits (l : Line) : Prop := l.text ≠ [] ∧ (chomp l.text).length < 67

/-- The line `Quit` is typed after one of `m` messages, and no line up to it is too long, none empty,
and none fails to be sent. -/
def QuitTyped (m : ℕ) (typed : List Line) (sends : List Bool) : Prop :=
  ∃ k < m, (∃ l, typed[k]? = some l ∧ chomp l.text = quit) ∧
    ∀ j ≤ k, (∀ l, typed[j]? = some l → l.Fits) ∧ sends.getD j true = true

/-! ## The calls of the handler -/

theorem isQuit_iff {line : CBuf 80} {t tail : List UInt8} (hline : line.bytes = t ++ 0 :: tail)
    (ht : (0 : UInt8) ∉ t) : isQuit line = true ↔ t = quit := by
  rw [isQuit, List.isPrefixOf_iff_prefix, hline]
  constructor
  · rintro ⟨r, hr⟩
    have hquit : text (quit ++ 0 :: r) = some quit := text_of_terminated (by decide) r
    rw [List.append_cons, hr, text_of_terminated ht] at hquit
    exact Option.some.inj hquit
  · rintro rfl
    exact ⟨tail, by simp⟩

theorem nul_notMem_text (l : Line) : (0 : UInt8) ∉ l.text := nul_notMem_takeWhile l.val

theorem fgets_line (line : CBuf 80) (l : Line) : ∃ line' tail,
    line.writeAt 0 (l.val ++ [0]) = some line' ∧ line'.bytes = l.text ++ 0 :: tail := by
  have hlen : 0 + (l.val ++ [0]).length ≤ 80 := by
    have hl := l.property.2
    rw [List.length_append, List.length_singleton]
    omega
  obtain ⟨line', hline', hbytes⟩ := line.writeAt_some 0 (l.val ++ [0]) hlen
  rw [List.take_zero, List.nil_append, List.append_assoc, List.singleton_append] at hbytes
  obtain ⟨tail, htail⟩ := terminated_split l.val (line.bytes.drop (0 + (l.val ++ [0]).length))
  exact ⟨line', tail, hline', hbytes.trans htail⟩

theorem nul_notMem_chomp {t : List UInt8} (ht : (0 : UInt8) ∉ t) : (0 : UInt8) ∉ chomp t := by
  unfold chomp
  split
  · exact fun h => ht (List.mem_of_mem_dropLast h)
  · exact ht

section Step
variable {c : Chat} {l : Line} {typed : List Line}

theorem enter_fits (hpc : c.pc = .enter) (htyped : c.typed = l :: typed) (hl : l.Fits) :
    ∃ line, (isQuit line = true ↔ chomp l.text = quit) ∧ c.step = some
      (if c.sends.headD true then { c with
        line := line, typed := typed, sends := c.sends.tail,
        down := c.down.send (chomp l.text), pc := .check }
      else { c with line := line, typed := typed, sends := c.sends.tail, pc := .died }) := by
  obtain ⟨hne, hlen⟩ := hl
  obtain ⟨line₁, tail₁, hline₁, hbytes₁⟩ := fgets_line c.line l
  obtain ⟨line, tail, hline, hbytes⟩ := removeNl_text hbytes₁ (nul_notMem_text l) hne
  have h0 := nul_notMem_chomp (nul_notMem_text l)
  have htext : text line.bytes = some (chomp l.text) := by rw [hbytes, text_of_terminated h0]
  have hinfo : infoS entered line.bytes = some () := by
    have hentered : entered.length = 10 := rfl
    rw [infoS, htext, bind_eq, some_bind, if_pos (by omega)]
  refine ⟨line, isQuit_iff hbytes h0, ?_⟩
  simp only [Chat.step, hpc, htyped, hline₁, hline, hinfo, htext, bind_eq, some_bind]
  split <;> rfl

theorem enter_unfit (hpc : c.pc = .enter) (htyped : c.typed = l :: typed) (hl : ¬ l.Fits) :
    c.step = none := by
  obtain ⟨line₁, tail₁, hline₁, hbytes₁⟩ := fgets_line c.line l
  simp only [Chat.step, hpc, htyped, hline₁, bind_eq, some_bind]
  by_cases hne : l.text = []
  · rw [hne] at hbytes₁
    rw [removeNl_nil hbytes₁]
    rfl
  · obtain ⟨line, tail, hline, hbytes⟩ := removeNl_text hbytes₁ (nul_notMem_text l) hne
    have htext : text line.bytes = some (chomp l.text) := by
      rw [hbytes, text_of_terminated (nul_notMem_chomp (nul_notMem_text l))]
    have hinfo : infoS entered line.bytes = none := by
      have hentered : entered.length = 10 := rfl
      have hlen : ¬ (chomp l.text).length < 67 := fun h => hl ⟨hne, h⟩
      rw [infoS, htext, bind_eq, some_bind, if_neg (by omega)]
    rw [hline, some_bind, hinfo]
    rfl

end Step

/-! ## Where a session ends -/

def Ends (served : List (Stream UInt8)) (c : Chat) : Prop :=
  Arrives Server.act (Accepts served) (.handle served c)

section Ends
variable {served : List (Stream UInt8)} {c c' : Chat}

theorem not_accepts : ¬ Accepts served (.handle served c) := by
  rintro ⟨down, h, -⟩
  cases h

theorem ends_step (hpc : c.pc ≠ .closed) (h : c.step = some c') :
    Ends served c ↔ Ends served c' :=
  arrives_step (by rw [Server.act, if_neg hpc, h, Option.map_some]) not_accepts

theorem not_ends_stuck (hpc : c.pc ≠ .closed) (h : c.step = none) : ¬ Ends served c :=
  not_arrives_stuck (by rw [Server.act, if_neg hpc, h, Option.map_none]) not_accepts

theorem not_ends_spin (hpc : c.pc ≠ .closed) (h : c.step = some c) : ¬ Ends served c :=
  not_arrives_spin (by rw [Server.act, if_neg hpc, h, Option.map_some]) not_accepts

theorem ends_closed (hpc : c.pc = .closed) (hdown : c.down.closed = true) : Ends served c := by
  have hact : Server.act (.handle served c) = some (.accept (served ++ [c.down])) := by
    rw [Server.act, if_pos hpc]
  exact (arrives_step hact not_accepts).mpr (arrives_here ⟨c.down, rfl, hdown⟩)

theorem ends_check (hpc : c.pc = .check) :
    Ends served c ↔ isQuit c.line = true ∨ Ends served { c with pc := .receive } := by
  by_cases hquit : isQuit c.line = true
  · have hstep : c.step = some { c with pc := .closed, down := c.down.close } := by
      simp only [Chat.step, hpc, hquit, if_true]
    rw [ends_step (by simp [hpc]) hstep]
    exact iff_of_true (ends_closed rfl rfl) (.inl hquit)
  · have hstep : c.step = some { c with pc := .receive } := by
      simp only [Chat.step, hpc, hquit]
      rfl
    rw [ends_step (by simp [hpc]) hstep, or_iff_right hquit]

/-- The loop around `recv` ends with a message: it skips results of zero bytes, those at the end of the
stream as well. -/
theorem ends_receive (served : List (Stream UInt8)) (hpc : c.pc = .receive) :
    (messages c.recvs = 0 ∧ ¬ Ends served c) ∨
      ∃ echoBuffer recvs, messages c.recvs = messages recvs + 1 ∧
        (Ends served c ↔
          Ends served { c with echoBuffer := echoBuffer, recvs := recvs, pc := .enter }) := by
  induction hrecvs : c.recvs generalizing c with
  | nil =>
    refine .inl ⟨rfl, not_ends_spin (by simp [hpc]) ?_⟩
    simp only [Chat.step, hpc, hrecvs]
  | cons r recvs ih =>
    have hopen : c.pc ≠ .closed := by simp [hpc]
    cases r with
    | failed =>
      have hstep : c.step = some { c with recvs := recvs, pc := .died } := by
        simp only [Chat.step, hpc, hrecvs]
      refine .inl ⟨rfl, ?_⟩
      rw [ends_step hopen hstep]
      exact not_ends_stuck nofun rfl
    | bytes chunk =>
      by_cases hnil : chunk.val = []
      · have hstep : c.step = some { c with recvs := recvs } := by
          simp only [Chat.step, hpc, hrecvs, if_pos hnil]
        rw [ends_step hopen hstep, messages, if_pos hnil]
        exact ih (c := { c with recvs := recvs }) hpc rfl
      · obtain ⟨b₁, b₂, rest, hb₁, hb₂, hbytes⟩ := received_bytes c.echoBuffer chunk.property
        obtain ⟨tail, htail⟩ := terminated_split chunk.val rest
        have htext : text b₂.bytes = some (chunk.val.takeWhile (· ≠ 0)) := by
          rw [hbytes, htail, text_of_terminated (nul_notMem_takeWhile _)]
        have hstep : c.step =
            some { c with echoBuffer := b₂, recvs := recvs, pc := .enter } := by
          simp only [Chat.step, hpc, hrecvs, if_neg hnil, hb₁, hb₂, htext, bind_eq, some_bind]
        exact .inr ⟨b₂, recvs, by rw [messages, if_neg hnil], ends_step hopen hstep⟩

end Ends

section QuitTyped
variable {m : ℕ} {l : Line} {typed : List Line} {sends : List Bool}

theorem not_quitTyped_zero : ¬ QuitTyped 0 typed sends := by
  rintro ⟨k, hk, -⟩
  exact Nat.not_lt_zero k hk

theorem not_quitTyped_nil : ¬ QuitTyped m [] sends := by
  rintro ⟨k, -, ⟨l, hl, -⟩, -⟩
  cases hl

theorem getD_headD_tail (sends : List Bool) (j : ℕ) :
    sends.getD 0 true = sends.headD true ∧ sends.getD (j + 1) true = sends.tail.getD j true := by
  cases sends <;> simp

theorem quitTyped_cons : QuitTyped (m + 1) (l :: typed) sends ↔
    l.Fits ∧ sends.headD true = true ∧ (chomp l.text = quit ∨ QuitTyped m typed sends.tail) := by
  constructor
  · rintro ⟨k, hk, ⟨q, hq, hquit⟩, hall⟩
    obtain ⟨hfits, hsend⟩ := hall 0 (Nat.zero_le k)
    rw [(getD_headD_tail sends 0).1] at hsend
    refine ⟨hfits l rfl, hsend, ?_⟩
    cases k with
    | zero =>
      obtain rfl : l = q := Option.some.inj hq
      exact .inl hquit
    | succ k =>
      refine .inr ⟨k, Nat.lt_of_succ_lt_succ hk, ⟨q, hq, hquit⟩, fun j hj => ?_⟩
      obtain ⟨hfits, hsend⟩ := hall (j + 1) (Nat.succ_le_succ hj)
      exact ⟨hfits, (getD_headD_tail sends j).2 ▸ hsend⟩
  · rintro ⟨hl, hsend, hquit⟩
    have hfirst : (∀ q, (l :: typed)[0]? = some q → q.Fits) ∧ sends.getD 0 true = true := by
      refine ⟨?_, (getD_headD_tail sends 0).1.trans hsend⟩
      rintro q hq
      obtain rfl : l = q := Option.some.inj hq
      exact hl
    obtain hquit | ⟨k, hk, hq, hall⟩ := hquit
    · refine ⟨0, Nat.succ_pos m, ⟨l, rfl, hquit⟩, fun j hj => ?_⟩
      obtain rfl := Nat.le_zero.mp hj
      exact hfirst
    · refine ⟨k + 1, Nat.succ_lt_succ hk, hq, fun j hj => ?_⟩
      cases j with
      | zero => exact hfirst
      | succ j =>
        obtain ⟨hfits, hsend⟩ := hall j (Nat.le_of_succ_le_succ hj)
        exact ⟨hfits, (getD_headD_tail sends j).2.trans hsend⟩

end QuitTyped

theorem ends_iff {served : List (Stream UInt8)} {c : Chat} (hpc : c.pc = .check) :
    Ends served c ↔ isQuit c.line = true ∨ QuitTyped (messages c.recvs) c.typed c.sends := by
  induction htyped : c.typed generalizing c with
  | nil =>
    rw [ends_check hpc]
    refine or_congr_right (iff_of_false ?_ not_quitTyped_nil)
    obtain ⟨-, hnot⟩ | ⟨echoBuffer, recvs, -, hiff⟩ :=
      ends_receive served (c := { c with pc := .receive }) rfl
    · exact hnot
    · rw [hiff]
      exact not_ends_stuck nofun (by simp only [Chat.step, htyped])
  | cons l typed ih =>
    rw [ends_check hpc]
    refine or_congr_right ?_
    obtain ⟨hm, hnot⟩ | ⟨echoBuffer, recvs, hm, hiff⟩ :=
      ends_receive served (c := { c with pc := .receive }) rfl
    · rw [show messages c.recvs = 0 from hm]
      exact iff_of_false hnot not_quitTyped_zero
    · rw [hiff, show messages c.recvs = messages recvs + 1 from hm, quitTyped_cons]
      by_cases hl : l.Fits
      · obtain ⟨line, hquit, hstep⟩ := enter_fits
          (c := { c with echoBuffer := echoBuffer, recvs := recvs, pc := .enter }) rfl htyped hl
        rw [ends_step (by simp) hstep, and_iff_right hl]
        by_cases hsend : c.sends.headD true = true
        · rw [if_pos hsend, and_iff_right hsend, ih rfl rfl, hquit]
        · rw [if_neg hsend]
          exact iff_of_false (not_ends_stuck nofun rfl) fun h => hsend h.1
      · exact iff_of_false (not_ends_stuck nofun (enter_unfit rfl htyped hl)) fun h => hl h.1

/-- **A session ends exactly when its user types `Quit` in answer to one of the client's messages**, or
when the array holds `Quit` before anything was typed. The end of the stream does not end it. -/
theorem session_ends_iff (served : List (Stream UInt8)) (s : Session) :
    SessionEnds served s ↔
      isQuit s.line = true ∨ QuitTyped (messages s.recvs) s.typed s.sends :=
  ends_iff rfl

/-- The client's user types `Quit` at once; the answer at the server is `bye`. -/
def clientQuits : Session where
  line := CBuf.zero 80
  echoBuffer := CBuf.zero 32
  recvs := [.bytes ⟨quit, by decide⟩]
  typed := [⟨['b', 'y', 'e', '\n'].map Char.toUInt8, by decide⟩]
  sends := []

/-- The server receives the end of the stream for ever. -/
theorem clientQuits_not_ends : ¬ SessionEnds [] clientQuits := by
  intro h
  obtain hquit | ⟨k, hk, ⟨l, hl, hquit⟩, -⟩ := (ends_iff rfl).mp h
  · exact absurd hquit (by decide +kernel)
  · obtain rfl : k = 0 := Nat.lt_one_iff.mp hk
    obtain rfl := Option.some.inj hl
    exact absurd hquit (by decide +kernel)

end El32.ChatServer

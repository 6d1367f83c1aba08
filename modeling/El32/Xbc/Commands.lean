import El32.Foundations.CString
import El32.Foundations.Decimal

/-! The command messages of `common/commands.c`: building `id,cmd,val`, the queue hop, and the
parser `retreiveCommand`.

The parser is translated with its scratch buffer and its hand-computed terminator positions; an
index or a copy length outside its array has no value. The main results compute the parser on every
string: what it stores when the three fields fit, and that it leaves its arrays in every other
case. -/
namespace El32.Commands
open CString Decimal
set_option autoImplicit false

def maxCmdLen : ℕ := 50

def comma : UInt8 := 44

def cmdRumble : List UInt8 := ['r', 'u', 'm', 'b', 'l', 'e'].map Char.toUInt8
def cmdLed : List UInt8 := ['l', 'e', 'd'].map Char.toUInt8
def cmdBtns : List UInt8 := ['b', 't', 'n', 's'].map Char.toUInt8

structure Command where
  id : UInt8
  cmd : CBuf maxCmdLen
  val : Int16
deriving DecidableEq

/-- What one queue entry holds: all `MAX_CMD_LEN` bytes of the sender's array. -/
abbrev Message := CBuf maxCmdLen

/-! ## Sending -/

/-- The local arrays of `sendCommand` and `makeCommand`, with whatever the stack held. -/
structure SendFrame where
  idbuffer : CBuf 20
  valbuffer : CBuf 20
  strCmd : CBuf maxCmdLen

def sprintfD {n : ℕ} (buf : CBuf n) (v : ℤ) : Option (CBuf n) := strcpy buf (intText v ++ [0])

def makeCommand (f : SendFrame) (id : UInt8) (cmd : List UInt8) (val : Int16) :
    Option (CBuf maxCmdLen) := do
  let idbuffer ← sprintfD f.idbuffer id.toNat
  let valbuffer ← sprintfD f.valbuffer val.toInt
  let strCmd ← strcpy f.strCmd idbuffer.bytes
  let strCmd ← strcat strCmd [comma, 0]
  let strCmd ← strcat strCmd cmd
  let strCmd ← strcat strCmd [comma, 0]
  let strCmd ← strcat strCmd valbuffer.bytes
  strcat strCmd [0, 0]

/-- The named queue, oldest message first. All messages have one priority, so it is a FIFO. -/
abbrev Queue := List Message

/-- `q = none` is a queue that could not be opened: `mq_send` then only logs. -/
def sendCommand (f : SendFrame) (cmd : Command) (q : Option Queue) : Option (Option Queue) := do
  let strCmd ← makeCommand f cmd.id cmd.cmd.bytes cmd.val
  return q.map (· ++ [strCmd])

/-! ## Receiving -/

def retreiveCommand (wide : ℤ → ℤ) (cmd : Command) (msg : List UInt8) : Option Command := do
  let substr : CBuf 50 := CBuf.zero 50
  -- copy id; subtracting from the null pointer is undefined
  let e ← strchr msg comma
  let index1 := intOf (← e)
  let substr ← strncpy substr msg index1
  let substr ← substr.store (index1 + 1) 0
  let id := atoi wide (← text substr.bytes)
  -- copy value
  let e ← strrchr msg comma
  let index2 := intOf (← e)
  let len ← strlen msg
  let substr ← strncpy substr (← skip msg (index2 + 1)) (len - index2 - 1)
  let substr ← substr.store (len - index2) 0
  let val := atoi wide (← text substr.bytes)
  -- copy command
  let dst ← strncpy cmd.cmd (← skip msg (index1 + 1)) (index2 - index1 - 1)
  let dst ← dst.store (index2 - index1 - 1) 0
  return { id := UInt8.ofInt id, cmd := dst, val := Int16.ofInt val }

/-- A receive that fails (`none`) leaves the caller's structure as it was. -/
def getCommand (wide : ℤ → ℤ) (cmd : Command) : Option Message → Option Command
  | none => some cmd
  | some message => retreiveCommand wide cmd message.bytes

/-! ## The message text -/

def messageText (id : UInt8) (cmd : List UInt8) (val : Int16) : List UInt8 :=
  intText id.toNat ++ comma :: (cmd ++ comma :: intText val.toInt)

theorem zero_not_mem_intText (v : ℤ) : (0 : UInt8) ∉ intText v :=
  not_mem_intText (by decide) (by decide) v

theorem comma_not_mem_intText (v : ℤ) : comma ∉ intText v :=
  not_mem_intText (by decide) (by decide) v

theorem text_intText (v : ℤ) : text (intText v ++ [0]) = some (intText v) :=
  text_of_terminated (zero_not_mem_intText v) []

theorem text_comma : text [comma, 0] = some [comma] := rfl

theorem intText_id_length (id : UInt8) : (intText id.toNat).length ≤ 3 := by
  have h : id.toNat < 10 ^ (2 + 1) := by have := id.toNat_lt; omega
  rw [intText_ofNat]
  exact natText_length_le id.toNat h

theorem intText_val_length (val : Int16) : (intText val.toInt).length ≤ 6 := by
  have h1 := val.le_toInt
  have h2 := val.toInt_lt
  exact intText_length_le (k := 4) val.toInt (by omega)

theorem sprintfD_some {n : ℕ} (buf : CBuf n) (v : ℤ) (h : (intText v).length < n) :
    ∃ b, sprintfD buf v = some b ∧ text b.bytes = some (intText v) :=
  strcpy_some buf (text_intText v) h

/-- `makeCommand` on a command text: the message when it fits with its NUL, else nothing. -/
theorem makeCommand_spec (f : SendFrame) (id : UInt8) {cmd s : List UInt8} (val : Int16)
    (hs : text cmd = some s) :
    if (messageText id s val).length < maxCmdLen then
      ∃ b, makeCommand f id cmd val = some b ∧ text b.bytes = some (messageText id s val)
    else makeCommand f id cmd val = none := by
  have hi := intText_id_length id
  have hv := intText_val_length val
  obtain ⟨ib, hib, hibt⟩ := sprintfD_some f.idbuffer (id.toNat : ℤ) (by omega)
  obtain ⟨vb, hvb, hvbt⟩ := sprintfD_some f.valbuffer val.toInt (by omega)
  obtain ⟨b1, hb1, ht1⟩ := strcpy_some f.strCmd hibt (by unfold maxCmdLen; omega)
  obtain ⟨b2, hb2, ht2⟩ := strcat_some b1 ht1 text_comma
    (by rw [List.length_singleton]; unfold maxCmdLen; omega)
  have hlen : (messageText id s val).length =
      (intText id.toNat).length + s.length + (intText val.toInt).length + 2 := by
    simp only [messageText, List.length_append, List.length_cons]
    omega
  have hmk : makeCommand f id cmd val = (strcat b2 cmd).bind fun b3 =>
      (strcat b3 [comma, 0]).bind fun b4 =>
      (strcat b4 vb.bytes).bind fun b5 => strcat b5 [0, 0] := by
    simp only [makeCommand, bind_eq, hib, hvb, hb1, hb2, some_bind]
  rw [hmk]
  simp only [hlen]
  rcases strcat_cases b2 ht2 hs with ⟨h3, hn⟩ | ⟨h3, b3, hb3, ht3⟩
  · simp only [List.length_append, List.length_singleton] at h3
    rw [if_neg (by omega), hn, Option.bind_none]
  rw [hb3, some_bind]
  rcases strcat_cases b3 ht3 text_comma with ⟨h4, hn⟩ | ⟨h4, b4, hb4, ht4⟩
  · simp only [List.length_append, List.length_singleton] at h4
    rw [if_neg (by omega), hn, Option.bind_none]
  rw [hb4, some_bind]
  rcases strcat_cases b4 ht4 hvbt with ⟨h5, hn⟩ | ⟨h5, b5, hb5, ht5⟩
  · simp only [List.length_append, List.length_singleton] at h5
    rw [if_neg (by omega), hn, Option.bind_none]
  rw [hb5, some_bind]
  -- the last `strcat` appends the empty string
  obtain ⟨b6, hb6, ht6⟩ := strcat_some b5 ht5 (text_zero_cons [0])
    (by simp only [List.length_append, List.length_singleton, List.length_nil] at h5 ⊢; omega)
  simp only [List.length_append, List.length_singleton] at h5
  rw [if_pos (by omega)]
  refine ⟨b6, hb6, ?_⟩
  rw [ht6]
  simp [messageText]

theorem sendCommand_spec (f : SendFrame) (q : Option Queue) {cmd : Command} {s : List UInt8}
    (hs : text cmd.cmd.bytes = some s) :
    if (messageText cmd.id s cmd.val).length < maxCmdLen then
      ∃ m, sendCommand f cmd q = some (q.map (· ++ [m])) ∧
        text m.bytes = some (messageText cmd.id s cmd.val)
    else sendCommand f cmd q = none := by
  have hmk := makeCommand_spec f cmd.id cmd.val hs
  by_cases h : (messageText cmd.id s cmd.val).length < maxCmdLen
  · rw [if_pos h] at hmk ⊢
    obtain ⟨m, hm, hmt⟩ := hmk
    exact ⟨m, by simp only [sendCommand, bind_eq, hm, some_bind, Option.pure_def], hmt⟩
  · rw [if_neg h] at hmk ⊢
    simp only [sendCommand, bind_eq, hmk, Option.bind_none]

/-! ## The three fields of a string -/

/-- `s` is `I,C,V`, cut at its first and its last comma. -/
structure Fields (s I C V : List UInt8) : Prop where
  eq : s = I ++ comma :: (C ++ comma :: V)
  id_free : comma ∉ I
  val_free : comma ∉ V

theorem Fields.length {s I C V : List UInt8} (h : Fields s I C V) :
    s.length = I.length + C.length + V.length + 2 := by
  rw [h.eq]
  simp only [List.length_append, List.length_cons]
  omega

theorem Fields.first {s I C V : List UInt8} (h : Fields s I C V) :
    s.idxOf? comma = some I.length := by
  rw [h.eq]
  exact idxOf_first h.id_free _

theorem Fields.last {s I C V : List UInt8} (h : Fields s I C V) :
    lastIdxOf comma s = some (I.length + 1 + C.length) := by
  have hs : s = (I ++ comma :: C) ++ comma :: V := by rw [h.eq]; simp
  rw [hs, lastIdxOf_last h.val_free, List.length_append, List.length_cons]
  congr 1
  omega

theorem Fields.unique {s I C V I' C' V' : List UInt8} (h : Fields s I C V)
    (h' : Fields s I' C' V') : I = I' ∧ C = C' ∧ V = V' := by
  have hI : I.length = I'.length := Option.some.inj (h.first.symm.trans h'.first)
  have hC : I.length + 1 + C.length = I'.length + 1 + C'.length :=
    Option.some.inj (h.last.symm.trans h'.last)
  obtain ⟨rfl, hR⟩ := List.append_inj (h.eq.symm.trans h'.eq) hI
  obtain ⟨rfl, hV⟩ := List.append_inj (List.cons.inj hR).2 (by omega)
  exact ⟨rfl, rfl, (List.cons.inj hV).2⟩

theorem messageText_fields (id : UInt8) (cmd : List UInt8) (val : Int16) :
    Fields (messageText id cmd val) (intText id.toNat) cmd (intText val.toInt) :=
  ⟨rfl, comma_not_mem_intText _, comma_not_mem_intText _⟩

theorem exists_fields {s : List UInt8} (h : 2 ≤ s.count comma) : ∃ I C V, Fields s I C V := by
  have hmem : comma ∈ s := List.count_pos_iff.mp (by omega)
  obtain ⟨I, R, hs, hI⟩ := List.eq_append_cons_of_mem hmem
  have hR : comma ∈ R.reverse := by
    rw [hs, List.count_append, List.count_cons_self, List.count_eq_zero_of_not_mem hI] at h
    exact List.mem_reverse.mpr (List.count_pos_iff.mp (by omega))
  obtain ⟨V, C, hr, hV⟩ := List.eq_append_cons_of_mem hR
  have hR' : R = C.reverse ++ comma :: V.reverse := by
    have := congrArg List.reverse hr
    simpa using this
  exact ⟨I, C.reverse, V.reverse, by rw [hs, hR'], hI, by simpa using hV⟩

theorem Fields.two_commas {s I C V : List UInt8} (h : Fields s I C V) : 2 ≤ s.count comma := by
  rw [h.eq, List.count_append, List.count_cons_self, List.count_append, List.count_cons_self]
  omega

theorem Fields.ne_nil {s I C V : List UInt8} (h : Fields s I C V) : s ≠ [] := by
  rw [h.eq]
  simp

theorem Fields.infix_command {s I C V : List UInt8} (h : Fields s I C V) : C <:+: s :=
  ⟨I ++ [comma], comma :: V, by rw [h.eq]; simp⟩

/-! ## The scratch buffer of the parser

The id is copied into a zeroed array, the value over it, and each copy is terminated one byte too
far: where the value is shorter than the id, one byte of the id stays behind the value. -/

/-- The byte of the id field that is left behind the value. -/
def stale (I V : List UInt8) : List UInt8 := (I.drop V.length).take 1

theorem stale_of_le {I V : List UInt8} (h : I.length ≤ V.length) : stale I V = [] := by
  rw [stale, List.drop_eq_nil_of_le h, List.take_nil]

section Scratch
variable {n : ℕ}

theorem scratch_id {I : List UInt8} (h0 : (0 : UInt8) ∉ I) (r : List UInt8)
    (hn : I.length + 1 < n) :
    ∃ b b', strncpy (CBuf.zero n) (I ++ r) I.length = some b ∧
      b.store (I.length + 1 : ℕ) 0 = some b' ∧
      b'.bytes = I ++ List.replicate (n - I.length) 0 := by
  obtain ⟨b, hb, hbytes⟩ := strncpy_text (CBuf.zero n) h0 r (by omega)
  obtain ⟨b', hb', hbytes'⟩ := b.writeAt_some (I.length + 1) [0] (by simp; omega)
  refine ⟨b, b', hb, by rw [CBuf.store_ofNat, hb'], ?_⟩
  obtain ⟨k, hk⟩ : ∃ k, n - I.length = k + 2 := ⟨n - I.length - 2, by omega⟩
  have hk1 : I.length + 1 - I.length = 1 := by omega
  have hk2 : I.length + 2 - I.length = 2 := by omega
  rw [hbytes', hbytes, CBuf.zero, List.drop_replicate, hk, List.length_singleton,
    List.take_append, List.drop_append, List.take_of_length_le (by omega),
    List.drop_eq_nil_of_le (by omega), hk1, hk2]
  simp [List.replicate_succ]

theorem scratch_val {I V : List UInt8} (hI : (0 : UInt8) ∉ I) (hV : (0 : UInt8) ∉ V)
    (b : CBuf n) (hb : b.bytes = I ++ List.replicate (n - I.length) 0) (r : List UInt8)
    (hn : V.length + 1 < n) :
    ∃ b' b'', strncpy b (V ++ r) V.length = some b' ∧
      b'.store (V.length + 1 : ℕ) 0 = some b'' ∧
      text b''.bytes = some (V ++ stale I V) := by
  obtain ⟨b', hb', hbytes⟩ := strncpy_text b hV r (by omega)
  obtain ⟨b'', hb'', hbytes'⟩ := b'.writeAt_some (V.length + 1) [0] (by simp; omega)
  refine ⟨b', b'', hb', by rw [CBuf.store_ofNat, hb''], ?_⟩
  have htake : (V ++ b.bytes.drop V.length).take (V.length + 1) =
      V ++ (b.bytes.drop V.length).take 1 := by
    rw [List.take_append, List.take_of_length_le (by omega)]
    simp
  rw [hbytes', hbytes, htake]
  by_cases hlt : V.length < I.length
  · have hd : (b.bytes.drop V.length).take 1 = stale I V := by
      rw [hb, List.drop_append, List.take_append_of_le_length]
      · rfl
      · simp; omega
    have h0 : (0 : UInt8) ∉ V ++ stale I V := by
      intro hmem
      rcases List.mem_append.mp hmem with h | h
      · exact hV h
      · exact hI (List.mem_of_mem_drop (List.mem_of_mem_take h))
    rw [hd, List.append_assoc, List.singleton_append, text_of_terminated h0]
  · obtain ⟨k, hk⟩ : ∃ k, n - I.length - (V.length - I.length) = k + 1 :=
      ⟨n - I.length - (V.length - I.length) - 1, by omega⟩
    have hd : (b.bytes.drop V.length).take 1 = [0] := by
      rw [hb, List.drop_append, List.drop_eq_nil_of_le (by omega), List.drop_replicate, hk]
      simp [List.replicate_succ]
    rw [hd, stale_of_le (by omega), List.append_nil, List.append_assoc, List.append_assoc,
      List.singleton_append, text_of_terminated hV]

theorem copy_command {C : List UInt8} (h0 : (0 : UInt8) ∉ C) (dst : CBuf n) (r : List UInt8)
    (hn : C.length < n) :
    ∃ b b', strncpy dst (C ++ r) C.length = some b ∧ b.store (C.length : ℕ) 0 = some b' ∧
      text b'.bytes = some C := by
  obtain ⟨b, hb, hbytes⟩ := strncpy_text dst h0 r (by omega)
  obtain ⟨b', hb', hbytes'⟩ := b.writeAt_some C.length [0] (by simp; omega)
  refine ⟨b, b', hb, by rw [CBuf.store_ofNat, hb'], ?_⟩
  rw [hbytes', hbytes, List.take_left, List.append_assoc, List.singleton_append,
    text_of_terminated h0]

end Scratch

/-! ## The parser on every string -/

/-- The three fields fit the scratch array and the command array. -/
def FieldsFit (I C V : List UInt8) : Prop := I.length ≤ 48 ∧ V.length ≤ 48 ∧ C.length ≤ 49

section Parser
variable {wide : ℤ → ℤ} {msg s I C V : List UInt8}

/-- The parser after its searches, for a string whose first comma is at `k1`, whose last is at
`k2`. -/
theorem retreiveCommand_searched {k1 k2 : ℕ} (hmsg : text msg = some s)
    (hk1 : s.idxOf? comma = some k1) (hk2 : lastIdxOf comma s = some k2) (cmd : Command) :
    retreiveCommand wide cmd msg =
      (strncpy (CBuf.zero 50) msg (intOf k1)).bind fun b1 =>
      (b1.store (intOf k1 + 1) 0).bind fun b2 =>
      (text b2.bytes).bind fun idText =>
      (skip msg (intOf k2 + 1)).bind fun src =>
      (strncpy b2 src (s.length - intOf k2 - 1)).bind fun b3 =>
      (b3.store (s.length - intOf k2) 0).bind fun b4 =>
      (text b4.bytes).bind fun valText =>
      (skip msg (intOf k1 + 1)).bind fun src =>
      (strncpy cmd.cmd src (intOf k2 - intOf k1 - 1)).bind fun c1 =>
      (c1.store (intOf k2 - intOf k1 - 1) 0).bind fun c2 =>
      some ⟨UInt8.ofInt (atoi wide idText), c2, Int16.ofInt (atoi wide valText)⟩ := by
  have hchr : strchr msg comma = some (some k1) := by simp [strchr, hmsg, hk1]
  have hrchr : strrchr msg comma = some (some k2) := by simp [strrchr, hmsg, hk2]
  have hstrlen : strlen msg = some s.length := by simp [strlen, hmsg]
  simp only [retreiveCommand, bind_eq, hchr, hrchr, hstrlen, some_bind, Option.pure_def]

theorem retreiveCommand_some (wide : ℤ → ℤ) (hmsg : text msg = some s) (hf : Fields s I C V)
    (hfit : FieldsFit I C V) (cmd : Command) :
    ∃ c, retreiveCommand wide cmd msg = some c ∧ c.id = UInt8.ofInt (atoi wide I) ∧
      text c.cmd.bytes = some C ∧ c.val = Int16.ofInt (atoi wide (V ++ stale I V)) := by
  obtain ⟨hI48, hV48, hC49⟩ := hfit
  obtain ⟨h0, r, hr⟩ := text_eq_some hmsg
  have hlen := hf.length
  obtain ⟨hI0, hC0, hV0⟩ : (0 : UInt8) ∉ I ∧ (0 : UInt8) ∉ C ∧ (0 : UInt8) ∉ V := by
    rw [hf.eq] at h0
    simp only [List.mem_append, List.mem_cons, not_or] at h0
    exact ⟨h0.1, h0.2.2.1, h0.2.2.2.2⟩
  -- the string seen from its start and from behind each of the two commas
  have hmsgI : msg = I ++ (comma :: (C ++ comma :: V) ++ 0 :: r) := by rw [hr, hf.eq]; simp
  have hmsgC : msg = (I ++ [comma]) ++ (C ++ (comma :: V ++ 0 :: r)) := by rw [hr, hf.eq]; simp
  have hmsgV : msg = (I ++ comma :: (C ++ [comma])) ++ (V ++ 0 :: r) := by rw [hr, hf.eq]; simp
  have hi1 : intOf (I.length : ℕ) = I.length := intOf_small (by omega)
  have hi2 : intOf (I.length + 1 + C.length : ℕ) = I.length + 1 + C.length := by
    rw [intOf_small (by omega), Nat.cast_add, Nat.cast_add, Nat.cast_one]
  have hskipV : skip msg (I.length + 1 + C.length + 1) = some (V ++ 0 :: r) := by
    have hl : ((I ++ comma :: (C ++ [comma])).length : ℤ) = I.length + 1 + C.length + 1 := by
      simp only [List.length_append, List.length_cons, List.length_nil]
      omega
    rw [hmsgV, ← hl, skip_append]
  have hskipC : skip msg (I.length + 1) = some (C ++ (comma :: V ++ 0 :: r)) := by
    have hl : ((I ++ [comma]).length : ℤ) = I.length + 1 := by simp
    rw [hmsgC, ← hl, skip_append]
  -- the copies
  obtain ⟨b1, b2, hb1, hb2, hbytes⟩ := scratch_id (n := 50) hI0
    (comma :: (C ++ comma :: V) ++ 0 :: r) (by omega)
  rw [← hmsgI] at hb1
  have htext2 : text b2.bytes = some I := by
    obtain ⟨k, hk⟩ : ∃ k, 50 - I.length = k + 1 := ⟨50 - I.length - 1, by omega⟩
    rw [hbytes, hk, List.replicate_succ, text_of_terminated hI0]
  obtain ⟨b3, b4, hb3, hb4, htext4⟩ := scratch_val hI0 hV0 b2 hbytes (0 :: r) (by omega)
  obtain ⟨c1, c2, hc1, hc2, htextc⟩ := copy_command hC0 cmd.cmd (comma :: V ++ 0 :: r)
    (by unfold maxCmdLen; omega)
  have hlV : (s.length : ℤ) - (I.length + 1 + C.length) - 1 = V.length := by omega
  have hlV1 : (s.length : ℤ) - (I.length + 1 + C.length) = (V.length + 1 : ℕ) := by omega
  have hlC : ((I.length : ℤ) + 1 + C.length) - I.length - 1 = C.length := by omega
  have hlI : (I.length : ℤ) + 1 = (I.length + 1 : ℕ) := by omega
  refine ⟨⟨UInt8.ofInt (atoi wide I), c2, Int16.ofInt (atoi wide (V ++ stale I V))⟩, ?_, rfl,
    htextc, rfl⟩
  rw [retreiveCommand_searched hmsg hf.first hf.last, hi1, hi2, hlV, hlC, hlV1, hskipV, hskipC,
    hb1, some_bind, hlI, hb2, some_bind, htext2, some_bind, some_bind,
    hb3, some_bind, hb4, some_bind, htext4, some_bind, some_bind, hc1,
    some_bind, hc2, some_bind]

/-- Fields that do not fit leave an array, wrapped offsets included. -/
theorem retreiveCommand_none (hmsg : text msg = some s) (hf : Fields s I C V)
    (hfit : ¬ FieldsFit I C V) (cmd : Command) : retreiveCommand wide cmd msg = none := by
  have hlen := hf.length
  rw [retreiveCommand_searched hmsg hf.first hf.last]
  by_cases hk2 : I.length + 1 + C.length < 2147483648
  · have hi1 : intOf (I.length : ℕ) = I.length := intOf_small (by omega)
    have hi2 : intOf (I.length + 1 + C.length : ℕ) = (I.length + 1 + C.length : ℕ) :=
      intOf_small hk2
    rw [hi1, hi2]
    by_cases hI : I.length ≤ 48
    · refine bind_eq_none_of_forall fun b1 => bind_eq_none_of_forall fun b2 =>
        bind_eq_none_of_forall fun idText => bind_eq_none_of_forall fun src => ?_
      by_cases hV : V.length ≤ 48
      · -- the command field is too long for its array
        have hC : 49 < C.length := by
          by_contra hC
          exact hfit ⟨hI, hV, by omega⟩
        refine bind_eq_none_of_forall fun b3 => bind_eq_none_of_forall fun b4 =>
          bind_eq_none_of_forall fun valText => bind_eq_none_of_forall fun src => ?_
        refine bind_eq_none_of_forall fun c1 => ?_
        have hst : c1.store (((I.length + 1 + C.length : ℕ) : ℤ) - I.length - 1) 0 = none := by
          have he : ((I.length + 1 + C.length : ℕ) : ℤ) - I.length - 1 = C.length := by omega
          rw [he, CBuf.store_ofNat, CBuf.writeAt_none]
          rw [List.length_singleton]
          unfold maxCmdLen
          omega
        rw [hst, Option.bind_none]
      · refine bind_eq_none_of_forall fun b3 => ?_
        have hst : b3.store ((s.length : ℤ) - (I.length + 1 + C.length : ℕ)) 0 = none := by
          have he : (s.length : ℤ) - (I.length + 1 + C.length : ℕ) = (V.length + 1 : ℕ) := by
            omega
          rw [he, CBuf.store_ofNat, CBuf.writeAt_none]
          rw [List.length_singleton]
          omega
        rw [hst, Option.bind_none]
    · refine bind_eq_none_of_forall fun b1 => ?_
      have hst : b1.store ((I.length : ℤ) + 1) 0 = none := by
        have he : (I.length : ℤ) + 1 = (I.length + 1 : ℕ) := by omega
        rw [he, CBuf.store_ofNat, CBuf.writeAt_none]
        rw [List.length_singleton]
        omega
      rw [hst, Option.bind_none]
  · -- the cast changes the offset of the last comma, so the value looks longer than the array
    have hw := intOf_large (by omega : 2147483648 ≤ I.length + 1 + C.length)
    refine bind_eq_none_of_forall fun b1 => bind_eq_none_of_forall fun b2 =>
      bind_eq_none_of_forall fun idText => bind_eq_none_of_forall fun src => ?_
    rw [strncpy_none b2 src (.inr (by push_cast at hw ⊢; omega)), Option.bind_none]

/-- Without two commas the parser uses the null pointer or copies a negative length. -/
theorem retreiveCommand_malformed (hmsg : text msg = some s) (hs : s.count comma < 2)
    (cmd : Command) : retreiveCommand wide cmd msg = none := by
  by_cases hmem : comma ∈ s
  · obtain ⟨a, r, hs', ha⟩ := List.eq_append_cons_of_mem hmem
    have hr : comma ∉ r := by
      rw [hs', List.count_append, List.count_cons_self] at hs
      exact List.count_eq_zero.mp (by omega)
    have hk1 : s.idxOf? comma = some a.length := by rw [hs']; exact idxOf_first ha r
    have hk2 : lastIdxOf comma s = some a.length := by rw [hs']; exact lastIdxOf_last hr a
    rw [retreiveCommand_searched hmsg hk1 hk2]
    iterate 8 refine bind_eq_none_of_forall fun _ => ?_
    rw [strncpy_none cmd.cmd _ (.inl (by omega)), Option.bind_none]
  · have hchr : strchr msg comma = some none := by
      have hnone : s.idxOf? comma = none := by simpa using hmem
      simp [strchr, hmsg, hnone]
    unfold retreiveCommand
    rw [bind_eq, hchr]
    rfl

end Parser

end El32.Commands

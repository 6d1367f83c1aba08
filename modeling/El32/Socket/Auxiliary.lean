import El32.Foundations.CString

/-! The helpers of `Auxiliary.c` that the echo and chat programs share.

An access outside an array, or a text too long for one, has no value. -/
namespace El32.Socket
open CString
set_option autoImplicit false

/-- `RCVBUFSIZE`; every `recv` asks for one byte less. -/
def rcvBufSize : ℕ := 32

section Buffer
variable {n : ℕ}

def addNt (s : CBuf n) (len : ℕ) : Option (CBuf n) := s.store len 0

/-- The body of the loop of `invert_case`, at a position before the terminator. -/
def invertAt (s : CBuf n) (i : ℕ) : Option (CBuf n) := do
  let ch ← s.bytes[i]?
  if 65 ≤ ch ∧ ch ≤ 90 then s.store i (ch + 32)
  else if 97 ≤ ch ∧ ch ≤ 122 then s.store i (ch - 32)
  else some s

/-- The loop; `strlen` is called in each round. -/
def invertCaseLoop : ℕ → ℕ → CBuf n → Option (CBuf n)
  | 0, _, _ => none
  | fuel + 1, i, s => do
    let len ← strlen s.bytes
    if i < len then
      let s ← invertAt s i
      invertCaseLoop fuel (i + 1) s
    else some s

/-- A string in the array is shorter than the array. -/
def invertCase (s : CBuf n) : Option (CBuf n) := invertCaseLoop (n + 1) 0 s

def removeNl (s : CBuf n) : Option (CBuf n) := do
  let len ← strlen s.bytes
  -- the index is -1 when the string is empty
  if len = 0 then none
  else
    let c ← s.bytes[len - 1]?
    if c = 10 then s.store (len - 1 : ℕ) 0 else some s

end Buffer

/-- The `sprintf` of `info_s` into its array of 80: the text is `s '…'`. -/
def infoS (s i : List UInt8) : Option Unit := do
  let t ← text i
  if s.length + t.length + 3 < 80 then some () else none

/-! ## Swapping case -/

/-- The reference: the case of an ASCII letter is swapped, other bytes stay. -/
def swapCase (c : UInt8) : UInt8 :=
  if 65 ≤ c ∧ c ≤ 90 then c + 32 else if 97 ≤ c ∧ c ≤ 122 then c - 32 else c

/-- A fact about bytes, checked on each of them. -/
theorem forall_byte {P : UInt8 → Prop} (h : ∀ n : Fin 256, P (UInt8.ofFin n)) (c : UInt8) : P c :=
  h c.toFin

theorem swapCase_swapCase : ∀ c, swapCase (swapCase c) = c :=
  forall_byte (by decide +kernel)

theorem swapCase_eq_zero : ∀ c, swapCase c = 0 ↔ c = 0 :=
  forall_byte (by decide +kernel)

theorem zero_mem_map_swapCase (t : List UInt8) : (0 : UInt8) ∈ t.map swapCase ↔ (0 : UInt8) ∈ t := by
  simp [swapCase_eq_zero]

section Buffer
variable {n : ℕ} {s : CBuf n}

theorem invertAt_swap {i : ℕ} {c : UInt8} (h : s.bytes[i]? = some c) :
    ∃ s', invertAt s i = some s' ∧ s'.bytes = s.bytes.set i (swapCase c) := by
  have hi : i < n := by
    rw [← s.length_bytes]
    exact (List.getElem?_eq_some_iff.mp h).1
  unfold invertAt
  rw [h, bind_eq, some_bind, swapCase]
  split
  · exact s.store_set (c + 32) hi
  · split
    · exact s.store_set (c - 32) hi
    · obtain ⟨hlt, hget⟩ := List.getElem?_eq_some_iff.mp h
      refine ⟨s, rfl, ?_⟩
      rw [← hget, List.set_getElem_self]

/-- The loop from position `i` on, when the letters before it have been swapped. -/
theorem invertCaseLoop_swap {fuel : ℕ} {pre rest tail : List UInt8}
    (hs : s.bytes = pre ++ rest ++ 0 :: tail) (hpre : (0 : UInt8) ∉ pre)
    (hrest : (0 : UInt8) ∉ rest) (hfuel : rest.length < fuel) :
    ∃ s', invertCaseLoop fuel pre.length s = some s' ∧
      s'.bytes = pre ++ rest.map swapCase ++ 0 :: tail := by
  induction rest generalizing pre s fuel with
  | nil =>
    obtain ⟨fuel, rfl⟩ : ∃ f, fuel = f + 1 := ⟨fuel - 1, by omega⟩
    rw [List.append_nil] at hs
    have hlen : strlen s.bytes = some pre.length := by
      rw [strlen, hs, text_of_terminated hpre]
      rfl
    refine ⟨s, ?_, by rw [hs, List.map_nil, List.append_nil]⟩
    rw [invertCaseLoop, hlen, bind_eq, some_bind, if_neg (Nat.lt_irrefl _)]
  | cons c rest ih =>
    obtain ⟨fuel, rfl⟩ : ∃ f, fuel = f + 1 := ⟨fuel - 1, by omega⟩
    obtain ⟨hc, hrest⟩ : (0 : UInt8) ≠ c ∧ (0 : UInt8) ∉ rest := by simpa using hrest
    have hall : (0 : UInt8) ∉ pre ++ c :: rest := by simp [hpre, hc, hrest]
    have hlen : strlen s.bytes = some (pre ++ c :: rest).length := by
      rw [strlen, hs, text_of_terminated hall]
      rfl
    have hlt : pre.length < (pre ++ c :: rest).length := by simp
    have hget : s.bytes[pre.length]? = some c := by simp [hs]
    obtain ⟨s₁, hs₁, hbytes⟩ := invertAt_swap hget
    have hnext : s₁.bytes = pre ++ [swapCase c] ++ rest ++ 0 :: tail := by
      simp [hbytes, hs]
    have hpre' : (0 : UInt8) ∉ pre ++ [swapCase c] := by
      have hsc : swapCase c ≠ 0 := fun heq => hc ((swapCase_eq_zero c).mp heq).symm
      simp [hpre, hsc.symm]
    have hsucc : pre.length + 1 = (pre ++ [swapCase c]).length := by simp
    obtain ⟨s', hs', hbytes'⟩ := ih hnext hpre' hrest (by simpa using hfuel)
    refine ⟨s', ?_, by simp [hbytes']⟩
    rw [invertCaseLoop, hlen, bind_eq, some_bind, if_pos hlt, hs₁, bind_eq, some_bind, hsucc]
    exact hs'

theorem invertCase_swap {t tail : List UInt8} (hs : s.bytes = t ++ 0 :: tail)
    (ht : (0 : UInt8) ∉ t) :
    ∃ s', invertCase s = some s' ∧ s'.bytes = t.map swapCase ++ 0 :: tail := by
  have hlen : t.length < n := by
    rw [← s.length_bytes, hs, List.length_append, List.length_cons]
    omega
  have hstart : s.bytes = [] ++ t ++ 0 :: tail := hs
  exact invertCaseLoop_swap hstart (by simp) ht (by omega)

/-! ## What a `recv` stored -/

/-- `add_nt` ends the chunk, whatever stood in the array before. -/
theorem received_bytes (buf : CBuf n) {chunk : List UInt8} (hlen : chunk.length < n) :
    ∃ b₁ b₂ rest, buf.writeAt 0 chunk = some b₁ ∧ addNt b₁ chunk.length = some b₂ ∧
      b₂.bytes = chunk ++ 0 :: rest := by
  obtain ⟨b₁, hb₁, hbytes₁⟩ := buf.writeAt_some 0 chunk (by omega)
  obtain ⟨b₂, hb₂, hbytes₂⟩ := b₁.store_set 0 hlen
  have hrest : buf.bytes.drop chunk.length ≠ [] := by
    rw [ne_eq, List.drop_eq_nil_iff, buf.length_bytes]
    omega
  obtain ⟨c, rest, hcons⟩ := List.exists_cons_of_ne_nil hrest
  refine ⟨b₁, b₂, rest, hb₁, hb₂, ?_⟩
  rw [hbytes₂, hbytes₁, List.take_zero, List.nil_append, Nat.zero_add, hcons,
    List.set_append_right _ _ (Nat.le_refl _), Nat.sub_self, List.set_cons_zero]

/-! ## Removing the newline -/

/-- The reference: the text without a newline at its end. -/
def chomp (t : List UInt8) : List UInt8 := if t.getLast? = some 10 then t.dropLast else t

theorem removeNl_nil {tail : List UInt8} (hs : s.bytes = 0 :: tail) : removeNl s = none := by
  simp [removeNl, strlen, hs]

theorem removeNl_text {t tail : List UInt8} (hs : s.bytes = t ++ 0 :: tail) (ht : (0 : UInt8) ∉ t)
    (hne : t ≠ []) :
    ∃ s' tail', removeNl s = some s' ∧ s'.bytes = chomp t ++ 0 :: tail' := by
  obtain ⟨init, c, rfl⟩ := List.eq_nil_or_concat t |>.resolve_left hne
  have hlen : strlen s.bytes = some (init.length + 1) := by
    rw [strlen, hs, text_of_terminated ht]
    simp
  have hget : s.bytes[init.length]? = some c := by simp [hs]
  have hlast : (init.concat c).getLast? = some c := by simp
  simp only [removeNl, hlen, bind_eq, some_bind, if_neg (Nat.succ_ne_zero _), Nat.add_sub_cancel, hget,
    chomp, hlast, Option.some.injEq]
  by_cases hc : c = 10
  · have hi : init.length < n := by
      rw [← s.length_bytes, hs]
      simp
    obtain ⟨s', hs', hbytes⟩ := s.store_set 0 hi
    refine ⟨s', 0 :: tail, by rw [if_pos hc, hs'], ?_⟩
    rw [if_pos hc, hbytes, hs]
    simp
  · exact ⟨s, tail, by rw [if_neg hc], by rw [if_neg hc, hs]⟩

end Buffer

end El32.Socket

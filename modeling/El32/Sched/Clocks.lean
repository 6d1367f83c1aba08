import El32.Foundations.CString
import El32.Foundations.Decimal
import El32.Foundations.Grouping
import El32.Foundations.Loop
import El32.Foundations.Transition

/-! `commaprint` of `clocks.c`: a number in decimal with a separator between its groups of three
digits, written from the end of a static buffer. -/
namespace El32.Clocks
open CString Decimal Grouping Loop Transition
set_option autoImplicit false

/-! ## The program -/

/-- The buffer, where `p` points to, and the counters of the loop. -/
structure Cursor where
  retbuf : CBuf 30
  p : ℕ
  i : ℕ
  n : ℕ
deriving DecidableEq

/-- `*--p = c`. Before the buffer there is no byte to write to. -/
def push (c : UInt8) (s : Cursor) : Option Cursor :=
  if s.p = 0 then none
  else (s.retbuf.writeAt (s.p - 1) [c]).map fun retbuf => { s with retbuf, p := s.p - 1 }

def separate (comma : UInt8) (s : Cursor) : Option Cursor :=
  if s.i % 3 = 0 ∧ s.i ≠ 0 then push comma s else some s

def round (comma : UInt8) (s : Cursor) : Option Cursor := do
  let s ← separate comma s
  let s ← push (digit (s.n % 10)) s
  return { s with n := s.n / 10, i := s.i + 1 }

/-- The `do` loop. -/
def fill (comma : UInt8) (s : Cursor) : Option Cursor := do
  let s ← round comma s
  whileLoop (·.n ≠ 0) (round comma) (·.n) s

/-- The result of `localeconv`: `NULL`, or a structure with the string `thousands_sep`, which may be
`NULL` too. -/
abbrev Lconv := Option (Option (List UInt8))

/-- The separator is chosen once and kept. -/
def chooseComma (lcp : Lconv) (comma : UInt8) : UInt8 :=
  if comma = 0 then
    match lcp with
    | none => comma
    | some sep =>
      let first := (sep.getD []).headD 0
      if first ≠ 0 then first else 44
  else comma

/-- The static variables, and what the callers have printed. -/
structure State where
  comma : UInt8
  retbuf : CBuf 30
  printed : List (List UInt8)

/-- A call, with what `localeconv` returns at the time. -/
structure Call where
  lcp : Lconv
  n : UInt64

/-- `commaprint`, with the pointer that it returns. -/
def commaprint (s : State) (call : Call) : Option (State × ℕ) := do
  let comma := chooseComma call.lcp s.comma
  let retbuf ← s.retbuf.writeAt 29 [0]
  let s' ← fill comma ⟨retbuf, 29, 0, call.n.toNat⟩
  return ({ s with comma, retbuf := s'.retbuf }, s'.p)

/-- A `printf` of the result. -/
def print (s : State) (call : Call) : Option State := do
  let (s, p) ← commaprint s call
  let str ← text (s.retbuf.bytes.drop p)
  return { s with printed := s.printed ++ [str] }

def start : State := ⟨0, CBuf.zero 30, []⟩

/-! ## The loop -/

/-- The digits that the loop has not written yet. -/
def digitsLeft (s : Cursor) : List UInt8 := if s.n = 0 ∧ s.i ≠ 0 then [] else natText s.n

/-- At the end of the buffer stand the last digits of the number, in groups. -/
structure Filled (comma : UInt8) (number : ℕ) (s : Cursor) (digits str : List UInt8) : Prop where
  count : digits.length = s.i
  value : digitsLeft s ++ digits = natText number
  grouped : digits = [] ∧ str = [] ∨ Grouped 3 comma digits str
  buffer : s.retbuf.bytes.drop s.p = str ++ [0]

section Filling
variable {comma : UInt8} {number : ℕ} {s s' : Cursor} {digits str : List UInt8}

theorem push_some (c : UInt8) {l : List UInt8} (h : s.retbuf.bytes.drop s.p = l) (hp : 0 < s.p)
    (hle : s.p ≤ 30) : ∃ s', push c s = some s' ∧ s'.retbuf.bytes.drop s'.p = c :: l ∧
      s'.p = s.p - 1 ∧ s'.i = s.i ∧ s'.n = s.n := by
  obtain ⟨b, hb, hbytes⟩ := s.retbuf.writeAt_some (s.p - 1) [c]
    (by rw [List.length_singleton]; omega)
  refine ⟨{ s with retbuf := b, p := s.p - 1 }, ?_, ?_, rfl, rfl, rfl⟩
  · rw [push, if_neg (Nat.ne_of_gt hp), hb]
    rfl
  · have hlen : (s.retbuf.bytes.take (s.p - 1)).length = s.p - 1 := by
      rw [List.length_take, s.retbuf.length_bytes]
      omega
    have hpred : s.p - 1 + [c].length = s.p := by
      rw [List.length_singleton]
      omega
    rw [hpred, h] at hbytes
    show b.bytes.drop (s.p - 1) = c :: l
    rw [hbytes, List.append_assoc, List.drop_left' hlen]
    rfl

theorem separate_some (c : UInt8) {l : List UInt8} (h : s.retbuf.bytes.drop s.p = l ++ [0])
    (hp : 2 ≤ s.p) (hle : s.p ≤ 30) :
    ∃ s', separate c s = some s' ∧
      s'.retbuf.bytes.drop s'.p = (if s.i % 3 = 0 ∧ s.i ≠ 0 then c :: l else l) ++ [0] ∧
      0 < s'.p ∧ s'.p ≤ 30 ∧ s'.i = s.i ∧ s'.n = s.n := by
  by_cases hc : s.i % 3 = 0 ∧ s.i ≠ 0
  · rw [separate, if_pos hc, if_pos hc]
    obtain ⟨s', hs', hb, hp', hi, hn⟩ := push_some c h (by omega) hle
    exact ⟨s', hs', hb, by omega, by omega, hi, hn⟩
  · rw [separate, if_neg hc, if_neg hc]
    exact ⟨s, rfl, h, by omega, hle, rfl, rfl⟩

theorem Filled.length (h : Filled comma number s digits str) :
    ∃ k, str.length = digits.length + k ∧ (k ≠ 0 → k * 3 < digits.length) := by
  obtain ⟨rfl, rfl⟩ | hg := h.grouped
  · exact ⟨0, rfl, fun h => absurd rfl h⟩
  · obtain ⟨k, hk, hlt⟩ := hg.length
    exact ⟨k, hk, fun _ => hlt⟩

theorem Filled.place (h : Filled comma number s digits str) : s.p + str.length = 29 := by
  have hlen := congrArg List.length h.buffer
  rw [List.length_drop, s.retbuf.length_bytes, List.length_append, List.length_singleton] at hlen
  omega

/-- A round writes the next digit, after a separator where the digits so far fill their groups. -/
theorem round_filled (hnumber : number < 10 ^ 20) (h : Filled comma number s digits str)
    (hgo : ¬ (s.n = 0 ∧ s.i ≠ 0)) :
    ∃ s', round comma s = some s' ∧ s'.n = s.n / 10 ∧ s'.i = s.i + 1 ∧
      Filled comma number s' (digit (s.n % 10) :: digits)
        (extend 3 comma (digit (s.n % 10)) digits.length str) := by
  have hleft : digitsLeft s = natText s.n := if_neg hgo
  have hcount : digits.length ≤ 19 := by
    have hlen := congrArg List.length h.value
    have hall := natText_length_le number hnumber
    have hpos := natText_length_pos s.n
    rw [hleft, List.length_append] at hlen
    omega
  obtain ⟨k, hk, hlt⟩ := h.length
  have hplace := h.place
  have hroom : 2 ≤ s.p := by
    by_cases h0 : k = 0
    · omega
    · have := hlt h0
      omega
  obtain ⟨s₁, hs₁, hb₁, hpos, hle, hi₁, hn₁⟩ := separate_some comma h.buffer hroom (by omega)
  obtain ⟨s₂, hs₂, hb₂, -, hi₂, hn₂⟩ := push_some (digit (s₁.n % 10)) hb₁ hpos hle
  rw [hn₁] at hs₂ hb₂
  refine ⟨{ s₂ with n := s₂.n / 10, i := s₂.i + 1 }, ?_, by rw [hn₂, hn₁], by rw [hi₂, hi₁],
    ?_, ?_, ?_, ?_⟩
  · simp only [round, bind_eq, hs₁, some_bind, hn₁, hs₂]
    rfl
  · rw [List.length_cons, h.count, hi₂, hi₁]
  · rw [← h.value, hleft]
    by_cases hsmall : s.n < 10
    · have hdone : s₂.n / 10 = 0 := by rw [hn₂, hn₁]; omega
      rw [digitsLeft, if_pos ⟨hdone, Nat.succ_ne_zero _⟩, natText_small hsmall,
        Nat.mod_eq_of_lt hsmall]
      rfl
    · have hmore : s₂.n / 10 ≠ 0 := by rw [hn₂, hn₁]; omega
      rw [digitsLeft, if_neg fun hc => hmore hc.1, natText_step (Nat.le_of_not_lt hsmall), hn₂, hn₁,
        List.append_assoc]
      rfl
  · refine .inr ?_
    obtain ⟨rfl, rfl⟩ | hg := h.grouped
    · exact grouped_single (by decide) comma _
    · exact hg.extend (by decide) _
  · rw [extend, h.count]
    exact hb₂

/-- The loop leaves the whole number in groups. -/
theorem fill_grouped (comma : UInt8) (hnumber : number < 10 ^ 20) {b : CBuf 30}
    (hb : b.bytes.drop 29 = [0]) :
    ∃ s' str, fill comma ⟨b, 29, 0, number⟩ = some s' ∧ Grouped 3 comma (natText number) str ∧
      s'.retbuf.bytes.drop s'.p = str ++ [0] := by
  have hstart : Filled comma number ⟨b, 29, 0, number⟩ [] [] :=
    ⟨rfl, by rw [digitsLeft, if_neg fun hc => hc.2 rfl, List.append_nil], .inl ⟨rfl, rfl⟩, hb⟩
  obtain ⟨s₁, hs₁, -, hi₁, h₁⟩ := round_filled hnumber hstart fun hc => hc.2 rfl
  let I := fun s : Cursor => s.i ≠ 0 ∧ ∃ digits str, Filled comma number s digits str
  have hI : ∀ s, I s → (s.n ≠ 0 : Bool) → ∃ s', round comma s = some s' ∧ I s' ∧ s'.n < s.n := by
    rintro s ⟨-, digits, str, h⟩ hc
    have hn : s.n ≠ 0 := by simpa using hc
    obtain ⟨s', hs', hn', hi', h'⟩ := round_filled hnumber h fun hc => hn hc.1
    refine ⟨s', hs', ⟨by omega, _, _, h'⟩, ?_⟩
    rw [hn']
    exact Nat.div_lt_self (Nat.pos_of_ne_zero hn) (by decide)
  have hI₁ : I s₁ := ⟨by rw [hi₁]; exact Nat.succ_ne_zero 0, _, _, h₁⟩
  obtain ⟨s', hs'⟩ := rounds_returns (·.n) hI hI₁ (Nat.le_refl _)
  have hkeep : ∀ s s', I s → (s.n ≠ 0 : Bool) → round comma s = some s' → I s' := by
    intro s s' h hc hs
    obtain ⟨t, ht, hIt, -⟩ := hI s h hc
    obtain rfl := Option.some.inj (hs.symm.trans ht)
    exact hIt
  obtain ⟨⟨hi, digits, str, h⟩, hdone⟩ := rounds_invariant hkeep hI₁ hs'
  have hn : s'.n = 0 := by simpa using hdone
  have hdigits : digits = natText number := by
    rw [← h.value, digitsLeft, if_pos ⟨hn, hi⟩, List.nil_append]
  refine ⟨s', str, ?_, ?_, h.buffer⟩
  · rw [fill, bind_eq, hs₁, some_bind]
    exact hs'
  · rw [← hdigits]
    refine h.grouped.resolve_left fun hnil => ?_
    have hcount := h.count
    rw [hnil.1] at hcount
    exact hi hcount.symm

end Filling

/-! ## The calls -/

/-- What is printed of a number: its digits in groups, from which it can be read back. -/
structure Shows (sep : UInt8) (call : Call) (str : List UInt8) : Prop where
  grouped : Grouped 3 sep (natText call.n.toNat) str
  short : str.length ≤ 26
  value : ¬ IsDigit sep → digitsValue 0 (str.filter (· ≠ sep)) = call.n.toNat

/-- The separator of the first call, which all others keep. -/
def separator : List Call → UInt8
  | [] => 44
  | call :: _ => chooseComma call.lcp 0

section Calls
variable {s : State} {call : Call} {calls : List Call} {sep : UInt8} {str : List UInt8}

theorem chooseComma_ne_zero (h : call.lcp ≠ none) : chooseComma call.lcp 0 ≠ 0 := by
  unfold chooseComma
  rw [if_pos rfl]
  split
  · next hnone => exact absurd hnone h
  · dsimp only
    split
    · next hfirst => exact hfirst
    · decide

theorem number_lt (call : Call) : call.n.toNat < 10 ^ 20 :=
  call.n.toNat_lt.trans (by decide)

theorem shows_of_grouped (h : Grouped 3 sep (natText call.n.toNat) str) : Shows sep call str := by
  refine ⟨h, ?_, fun hsep => ?_⟩
  · obtain ⟨k, hk, hlt⟩ := h.length
    have hlen := natText_length_le _ (number_lt call)
    omega
  · rw [h.filter fun hmem => hsep (isDigit_natText _ sep hmem), digitsValue_natText]

theorem print_shows (hsep : chooseComma call.lcp s.comma = sep) (h0 : sep ≠ 0) :
    ∃ s' str, print s call = some s' ∧ s'.comma = sep ∧ s'.printed = s.printed ++ [str] ∧
      Shows sep call str := by
  obtain ⟨b, hb, hbytes⟩ := s.retbuf.writeAt_some 29 [0] (by decide)
  have hlast : b.bytes.drop 29 = [0] := by
    have hlen : (s.retbuf.bytes.take 29).length = 29 := by
      rw [List.length_take, s.retbuf.length_bytes]
      rfl
    have hend : s.retbuf.bytes.drop (29 + [(0 : UInt8)].length) = [] :=
      List.drop_eq_nil_of_le s.retbuf.length_bytes.le
    rw [hbytes, hend, List.append_nil, List.drop_left' hlen]
  obtain ⟨c, str, hfill, hgrouped, hbuffer⟩ := fill_grouped sep (number_lt call) hlast
  have hnul : (0 : UInt8) ∉ str := by
    intro hmem
    obtain hzero | hdigit := hgrouped.mem hmem
    · exact h0 hzero.symm
    · exact absurd (isDigit_natText _ 0 hdigit) (by decide)
  refine ⟨⟨sep, c.retbuf, s.printed ++ [str]⟩, str, ?_, rfl, rfl, shows_of_grouped hgrouped⟩
  have hcall : commaprint s call = some (⟨sep, c.retbuf, s.printed⟩, c.p) := by
    simp only [commaprint, hsep, bind_eq, hb, some_bind, hfill]
    rfl
  simp only [print, bind_eq, hcall, some_bind, hbuffer, text_of_terminated hnul []]
  rfl

theorem print_kept (h0 : sep ≠ 0) (hs : s.comma = sep) (calls : List Call) :
    ∃ s' strs, after print s calls = some s' ∧ s'.printed = s.printed ++ strs ∧
      List.Forall₂ (Shows sep) calls strs := by
  induction calls generalizing s with
  | nil => exact ⟨s, [], rfl, (List.append_nil _).symm, .nil⟩
  | cons call calls ih =>
    have hkeep : chooseComma call.lcp s.comma = sep := by
      rw [hs]
      exact if_neg h0
    obtain ⟨s₁, str, hprint, hcomma, hprinted, hshows⟩ := print_shows hkeep h0
    obtain ⟨s', strs, hrun, hall, hforall⟩ := ih hcomma
    refine ⟨s', str :: strs, by rw [after_cons hprint, hrun], ?_, .cons hshows hforall⟩
    rw [hall, hprinted, List.append_assoc]
    rfl

/-- **Every number is printed in groups of three, and can be read back**: over any calls, whatever
the locale is at each, `commaprint` stays in its buffer and uses the separator of the first call. -/
theorem commaprint_groups (hl : ∀ call ∈ calls, call.lcp ≠ none) :
    ∃ s, after print start calls = some s ∧
      List.Forall₂ (Shows (separator calls)) calls s.printed := by
  cases calls with
  | nil => exact ⟨start, rfl, .nil⟩
  | cons call calls =>
    have h0 := chooseComma_ne_zero (hl call List.mem_cons_self)
    obtain ⟨s₁, str, hprint, hcomma, hprinted, hshows⟩ := print_shows (s := start) rfl h0
    obtain ⟨s, strs, hrun, hall, hforall⟩ := print_kept h0 hcomma calls
    refine ⟨s, by rw [after_cons hprint, hrun], ?_⟩
    rw [hall, hprinted]
    exact .cons hshows hforall

/-- The largest number, and one of four digits after the locale has changed. -/
def twoCalls : List Call := [⟨some (some [46]), 18446744073709551615⟩, ⟨some none, 1000⟩]

theorem commaprint_groups_twoCalls :
    ∃ s, after print start twoCalls = some s ∧
      List.Forall₂ (Shows (separator twoCalls)) twoCalls s.printed :=
  commaprint_groups (by simp [twoCalls])

end Calls

end El32.Clocks

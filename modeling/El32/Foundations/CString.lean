import Mathlib.Data.List.Basic
import Mathlib.Data.List.Infix
import Mathlib.Data.Int.Notation
import Mathlib.Data.Nat.Notation

/-! C strings inside bounded objects.

An object is the list of its bytes, a pointer into it is an offset, and a call that would read or
write outside the object it was given has no value (`none`). Nothing here names a program: the
functions are those of `<string.h>`, with the lemmas that compute them on a string whose text is
known. -/
namespace El32.CString
set_option autoImplicit false

/-! ## Steps that may have no value -/

section Bind
variable {α β : Type} {o : Option α} {f : α → Option β}

theorem bind_eq : (o >>= f) = o.bind f := by cases o <;> rfl

/-- Not proved by `rfl`: rewriting with it never asks for the value of `f a`. -/
theorem some_bind (a : α) : (some a).bind f = f a := by rw [Option.bind_some]

theorem bind_eq_none_of_forall (h : ∀ a, f a = none) : o.bind f = none := by
  cases o with
  | none => rfl
  | some a => exact h a

end Bind

/-! ## The string at the start of an object -/

/-- The bytes before the first NUL; an object without a NUL holds no string. -/
def text : List UInt8 → Option (List UInt8)
  | [] => none
  | c :: cs => if c = 0 then some [] else (text cs).map (c :: ·)

@[simp] theorem text_zero_cons (cs : List UInt8) : text (0 :: cs) = some [] := by simp [text]

theorem text_append {a : List UInt8} (h : (0 : UInt8) ∉ a) (b : List UInt8) :
    text (a ++ b) = (text b).map (a ++ ·) := by
  induction a with
  | nil => simp
  | cons c a ih =>
    obtain ⟨hc, ha⟩ : (0 : UInt8) ≠ c ∧ (0 : UInt8) ∉ a := by simpa using h
    rw [List.cons_append, text, if_neg hc.symm, ih ha, Option.map_map]
    rfl

theorem text_of_terminated {s : List UInt8} (h : (0 : UInt8) ∉ s) (r : List UInt8) :
    text (s ++ 0 :: r) = some s := by
  simp [text_append h]

theorem text_eq_some {b s : List UInt8} (h : text b = some s) :
    (0 : UInt8) ∉ s ∧ ∃ r, b = s ++ 0 :: r := by
  induction b generalizing s with
  | nil => simp [text] at h
  | cons c b ih =>
    by_cases hc : c = 0
    · subst hc
      obtain rfl : s = [] := by simpa using h.symm
      exact ⟨by simp, b, rfl⟩
    · rw [text, if_neg hc, Option.map_eq_some_iff] at h
      obtain ⟨t, ht, rfl⟩ := h
      obtain ⟨h0, r, rfl⟩ := ih ht
      exact ⟨by simp [h0, Ne.symm hc], r, rfl⟩

/-- Bytes stored with a terminator hold the string before the first NUL among them. -/
theorem terminated_split (s r : List UInt8) :
    ∃ tail, s ++ 0 :: r = s.takeWhile (· ≠ 0) ++ 0 :: tail := by
  induction s with
  | nil => exact ⟨r, rfl⟩
  | cons c s ih =>
    by_cases hc : c = 0
    · exact ⟨s ++ 0 :: r, by simp [hc]⟩
    · obtain ⟨tail, htail⟩ := ih
      exact ⟨tail, by simp [hc, htail]⟩

theorem nul_notMem_takeWhile (s : List UInt8) : (0 : UInt8) ∉ s.takeWhile (· ≠ 0) := by
  induction s with
  | nil => simp
  | cons c s ih =>
    by_cases hc : c = 0
    · simp [hc]
    · simpa [hc, Ne.symm hc] using ih

/-! ## Searching -/

def strlen (b : List UInt8) : Option ℕ := (text b).map List.length

def lastIdxOf (c : UInt8) : List UInt8 → Option ℕ
  | [] => none
  | x :: xs =>
    match lastIdxOf c xs with
    | some k => some (k + 1)
    | none => if x = c then some 0 else none

/-- `strchr`: the outer `none` leaves the object, the inner one is the null pointer. -/
def strchr (b : List UInt8) (c : UInt8) : Option (Option ℕ) := (text b).map (·.idxOf? c)

def strrchr (b : List UInt8) (c : UInt8) : Option (Option ℕ) := (text b).map (lastIdxOf c)

/-- Whether `strstr` returns a non-null pointer; `needle` is the text of a literal. -/
def strstr (b needle : List UInt8) : Option Bool :=
  (text b).map fun s => decide (needle <:+: s)

theorem strstr_eq {b s : List UInt8} (h : text b = some s) (needle : List UInt8) :
    strstr b needle = some (decide (needle <:+: s)) := by
  simp [strstr, h]

/-- The object seen from the pointer `b + i`; one past the end is still a pointer. -/
def skip (b : List UInt8) (i : ℤ) : Option (List UInt8) :=
  if 0 ≤ i ∧ i ≤ b.length then some (b.drop i.toNat) else none

/-- The cast to `int`. -/
def intOf (n : ℤ) : ℤ := n.bmod 4294967296

theorem intOf_small {n : ℕ} (h : n < 2147483648) : intOf n = n :=
  Int.bmod_eq_of_le (by omega) (by omega)

/-- A cast that changes an offset loses at least one whole wrap. -/
theorem intOf_large {n : ℕ} (h : 2147483648 ≤ n) : intOf n + 4294967296 ≤ n := by
  have hlt : intOf n < 2147483648 := Int.bmod_lt (by omega)
  obtain ⟨k, hk⟩ : (4294967296 : ℤ) ∣ n - intOf n := Int.dvd_self_sub_bmod
  omega

theorem idxOf_first {c : UInt8} {a : List UInt8} (h : c ∉ a) (r : List UInt8) :
    (a ++ c :: r).idxOf? c = some a.length := by
  induction a with
  | nil => simp [List.idxOf?_cons]
  | cons x a ih =>
    obtain ⟨hx, ha⟩ : c ≠ x ∧ c ∉ a := by simpa using h
    simp [List.idxOf?_cons, Ne.symm hx, ih ha]

theorem lastIdxOf_none {c : UInt8} {a : List UInt8} (h : c ∉ a) : lastIdxOf c a = none := by
  induction a with
  | nil => rfl
  | cons x a ih =>
    obtain ⟨hx, ha⟩ : c ≠ x ∧ c ∉ a := by simpa using h
    simp [lastIdxOf, ih ha, Ne.symm hx]

theorem lastIdxOf_last {c : UInt8} {r : List UInt8} (h : c ∉ r) (a : List UInt8) :
    lastIdxOf c (a ++ c :: r) = some a.length := by
  induction a with
  | nil => simp [lastIdxOf, lastIdxOf_none h]
  | cons x a ih => simp [lastIdxOf, ih]

theorem skip_append (a b : List UInt8) : skip (a ++ b) a.length = some b := by
  have h : (0 : ℤ) ≤ a.length ∧ (a.length : ℤ) ≤ (a ++ b).length := by
    rw [List.length_append]
    omega
  rw [skip, if_pos h, Int.toNat_natCast, List.drop_left]

/-! ## Arrays of a fixed size -/

structure CBuf (n : ℕ) where
  bytes : List UInt8
  length_bytes : bytes.length = n
deriving DecidableEq

namespace CBuf
variable {n : ℕ}

def zero (n : ℕ) : CBuf n := ⟨List.replicate n 0, List.length_replicate⟩

def writeAt (b : CBuf n) (i : ℕ) (xs : List UInt8) : Option (CBuf n) :=
  if h : i + xs.length ≤ n then
    some ⟨b.bytes.take i ++ xs ++ b.bytes.drop (i + xs.length), by
      have hb := b.length_bytes
      simp only [List.length_append, List.length_take, List.length_drop]
      omega⟩
  else none

theorem writeAt_some (b : CBuf n) (i : ℕ) (xs : List UInt8) (h : i + xs.length ≤ n) :
    ∃ b', b.writeAt i xs = some b' ∧
      b'.bytes = b.bytes.take i ++ xs ++ b.bytes.drop (i + xs.length) :=
  ⟨_, dif_pos h, rfl⟩

theorem writeAt_none (b : CBuf n) (i : ℕ) (xs : List UInt8) (h : n < i + xs.length) :
    b.writeAt i xs = none := dif_neg (by omega)

def store (b : CBuf n) (i : ℤ) (c : UInt8) : Option (CBuf n) :=
  if 0 ≤ i then b.writeAt i.toNat [c] else none

theorem store_ofNat (b : CBuf n) (i : ℕ) (c : UInt8) : b.store i c = b.writeAt i [c] := by
  simp [store]

theorem store_set (b : CBuf n) {i : ℕ} (c : UInt8) (h : i < n) :
    ∃ b', b.store i c = some b' ∧ b'.bytes = b.bytes.set i c := by
  obtain ⟨b', hb', hbytes⟩ := b.writeAt_some i [c] h
  have hlt : i < b.bytes.length := by
    rw [b.length_bytes]
    exact h
  refine ⟨b', by rw [store_ofNat, hb'], ?_⟩
  rw [hbytes, List.set_eq_take_append_cons_drop, if_pos hlt, List.append_assoc]
  rfl

end CBuf

/-! ## Copying -/

/-- The bytes `strncpy` stores: the string cut at `len`, filled up with NULs. -/
def strncpyBytes : List UInt8 → ℕ → Option (List UInt8)
  | _, 0 => some []
  | [], _ + 1 => none
  | c :: cs, len + 1 =>
    if c = 0 then some (List.replicate (len + 1) 0) else (strncpyBytes cs len).map (c :: ·)

theorem strncpyBytes_text {s : List UInt8} (h : (0 : UInt8) ∉ s) (r : List UInt8) :
    strncpyBytes (s ++ r) s.length = some s := by
  induction s with
  | nil => cases r <;> rfl
  | cons c s ih =>
    obtain ⟨hc, hs⟩ : (0 : UInt8) ≠ c ∧ (0 : UInt8) ∉ s := by simpa using h
    simp [strncpyBytes, hc.symm, ih hs]

section Copy
variable {n : ℕ}

/-- A negative `len` is a size above any object. -/
def strncpy (dst : CBuf n) (src : List UInt8) (len : ℤ) : Option (CBuf n) :=
  if 0 ≤ len ∧ len ≤ n then (strncpyBytes src len.toNat).bind (dst.writeAt 0) else none

def strcpy (dst : CBuf n) (src : List UInt8) : Option (CBuf n) := do
  let s ← text src
  dst.writeAt 0 (s ++ [0])

def strcat (dst : CBuf n) (src : List UInt8) : Option (CBuf n) := do
  let d ← text dst.bytes
  let s ← text src
  dst.writeAt d.length (s ++ [0])

theorem strncpy_none (dst : CBuf n) (src : List UInt8) {len : ℤ} (h : len < 0 ∨ (n : ℤ) < len) :
    strncpy dst src len = none := if_neg (by omega)

/-- Copying exactly the text leaves the bytes behind it as they were. -/
theorem strncpy_text (dst : CBuf n) {s : List UInt8} (h : (0 : UInt8) ∉ s) (r : List UInt8)
    (hn : s.length ≤ n) :
    ∃ b, strncpy dst (s ++ r) s.length = some b ∧ b.bytes = s ++ dst.bytes.drop s.length := by
  obtain ⟨b, hb, hbytes⟩ := dst.writeAt_some 0 s (by omega)
  refine ⟨b, ?_, by simpa using hbytes⟩
  have hlen : (0 : ℤ) ≤ (s.length : ℤ) ∧ (s.length : ℤ) ≤ n := by omega
  rw [strncpy, if_pos hlen, Int.toNat_natCast, strncpyBytes_text h, Option.bind_some, hb]

theorem strcpy_some (dst : CBuf n) {src s : List UInt8} (hs : text src = some s)
    (hn : s.length < n) : ∃ b, strcpy dst src = some b ∧ text b.bytes = some s := by
  obtain ⟨h0, -⟩ := text_eq_some hs
  obtain ⟨b, hb, hbytes⟩ := dst.writeAt_some 0 (s ++ [0]) (by simp; omega)
  refine ⟨b, by simp [strcpy, hs, hb], ?_⟩
  rw [hbytes]
  simpa using text_of_terminated h0 _

theorem strcat_some (dst : CBuf n) {src d s : List UInt8} (hd : text dst.bytes = some d)
    (hs : text src = some s) (hn : d.length + s.length < n) :
    ∃ b, strcat dst src = some b ∧ text b.bytes = some (d ++ s) := by
  obtain ⟨hd0, r, hr⟩ := text_eq_some hd
  obtain ⟨hs0, -⟩ := text_eq_some hs
  obtain ⟨b, hb, hbytes⟩ := dst.writeAt_some d.length (s ++ [0]) (by simp; omega)
  refine ⟨b, by simp [strcat, hd, hs, hb], ?_⟩
  have hds : (0 : UInt8) ∉ d ++ s := by simp [hd0, hs0]
  have hb' : b.bytes = (d ++ s) ++ 0 :: dst.bytes.drop (d.length + (s ++ [0]).length) := by
    rw [hbytes, hr, List.take_left]
    simp
  rw [hb', text_of_terminated hds]

theorem strcat_none (dst : CBuf n) {src d s : List UInt8} (hd : text dst.bytes = some d)
    (hs : text src = some s) (hn : n ≤ d.length + s.length) : strcat dst src = none := by
  have h := dst.writeAt_none d.length (s ++ [0]) (by simp; omega)
  simp [strcat, hd, hs, h]

theorem strcat_cases (dst : CBuf n) {src d s : List UInt8} (hd : text dst.bytes = some d)
    (hs : text src = some s) :
    (n ≤ d.length + s.length ∧ strcat dst src = none) ∨
      (d.length + s.length < n ∧ ∃ b, strcat dst src = some b ∧ text b.bytes = some (d ++ s)) := by
  by_cases hn : n ≤ d.length + s.length
  · exact .inl ⟨hn, strcat_none dst hd hs hn⟩
  · exact .inr ⟨by omega, strcat_some dst hd hs (by omega)⟩

end Copy

end El32.CString

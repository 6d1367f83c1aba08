import El32.Xbc.Web

/-! The loop of `removeSpaces` on every string: where it stays inside its arrays, and what it leaves.

The loop steps over two characters after a percent sign without looking at them. Its index has 16
bits, so a step past position 65535 comes back to the start of the string. -/
namespace El32.Web
open CString Decimal Commands
set_option autoImplicit false

/-! ## One pass over the text -/

/-- One pass of the loop from a place in the text to its end: the characters kept, the number of
rounds, and how far behind the terminator the index comes out. -/
structure Pass where
  kept : List UInt8
  rounds : ℕ
  beyond : ℕ

def pass : List UInt8 → Pass
  | [] => ⟨[], 0, 0⟩
  | c :: s =>
    if c = percent then
      match s with
      | [] => ⟨[], 1, 2⟩
      | [_] => ⟨[], 1, 1⟩
      | _ :: _ :: s => ⟨(pass s).kept, (pass s).rounds + 1, (pass s).beyond⟩
    else ⟨c :: (pass s).kept, (pass s).rounds + 1, (pass s).beyond⟩

theorem pass_keep {c : UInt8} (hc : c ≠ percent) (s : List UInt8) :
    pass (c :: s) = ⟨c :: (pass s).kept, (pass s).rounds + 1, (pass s).beyond⟩ := by
  rw [pass.eq_def]
  exact if_neg hc

theorem pass_skip (a b : UInt8) (s : List UInt8) :
    pass (percent :: a :: b :: s) = ⟨(pass s).kept, (pass s).rounds + 1, (pass s).beyond⟩ := rfl

theorem pass_beyond_le (s : List UInt8) : (pass s).beyond ≤ 2 := by
  fun_induction pass s with
  | case1 | case2 | case3 => simp
  | case4 a b s ih => exact ih
  | case5 c s hc ih => exact ih

theorem pass_rounds_le (s : List UInt8) : (pass s).rounds ≤ s.length := by
  fun_induction pass s with
  | case1 | case2 | case3 => simp
  | case4 a b s ih =>
    simp only [List.length_cons]
    omega
  | case5 c s hc ih =>
    simp only [List.length_cons]
    omega

theorem pass_rounds_pos {s : List UInt8} (h : s ≠ []) : 0 < (pass s).rounds := by
  fun_cases pass s with
  | case1 => exact absurd rfl h
  | case2 | case3 | case4 | case5 => simp

/-- A percent sign is never kept, nor are the two characters behind it. -/
theorem pass_kept_length {s : List UInt8} (h : (pass s).beyond = 0) :
    (pass s).kept.length ≤ s.length ∧ (percent ∈ s → (pass s).kept.length < s.length) ∧
      (percent ∉ s → (pass s).kept = s) := by
  fun_induction pass s with
  | case1 => simp
  | case2 | case3 => simp at h
  | case4 a b s ih =>
    obtain ⟨hle, -, -⟩ := ih h
    simp only [List.length_cons]
    refine ⟨by omega, fun _ => by omega, by simp⟩
  | case5 c s hc ih =>
    obtain ⟨hle, hlt, heq⟩ := ih h
    simp only [List.length_cons, List.mem_cons, Ne.symm hc, false_or]
    refine ⟨by omega, fun hs => ?_, fun hs => by rw [heq hs]⟩
    have := hlt hs
    omega

/-- Two passes that start one place apart and come out apart have no place in common. -/
theorem pass_rounds_add_le {s : List UInt8} (h : (pass s).beyond ≠ (pass s.tail).beyond) :
    (pass s).rounds + (pass s.tail).rounds ≤ s.length := by
  induction hn : s.length using Nat.strongRecOn generalizing s with
  | ind n ih =>
    match s with
    | [] => exact absurd rfl h
    | c :: t =>
      by_cases hc : c = percent
      · subst hc
        match t with
        | [] =>
          obtain rfl : 1 = n := hn
          decide
        | [a] =>
          obtain rfl : 2 = n := hn
          have hle := pass_rounds_le [a]
          have hone : (pass [percent, a]).rounds = 1 := rfl
          rw [hone]
          simp only [List.tail_cons, List.length_singleton] at hle ⊢
          omega
        | a :: b :: u =>
          rw [List.tail_cons] at h ⊢
          rw [pass_skip] at h ⊢
          simp only [List.length_cons] at hn
          by_cases ha : a = percent
          · subst ha
            match u with
            | [] =>
              have hone : (pass [percent, b]).rounds = 1 := rfl
              have hnil : (pass []).rounds = 0 := rfl
              rw [List.length_nil] at hn
              simp only [hone, hnil]
              omega
            | d :: v =>
              rw [pass_skip] at h ⊢
              simp only [List.length_cons] at hn
              have hrec := ih (v.length + 1) (by omega) (s := d :: v) h rfl
              rw [List.tail_cons] at hrec
              simp only
              omega
          · rw [pass_keep ha] at h ⊢
            have hrec := ih (u.length + 1) (by omega) (s := b :: u) (Ne.symm h) rfl
            rw [List.tail_cons] at hrec
            simp only
            omega
      · rw [pass_keep hc] at h
        exact absurd rfl h

/-! ## The loop -/

section Loop
variable {s r rest kept : List UInt8} {i fuel : ℕ}

theorem getElem_text (hlen : s.length < 65536) {c : UInt8} {t : List UInt8}
    (hrest : s.drop i = c :: t) (r : List UInt8) :
    (s ++ 0 :: r)[(UInt16.ofNat i).toNat]? = some c := by
  have hget : s[i]? = some c := by
    rw [← List.head?_drop, hrest]
    rfl
  have hlt : i < s.length := (List.getElem?_eq_some_iff.mp hget).1
  have hi : (UInt16.ofNat i).toNat = i := UInt16.toNat_ofNat_of_lt' (show i < 65536 by omega)
  rw [hi, List.getElem?_append_left hlt, hget]

theorem loop_keep {str : List UInt8} {i : UInt16} {c : UInt8} (h : str[i.toNat]? = some c)
    (h0 : c ≠ 0) (hc : c ≠ percent) :
    removeSpacesLoop str (fuel + 1) i kept = removeSpacesLoop str fuel (i + 1) (kept ++ [c]) := by
  rw [removeSpacesLoop, h]
  simp only [if_neg h0, if_pos hc]

theorem loop_skip {str : List UInt8} {i : UInt16} (h : str[i.toNat]? = some percent) :
    removeSpacesLoop str (fuel + 1) i kept = removeSpacesLoop str fuel (i + 2 + 1) kept := by
  rw [removeSpacesLoop, h]
  rfl

/-- More fuel does not change a result. -/
theorem loop_mono {str k : List UInt8} {i : UInt16} (h : removeSpacesLoop str fuel i kept = some k)
    (more : ℕ) : removeSpacesLoop str (fuel + more) i kept = some k := by
  induction fuel generalizing i kept with
  | zero => simp [removeSpacesLoop] at h
  | succ fuel ih =>
    rw [Nat.add_right_comm]
    cases hc : str[i.toNat]? with
    | none => simp [removeSpacesLoop, hc] at h
    | some c =>
      by_cases h0 : c = 0
      · subst h0
        simpa [removeSpacesLoop, hc] using h
      · by_cases hp : c = percent
        · subst hp
          rw [loop_skip hc] at h ⊢
          exact ih h
        · rw [loop_keep hc h0 hp] at h ⊢
          exact ih h

/-- A loop that comes back to its index never ends. -/
theorem loop_never {str : List UInt8} {i : UInt16} {m : ℕ} (hm : 0 < m)
    (hback : ∀ fuel kept, ∃ kept',
      removeSpacesLoop str (m + fuel) i kept = removeSpacesLoop str fuel i kept')
    (fuel : ℕ) (kept : List UInt8) : removeSpacesLoop str fuel i kept = none := by
  induction fuel using Nat.strongRecOn generalizing kept with
  | ind fuel ih =>
    by_cases hlt : fuel < m
    · obtain ⟨kept', hzero⟩ := hback 0 kept
      by_contra hsome
      obtain ⟨k, hk⟩ := Option.ne_none_iff_exists'.mp hsome
      have hmore := loop_mono hk (m - fuel)
      rw [Nat.add_sub_cancel' hlt.le, ← Nat.add_zero m, hzero] at hmore
      simp [removeSpacesLoop] at hmore
    · obtain ⟨kept', hfuel⟩ := hback (fuel - m) kept
      rw [Nat.add_sub_cancel' (Nat.le_of_not_lt hlt)] at hfuel
      rw [hfuel]
      exact ih (fuel - m) (by omega) kept'

theorem ofNat_skip (i : ℕ) : UInt16.ofNat i + 2 + 1 = UInt16.ofNat (i + 3) := by
  rw [UInt16.ofNat_add, UInt16.add_assoc]
  rfl

/-- From a place in the text the loop makes its pass. -/
theorem loop_pass (h0 : (0 : UInt8) ∉ s) (hlen : s.length < 65536) (r : List UInt8)
    (hrest : s.drop i = rest) (hi : i + rest.length = s.length) (fuel : ℕ) (kept : List UInt8) :
    removeSpacesLoop (s ++ 0 :: r) ((pass rest).rounds + fuel) (UInt16.ofNat i) kept =
      removeSpacesLoop (s ++ 0 :: r) fuel (UInt16.ofNat (s.length + (pass rest).beyond))
        (kept ++ (pass rest).kept) := by
  fun_induction pass rest generalizing i kept with
  | case1 =>
    obtain rfl : i = s.length := hi
    simp
  | case2 =>
    have hget := getElem_text hlen hrest r
    rw [Nat.add_comm 1 fuel, loop_skip hget, ofNat_skip, ← hi, List.append_nil]
    rfl
  | case3 a =>
    have hget := getElem_text hlen hrest r
    rw [Nat.add_comm 1 fuel, loop_skip hget, ofNat_skip, ← hi, List.append_nil]
    rfl
  | case4 a b t ih =>
    have hget := getElem_text hlen hrest r
    have hdrop : s.drop (i + 3) = t := by
      rw [← List.drop_drop, hrest]
      rfl
    simp only [List.length_cons] at hi
    rw [Nat.add_right_comm, loop_skip hget, ofNat_skip]
    exact ih hdrop (by omega) kept
  | case5 c t hc ih =>
    have hget := getElem_text hlen hrest r
    have hmem : c ∈ s := List.mem_of_mem_drop (i := i) (by rw [hrest]; simp)
    have hne : c ≠ 0 := by
      rintro rfl
      exact h0 hmem
    have hdrop : s.drop (i + 1) = t := by
      rw [← List.drop_drop, hrest]
      rfl
    rw [List.length_cons] at hi
    have hnext : UInt16.ofNat i + 1 = UInt16.ofNat (i + 1) := by
      rw [UInt16.ofNat_add]
      rfl
    rw [Nat.add_right_comm, loop_keep hget hne hc, hnext, ih hdrop (by omega) (kept ++ [c])]
    simp

/-- A text longer than the index counts has no terminator for it. -/
theorem loop_long (h0 : (0 : UInt8) ∉ s) (hlen : 65536 ≤ s.length) (r : List UInt8) (fuel : ℕ)
    (i : UInt16) (kept : List UInt8) : removeSpacesLoop (s ++ 0 :: r) fuel i kept = none := by
  induction fuel generalizing i kept with
  | zero => rfl
  | succ fuel ih =>
    have hlt : i.toNat < s.length := Nat.lt_of_lt_of_le i.toNat_lt hlen
    have hget : (s ++ 0 :: r)[i.toNat]? = some s[i.toNat] := by
      rw [List.getElem?_append_left hlt, List.getElem?_eq_getElem hlt]
    have hne : s[i.toNat] ≠ 0 := fun heq => h0 (heq ▸ List.getElem_mem hlt)
    by_cases hp : s[i.toNat] = percent
    · rw [loop_skip (hp ▸ hget)]
      exact ih _ _
    · rw [loop_keep hget hne hp]
      exact ih _ _

theorem loop_end (hlen : s.length < 65536) (r : List UInt8) (fuel : ℕ) (kept : List UInt8) :
    removeSpacesLoop (s ++ 0 :: r) (fuel + 1) (UInt16.ofNat s.length) kept = some kept := by
  have hi : (UInt16.ofNat s.length).toNat = s.length := UInt16.toNat_ofNat_of_lt' hlen
  rw [removeSpacesLoop, hi, List.getElem?_append_right (Nat.le_refl _), Nat.sub_self]
  rfl

theorem loop_outside (hj : s.length < i) (hi : i < 65536) (fuel : ℕ) (kept : List UInt8) :
    removeSpacesLoop (s ++ [0]) fuel (UInt16.ofNat i) kept = none := by
  have htoNat : (UInt16.ofNat i).toNat = i := UInt16.toNat_ofNat_of_lt' hi
  have hget : (s ++ [0])[i]? = none := List.getElem?_eq_none (by simp; omega)
  cases fuel with
  | zero => rfl
  | succ fuel => rw [removeSpacesLoop, htoNat, hget]

/-- The pass from the start of the text. -/
theorem loop_first (h0 : (0 : UInt8) ∉ s) (hlen : s.length < 65536) (r : List UInt8) (fuel : ℕ)
    (kept : List UInt8) :
    removeSpacesLoop (s ++ 0 :: r) ((pass s).rounds + fuel) 0 kept =
      removeSpacesLoop (s ++ 0 :: r) fuel (UInt16.ofNat (s.length + (pass s).beyond))
        (kept ++ (pass s).kept) :=
  loop_pass (i := 0) h0 hlen r rfl (Nat.zero_add _) fuel kept

/-- The pass of an index that came back to the second character. -/
theorem loop_second (h0 : (0 : UInt8) ∉ s) (hlen : s.length = 65535) (r : List UInt8) (fuel : ℕ)
    (kept : List UInt8) :
    removeSpacesLoop (s ++ 0 :: r) ((pass s.tail).rounds + fuel) 1 kept =
      removeSpacesLoop (s ++ 0 :: r) fuel (UInt16.ofNat (s.length + (pass s.tail).beyond))
        (kept ++ (pass s.tail).kept) := by
  have hi : 1 + s.tail.length = s.length := by
    rw [List.length_tail]
    omega
  exact loop_pass (i := 1) h0 (by omega) r (List.drop_one ..) hi fuel kept

/-! The three ways in which the index comes back to a place it has been at. -/

theorem loop_back_first (h0 : (0 : UInt8) ∉ s) (hlen : s.length < 65536)
    (hback : s.length + (pass s).beyond = 65536) (r : List UInt8) (fuel : ℕ) (kept : List UInt8) :
    removeSpacesLoop (s ++ 0 :: r) fuel 0 kept = none := by
  have hne : s ≠ [] := by
    rintro rfl
    exact absurd hback (by decide)
  refine loop_never (pass_rounds_pos hne) (fun f k => ⟨k ++ (pass s).kept, ?_⟩) fuel kept
  rw [loop_first h0 hlen, hback]
  rfl

theorem loop_back_second (h0 : (0 : UInt8) ∉ s) (hlen : s.length = 65535)
    (hback : (pass s.tail).beyond = 2) (r : List UInt8) (fuel : ℕ) (kept : List UInt8) :
    removeSpacesLoop (s ++ 0 :: r) fuel 1 kept = none := by
  have hne : s.tail ≠ [] := by
    rw [← List.length_pos_iff, List.length_tail]
    omega
  refine loop_never (pass_rounds_pos hne) (fun f k => ⟨k ++ (pass s.tail).kept, ?_⟩) fuel kept
  rw [loop_second h0 hlen, hback, hlen]
  rfl

theorem loop_back_both (h0 : (0 : UInt8) ∉ s) (hlen : s.length = 65535)
    (hfirst : (pass s).beyond = 2) (hsecond : (pass s.tail).beyond = 1) (r : List UInt8) (fuel : ℕ)
    (kept : List UInt8) : removeSpacesLoop (s ++ 0 :: r) fuel 0 kept = none := by
  have hne : s ≠ [] := by
    rw [← List.length_pos_iff]
    omega
  have hm : 0 < (pass s).rounds + (pass s.tail).rounds := Nat.add_pos_left (pass_rounds_pos hne) _
  refine loop_never hm (fun f k => ⟨k ++ (pass s).kept ++ (pass s.tail).kept, ?_⟩) fuel kept
  have hone : UInt16.ofNat (s.length + (pass s).beyond) = 1 := by
    rw [hlen, hfirst]
    rfl
  rw [Nat.add_assoc, loop_first h0 (by omega), hone, loop_second h0 hlen, hsecond, hlen]
  rfl

/-- A pass that comes out one or two places behind the terminator leaves the string there, comes
back to its start, or goes on at its second character. -/
theorem loop_beyond (h0 : (0 : UInt8) ∉ s) (hlen : s.length < 65536) (hb : (pass s).beyond ≠ 0)
    (hsecond : ¬ (s.length = 65535 ∧ (pass s).beyond = 2 ∧ (pass s.tail).beyond = 0)) :
    removeSpacesLoop (s ++ [0]) 65536 0 [] = none := by
  have hle := pass_beyond_le s
  have hrounds := pass_rounds_le s
  have hfuel : 65536 = (pass s).rounds + (65536 - (pass s).rounds) := by omega
  by_cases hout : s.length + (pass s).beyond < 65536
  · rw [hfuel, loop_first h0 hlen]
    exact loop_outside (by omega) hout _ _
  · by_cases hstart : s.length + (pass s).beyond = 65536
    · exact loop_back_first h0 hlen hstart [] _ _
    · have hlen' : s.length = 65535 := by omega
      have htwo : (pass s).beyond = 2 := by omega
      have hle' := pass_beyond_le s.tail
      obtain hone | htwo' : (pass s.tail).beyond = 1 ∨ (pass s.tail).beyond = 2 := by omega
      · exact loop_back_both h0 hlen' htwo hone [] _ _
      · rw [hfuel, loop_first h0 hlen, hlen', htwo]
        exact loop_back_second h0 hlen' htwo' [] _ _

theorem loop_ends (h0 : (0 : UInt8) ∉ s) (hlen : s.length < 65536) (hb : (pass s).beyond = 0)
    (r : List UInt8) : removeSpacesLoop (s ++ 0 :: r) 65536 0 [] = some (pass s).kept := by
  have hrounds := pass_rounds_le s
  have hfuel : 65536 = (pass s).rounds + (65535 - (pass s).rounds + 1) := by omega
  have hend : s.length + (pass s).beyond = s.length := by omega
  rw [hfuel, loop_first h0 hlen, hend, loop_end hlen, List.nil_append]

theorem loop_ends_second (h0 : (0 : UInt8) ∉ s) (hlen : s.length = 65535)
    (hfirst : (pass s).beyond = 2) (hsecond : (pass s.tail).beyond = 0) (r : List UInt8) :
    removeSpacesLoop (s ++ 0 :: r) 65536 0 [] = some ((pass s).kept ++ (pass s.tail).kept) := by
  have hadd := pass_rounds_add_le (s := s) (by omega)
  have hfuel : 65536 = (pass s).rounds + ((pass s.tail).rounds +
      (65535 - (pass s).rounds - (pass s.tail).rounds + 1)) := by omega
  have hone : UInt16.ofNat (s.length + (pass s).beyond) = 1 := by
    rw [hlen, hfirst]
    rfl
  have hend : s.length + (pass s.tail).beyond = s.length := by omega
  rw [hfuel, loop_first h0 (by omega), hone, loop_second h0 hlen, hend, loop_end (by omega),
    List.nil_append]

/-- What the loop keeps of a text with its terminator, when it stays inside: the pass ends at the
terminator, or the index comes back to the second character and the pass from there does. -/
theorem loop_inside (h0 : (0 : UInt8) ∉ s) {k : List UInt8} :
    removeSpacesLoop (s ++ [0]) 65536 0 [] = some k ↔ s.length < 65536 ∧
      ((pass s).beyond = 0 ∧ (pass s).kept = k ∨
        s.length = 65535 ∧ (pass s).beyond = 2 ∧ (pass s.tail).beyond = 0 ∧
          (pass s).kept ++ (pass s.tail).kept = k) := by
  by_cases hlen : s.length < 65536
  · by_cases hb : (pass s).beyond = 0
    · rw [loop_ends h0 hlen hb]
      simp [hlen, hb]
    · by_cases hsecond : s.length = 65535 ∧ (pass s).beyond = 2 ∧ (pass s.tail).beyond = 0
      · obtain ⟨hlen', htwo, hzero⟩ := hsecond
        rw [loop_ends_second h0 hlen' htwo hzero]
        simp [hlen', htwo, hzero]
      · rw [loop_beyond h0 hlen hb hsecond]
        refine iff_of_false (by simp) ?_
        rintro ⟨-, ⟨hzero, -⟩ | ⟨hlen', htwo, hzero, -⟩⟩
        · exact hb hzero
        · exact hsecond ⟨hlen', htwo, hzero⟩
  · rw [loop_long h0 (by omega)]
    simp [hlen]

end Loop

/-! ## Staying inside the arrays -/

section Safe
variable {tmpStr : Bool} {s : List UInt8}

/-- With the string and its terminator alone to read, the loop ends, and what it writes fits the
block that was allocated. -/
def RemovesSafely (tmpStr : Bool) (s : List UInt8) : Prop :=
  ∃ left, removeSpaces tmpStr (s ++ [0]) = some left ∧ left.written ≤ left.allocated

theorem removeSpaces_text (h0 : (0 : UInt8) ∉ s) (r : List UInt8) :
    removeSpaces true (s ++ 0 :: r) = (removeSpacesLoop (s ++ 0 :: r) 65536 0 []).map fun kept =>
      ⟨kept ++ 0 :: (s ++ 0 :: r).drop (kept.length + 1), kept.length + 1, s.length⟩ := by
  simp only [removeSpaces, strlen, text_of_terminated h0, bind_eq, some_bind, if_true,
    Option.map_eq_bind]
  rfl

theorem removeSpaces_noBlock (str : List UInt8) : removeSpaces false str = none := by
  simp [removeSpaces]

theorem removesSafely_loop (h0 : (0 : UInt8) ∉ s) : RemovesSafely true s ↔
    ∃ kept, removeSpacesLoop (s ++ [0]) 65536 0 [] = some kept ∧ kept.length < s.length := by
  rw [RemovesSafely, removeSpaces_text h0]
  constructor
  · rintro ⟨left, hleft, hfit⟩
    obtain ⟨kept, hkept, rfl⟩ := Option.map_eq_some_iff.mp hleft
    exact ⟨kept, hkept, hfit⟩
  · rintro ⟨kept, hkept, hfit⟩
    exact ⟨_, Option.map_eq_some_iff.mpr ⟨kept, hkept, rfl⟩, hfit⟩

/-- **`removeSpaces` stays inside its arrays exactly when there is a block and the text has at most
65535 characters, a percent sign among them, and a pass that ends at the terminator.** At one length
the wrap of the index can save it too: with 65535 characters and a skip at the last of them it goes
on at the second character. -/
theorem removesSafely_iff (h0 : (0 : UInt8) ∉ s) : RemovesSafely tmpStr s ↔
    tmpStr = true ∧ s.length < 65536 ∧ (percent ∈ s ∧ (pass s).beyond = 0 ∨
      s.length = 65535 ∧ (pass s).beyond = 2 ∧ (pass s.tail).beyond = 0 ∧
        (pass s).kept.length + (pass s.tail).kept.length < s.length) := by
  cases tmpStr with
  | false => simp [RemovesSafely, removeSpaces_noBlock]
  | true =>
    rw [removesSafely_loop h0, and_iff_right rfl]
    simp only [loop_inside h0]
    constructor
    · rintro ⟨kept, ⟨hlen, ⟨hb, rfl⟩ | ⟨hlen', hfirst, hsecond, rfl⟩⟩, hfit⟩
      · refine ⟨hlen, .inl ⟨?_, hb⟩⟩
        by_contra hp
        rw [(pass_kept_length hb).2.2 hp] at hfit
        exact Nat.lt_irrefl _ hfit
      · rw [List.length_append] at hfit
        exact ⟨hlen, .inr ⟨hlen', hfirst, hsecond, hfit⟩⟩
    · rintro ⟨hlen, ⟨hp, hb⟩ | ⟨hlen', hfirst, hsecond, hfit⟩⟩
      · exact ⟨_, ⟨hlen, .inl ⟨hb, rfl⟩⟩, (pass_kept_length hb).2.1 hp⟩
      · rw [← List.length_append] at hfit
        exact ⟨_, ⟨hlen, .inr ⟨hlen', hfirst, hsecond, rfl⟩⟩, hfit⟩

end Safe

def spacedQuery : List UInt8 := ['1', ',', '%', '2', '0', 'l', 'e', 'd', ',', '6'].map Char.toUInt8

theorem removesSafely_spacedQuery : RemovesSafely true spacedQuery :=
  (removesSafely_iff (by decide)).mpr ⟨rfl, by decide, .inl ⟨by decide, rfl⟩⟩

def btnsQuery : List UInt8 := ['1', ',', 'b', 't', 'n', 's', ',', '0'].map Char.toUInt8

/-- Nothing is removed, and the terminator is written behind the block. -/
theorem btnsQuery_not_removesSafely : ¬ RemovesSafely true btnsQuery := by
  have h0 : (0 : UInt8) ∉ btnsQuery := by decide
  have hloop : removeSpacesLoop (btnsQuery ++ [0]) 65536 0 [] = some btnsQuery :=
    loop_ends h0 (by decide) rfl []
  rw [removesSafely_loop h0, hloop]
  rintro ⟨kept, hkept, hfit⟩
  obtain rfl := Option.some.inj hkept
  exact Nat.lt_irrefl _ hfit

/-! ## What is left -/

/-- The reference: every `%20` goes, everything else stays. -/
def deleteSpaces : List UInt8 → List UInt8
  | 37 :: 50 :: 48 :: s => deleteSpaces s
  | c :: s => c :: deleteSpaces s
  | [] => []

/-- Every percent sign is that of a `%20`. -/
def SpacesOnly : List UInt8 → Prop
  | [] => True
  | c :: s => (c = percent → [50, 48] <+: s) ∧ SpacesOnly s

instance decidableSpacesOnly : (s : List UInt8) → Decidable (SpacesOnly s)
  | [] => inferInstanceAs (Decidable True)
  | c :: s =>
    have := decidableSpacesOnly s
    inferInstanceAs (Decidable ((c = percent → [50, 48] <+: s) ∧ SpacesOnly s))

theorem spacesOnly_iff (s : List UInt8) : SpacesOnly s ↔ percent ∉ deleteSpaces s := by
  fun_induction deleteSpaces s with
  | case1 s ih => simp [SpacesOnly, percent, ih]
  | case2 c s hc ih =>
    have hnot : ¬ (c = percent ∧ [50, 48] <+: s) := by
      rintro ⟨rfl, t, rfl⟩
      exact hc t rfl rfl
    rw [SpacesOnly, ih, List.mem_cons, not_or]
    refine and_congr_left fun _ => ⟨fun h heq => hnot ⟨heq.symm, h heq.symm⟩, ?_⟩
    intro hne heq
    exact absurd heq.symm hne
  | case3 => simp [SpacesOnly]

/-- On such a text the pass removes what the reference does. -/
theorem pass_spacesOnly {s : List UInt8} (h : SpacesOnly s) :
    (pass s).beyond = 0 ∧ (pass s).kept = deleteSpaces s := by
  fun_induction deleteSpaces s with
  | case1 s ih => exact ih h.2.2.2
  | case2 c s hc ih =>
    have hne : c ≠ percent := by
      rintro rfl
      obtain ⟨t, rfl⟩ := h.1 rfl
      exact hc t rfl rfl
    obtain ⟨hb, hk⟩ := ih h.2
    rw [pass_keep hne]
    exact ⟨hb, by rw [hk]⟩
  | case3 => exact ⟨rfl, rfl⟩

/-- The loop keeps neither a terminator nor a percent sign. -/
theorem loop_kept {str kept k : List UInt8} {fuel : ℕ} {i : UInt16}
    (h : removeSpacesLoop str fuel i kept = some k) (h0 : (0 : UInt8) ∉ kept)
    (hp : percent ∉ kept) : (0 : UInt8) ∉ k ∧ percent ∉ k := by
  induction fuel generalizing i kept with
  | zero => simp [removeSpacesLoop] at h
  | succ fuel ih =>
    cases hget : str[i.toNat]? with
    | none => simp [removeSpacesLoop, hget] at h
    | some c =>
      by_cases hc0 : c = 0
      · subst hc0
        obtain rfl : kept = k := by simpa [removeSpacesLoop, hget] using h
        exact ⟨h0, hp⟩
      · by_cases hcp : c = percent
        · subst hcp
          rw [loop_skip hget] at h
          exact ih h h0 hp
        · rw [loop_keep hget hc0 hcp] at h
          exact ih h (by simp [h0, Ne.symm hc0]) (by simp [hp, Ne.symm hcp])

/-- What `retreiveCommand` finds in a message: the id, the text of the command and the value. -/
def found (wide : ℤ → ℤ) (cmd : Command) (msg : List UInt8) :
    Option (UInt8 × Option (List UInt8) × Int16) :=
  (retreiveCommand wide cmd msg).map fun c => (c.id, text c.cmd.bytes, c.val)

/-- What is found depends on the text alone. -/
theorem found_congr {wide : ℤ → ℤ} {cmd : Command} {a b s : List UInt8} (ha : text a = some s)
    (hb : text b = some s) : found wide cmd a = found wide cmd b := by
  unfold found
  by_cases hcount : s.count comma < 2
  · rw [retreiveCommand_malformed ha hcount, retreiveCommand_malformed hb hcount]
  · obtain ⟨I, C, V, hf⟩ := exists_fields (Nat.le_of_not_lt hcount)
    by_cases hfit : FieldsFit I C V
    · obtain ⟨c, hc, hid, hcmd, hval⟩ := retreiveCommand_some wide ha hf hfit cmd
      obtain ⟨d, hd, hid', hcmd', hval'⟩ := retreiveCommand_some wide hb hf hfit cmd
      simp [hc, hd, hid, hcmd, hval, hid', hcmd', hval']
    · rw [retreiveCommand_none ha hf hfit, retreiveCommand_none hb hf hfit]

section Left
variable {tmpStr : Bool} {s : List UInt8}

/-- The string left in place is the query without its spaces, and so are the fields found in it; `r`
is the memory behind the query. -/
def LeavesQuery (tmpStr : Bool) (s r : List UInt8) : Prop :=
  ∃ left, removeSpaces tmpStr (s ++ 0 :: r) = some left ∧ text left.str = some (deleteSpaces s) ∧
    ∀ wide cmd r', found wide cmd left.str = found wide cmd (deleteSpaces s ++ 0 :: r')

theorem leavesQuery_of_spacesOnly (h0 : (0 : UInt8) ∉ s) (hlen : s.length < 65536)
    (r : List UInt8) (h : SpacesOnly s) : LeavesQuery true s r := by
  obtain ⟨hb, hk⟩ := pass_spacesOnly h
  have hloop := loop_ends h0 hlen hb r
  obtain ⟨hk0, -⟩ := loop_kept hloop (by simp) (by simp)
  rw [hk] at hloop hk0
  have htext : ∀ r', text (deleteSpaces s ++ 0 :: r') = some (deleteSpaces s) :=
    text_of_terminated hk0
  refine ⟨_, by rw [removeSpaces_text h0, hloop]; rfl, htext _, fun wide cmd r' => ?_⟩
  exact found_congr (htext _) (htext r')

theorem spacesOnly_of_leavesQuery (h0 : (0 : UInt8) ∉ s) {r : List UInt8}
    (h : LeavesQuery true s r) : SpacesOnly s := by
  obtain ⟨left, hleft, htext, -⟩ := h
  rw [removeSpaces_text h0] at hleft
  obtain ⟨kept, hkept, rfl⟩ := Option.map_eq_some_iff.mp hleft
  obtain ⟨hk0, hkp⟩ := loop_kept hkept (by simp) (by simp)
  rw [text_of_terminated hk0, Option.some.injEq] at htext
  rw [spacesOnly_iff, ← htext]
  exact hkp

/-- **`removeSpaces` removes the spaces and nothing else exactly when there is a block and every
percent sign of the query is that of a `%20`.** -/
theorem leavesQuery_iff (h0 : (0 : UInt8) ∉ s) (hlen : s.length < 65536) (r : List UInt8) :
    LeavesQuery tmpStr s r ↔ tmpStr = true ∧ SpacesOnly s := by
  cases tmpStr with
  | false => simp [LeavesQuery, removeSpaces_noBlock]
  | true =>
    rw [and_iff_right rfl]
    exact ⟨spacesOnly_of_leavesQuery h0, leavesQuery_of_spacesOnly h0 hlen r⟩

end Left

theorem leavesQuery_spacedQuery : LeavesQuery true spacedQuery [] :=
  (leavesQuery_iff (by decide) (by decide) []).mpr ⟨rfl, by decide⟩

/-- The commas of the query are escaped, as a browser may do. -/
def escapedQuery : List UInt8 :=
  ['1', '%', '2', 'C', 'b', 't', 'n', 's', '%', '2', 'C', '0'].map Char.toUInt8

theorem escapedQuery_not_left : ¬ LeavesQuery true escapedQuery [] := by
  intro h
  have hspaces := spacesOnly_of_leavesQuery (by decide) h
  revert hspaces
  decide

end El32.Web

import El32.Xbc.Commands
import El32.Xbc.Shm

/-! The CGI program `xbcweb/main.c`: from the query string to the printed record or the queued
command.

The query is the environment's memory from the start of the string on. `serve` is the part of
`main` after `removeSpaces`. -/
namespace El32.Web
open CString Decimal Commands Controller Shm
set_option autoImplicit false

/-! ## Printing a record -/

def intOfBool (b : Bool) : ℤ := if b then 1 else 0

/-- The arguments of the `printf` of `printButton`, in order. -/
def printArgs (btn : Button) : List ℤ :=
  [intOfBool btn.avail, intOfBool btn.dUp, intOfBool btn.dDn, intOfBool btn.dLeft,
    intOfBool btn.dRight, intOfBool btn.start, intOfBool btn.back, intOfBool btn.lsPress,
    intOfBool btn.rsPress, intOfBool btn.lb, intOfBool btn.rb, intOfBool btn.logo,
    intOfBool btn.spare, intOfBool btn.a, intOfBool btn.b, intOfBool btn.x, intOfBool btn.y,
    btn.leftTrigger.toNat, btn.rightTrigger.toNat, btn.leftStickX.toInt, btn.leftStickY.toInt,
    btn.rightStickX.toInt, btn.rightStickY.toInt]

/-- The format is 23 times `%d`, separated by commas. -/
def printButton (btn : Button) : List UInt8 := [comma].intercalate ((printArgs btn).map intText)

/-! ## Removing spaces -/

def percent : UInt8 := 37

/-- The loop with its 16-bit index: the characters kept. The index determines the rest of the run,
so a loop that does not end in 65536 rounds never ends (`none`). -/
def removeSpacesLoop (str : List UInt8) : ℕ → UInt16 → List UInt8 → Option (List UInt8)
  | 0, _, _ => none
  | fuel + 1, i, kept =>
    match str[i.toNat]? with
    | none => none
    | some c =>
      if c = 0 then some kept
      else if c ≠ percent then removeSpacesLoop str fuel (i + 1) (kept ++ [c])
      -- skip the next two positions as well
      else removeSpacesLoop str fuel (i + 2 + 1) kept

/-- The string left in place, with the bytes written to the heap block and its size. -/
structure Stripped where
  str : List UInt8
  written : ℕ
  allocated : ℕ

/-- `tmpStr` tells whether `malloc` gave a block; without one `strcpy` reads the null pointer. -/
def removeSpaces (tmpStr : Bool) (str : List UInt8) : Option Stripped := do
  let allocated ← strlen str
  if tmpStr then
    let kept ← removeSpacesLoop str 65536 0 []
    some ⟨kept ++ 0 :: str.drop (kept.length + 1), kept.length + 1, allocated⟩
  else none

/-! ## The program -/

/-- What the process finds: the platform's `atoi`, `malloc`, the shared memory and the queue when
they can be opened, and the contents of the uninitialised locals. -/
structure WebEnv where
  wide : ℤ → ℤ
  tmpStr : Bool
  shm : Option Map
  queue : Option Queue
  frame : SendFrame
  cmd : Command
  btn : Button

structure WebOut where
  output : List UInt8
  queue : Option Queue
deriving DecidableEq

def contentType : List UInt8 :=
  ['C', 'o', 'n', 't', 'e', 'n', 't', '-', 'T', 'y', 'p', 'e', ':', ' ', 't', 'e', 'x', 't', '/',
    'p', 'l', 'a', 'i', 'n', '\n', '\n'].map Char.toUInt8

/-- A query that is ignored: the header alone, and nothing sent. -/
def WebEnv.ignored (env : WebEnv) : WebOut := ⟨contentType, env.queue⟩

def dispatch (env : WebEnv) (strCmd : List UInt8) (cmd : Command) : Option WebOut := do
  if ← strstr strCmd cmdBtns then
    if cmd.id.toNat < maxDevs then
      let btn ← readButtonFromSHM env.shm env.btn cmd.id
      return ⟨contentType ++ printButton btn, env.queue⟩
    else return env.ignored
  else if ← strstr strCmd cmdLed then
    return ⟨contentType, ← sendCommand env.frame cmd env.queue⟩
  else if ← strstr strCmd cmdRumble then
    return ⟨contentType, ← sendCommand env.frame cmd env.queue⟩
  else return env.ignored

def serve (env : WebEnv) (strCmd : List UInt8) : Option WebOut := do
  let cmd ← retreiveCommand env.wide env.cmd strCmd
  dispatch env strCmd cmd

/-- `query` is `getenv("QUERY_STRING")`. Only the string is taken from `removeSpaces`: a query without
spaces is written with its terminator one byte past the block, and the program is followed as if that
byte were nobody's. -/
def main (env : WebEnv) (query : Option (List UInt8)) : Option WebOut :=
  match query with
  | none => some env.ignored
  | some strCmd =>
    if strCmd.head? = some 0 then some env.ignored
    else do
      let s ← removeSpaces env.tmpStr strCmd
      serve env s.str

/-! ## A query without spaces -/

theorem removeSpacesLoop_eq {s r kept rest : List UInt8} (hs : s = kept ++ rest)
    (h0 : (0 : UInt8) ∉ s) (hp : percent ∉ s) (hlen : s.length < 65536) {fuel : ℕ}
    (hfuel : rest.length < fuel) :
    removeSpacesLoop (s ++ 0 :: r) fuel (UInt16.ofNat kept.length) kept = some s := by
  induction rest generalizing fuel kept with
  | nil =>
    obtain ⟨fuel, rfl⟩ : ∃ f, fuel = f + 1 := ⟨fuel - 1, by omega⟩
    obtain rfl : s = kept := by simpa using hs
    have hi : (UInt16.ofNat s.length).toNat = s.length := UInt16.toNat_ofNat_of_lt' hlen
    rw [removeSpacesLoop, hi, List.getElem?_append_right (Nat.le_refl _), Nat.sub_self]
    rfl
  | cons c rest ih =>
    obtain ⟨fuel, rfl⟩ : ∃ f, fuel = f + 1 := ⟨fuel - 1, by omega⟩
    have hlt : kept.length < s.length := by rw [hs]; simp
    have hi : (UInt16.ofNat kept.length).toNat = kept.length :=
      UInt16.toNat_ofNat_of_lt' (by omega : kept.length < 65536)
    have hc : s[kept.length]? = some c := by rw [hs]; simp
    have hmem : c ∈ s := List.mem_of_getElem? hc
    have hc0 : c ≠ 0 := by rintro rfl; exact h0 hmem
    have hcp : c ≠ percent := by rintro rfl; exact hp hmem
    have hnext : UInt16.ofNat kept.length + 1 = UInt16.ofNat (kept ++ [c]).length := by
      rw [List.length_append, List.length_singleton, UInt16.ofNat_add]
      rfl
    rw [removeSpacesLoop, hi, List.getElem?_append_left hlt, hc]
    simp only [if_neg hc0, if_pos hcp, hnext]
    exact ih (by rw [hs]; simp) (by simpa using hfuel)

theorem removeSpaces_eq {strCmd s : List UInt8} (hs : text strCmd = some s) (hp : percent ∉ s)
    (hlen : s.length < 65536) : ∃ out, removeSpaces true strCmd = some out ∧ out.str = strCmd := by
  obtain ⟨h0, r, hr⟩ := text_eq_some hs
  have hloop : removeSpacesLoop strCmd 65536 0 [] = some s := by
    rw [hr]
    have hstart : s = [] ++ s := rfl
    exact removeSpacesLoop_eq hstart h0 hp hlen hlen
  refine ⟨⟨s ++ 0 :: strCmd.drop (s.length + 1), s.length + 1, s.length⟩, ?_, ?_⟩
  · simp only [removeSpaces, strlen, hs, Option.map_some, bind_eq, some_bind, if_true, hloop]
  · have hdrop : strCmd.drop (s.length + 1) = r := by
      rw [hr, List.drop_append, List.drop_eq_nil_of_le (by omega)]
      simp
    rw [hdrop, hr]

theorem removeSpaces_nul (tmpStr : Bool) (r : List UInt8) {left : Stripped}
    (h : removeSpaces tmpStr (0 :: r) = some left) : text left.str = some [] := by
  have hloop : removeSpacesLoop (0 :: r) (65535 + 1) 0 [] = some [] := rfl
  cases tmpStr with
  | false => simp [removeSpaces, strlen] at h
  | true =>
    simp only [removeSpaces, strlen, text_zero_cons, Option.map_some, bind_eq, some_bind, if_true,
      hloop] at h
    obtain rfl := Option.some.inj h
    rfl

/-- The program serves what `removeSpaces` leaves, if that is not empty. -/
theorem main_eq_serve {env : WebEnv} {query s : List UInt8} {left : Stripped}
    (hleft : removeSpaces env.tmpStr query = some left) (hs : text left.str = some s)
    (hne : s ≠ []) : main env (some query) = serve env left.str := by
  have hhead : query.head? ≠ some 0 := by
    intro h
    obtain ⟨r, rfl⟩ := List.head?_eq_some_iff.mp h
    rw [removeSpaces_nul _ _ hleft, Option.some.injEq] at hs
    exact hne hs.symm
  simp only [main, if_neg hhead, bind_eq, hleft, some_bind]

/-! ## What the dispatch does -/

def Sends (s : List UInt8) : Prop :=
  ¬ cmdBtns <:+: s ∧ (cmdLed <:+: s ∨ cmdRumble <:+: s)

section Dispatch
variable {env : WebEnv} {strCmd s : List UInt8} {cmd : Command}

theorem dispatch_btns (hs : text strCmd = some s) (h : cmdBtns <:+: s) {m : Map}
    (hm : env.shm = some m) : ∃ out, dispatch env strCmd cmd = some out := by
  by_cases hid : cmd.id.toNat < maxDevs
  · simp [dispatch, strstr_eq hs, h, hid, hm, readButtonFromSHM_slot]
  · simp [dispatch, strstr_eq hs, h, hid]

theorem dispatch_send (hs : text strCmd = some s) (hsend : Sends s) :
    dispatch env strCmd cmd =
      (sendCommand env.frame cmd env.queue).map fun q => ⟨contentType, q⟩ := by
  obtain ⟨h, hk⟩ := hsend
  by_cases hl : cmdLed <:+: s
  · simp [dispatch, strstr_eq hs, h, hl, Option.map_eq_bind]
  · simp [dispatch, strstr_eq hs, h, hl, hk.resolve_left hl, Option.map_eq_bind]

theorem dispatch_ignored (hs : text strCmd = some s) (h : ¬ cmdBtns <:+: s)
    (hl : ¬ cmdLed <:+: s) (hr : ¬ cmdRumble <:+: s) :
    dispatch env strCmd cmd = some env.ignored := by
  simp [dispatch, strstr_eq hs, h, hl, hr]

end Dispatch

end El32.Web

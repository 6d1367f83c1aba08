import El32.Xbc.CommandPath
import El32.Xbc.QueryAgreement
import El32.Xbc.ReportPath

/-! The script of `xbc.html`: the page asks for the buttons of one controller after the other, and a
click sends a command.

One request for buttons is under way at a time: the handler of its answer sends the next one, and an
answer that is not `200` ends the polling. -/
namespace El32.Page
open CString Decimal Commands Controller Shm Web ReportPath
set_option autoImplicit false

/-! ## The boxes -/

/-- What the elements of one controller show: the lit ones and the texts. -/
structure Box where
  avail : Bool
  dUp : Bool
  dDn : Bool
  dLeft : Bool
  dRight : Bool
  start : Bool
  back : Bool
  lsPress : Bool
  rsPress : Bool
  lb : Bool
  rb : Bool
  logo : Bool
  spare : Bool
  a : Bool
  b : Bool
  x : Bool
  y : Bool
  leftTrigger : Option (List UInt8)
  rightTrigger : Option (List UInt8)
  leftStickX : Option (List UInt8)
  leftStickY : Option (List UInt8)
  rightStickX : Option (List UInt8)
  rightStickY : Option (List UInt8)
deriving DecidableEq, Inhabited

/-- `AVAIL`, the first of the index constants. -/
def avail : ℕ := 0

/-- `val == 1`, for a decimal text or a field that is not there. -/
def updateBoolElem (val : Option (List UInt8)) : Bool :=
  match val with
  | none => false
  | some s => literalValue s = 1

/-- A value that is not there is `none`. -/
def updateValue (val : Option (List UInt8)) : Option (List UInt8) := val

def updateControllerElements (b : List (List UInt8)) : Box where
  avail := updateBoolElem b[avail]?
  dUp := updateBoolElem b[Page.dUp]?
  dDn := updateBoolElem b[Page.dDn]?
  dLeft := updateBoolElem b[Page.dLeft]?
  dRight := updateBoolElem b[Page.dRight]?
  a := updateBoolElem b[Page.a]?
  b := updateBoolElem b[Page.b]?
  x := updateBoolElem b[Page.x]?
  y := updateBoolElem b[Page.y]?
  start := updateBoolElem b[Page.start]?
  back := updateBoolElem b[Page.back]?
  lb := updateBoolElem b[Page.lb]?
  rb := updateBoolElem b[Page.rb]?
  lsPress := updateBoolElem b[Page.lsPress]?
  rsPress := updateBoolElem b[Page.rsPress]?
  logo := updateBoolElem b[Page.logo]?
  spare := updateBoolElem b[Page.spare]?
  leftTrigger := updateValue b[Page.leftTrigger]?
  rightTrigger := updateValue b[Page.rightTrigger]?
  leftStickX := updateValue b[Page.leftStickX]?
  leftStickY := updateValue b[Page.leftStickY]?
  rightStickX := updateValue b[Page.rightStickX]?
  rightStickY := updateValue b[Page.rightStickY]?

/-! ## The script -/

/-- The request for buttons: under way, answered, or none any more. -/
inductive Request where
  | sent (id : ℕ)
  | answered (responseText : List UInt8)
  | stopped
deriving DecidableEq

structure Script where
  idx : ℕ
  boxes : Fin maxDevs → Box
  request : Request

/-- `idx + ",btns,0"`. -/
def pollQuery (idx : ℕ) : List UInt8 := intText idx ++ comma :: (cmdBtns ++ [comma, 48])

def Script.getButtons (p : Script) : Script := { p with request := .sent p.idx }

def Script.next (p : Script) : Script :=
  { p with idx := if p.idx + 1 ≥ 4 then 0 else p.idx + 1 }

/-- The switch knows the ids 0 to 3. -/
def Script.updateController (p : Script) (id : ℕ) (data : List UInt8) : Script :=
  if h : id < maxDevs then
    { p with boxes := Function.update p.boxes ⟨id, h⟩ (updateControllerElements (Page.split data)) }
  else p

/-- The handler at `readyState == 4`. -/
def Script.onreadystatechange (p : Script) (status : ℕ) (responseText : List UInt8) : Script :=
  if status = 200 then ((p.updateController p.idx responseText).next).getButtons
  else { p with request := .stopped }

/-- The page as loaded, with `init` done. `window.onload = init()` calls `init` at once; the document is
taken as parsed before the first answer comes. -/
def Script.init : Script := Script.getButtons ⟨0, fun _ => default, .stopped⟩

/-! ## The polling -/

/-- The index is that of a controller, and what is asked for is that controller. -/
def Script.Polls (p : Script) : Prop :=
  p.idx < maxDevs ∧ ∀ id, p.request = .sent id → id = p.idx

theorem polls_init : Script.init.Polls := by
  refine ⟨maxDevs_pos, fun id h => ?_⟩
  injection h with h
  exact h.symm

/-- An answer shows in the box of the index, and the next controller is asked for. -/
theorem Script.onreadystatechange_ok {p : Script} (h : p.idx < maxDevs) (text : List UInt8) :
    p.onreadystatechange 200 text =
      ⟨(p.idx + 1) % maxDevs, Function.update p.boxes ⟨p.idx, h⟩
        (updateControllerElements (Page.split text)), .sent ((p.idx + 1) % maxDevs)⟩ := by
  have hnext : (if p.idx + 1 ≥ 4 then 0 else p.idx + 1) = (p.idx + 1) % maxDevs := by
    unfold maxDevs at *
    split <;> omega
  simp only [Script.onreadystatechange, if_pos, Script.updateController, dif_pos h, Script.next,
    Script.getButtons, hnext]

theorem Script.onreadystatechange_refused {status : ℕ} (h : status ≠ 200) (p : Script)
    (text : List UInt8) : p.onreadystatechange status text = { p with request := .stopped } :=
  if_neg h

theorem Script.Polls.onreadystatechange {p : Script} (h : p.Polls) (status : ℕ)
    (text : List UInt8) : (p.onreadystatechange status text).Polls := by
  by_cases hs : status = 200
  · rw [hs, Script.onreadystatechange_ok h.1]
    refine ⟨Nat.mod_lt _ maxDevs_pos, fun id h => ?_⟩
    injection h with h
    exact h.symm
  · rw [Script.onreadystatechange_refused hs]
    exact ⟨h.1, nofun⟩

/-! ## What an answer says -/

/-- The elements for a record. -/
def Box.of (btn : Button) : Box where
  avail := btn.avail
  dUp := btn.dUp
  dDn := btn.dDn
  dLeft := btn.dLeft
  dRight := btn.dRight
  start := btn.start
  back := btn.back
  lsPress := btn.lsPress
  rsPress := btn.rsPress
  lb := btn.lb
  rb := btn.rb
  logo := btn.logo
  spare := btn.spare
  a := btn.a
  b := btn.b
  x := btn.x
  y := btn.y
  leftTrigger := some (intText btn.leftTrigger.toNat)
  rightTrigger := some (intText btn.rightTrigger.toNat)
  leftStickX := some (intText btn.leftStickX.toInt)
  leftStickY := some (intText btn.leftStickY.toInt)
  rightStickX := some (intText btn.rightStickX.toInt)
  rightStickY := some (intText btn.rightStickY.toInt)

theorem updateBoolElem_intOfBool (b : Bool) :
    updateBoolElem (some (intText (intOfBool b))) = b := by cases b <;> rfl

/-- The order of the `printf` and that of the page's constants agree. -/
theorem updateControllerElements_printButton (btn : Button) :
    updateControllerElements (Page.split (printButton btn)) = Box.of btn := by
  have hbool := updateBoolElem_intOfBool
  rw [split_printButton]
  exact Box.mk.injEq .. |>.mpr ⟨hbool _, hbool _, hbool _, hbool _, hbool _, hbool _, hbool _,
    hbool _, hbool _, hbool _, hbool _, hbool _, hbool _, hbool _, hbool _, hbool _, hbool _,
    rfl, rfl, rfl, rfl, rfl, rfl⟩

section Poll
variable (i : Fin maxDevs)

theorem not_mem_pollQuery {c : UInt8} (hi : ¬ IsDigit c) (hne : c ≠ 45)
    (hq : c ∉ comma :: (cmdBtns ++ [comma, 48])) : c ∉ pollQuery i := by
  intro h
  rcases List.mem_append.mp h with h | h
  · rcases intText_mem h with rfl | hd
    · exact hne rfl
    · exact hi hd
  · exact hq h

theorem pollQuery_fields : Fields (pollQuery i) (intText i.val) cmdBtns [48] :=
  ⟨rfl, comma_not_mem_intText _, by decide⟩

theorem pollQuery_fit : FieldsFit (intText i.val) cmdBtns [48] :=
  ⟨by rw [CommandPath.id_length]; decide, by decide, by decide⟩

theorem text_pollQuery : text (pollQuery i ++ [0]) = some (pollQuery i) :=
  text_of_terminated (not_mem_pollQuery i (by decide) (by decide) (by decide)) []

theorem idOfField_intText (wide : ℤ → ℤ) : (idOfField wide (intText i.val)).toNat = i.val := by
  have hi : (i.val : ℤ) = ((CommandPath.idOf i).toNat : ℕ) := by rw [CommandPath.idOf_toNat]
  rw [idOfField, hi, ofInt_atoi_id, CommandPath.idOf_toNat]

/-- **The answer to a poll is the record of the store**, and the queue is left alone. -/
theorem main_pollQuery {env : WebEnv} (hmalloc : env.tmpStr = true) {m : Map}
    (hm : env.shm = some m) : main env (some (pollQuery i ++ [0])) =
      some ⟨contentType ++ printButton (m i), env.queue⟩ := by
  have hlen : (pollQuery i).length < 65536 := by
    rw [(pollQuery_fields i).length, CommandPath.id_length]
    decide
  obtain ⟨left, hleft, hstr⟩ := removeSpaces_eq (text_pollQuery i)
    (not_mem_pollQuery i (by decide) (by decide) (by decide)) hlen
  have htext : text left.str = some (pollQuery i) := by rw [hstr, text_pollQuery]
  rw [← hmalloc] at hleft
  have hid := idOfField_intText i env.wide
  have hb : cmdBtns <:+: pollQuery i :=
    ⟨intText i.val ++ [comma], [comma, 48], by simp [pollQuery]⟩
  rw [main_eq_serve hleft htext (pollQuery_fields i).ne_nil,
    serve_record htext (pollQuery_fields i) (pollQuery_fit i) hb hm (by rw [hid]; exact i.isLt)]
  congr 4
  exact congrArg m (Fin.ext hid)

end Poll

end El32.Page

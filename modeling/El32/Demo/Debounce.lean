import El32.Demo.DemoController
import El32.Foundations.Trace

/-! The steps of the demonstration are kept apart: what is read between them, and what is printed and
sent. -/
namespace El32.Demo
open Controller Loop Trace
set_option autoImplicit false

/-! ## Traces -/

def inputs (es : List Event) : List (Reader × Report) :=
  es.filterMap fun
    | .input reader r => some (reader, r)
    | _ => none

/-- The packets with the message type of a rumble command. -/
def rumblePackets (es : List Event) : List (List UInt8) :=
  es.filterMap fun
    | .output data => if data.head? = some 0x00 then some data else none
    | _ => none

/-- A report with all sixteen buttons released. -/
def Released (r : Report) : Prop := (buttonsOf r).anyPressed = false

/-- What a step does: the reports it takes, the packets it sends, the lines that name a button. -/
def Allowed (k : Step) : Event → Prop
  | .input reader _ => reader = .step k ∨ reader = .release
  | .output data => k = .leds ∧ data.head? = some 0x01 ∨ k = .rumble
  | .pressed _ => k = .buttons
  | .printf _ => True
  | .usleep _ => True

/-- Only `waitForRelease` reads. -/
def Waits (es : List Event) : Prop := ∀ reader r, .input reader r ∈ es → reader = .release

/-- It reads a report with all buttons released. -/
def Waited (es : List Event) : Prop := ∃ c, .input .release c ∈ es ∧ Released c

/-- The last report that the step examines has BACK set; `Rest` holds of what comes after it. -/
def EndsOnBack (k : Step) (Rest : List Event → Prop) (es : List Event) : Prop :=
  ∃ pre r mid, es = pre ++ .input (.step k) r :: mid ∧ (buttonsOf r).back = true ∧ Waits mid ∧ Rest mid

/-- The step does what it may, ends at a report with BACK set, and waits for a release after it. -/
structure Demonstrated (k : Step) (es : List Event) : Prop where
  allowed : ∀ e ∈ es, Allowed k e
  ended : EndsOnBack k Waited es

/-- A line that names a button is about the last report read, and the one before it has all buttons
released. -/
def Prompt (pre : List Event) : Event → Prop
  | .pressed text => ∃ rest c r line, inputs pre = rest ++ [c, (.step .buttons, r)] ∧ Released c.2 ∧
      line ∈ buttonLines ∧ line.2 = text ∧ line.1 (buttonsOf r) = true
  | _ => True

/-- The last report read has all buttons released. -/
def Rested (es : List Event) : Prop := ∃ rest c, inputs es = rest ++ [c] ∧ Released c.2

/-- From `w` to `w'` the program does `es`, taking its reports from the input. -/
structure Ran (w : World) (es : List Event) (w' : World) : Prop where
  trace : w'.trace = w.trace ++ es
  stream : w.reports = (inputs es).map (·.2) ++ w'.reports

section Traces
variable {w v u : World} {es fs : List Event} {k : Step}

theorem inputs_append (es fs : List Event) : inputs (es ++ fs) = inputs es ++ inputs fs :=
  List.filterMap_append

theorem rumblePackets_append (es fs : List Event) :
    rumblePackets (es ++ fs) = rumblePackets es ++ rumblePackets fs :=
  List.filterMap_append

theorem inputs_release (rs : List Report) :
    inputs (rs.map (.input .release)) = rs.map fun r => (.release, r) := by
  induction rs with
  | nil => rfl
  | cons r rs ih => rw [List.map_cons, List.map_cons, ← ih]; rfl

theorem inputs_eq_nil (h : ∀ reader r, .input reader r ∉ es) : inputs es = [] := by
  refine List.filterMap_eq_nil_iff.mpr fun e he => ?_
  cases e with
  | input reader r => exact absurd he (h reader r)
  | _ => rfl

theorem rumblePackets_eq_nil (hk : k ≠ .rumble) (h : ∀ e ∈ es, Allowed k e) :
    rumblePackets es = [] := by
  refine List.filterMap_eq_nil_iff.mpr fun e he => ?_
  cases e with
  | output data =>
    obtain ⟨-, hhead⟩ | hr := h _ he
    · simp [hhead]
    · exact absurd hr hk
  | _ => rfl

theorem Waits.append (h : Waits es) (h' : Waits fs) : Waits (es ++ fs) := by
  intro reader r hmem
  rcases List.mem_append.mp hmem with hmem | hmem
  · exact h reader r hmem
  · exact h' reader r hmem

theorem waits_of_inputs (h : inputs es = []) : Waits es := by
  intro reader r hmem
  have hin : (reader, r) ∈ inputs es := List.mem_filterMap.mpr ⟨_, hmem, rfl⟩
  rw [h] at hin
  cases hin

theorem Waited.append (h : Waited fs) (es : List Event) : Waited (es ++ fs) := by
  obtain ⟨c, hmem, hc⟩ := h
  exact ⟨c, List.mem_append_right _ hmem, hc⟩

theorem Rested.append (h : Rested fs) (es : List Event) : Rested (es ++ fs) := by
  obtain ⟨rest, c, hfs, hc⟩ := h
  exact ⟨inputs es ++ rest, c, by rw [inputs_append, hfs, List.append_assoc], hc⟩

theorem Rested.quiet (h : Rested es) (hfs : inputs fs = []) : Rested (es ++ fs) := by
  obtain ⟨rest, c, hes, hc⟩ := h
  exact ⟨rest, c, by rw [inputs_append, hfs, List.append_nil, hes], hc⟩

theorem Ran.refl (w : World) : Ran w [] w := ⟨(List.append_nil _).symm, rfl⟩

theorem Ran.trans (h : Ran w es v) (h' : Ran v fs u) : Ran w (es ++ fs) u := by
  constructor
  · rw [h'.trace, h.trace, List.append_assoc]
  · rw [h.stream, h'.stream, inputs_append, List.map_append, List.append_assoc]

theorem ran_emit (h : inputs es = []) : Ran w es (w.emit es) := ⟨rfl, by rw [h]; rfl⟩

theorem Ran.length_lt {reader : Reader} {r : Report} (h : Ran w (.input reader r :: es) v) :
    v.reports.length < w.reports.length := by
  rw [h.stream, List.length_append]
  exact Nat.lt_add_of_pos_left (Nat.succ_pos _)

theorem each_append (hes : Each Prompt es) (hfs : ∀ text, .pressed text ∉ fs) :
    Each Prompt (es ++ fs) := by
  induction fs using List.reverseRecOn with
  | nil => rwa [List.append_nil]
  | append_singleton fs e ih =>
    rw [← List.append_assoc, each_concat]
    refine ⟨ih fun text h => hfs text (List.mem_append_left _ h), ?_⟩
    cases e with
    | pressed text => exact absurd (List.mem_append_right _ (List.mem_singleton_self _)) (hfs text)
    | _ => trivial

end Traces

/-! ## Reading reports -/

section Reading
variable {w w' : World} {reader : Reader}

theorem getControllerInput_cases (h : getControllerInput reader w = some w') :
    ∃ r, Ran w [.input reader r] w' ∧ w'.buttons = buttonsOf r ∧ w'.toQuit = w.toQuit := by
  unfold getControllerInput at h
  cases hr : w.reports with
  | nil =>
    rw [hr] at h
    cases h
  | cons r rs =>
    rw [hr] at h
    obtain rfl := Option.some.inj h
    exact ⟨r, ⟨rfl, hr⟩, rfl, rfl⟩

/-- What `waitForRelease` does when it reads `rs`. -/
def waitEvents (rs : List Report) : List Event :=
  rs.map (.input .release) ++ [.usleep 100000]

/-- The wait reads on to a report with all buttons released, or reads nothing. -/
theorem waitForRelease_cases (h : waitForRelease w = some w') :
    ∃ rs, Ran w (waitEvents rs) w' ∧ w'.toQuit = w.toQuit ∧
      (rs = [] ∧ w.buttons.anyPressed = false ∨ ∃ rs' c, rs = rs' ++ [c] ∧ Released c) := by
  obtain ⟨v, hv, rfl⟩ := Option.map_eq_some_iff.mp h
  have hloop := whileLoop_invariant (I := fun v => ∃ rs, Ran w (rs.map (.input .release)) v ∧
      v.toQuit = w.toQuit ∧
      (rs = [] ∧ v.buttons = w.buttons ∨ ∃ rs' c, rs = rs' ++ [c] ∧ v.buttons = buttonsOf c)) ?_
    ⟨[], Ran.refl w, rfl, .inl ⟨rfl, rfl⟩⟩ hv
  · obtain ⟨⟨rs, hran, hquit, hlast⟩, hexit⟩ := hloop
    refine ⟨rs, hran.trans (ran_emit rfl), hquit, ?_⟩
    rcases hlast with ⟨hnil, hb⟩ | ⟨rs', c, hrs, hb⟩
    · exact .inl ⟨hnil, hb ▸ hexit⟩
    · exact .inr ⟨rs', c, hrs, by rw [Released, ← hb]; exact hexit⟩
  · rintro v v' ⟨rs, hran, hquit, -⟩ - hstep
    obtain ⟨r, hr, hb, hq⟩ := getControllerInput_cases hstep
    refine ⟨rs ++ [r], ?_, hq.trans hquit, .inr ⟨rs, r, rfl, hb⟩⟩
    rw [List.map_append]
    exact hran.trans hr

theorem inputs_waitEvents (rs : List Report) :
    inputs (waitEvents rs) = rs.map fun r => (.release, r) := by
  rw [waitEvents, inputs_append, inputs_release]
  exact List.append_nil _

theorem rested_waitEvents {rs : List Report} {c : Report} (h : Released c) :
    Rested (waitEvents (rs ++ [c])) :=
  ⟨rs.map fun r => (.release, r), (.release, c), by rw [inputs_waitEvents, List.map_append]; rfl, h⟩

theorem waited_waitEvents {rs : List Report} {c : Report} (h : Released c) :
    Waited (waitEvents (rs ++ [c])) :=
  ⟨c, List.mem_append_left _ (List.mem_map_of_mem List.mem_concat_self), h⟩

theorem waits_waitEvents (rs : List Report) : Waits (waitEvents rs) := by
  intro reader r hmem
  have hin : (reader, r) ∈ inputs (waitEvents rs) := List.mem_filterMap.mpr ⟨_, hmem, rfl⟩
  rw [inputs_waitEvents] at hin
  obtain ⟨_, -, heq⟩ := List.mem_map.mp hin
  exact (congrArg Prod.fst heq).symm

theorem waitEvents_allowed (k : Step) (rs : List Report) : ∀ e ∈ waitEvents rs, Allowed k e := by
  refine List.forall_mem_append.mpr ⟨?_, by simp [Allowed]⟩
  exact List.forall_mem_map.mpr fun _ _ => .inr rfl

end Reading

/-! ## The loop of a step -/

/-- A round of the loop of step `k` that starts in `w` and ends in `w'`. -/
structure RoundOf (k : Step) (Rest : World → List Event → Prop) (w w' : World) (r : Report)
    (mid : List Event) : Prop where
  ran : Ran w (.input (.step k) r :: mid) w'
  allowed : ∀ e ∈ mid, Allowed k e
  waits : Waits mid
  quits : w'.toQuit = true → (buttonsOf r).back = true ∧ Rest w' mid

/-- The round leaves its report in the global record. -/
def Pending (w : World) (_ : List Event) : Prop := w.buttons.anyPressed = true

/-- The line that leaves a step. -/
def leaving (text : String) (back : Bool) : List Event := if back then [.printf text] else []

section Loops
variable {k : Step} {Rest : World → List Event → Prop} {round : World → Option World}
  {w w' w'' : World} {es : List Event} {text : String}

def RoundsOf (k : Step) (Rest : World → List Event → Prop) (round : World → Option World) : Prop :=
  ∀ w w', w.toQuit = false → round w = some w' → ∃ r mid, RoundOf k Rest w w' r mid

theorem quitLoop_ends (hround : RoundsOf k Rest round) (hw : w.toQuit = false)
    (h : quitLoop round w = some w') :
    ∃ es, Ran w es w' ∧ (∀ e ∈ es, Allowed k e) ∧ EndsOnBack k (Rest w') es := by
  have hloop := whileLoop_invariant (I := fun v => ∃ es, Ran w es v ∧ (∀ e ∈ es, Allowed k e) ∧
      (v.toQuit = true → EndsOnBack k (Rest v) es)) ?_ ⟨[], Ran.refl w, by simp, by simp [hw]⟩ h
  · obtain ⟨⟨es, hran, hall, hquit⟩, hexit⟩ := hloop
    exact ⟨es, hran, hall, hquit (by simpa using hexit)⟩
  · rintro v v' ⟨es, hran, hall, -⟩ hcond hstep
    obtain ⟨r, mid, hr⟩ := hround v v' (by simpa using hcond) hstep
    refine ⟨_, hran.trans hr.ran, ?_, fun hq => ?_⟩
    · exact List.forall_mem_append.mpr ⟨hall, List.forall_mem_cons.mpr ⟨.inl rfl, hr.allowed⟩⟩
    · obtain ⟨hback, hrest⟩ := hr.quits hq
      exact ⟨es, r, mid, rfl, hback, hr.waits, hrest⟩

theorem ran_begin (text : String) (w : World) : Ran w [.printf text] (begin text w) := ⟨rfl, rfl⟩

theorem ran_quit (text : String) (w : World) : Ran w [.printf text] (quit text w) := ⟨rfl, rfl⟩

theorem ran_leaving (text : String) (w : World) :
    Ran w (leaving text w.buttons.back) (if w.buttons.back then quit text w else w) := by
  cases w.buttons.back with
  | false => exact Ran.refl w
  | true => exact ran_quit text w

theorem leaving_toQuit (text : String) (w : World) :
    (if w.buttons.back then quit text w else w).toQuit = (w.toQuit || w.buttons.back) := by
  cases w.buttons.back with
  | false => exact (Bool.or_false _).symm
  | true => exact (Bool.or_true _).symm

theorem leaving_buttons (text : String) (w : World) :
    (if w.buttons.back then quit text w else w).buttons = w.buttons := by
  split <;> rfl

theorem leaving_allowed (k : Step) (text : String) (back : Bool) :
    ∀ e ∈ leaving text back, Allowed k e := by
  cases back <;> simp [leaving, Allowed]

theorem inputs_leaving (text : String) (back : Bool) : inputs (leaving text back) = [] := by
  cases back <;> rfl

theorem ran_leds (led : Leds) (w : World) :
    Ran w [.output (ledsPacket led)] (setControllerLeds led w) := ⟨rfl, rfl⟩

theorem ran_rumble (speed : UInt16) (w : World) :
    Ran w [.output (rumblePacket speed)] (setControllerRumble speed w) := ⟨rfl, rfl⟩

/-- A step that waits inside its loop. -/
theorem demonstrated_inside (hround : RoundsOf k (fun _ => Waited) round)
    (h : quitLoop round (begin text w) = some w') : ∃ es, Ran w es w' ∧ Demonstrated k es := by
  obtain ⟨es, hran, hall, pre, r, mid, rfl, hback, hwaits, hwaited⟩ := quitLoop_ends hround rfl h
  refine ⟨_, (ran_begin text w).trans hran, List.forall_mem_cons.mpr ⟨trivial, hall⟩, ?_⟩
  exact ⟨.printf text :: pre, r, mid, rfl, hback, hwaits, hwaited⟩

/-- A step that waits after its loop. -/
theorem demonstrated_after (hround : RoundsOf k Pending round)
    (h : (quitLoop round (begin text w)).bind waitForRelease = some w') :
    ∃ es, Ran w es w' ∧ Demonstrated k es ∧ Rested es := by
  obtain ⟨v, hv, hwait⟩ := Option.bind_eq_some_iff.mp h
  obtain ⟨es, hran, hall, pre, r, mid, rfl, hback, hwaits, hpend⟩ := quitLoop_ends hround rfl hv
  obtain ⟨rs, hrun, -, hrs⟩ := waitForRelease_cases hwait
  obtain ⟨-, hnone⟩ | ⟨rs', c, rfl, hc⟩ := hrs
  · rw [Pending, hnone] at hpend
    cases hpend
  refine ⟨_, (ran_begin text w).trans (hran.trans hrun), ⟨?_, ?_⟩,
    ((rested_waitEvents hc).append _).append _⟩
  · refine List.forall_mem_append.mpr ⟨by simp [Allowed], ?_⟩
    exact List.forall_mem_append.mpr ⟨hall, waitEvents_allowed k _⟩
  · refine ⟨.printf text :: pre, r, mid ++ waitEvents (rs' ++ [c]), ?_, hback,
      hwaits.append (waits_waitEvents _), (waited_waitEvents hc).append mid⟩
    rw [List.append_assoc]
    rfl

end Loops

/-! ## The rounds -/

section Rounds
variable {w w' : World}

theorem ledsRound_of : RoundsOf .leds Pending ledsRound := by
  intro w w' hw h
  obtain ⟨v, hv, h⟩ := Option.bind_eq_some_iff.mp h
  obtain ⟨r, hran, hb, hq⟩ := getControllerInput_cases hv
  obtain rfl := Option.some.inj h
  have hled := ran_leds (chosenLed v.buttons) v
  refine ⟨r, _, (hran.trans hled).trans (ran_leaving _ _), ?_, ?_, fun hquit => ?_⟩
  · exact List.forall_mem_cons.mpr ⟨.inl ⟨rfl, rfl⟩, leaving_allowed _ _ _⟩
  · exact waits_of_inputs (inputs_leaving _ _)
  · have hback : v.buttons.back = true := by
      rw [leaving_toQuit] at hquit
      have hor : (v.toQuit || v.buttons.back) = true := hquit
      rwa [hq, hw, Bool.false_or] at hor
    refine ⟨hb ▸ hback, ?_⟩
    rw [Pending, leaving_buttons]
    exact Buttons.anyPressed_of_back hback

/-- With BACK set the last packet of the round stops the motors. -/
theorem rumbleRound_cases (h : rumbleRound w = some w') :
    ∃ r speed, w'.toQuit = w.toQuit ∧
        Ran w [.input (.step .rumble) r, .output (rumblePacket speed)] w' ∨
      (buttonsOf r).back = true ∧ w'.buttons = buttonsOf r ∧
        Ran w [.input (.step .rumble) r, .output (rumblePacket speed),
          .printf "Leaving rumble demonstration.\n", .output (rumblePacket 0)] w' := by
  obtain ⟨v, hv, h⟩ := Option.bind_eq_some_iff.mp h
  obtain ⟨r, hran, hb, hq⟩ := getControllerInput_cases hv
  refine ⟨r, stickSpeed v.buttons.leftStickX, ?_⟩
  have hrun := hran.trans (ran_rumble (stickSpeed v.buttons.leftStickX) v)
  cases hback : v.buttons.back with
  | false =>
    have hv' : (setControllerRumble (stickSpeed v.buttons.leftStickX) v).buttons.back = false := hback
    simp only [hv'] at h
    obtain rfl := Option.some.inj h
    exact .inl ⟨hq, hrun⟩
  | true =>
    have hv' : (setControllerRumble (stickSpeed v.buttons.leftStickX) v).buttons.back = true := hback
    simp only [hv'] at h
    obtain rfl := Option.some.inj h
    exact .inr ⟨hb ▸ hback, hb, hrun.trans ⟨List.append_assoc _ _ _, rfl⟩⟩

theorem rumbleRound_of : RoundsOf .rumble Pending rumbleRound := by
  intro w w' hw h
  obtain ⟨r, speed, ⟨hq, hran⟩ | ⟨hback, hb, hran⟩⟩ := rumbleRound_cases h
  · refine ⟨r, _, hran, by simp [Allowed], waits_of_inputs rfl, fun hquit => ?_⟩
    rw [hq, hw] at hquit
    cases hquit
  · refine ⟨r, _, hran, by simp [Allowed], waits_of_inputs rfl, fun _ => ⟨hback, ?_⟩⟩
    rw [Pending, hb]
    exact Buttons.anyPressed_of_back hback

theorem pressedLines_mem {btn : Buttons} {e : Event} (h : e ∈ pressedLines btn) :
    ∃ line ∈ buttonLines, e = .pressed line.2 ∧ line.1 btn = true := by
  obtain ⟨line, hline, rfl⟩ := List.mem_map.mp h
  obtain ⟨hmem, hpressed⟩ := List.mem_filter.mp hline
  exact ⟨line, hmem, rfl, hpressed⟩

theorem inputs_of_pressed {btn : Buttons} {es : List Event} (h : ∀ e ∈ es, e ∈ pressedLines btn) :
    inputs es = [] :=
  inputs_eq_nil fun _ _ hmem => by
    obtain ⟨_, -, heq, -⟩ := pressedLines_mem (h _ hmem)
    cases heq

theorem inputs_pressedLines (btn : Buttons) : inputs (pressedLines btn) = [] :=
  inputs_of_pressed fun _ he => he

theorem pressedLines_allowed (btn : Buttons) : ∀ e ∈ pressedLines btn, Allowed .buttons e := by
  intro e he
  obtain ⟨line, -, rfl, -⟩ := pressedLines_mem he
  rfl

/-- What a round of `demoButtons` does after it has read `r` and while it waits for `rs`. -/
def buttonsEvents (r : Report) (rs : List Report) : List Event :=
  pressedLines (buttonsOf r) ++
    (leaving "Leaving button demonstration.\n" (buttonsOf r).back ++ waitEvents rs)

theorem buttonsRound_cases (h : buttonsRound w = some w') :
    ∃ r rs, Ran w (.input (.step .buttons) r :: buttonsEvents r rs) w' ∧
      w'.toQuit = (w.toQuit || (buttonsOf r).back) ∧
      (rs = [] ∧ Released r ∨ ∃ rs' c, rs = rs' ++ [c] ∧ Released c) := by
  obtain ⟨v, hv, h⟩ := Option.bind_eq_some_iff.mp h
  obtain ⟨r, hran, hb, hq⟩ := getControllerInput_cases hv
  obtain ⟨rs, hwait, hquit, hrs⟩ := waitForRelease_cases h
  have hprint := @ran_emit v _ (inputs_pressedLines v.buttons)
  have hleave := ran_leaving "Leaving button demonstration.\n" (v.emit (pressedLines v.buttons))
  rw [leaving_toQuit] at hquit
  rw [leaving_buttons] at hrs
  refine ⟨r, rs, ?_, ?_, ?_⟩
  · rw [buttonsEvents, ← hb]
    exact hran.trans (hprint.trans (hleave.trans hwait))
  · rw [← hb, ← hq]
    exact hquit
  · rw [Released, ← hb]
    exact hrs

theorem buttonsRound_of : RoundsOf .buttons (fun _ => Waited) buttonsRound := by
  intro w w' hw h
  obtain ⟨r, rs, hran, hq, hrs⟩ := buttonsRound_cases h
  refine ⟨r, _, hran, ?_, ?_, fun hquit => ?_⟩
  · refine List.forall_mem_append.mpr ⟨pressedLines_allowed _, List.forall_mem_append.mpr ⟨?_, ?_⟩⟩
    · exact leaving_allowed _ _ _
    · exact waitEvents_allowed _ _
  · refine (waits_of_inputs (inputs_pressedLines _)).append (Waits.append ?_ (waits_waitEvents _))
    exact waits_of_inputs (inputs_leaving _ _)
  · have hback : (buttonsOf r).back = true := by rwa [hq, hw, Bool.false_or] at hquit
    refine ⟨hback, ?_⟩
    obtain ⟨-, hr⟩ | ⟨rs', c, rfl, hc⟩ := hrs
    · rw [Released, Buttons.anyPressed_of_back hback] at hr
      cases hr
    · exact ((waited_waitEvents hc).append _).append _

theorem analogLines_printf {btn : Buttons} {e : Event} (h : e ∈ analogLines btn) :
    ∃ text, e = .printf text := by
  have hline : ∀ text shown value, e ∈ valueLine text shown value → ∃ text, e = .printf text := by
    intro text shown value he
    unfold valueLine at he
    split at he
    · exact ⟨_, List.mem_singleton.mp he⟩
    · cases he
  simp only [analogLines, List.mem_append] at h
  obtain ((((h | h) | h) | h) | h) | h := h <;> exact hline _ _ _ h

theorem inputs_analogLines (btn : Buttons) : inputs (analogLines btn) = [] :=
  inputs_eq_nil fun _ _ hmem => by
    obtain ⟨_, heq⟩ := analogLines_printf hmem
    cases heq

theorem analogLines_allowed (btn : Buttons) : ∀ e ∈ analogLines btn, Allowed .analog e := by
  intro e he
  obtain ⟨_, rfl⟩ := analogLines_printf he
  trivial

theorem analogRound_of : RoundsOf .analog (fun _ => Waited) analogRound := by
  intro w w' hw h
  obtain ⟨v, hv, h⟩ := Option.bind_eq_some_iff.mp h
  obtain ⟨r, hran, hb, hq⟩ := getControllerInput_cases hv
  have hprint := hran.trans (@ran_emit v _ (inputs_analogLines v.buttons))
  cases hback : v.buttons.back with
  | false =>
    have hv' : (v.emit (analogLines v.buttons)).buttons.back = false := hback
    simp only [hv'] at h
    obtain rfl := Option.some.inj h
    refine ⟨r, _, hprint, analogLines_allowed _, waits_of_inputs (inputs_analogLines _),
      fun hquit => ?_⟩
    have hfalse : v.toQuit = true := hquit
    rw [hq, hw] at hfalse
    cases hfalse
  | true =>
    have hv' : (v.emit (analogLines v.buttons)).buttons.back = true := hback
    simp only [hv'] at h
    obtain ⟨rs, hwait, -, ⟨-, hnone⟩ | ⟨rs', c, rfl, hc⟩⟩ := waitForRelease_cases h
    · have hpressed : v.buttons.anyPressed = false := hnone
      rw [Buttons.anyPressed_of_back hback] at hpressed
      cases hpressed
    · have hleave := ran_quit "Leaving joystick demonstration.\n" (v.emit (analogLines v.buttons))
      refine ⟨r, _, hprint.trans (hleave.trans hwait), ?_, ?_, fun _ => ⟨hb ▸ hback, ?_⟩⟩
      · refine List.forall_mem_append.mpr ⟨analogLines_allowed _, ?_⟩
        exact List.forall_mem_cons.mpr ⟨trivial, waitEvents_allowed _ _⟩
      · refine (waits_of_inputs (inputs_analogLines _)).append ?_
        exact (waits_of_inputs rfl).append (waits_waitEvents _)
      · exact ((waited_waitEvents hc).append _).append _

end Rounds

/-! ## Lines that name a button -/

section Prompt
variable {w w' : World} {es fs : List Event} {k : Step}

/-- The lines of one report, after a report with all buttons released. -/
theorem each_pressed {rest : List (Reader × Report)} {c : Reader × Report} {r : Report}
    (hes : Each Prompt es) (hin : inputs es = rest ++ [c, (.step .buttons, r)]) (hc : Released c.2)
    (hfs : ∀ e ∈ fs, e ∈ pressedLines (buttonsOf r)) : Each Prompt (es ++ fs) := by
  induction fs using List.reverseRecOn with
  | nil => rwa [List.append_nil]
  | append_singleton fs e ih =>
    obtain ⟨hprev, he⟩ := List.forall_mem_append.mp hfs
    obtain ⟨line, hline, rfl, hpressed⟩ := pressedLines_mem (he e (List.mem_singleton_self e))
    rw [← List.append_assoc, each_concat]
    refine ⟨ih hprev, rest, c, r, line, ?_, hc, hline, rfl, hpressed⟩
    rw [inputs_append, inputs_of_pressed hprev, List.append_nil, hin]

theorem each_input (hes : Each Prompt es) (reader : Reader) (r : Report) :
    Each Prompt (es ++ [.input reader r]) := each_concat.mpr ⟨hes, trivial⟩

theorem not_pressed_of_allowed (hk : k ≠ .buttons) (h : ∀ e ∈ es, Allowed k e) :
    ∀ text, .pressed text ∉ es := fun _ hmem => hk (h _ hmem)

/-- A round of `demoButtons` starts and ends with all buttons released. -/
theorem buttonsRound_prompt (hes : Each Prompt w.trace) (hrest : Rested w.trace)
    (h : buttonsRound w = some w') : Each Prompt w'.trace ∧ Rested w'.trace := by
  obtain ⟨r, rs, hran, -, hrs⟩ := buttonsRound_cases h
  obtain ⟨rest, c, hin, hc⟩ := hrest
  have hread : inputs (w.trace ++ [.input (.step .buttons) r]) =
      rest ++ [c, (.step .buttons, r)] := by
    rw [inputs_append, hin, List.append_assoc]
    rfl
  have htrace : w'.trace = w.trace ++ [.input (.step .buttons) r] ++ pressedLines (buttonsOf r) ++
      (leaving "Leaving button demonstration.\n" (buttonsOf r).back ++ waitEvents rs) := by
    rw [hran.trace, List.append_assoc, List.append_assoc]
    rfl
  rw [htrace]
  constructor
  · refine each_append (each_pressed (each_input hes _ r) hread hc fun _ he => he) ?_
    refine not_pressed_of_allowed (by decide : Step.leds ≠ _) (List.forall_mem_append.mpr ⟨?_, ?_⟩)
    · exact leaving_allowed _ _ _
    · exact waitEvents_allowed _ _
  · obtain ⟨rfl, hr⟩ | ⟨rs', d, rfl, hd⟩ := hrs
    · have hlast : Rested (w.trace ++ [.input (.step .buttons) r]) :=
        ⟨rest ++ [c], (.step .buttons, r), by rw [hread, List.append_assoc]; rfl, hr⟩
      refine (hlast.quiet (inputs_pressedLines _)).quiet ?_
      rw [inputs_append, inputs_leaving]
      rfl
    · exact ((rested_waitEvents hd).append _).append _

theorem demoButtons_prompt (hes : Each Prompt w.trace) (hrest : Rested w.trace)
    (h : demoButtons w = some w') : Each Prompt w'.trace := by
  have hround : ∀ v v', Each Prompt v.trace ∧ Rested v.trace → (!v.toQuit) = true →
      buttonsRound v = some v' → Each Prompt v'.trace ∧ Rested v'.trace :=
    fun v v' hv _ hstep => buttonsRound_prompt hv.1 hv.2 hstep
  unfold demoButtons quitLoop at h
  have hbegin := ran_begin "\nPress any button. Press back to go to the next step.\n" w
  refine (whileLoop_invariant hround ⟨?_, ?_⟩ h).1.1
  · rw [hbegin.trace]
    exact each_append hes (by simp)
  · rw [hbegin.trace]
    exact hrest.quiet rfl

end Prompt

/-! ## The motors -/

section Motors
variable {w w' : World}

/-- The last rumble packet has speed 0. -/
def Stopped (es : List Event) : Prop := (rumblePackets es).getLast? = some (rumblePacket 0)

theorem Stopped.append {es fs : List Event} (h : Stopped es) (hfs : rumblePackets fs = []) :
    Stopped (es ++ fs) := by
  rw [Stopped, rumblePackets_append, hfs, List.append_nil]
  exact h

theorem demoRumble_stopped (h : demoRumble w = some w') : Stopped w'.trace := by
  obtain ⟨v, hv, hwait⟩ := Option.bind_eq_some_iff.mp h
  have hloop := whileLoop_invariant (I := fun v => v.toQuit = true → Stopped v.trace) ?_
    (fun hq => by cases hq) hv
  · obtain ⟨hstopped, hexit⟩ := hloop
    obtain ⟨rs, hran, -⟩ := waitForRelease_cases hwait
    rw [hran.trace]
    exact (hstopped (by simpa using hexit)).append
      (rumblePackets_eq_nil (by decide) (waitEvents_allowed .leds rs))
  · intro u u' _ hcond hstep hquit
    obtain ⟨r, speed, ⟨hq, -⟩ | ⟨-, -, hran⟩⟩ := rumbleRound_cases hstep
    · have hfalse : u.toQuit = false := by simpa using hcond
      rw [hq, hfalse] at hquit
      cases hquit
    · rw [hran.trace, Stopped, rumblePackets_append, List.getLast?_append]
      rfl

end Motors

/-! ## The whole demonstration -/

/-- **The four steps are kept apart.** They take the reports in order; each ends at a report with BACK
set and leaves one with all buttons released before the next reads; the lines that name a button follow
such a report; the motors are off at the end. -/
theorem demoController_debounced {reports : List Report} {w : World}
    (h : demoController reports = some w) :
    reports = (inputs w.trace).map (·.2) ++ w.reports ∧
      (∃ lead leds rumble buttons analog tail,
        w.trace = lead ++ leds ++ rumble ++ buttons ++ analog ++ tail ∧
        inputs lead = [] ∧ Demonstrated .leds leds ∧ Demonstrated .rumble rumble ∧
        Demonstrated .buttons buttons ∧ Demonstrated .analog analog ∧ inputs tail = []) ∧
      Each Prompt w.trace ∧
      Stopped w.trace := by
  obtain ⟨w₁, h₁, h⟩ := Option.bind_eq_some_iff.mp h
  obtain ⟨w₂, h₂, h⟩ := Option.bind_eq_some_iff.mp h
  obtain ⟨w₃, h₃, h⟩ := Option.bind_eq_some_iff.mp h
  obtain ⟨w₄, h₄, rfl⟩ := Option.map_eq_some_iff.mp h
  obtain ⟨leds, hran₁, hleds, -⟩ := demonstrated_after ledsRound_of h₁
  obtain ⟨rumble, hran₂, hrumble, hrest⟩ := demonstrated_after rumbleRound_of h₂
  obtain ⟨buttons, hran₃, hbuttons⟩ := demonstrated_inside buttonsRound_of h₃
  obtain ⟨analog, hran₄, hanalog⟩ := demonstrated_inside analogRound_of h₄
  have hlead := ran_leds .allOff (start reports)
  have hran₀ := (hlead.trans hran₁).trans hran₂
  have htail : Ran w₄ _ _ := @ran_emit w₄ [.printf "All done. Leaving demonstrations.\n"] rfl
  have hran := ((hran₀.trans hran₃).trans hran₄).trans htail
  have htrace₂ : w₂.trace = [.output (ledsPacket .allOff)] ++ leds ++ rumble := hran₀.trace
  have hprompt₂ : Each Prompt w₂.trace := by
    rw [htrace₂]
    refine each_append (each_append (@each_append [] _ each_nil ?_) ?_) ?_
    · simp
    · exact not_pressed_of_allowed (by decide) hleds.allowed
    · exact not_pressed_of_allowed (by decide) hrumble.allowed
  have hprompt₃ := demoButtons_prompt hprompt₂ (htrace₂ ▸ hrest.append _) h₃
  refine ⟨hran.trace ▸ hran.stream, ?_, ?_, ?_⟩
  · exact ⟨_, leds, rumble, buttons, analog, _, hran.trace, rfl, hleds, hrumble, hbuttons, hanalog, rfl⟩
  · rw [htail.trace, hran₄.trace]
    refine each_append (each_append hprompt₃ ?_) (by simp)
    exact not_pressed_of_allowed (by decide) hanalog.allowed
  · rw [htail.trace, hran₄.trace, hran₃.trace]
    have hbuttons₀ := rumblePackets_eq_nil (by decide) hbuttons.allowed
    have hanalog₀ := rumblePackets_eq_nil (by decide) hanalog.allowed
    exact (((demoRumble_stopped h₂).append hbuttons₀).append hanalog₀).append rfl

/-- A report with two given bytes of buttons and nothing else. -/
def report (b2 b3 : UInt8) : Report := fun i => if i = 2 then b2 else if i = 3 then b3 else 0

/-- BACK is held once, and pressed together with a button in the third step. -/
def session : List Report :=
  [report 0x20 0, report 0x20 0, report 0 0, report 0x20 0, report 0 0, report 0 0x10, report 0 0,
    report 0x21 0, report 0 0, report 0x20 0, report 0 0]

theorem demoController_session :
    ∃ w, demoController session = some w ∧ w.reports = [] ∧ Each Prompt w.trace ∧ Stopped w.trace :=
  ⟨_, rfl, rfl, (@demoController_debounced session _ rfl).2.2⟩

end El32.Demo

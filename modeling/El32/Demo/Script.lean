import El32.Demo.Debounce
import El32.Foundations.Transducer

/-! What the demonstration makes of the reports, as a grammar: which reports belong to which step, and
what is printed and sent for each of them. -/
namespace El32.Demo
open Controller Loop Transducer
set_option autoImplicit false

/-! ## The grammar -/

def isBack (r : Report) : Bool := (buttonsOf r).back

def isReleased (r : Report) : Bool := !(buttonsOf r).anyPressed

/-- A report that a step examines, and those that are skipped until all buttons are released. -/
abbrev Beat := Report × List Report

/-- The reports that `waitForRelease` skips after `r`. -/
def Skips (r : Report) (rel : List Report) : Prop :=
  if isReleased r then rel = [] else Until isReleased rel

/-- The reports of the four steps. The first two wait after their loops, the others inside. -/
structure Play where
  leds : List Report
  ledsSkipped : List Report
  rumble : List Report
  rumbleSkipped : List Report
  buttons : List Beat
  analog : List Beat

structure Play.Ok (p : Play) : Prop where
  leds : Until isBack p.leds
  ledsSkipped : Until isReleased p.ledsSkipped
  rumble : Until isBack p.rumble
  rumbleSkipped : Until isReleased p.rumbleSkipped
  buttons : Until (isBack ·.1) p.buttons
  buttonsSkipped : ∀ b ∈ p.buttons, Skips b.1 b.2
  analog : Until (isBack ·.1) p.analog
  analogSkipped : ∀ b ∈ p.analog, if isBack b.1 then Until isReleased b.2 else b.2 = []

def Play.reports (p : Play) : List Report :=
  p.leds ++ p.ledsSkipped ++ (p.rumble ++ p.rumbleSkipped ++
    (p.buttons.flatMap (fun b => b.1 :: b.2) ++ p.analog.flatMap fun b => b.1 :: b.2))

/-! ### What is done -/

def ledsEvents (r : Report) : List Event :=
  [.input (.step .leds) r, .output (ledsPacket (chosenLed (buttonsOf r)))] ++
    leaving "Leaving LED's demonstration.\n" (isBack r)

def rumbleEvents (r : Report) : List Event :=
  [.input (.step .rumble) r, .output (rumblePacket (stickSpeed (buttonsOf r).leftStickX))] ++
    if isBack r then [.printf "Leaving rumble demonstration.\n", .output (rumblePacket 0)] else []

def beatEvents (b : Beat) : List Event := .input (.step .buttons) b.1 :: buttonsEvents b.1 b.2

def analogEvents (b : Beat) : List Event :=
  .input (.step .analog) b.1 :: analogLines (buttonsOf b.1) ++
    if isBack b.1 then .printf "Leaving joystick demonstration.\n" :: waitEvents b.2 else []

def ledsPart (c : List Report × List Report) : List Event :=
  .printf "\nPress button A, B, X or Y to light the LED's. Press back to go to the next step.\n" ::
    c.1.flatMap ledsEvents ++ waitEvents c.2

def rumblePart (c : List Report × List Report) : List Event :=
  .printf "\nUse the left joystick X to controll the rumble. Press back to go to the next step.\n" ::
    c.1.flatMap rumbleEvents ++ waitEvents c.2

def buttonsPart (bs : List Beat) : List Event :=
  .printf "\nPress any button. Press back to go to the next step.\n" :: bs.flatMap beatEvents

def analogPart (bs : List Beat) : List Event :=
  .printf "\nUse the joysticks or triggerbuttons. Press back to go to the next step.\n" ::
    bs.flatMap analogEvents

def Play.events (p : Play) : List Event :=
  [.output (ledsPacket .allOff)] ++ (ledsPart (p.leds, p.ledsSkipped) ++
    (rumblePart (p.rumble, p.rumbleSkipped) ++ (buttonsPart p.buttons ++ (analogPart p.analog ++
      [.printf "All done. Leaving demonstrations.\n"]))))

/-! ## The parts of the program -/

section Parts
variable {w w' : World} {es : List Event}

theorem Ran.moves (h : Ran w es w') (hin : inputs es = []) :
    Moves World.reports World.trace [] es w w' := ⟨by rw [h.stream, hin]; rfl, h.trace⟩

theorem reads (reader : Reader) (q : Bool) :
    Translates World.reports World.trace (fun w => w.toQuit = q) (getControllerInput reader)
      (fun _ : Report => True) (fun r => [r]) (fun r => [.input reader r])
      (fun r w => w.buttons = buttonsOf r ∧ w.toQuit = q) := by
  constructor
  · intro w w' hw h
    obtain ⟨r, hran, hb, hq⟩ := getControllerInput_cases h
    exact ⟨r, trivial, ⟨hran.stream, hran.trace⟩, hb, hq.trans hw⟩
  · intro w r rest hw _ hin
    refine ⟨{ w with reports := rest, buttons := buttonsOf r, trace := w.trace ++ [.input reader r] },
      ?_, rfl, ⟨hin, rfl⟩, rfl, hw⟩
    have hin' : w.reports = r :: rest := hin
    rw [getControllerInput, hin']

theorem releaseLoop_lowers :
    Lowers (·.buttons.anyPressed) (getControllerInput .release) (·.reports.length) := by
  intro v v' _ hstep
  obtain ⟨r, hran, -⟩ := getControllerInput_cases hstep
  exact hran.length_lt

/-- With a button pressed, `waitForRelease` skips to the first report with all buttons released. -/
theorem waits_pressed (q : Bool) :
    Translates World.reports World.trace
      (fun w => w.toQuit = q ∧ w.buttons.anyPressed = true) waitForRelease (Until isReleased) id
      waitEvents (fun _ w => w.toQuit = q) := by
  have hround := (reads .release q).consequence
    (J := fun w => w.toQuit = q ∧ w.buttons.anyPressed = true) (fun _ h => h.1) (fun _ => Iff.rfl)
    (fun _ _ => rfl) (fun _ _ => rfl) (fun _ _ _ h => h)
  have hloop := hround.loop (p := isReleased) (fun _ _ h => h.2)
    (fun r w h => by rw [h.1, isReleased, Bool.not_not]) releaseLoop_lowers
  have hall := hloop.andThen (g := (·.emit [.usleep 100000])) (Q := fun _ w => w.toQuit = q)
    (fun _ => [.usleep 100000]) (fun _ _ _ => ⟨rfl, rfl⟩) fun _ _ h => by
      obtain ⟨_, _, _, _, hq⟩ := h
      exact hq
  refine hall.consequence (fun _ h => h) (fun _ => and_iff_left fun _ _ => trivial)
    (fun rs _ => ?_) (fun rs _ => ?_) fun _ _ _ h => h
  · exact List.flatMap_singleton' rs
  · rw [waitEvents, List.map_eq_flatMap]

/-- After a report `waitForRelease` skips nothing if it has all buttons released. -/
theorem waits_after (r : Report) (q : Bool) :
    Translates World.reports World.trace (fun w => w.buttons = buttonsOf r ∧ w.toQuit = q)
      waitForRelease (Skips r) id waitEvents (fun _ w => w.toQuit = q) := by
  cases hr : isReleased r with
  | false =>
    refine (waits_pressed q).consequence (fun w h => ⟨h.2, ?_⟩) (fun rel => ?_) (fun _ _ => rfl)
      (fun _ _ => rfl) fun _ _ _ h => h
    · rw [h.1]
      simpa [isReleased] using hr
    · rw [Skips, hr]
      exact Iff.rfl
  | true =>
    have hemit : ∀ w : World, w.buttons = buttonsOf r ∧ w.toQuit = q →
        Moves World.reports World.trace [] [.usleep 100000] w (w.emit [.usleep 100000]) :=
      fun _ _ => ⟨rfl, rfl⟩
    have hskip := translates_update (J := fun w => w.toQuit = q) _ hemit fun _ hw => hw.2
    refine (hskip.of_eq waitForRelease fun w hw => ?_).consequence (fun _ h => h)
      (fun rel => ?_) (fun _ _ => rfl) (fun rel hrel => ?_) fun _ _ _ h => h
    · have hnone : w.buttons.anyPressed = false := by
        rw [hw.1]
        simpa [isReleased] using hr
      have hdone : whileLoop (·.buttons.anyPressed) (getControllerInput .release)
          (·.reports.length) w = some w := whileLoop_done hnone
      rw [waitForRelease, hdone, Option.map_some]
    · rw [Skips, hr]
      exact Iff.rfl
    · rw [show rel = [] from hrel]
      rfl

theorem rounds_lower {k : Step} {Rest : World → List Event → Prop} {round : World → Option World}
    (hround : RoundsOf k Rest round) : Lowers (fun w => !w.toQuit) round (·.reports.length) := by
  intro v v' hcond hstep
  obtain ⟨r, mid, hr⟩ := hround v v' (by simpa using hcond) hstep
  exact hr.ran.length_lt

/-- The loop of a step, from its rounds. -/
theorem translates_quitLoop {γ : Type} {k : Step} {Rest : World → List Event → Prop}
    {round : World → Option World} {Ok : γ → Prop} {eats : γ → List Report} {writes : γ → List Event}
    {back : γ → Bool} {Post : γ → World → Prop} (text : String) (hlower : RoundsOf k Rest round)
    (h : Translates World.reports World.trace (fun w => w.toQuit = false) round Ok eats writes
      (fun c w => Post c w ∧ w.toQuit = back c)) :
    Translates World.reports World.trace (fun _ => True) (fun w => quitLoop round (begin text w))
      (fun cs => Until back cs ∧ ∀ c ∈ cs, Ok c) (·.flatMap eats)
      (fun cs => .printf text :: cs.flatMap writes)
      (fun cs w => ∃ c ∈ cs, back c = true ∧ Post c w ∧ w.toQuit = true) := by
  have hround := h.consequence (J := fun w => True ∧ (!w.toQuit) = true)
    (fun w hw => by simpa using hw.2) (fun _ => Iff.rfl) (fun _ _ => rfl) (fun _ _ => rfl)
    (fun _ _ _ h => h)
  have hloop := hround.loop (p := back) (fun _ _ _ => trivial) (fun c w hc => by rw [hc.2])
    (rounds_lower hlower)
  have hall := hloop.after (g := begin text) (J := fun _ => True) [.printf text]
    (fun _ _ => ⟨rfl, rfl⟩) fun _ _ => ⟨trivial, rfl⟩
  refine hall.consequence (fun _ h => h) (fun _ => Iff.rfl) (fun _ _ => rfl) (fun _ _ => rfl) ?_
  rintro cs w - ⟨c, hc, hback, hpost, hq⟩
  exact ⟨c, hc, hback, hpost, hq.trans hback⟩

end Parts

/-! ## The steps -/

section Steps

/-- A round that reads one report and updates the rest. -/
theorem translates_round {k : Step} {round : World → Option World} {g : World → World}
    (more : Report → List Event)
    (hround : ∀ w, round w = (getControllerInput (.step k) w).map g)
    (hran : ∀ r w, w.buttons = buttonsOf r → Ran w (more r) (g w) ∧ inputs (more r) = [] ∧
      (g w).buttons = w.buttons ∧ (g w).toQuit = (w.toQuit || isBack r)) :
    Translates World.reports World.trace (fun w => w.toQuit = false) round (fun _ : Report => True)
      (fun r => [r]) (fun r => .input (.step k) r :: more r)
      (fun r w => w.buttons = buttonsOf r ∧ w.toQuit = isBack r) := by
  have hall := (reads (.step k) false).andThen (g := g)
    (Q := fun r w => w.buttons = buttonsOf r ∧ w.toQuit = isBack r) more
    (fun r w h => (hran r w h.1).1.moves (hran r w h.1).2.1) fun r w h => by
      obtain ⟨-, -, hb, hq⟩ := hran r w h.1
      exact ⟨hb.trans h.1, by rw [hq, h.2, Bool.false_or]⟩
  rw [show round = fun w => (getControllerInput (.step k) w).map g from funext hround]
  exact hall

/-- A step that waits after its loop. -/
theorem translates_after {k : Step} {round : World → Option World} {events : Report → List Event}
    (text : String) (hlower : RoundsOf k Pending round)
    (h : Translates World.reports World.trace (fun w => w.toQuit = false) round
      (fun _ : Report => True) (fun r => [r]) events
      (fun r w => w.buttons = buttonsOf r ∧ w.toQuit = isBack r)) :
    Translates World.reports World.trace (fun _ => True)
      (fun w => (quitLoop round (begin text w)).bind waitForRelease)
      (fun c : List Report × List Report => Until isBack c.1 ∧ Until isReleased c.2)
      (fun c => c.1 ++ c.2) (fun c => .printf text :: c.1.flatMap events ++ waitEvents c.2)
      (fun _ _ => True) := by
  have hwait := (translates_quitLoop text hlower h).bind fun cs _ =>
    (waits_pressed true).consequence
      (J := fun w => ∃ r ∈ cs, isBack r = true ∧ w.buttons = buttonsOf r ∧ w.toQuit = true)
      (fun w hw => by
        obtain ⟨r, -, hback, hb, hq⟩ := hw
        exact ⟨hq, by rw [hb]; exact Buttons.anyPressed_of_back hback⟩)
      (fun _ => Iff.rfl) (fun _ _ => rfl) (fun _ _ => rfl) (Q := fun _ _ => True)
      fun _ _ _ _ => trivial
  refine hwait.consequence (fun _ h => h) (fun c => ?_) (fun c _ => ?_) (fun _ _ => rfl)
    fun _ _ _ h => h
  · rw [and_iff_left fun _ _ => trivial]
  · rw [List.flatMap_singleton']
    rfl

theorem ledsRound_translates :
    Translates World.reports World.trace (fun w => w.toQuit = false) ledsRound
      (fun _ : Report => True) (fun r => [r]) ledsEvents
      (fun r w => w.buttons = buttonsOf r ∧ w.toQuit = isBack r) := by
  refine translates_round (g := fun w => if w.buttons.back then
    quit "Leaving LED's demonstration.\n" (setControllerLeds (chosenLed w.buttons) w)
    else setControllerLeds (chosenLed w.buttons) w)
    (fun r => .output (ledsPacket (chosenLed (buttonsOf r))) ::
      leaving "Leaving LED's demonstration.\n" (isBack r)) (fun w => ?_) fun r w hb => ?_
  · rw [ledsRound]
    cases getControllerInput (.step .leds) w <;> rfl
  · have hled := ran_leds (chosenLed w.buttons) w
    have hleave := ran_leaving "Leaving LED's demonstration.\n"
      (setControllerLeds (chosenLed w.buttons) w)
    have hquit := leaving_toQuit "Leaving LED's demonstration.\n"
      (setControllerLeds (chosenLed w.buttons) w)
    have hbuttons := leaving_buttons "Leaving LED's demonstration.\n"
      (setControllerLeds (chosenLed w.buttons) w)
    have hback : w.buttons.back = isBack r := by rw [hb]; rfl
    refine ⟨?_, ?_, hbuttons, hback ▸ hquit⟩
    · rw [← hback, ← hb]
      exact hled.trans hleave
    · cases isBack r <;> rfl

theorem rumbleRound_translates :
    Translates World.reports World.trace (fun w => w.toQuit = false) rumbleRound
      (fun _ : Report => True) (fun r => [r]) rumbleEvents
      (fun r w => w.buttons = buttonsOf r ∧ w.toQuit = isBack r) := by
  refine translates_round (g := fun w => if w.buttons.back then
    { setControllerRumble 0 ((setControllerRumble (stickSpeed w.buttons.leftStickX) w).emit
      [.printf "Leaving rumble demonstration.\n"]) with toQuit := true }
    else setControllerRumble (stickSpeed w.buttons.leftStickX) w)
    (fun r => .output (rumblePacket (stickSpeed (buttonsOf r).leftStickX)) ::
      if isBack r then [.printf "Leaving rumble demonstration.\n", .output (rumblePacket 0)] else [])
    (fun w => ?_) fun r w hb => ?_
  · rw [rumbleRound]
    cases getControllerInput (.step .rumble) w <;> rfl
  · have hback : w.buttons.back = isBack r := by rw [hb]; rfl
    rw [hback, ← hb]
    have hrumble := ran_rumble (stickSpeed w.buttons.leftStickX) w
    cases isBack r with
    | false => exact ⟨hrumble, rfl, rfl, (Bool.or_false _).symm⟩
    | true =>
      refine ⟨hrumble.trans ⟨?_, rfl⟩, rfl, rfl, (Bool.or_true _).symm⟩
      exact List.append_assoc _ [Event.printf "Leaving rumble demonstration.\n"] _

theorem buttonsRound_translates :
    Translates World.reports World.trace (fun w => w.toQuit = false) buttonsRound
      (fun b : Beat => Skips b.1 b.2) (fun b => b.1 :: b.2)
      beatEvents (fun b w => True ∧ w.toQuit = isBack b.1) := by
  have hprint := translates_round (k := .buttons) (g := fun w => if w.buttons.back then
    quit "Leaving button demonstration.\n" (w.emit (pressedLines w.buttons))
    else w.emit (pressedLines w.buttons))
    (fun r => pressedLines (buttonsOf r) ++
      leaving "Leaving button demonstration.\n" (isBack r)) (fun _ => rfl) fun r w hb => ?_
  · have hall := hprint.bind fun r _ => waits_after r (isBack r)
    rw [show buttonsRound = fun w => ((getControllerInput (.step .buttons) w).map fun w =>
      if w.buttons.back then quit "Leaving button demonstration.\n" (w.emit (pressedLines w.buttons))
      else w.emit (pressedLines w.buttons)).bind waitForRelease from funext fun w => by
        rw [buttonsRound]
        cases getControllerInput (.step .buttons) w <;> rfl]
    exact hall.consequence (fun _ h => h) (fun _ => and_iff_right trivial) (fun _ _ => rfl)
      (fun _ _ => congrArg (_ :: ·) (List.append_assoc ..)) fun _ _ _ h => ⟨trivial, h⟩
  · have hline := @ran_emit w _ (inputs_pressedLines w.buttons)
    have hleave := ran_leaving "Leaving button demonstration.\n" (w.emit (pressedLines w.buttons))
    have hquit := leaving_toQuit "Leaving button demonstration.\n" (w.emit (pressedLines w.buttons))
    have hbuttons := leaving_buttons "Leaving button demonstration.\n"
      (w.emit (pressedLines w.buttons))
    have hback : w.buttons.back = isBack r := by rw [hb]; rfl
    refine ⟨?_, ?_, hbuttons, hback ▸ hquit⟩
    · rw [← hback, ← hb]
      exact hline.trans hleave
    · rw [inputs_append, inputs_pressedLines, inputs_leaving]
      rfl

/-- The end of a round of `demoAnalog`. -/
theorem analogRest_translates (r : Report) :
    Translates World.reports World.trace (fun w => w.buttons = buttonsOf r ∧ w.toQuit = false)
      (fun w => if w.buttons.back then
        waitForRelease (quit "Leaving joystick demonstration.\n" w) else some w)
      (fun rel => if isBack r then Until isReleased rel else rel = []) id
      (fun rel => if isBack r then .printf "Leaving joystick demonstration.\n" :: waitEvents rel
        else [])
      (fun _ w => w.toQuit = isBack r) := by
  cases hr : isBack r with
  | false =>
    have hstay : ∀ w : World, w.buttons = buttonsOf r ∧ w.toQuit = false →
        Moves World.reports World.trace [] [] w (id w) := fun w _ => ⟨rfl, (List.append_nil _).symm⟩
    have hskip := translates_update (J := fun w => w.toQuit = false) _ hstay fun _ hw => hw.2
    refine (hskip.of_eq _ fun w hw => ?_).consequence (fun _ h => h) (fun _ => Iff.rfl)
      (fun _ _ => rfl) (fun _ _ => rfl) fun _ _ _ h => h
    have hback : w.buttons.back = false := by rw [hw.1]; exact hr
    rw [hback]
    rfl
  | true =>
    have hquit := (waits_pressed true).after (g := quit "Leaving joystick demonstration.\n")
      (J := fun w => w.buttons = buttonsOf r ∧ w.toQuit = false)
      [.printf "Leaving joystick demonstration.\n"] (fun _ _ => ⟨rfl, rfl⟩)
      fun w hw => ⟨rfl, by
        show w.buttons.anyPressed = true
        rw [hw.1]
        exact Buttons.anyPressed_of_back hr⟩
    refine (hquit.of_eq _ fun w hw => ?_).consequence (fun _ h => h) (fun _ => Iff.rfl)
      (fun _ _ => rfl) (fun _ _ => rfl) fun _ _ _ h => h
    have hback : w.buttons.back = true := by rw [hw.1]; exact hr
    rw [hback]
    rfl

theorem analogRound_translates :
    Translates World.reports World.trace (fun w => w.toQuit = false) analogRound
      (fun b : Beat => if isBack b.1 then Until isReleased b.2 else b.2 = []) (fun b => b.1 :: b.2)
      analogEvents (fun b w => True ∧ w.toQuit = isBack b.1) := by
  have hprint := (reads (.step .analog) false).andThen (g := fun w => w.emit (analogLines w.buttons))
    (Q := fun r w => w.buttons = buttonsOf r ∧ w.toQuit = false) (fun r => analogLines (buttonsOf r))
    (fun r w h => ⟨rfl, by rw [← h.1]; rfl⟩) fun _ _ h => h
  have hall := hprint.bind fun r _ => analogRest_translates r
  rw [show analogRound = fun w => ((getControllerInput (.step .analog) w).map fun w =>
    w.emit (analogLines w.buttons)).bind fun w => if w.buttons.back then
      waitForRelease (quit "Leaving joystick demonstration.\n" w) else some w from funext fun w => by
      rw [analogRound]
      cases getControllerInput (.step .analog) w <;> rfl]
  exact hall.consequence (fun _ h => h) (fun _ => and_iff_right trivial) (fun _ _ => rfl)
    (fun _ _ => rfl) fun _ _ _ h => ⟨trivial, h⟩

/-- A step that waits in its rounds. -/
theorem translates_inside {k : Step} {round : World → Option World}
    {Ok : Beat → Prop} {events : Beat → List Event} (text : String)
    (hlower : RoundsOf k (fun _ => Waited) round)
    (h : Translates World.reports World.trace (fun w => w.toQuit = false) round Ok
      (fun b => b.1 :: b.2) events (fun b w => True ∧ w.toQuit = isBack b.1)) :
    Translates World.reports World.trace (fun _ => True) (fun w => quitLoop round (begin text w))
      (fun bs => Until (isBack ·.1) bs ∧ ∀ b ∈ bs, Ok b) (·.flatMap fun b => b.1 :: b.2)
      (fun bs => .printf text :: bs.flatMap events) (fun _ _ => True) :=
  (translates_quitLoop text hlower h).consequence (fun _ h => h) (fun _ => Iff.rfl) (fun _ _ => rfl)
    (fun _ _ => rfl) fun _ _ _ _ => trivial

end Steps

/-! ## The demonstration -/

theorem demoLeds_translates :
    Translates World.reports World.trace (fun _ => True) demoLeds
      (fun c : List Report × List Report => Until isBack c.1 ∧ Until isReleased c.2)
      (fun c => c.1 ++ c.2) ledsPart (fun _ _ => True) :=
  translates_after _ ledsRound_of ledsRound_translates

theorem demoRumble_translates :
    Translates World.reports World.trace (fun _ => True) demoRumble
      (fun c : List Report × List Report => Until isBack c.1 ∧ Until isReleased c.2)
      (fun c => c.1 ++ c.2) rumblePart (fun _ _ => True) :=
  translates_after _ rumbleRound_of rumbleRound_translates

theorem demoButtons_translates :
    Translates World.reports World.trace (fun _ => True) demoButtons
      (fun bs : List Beat => Until (isBack ·.1) bs ∧ ∀ b ∈ bs, Skips b.1 b.2)
      (·.flatMap fun b => b.1 :: b.2) buttonsPart (fun _ _ => True) :=
  translates_inside _ buttonsRound_of buttonsRound_translates

theorem demoAnalog_translates :
    Translates World.reports World.trace (fun _ => True) demoAnalog
      (fun bs : List Beat => Until (isBack ·.1) bs ∧
        ∀ b ∈ bs, if isBack b.1 then Until isReleased b.2 else b.2 = [])
      (·.flatMap fun b => b.1 :: b.2) analogPart (fun _ _ => True) :=
  translates_inside _ analogRound_of analogRound_translates

/-- **The demonstration follows its script.** It returns exactly when the reports start with those of
a play, each piece the shortest one that can end; it does what the play says, and leaves the rest of
the reports. -/
theorem demoController_plays (reports rest : List Report) (es : List Event) :
    (∃ w, demoController reports = some w ∧ w.reports = rest ∧ w.trace = es) ↔
      ∃ p : Play, p.Ok ∧ reports = p.reports ++ rest ∧ es = p.events := by
  have hanalog := demoAnalog_translates.andThen
    (g := (·.emit [.printf "All done. Leaving demonstrations.\n"])) (Q := fun _ _ => True)
    (fun _ => [.printf "All done. Leaving demonstrations.\n"]) (fun _ _ _ => ⟨rfl, rfl⟩)
    fun _ _ h => h
  have hall := demoLeds_translates.bind fun _ _ => demoRumble_translates.bind fun _ _ =>
    demoButtons_translates.bind fun _ _ => hanalog
  constructor
  · rintro ⟨w, h, rfl, rfl⟩
    obtain ⟨⟨⟨s₁, r₁⟩, ⟨s₂, r₂⟩, bs₃, bs₄⟩, hok, hmove, -⟩ := hall.sound _ w trivial h
    obtain ⟨⟨h₁, hr₁⟩, ⟨h₂, hr₂⟩, ⟨h₃, hs₃⟩, h₄, hs₄⟩ := hok
    exact ⟨⟨s₁, r₁, s₂, r₂, bs₃, bs₄⟩, ⟨h₁, hr₁, h₂, hr₂, h₃, hs₃, h₄, hs₄⟩, hmove.input, hmove.output⟩
  · rintro ⟨p, hok, hin, rfl⟩
    obtain ⟨w, hw, hrest, hmove, -⟩ := hall.complete
      (setControllerLeds .allOff (start reports))
      ((p.leds, p.ledsSkipped), (p.rumble, p.rumbleSkipped), p.buttons, p.analog) rest trivial
      ⟨⟨hok.leds, hok.ledsSkipped⟩, ⟨hok.rumble, hok.rumbleSkipped⟩,
        ⟨hok.buttons, hok.buttonsSkipped⟩, hok.analog, hok.analogSkipped⟩ hin
    exact ⟨w, hw, hrest, hmove.output⟩

end El32.Demo

import El32.Foundations.Loop
import El32.Foundations.Transducer
import El32.Hue.Response
import El32.Socket.ChatServer

/-! The menu of `hue.c`: what a session reads, asks the bridge and prints.

json-c is the environment: `tokener` is what `json_tokener_parse` makes of a text, and a session that
goes through the null pointer, or asks for a line or an answer after the last one, has no value. -/
namespace El32.Hue
open CString HeapBlock Loop Socket
open ChatServer (Line fgets_line nul_notMem_text nul_notMem_chomp)
open Transducer (Until)
set_option autoImplicit false

/-! ## json-c -/

/-- The null pointer is the JSON `null`. Keys and strings are what `%s` prints of them, a double is
what `%lf` prints, an integer is the `int` that json-c gives. -/
inductive Json where
  | null
  | boolean (b : Bool)
  | double (text : List UInt8)
  | int (i : ℤ)
  | string (s : List UInt8)
  | array (items : List Json)
  | object (members : List (List UInt8 × Json))

def Json.isObject : Json → Bool
  | .object _ => true
  | _ => false

/-- `json_object_object_get`. -/
def Json.get (j : Json) (key : List UInt8) : Json :=
  match j with
  | .object members => ((members.find? (·.1 == key)).map (·.2)).getD .null
  | _ => .null

def nameKey : List UInt8 := ['n', 'a', 'm', 'e'].map Char.toUInt8
def stateKey : List UInt8 := ['s', 't', 'a', 't', 'e'].map Char.toUInt8
def onKey : List UInt8 := ['o', 'n'].map Char.toUInt8
def briKey : List UInt8 := ['b', 'r', 'i'].map Char.toUInt8
def hueKey : List UInt8 := ['h', 'u', 'e'].map Char.toUInt8
def satKey : List UInt8 := ['s', 'a', 't'].map Char.toUInt8

/-! ## What is printed and asked -/

/-- A text without arguments; the line about an unknown choice; an id in the list, or above the state
of its device; a value with what stands before and after it; the request of `update_devices`; the one
of `switch_device`, with `size` bytes of `fields`; an answer that libcurl writes to the standard
output, as it does without a callback. -/
inductive Event where
  | printf (text : String)
  | invalid (choice : UInt8)
  | listed (id : List UInt8)
  | headed (id : List UInt8)
  | value (s : String) (v : Json) (suffix : String)
  | getLights
  | putState (url : List UInt8) (fields : String) (size : ℕ)
  | output (bytes : List UInt8)

/-- Nothing is printed for an object, an array or `null`. -/
def printJsonValue (s : String) (j : Json) (suffix : String) : List Event :=
  match j with
  | .boolean _ | .double _ | .int _ | .string _ => [.value s j suffix]
  | .null | .array _ | .object _ => []

/-- The members are read through the pointer to the table, which only an object has. -/
def printDevices (jobj : Json) : Option (List Event) :=
  match jobj with
  | .object members =>
    some (members.flatMap (fun (id, val) =>
      if val.isObject then
        .listed id :: printJsonValue "" ((jobj.get id).get nameKey) "\n"
      else []) ++ [.printf "\n"])
  | _ => none

def printDeviceState (jobj : Json) (id : List UInt8) : List Event :=
  let lamp := jobj.get id
  let state := lamp.get stateKey
  .headed id :: printJsonValue "\"name\"" (lamp.get nameKey) ", " ++
    printJsonValue "\"on\"" (state.get onKey) ", " ++
    printJsonValue "\"bri\"" (state.get briKey) ", " ++
    printJsonValue "\"hue\"" (state.get hueKey) ", " ++
    printJsonValue "\"sat\"" (state.get satKey) "" ++ [.printf "\n\n"]

/-! ## The program -/

/-- What is still to be typed and to be answered, the locals of `main`, and what was done. An answer
is a transfer, or none when `curl_easy_init` fails. -/
structure World where
  typed : List Line
  bridge : List (Option Transfer)
  choice : UInt8
  line : CBuf 80
  deviceId : CBuf 80
  deviceState : CBuf 80
  response : MemoryStruct
  jobj : Json
  trace : List Event

def World.emit (w : World) (es : List Event) : World := { w with trace := w.trace ++ es }

/-- `fgets` into an array. -/
def gets (s : CBuf 80) (w : World) : Option (CBuf 80 × World) :=
  match w.typed with
  | [] => none
  | l :: typed => (s.writeAt 0 (l.val ++ [0])).map fun s => (s, { w with typed := typed })

/-- The calls of `printf`, `fgets` and `remove_nl` for an id or a state. -/
def enter (prompt : String) (s : CBuf 80) (w : World) : Option (CBuf 80 × World) :=
  (gets s (w.emit [.printf prompt])).bind fun (s, w) => (removeNl s).map fun s => (s, w)

/-- `update_devices (&response)` and `json_tokener_parse (response.memory)`. -/
def refresh (tokener : List UInt8 → Json) (w : World) : Option World :=
  match w.bridge with
  | [] => none
  | curl :: bridge =>
    (updateDevices w.response curl).bind fun response =>
    (tokenerText response).map fun s =>
      { w with
        bridge := bridge
        response := response
        jobj := tokener s
        trace := w.trace ++ if curl.isSome then [.getLights] else [] }

def lightsUrl : List UInt8 :=
  ['h', 't', 't', 'p', ':', '/', '/', '1', '9', '2', '.', '1', '6', '8', '.', '1', '2', '3', '.',
    '7', '5', '/', 'a', 'p', 'i', '/', 'l', 'i', 'n', 'u', 'x', 'd', 'e', 'v', 'e', 'l', 'o', 'p',
    'e', 'r', '/', 'l', 'i', 'g', 'h', 't', 's', '/'].map Char.toUInt8

def stateUrl (id : List UInt8) : List UInt8 :=
  lightsUrl ++ id ++ ['/', 's', 't', 'a', 't', 'e'].map Char.toUInt8

/-- The request for the state `'0'`, and for any other. -/
def switchRequest (id : List UInt8) (off : Bool) : Event :=
  if off then .putState (stateUrl id) "\x7b\"on\":false\x7d" 12
  else .putState (stateUrl id) "\x7b\"on\":true\x7d" 11

/-- The url is printed into an array of 200. Without a handle libcurl refuses every call. -/
def switchDevice (id state : CBuf 80) (w : World) : Option World :=
  (text id.bytes).bind fun i =>
    if (stateUrl i).length < 200 then
      state.bytes.head?.bind fun c =>
        match w.bridge with
        | [] => none
        | none :: bridge => some { w with bridge := bridge }
        | some t :: bridge =>
          some ({ w with bridge := bridge }.emit
            [switchRequest i (c == '0'.toUInt8), .output (collected t.chunks)])
    else none

def menu : String :=
  "\nMenu\n========\n   [a]    get all devices\n   [g]    get device state\n" ++
    "   [s]    switch device on/off\n   [q]    quit\nEnter choice: "

/-- The menu, and the line with the choice. -/
def readChoice (w : World) : Option World :=
  (gets w.line (w.emit [.printf menu])).bind fun (line, w) =>
    line.bytes.head?.map fun choice => { w with line := line, choice := choice }.emit [.printf "\n"]

def choose (tokener : List UInt8 → Json) (w : World) : Option World :=
  if w.choice = 'a'.toUInt8 then (printDevices w.jobj).map w.emit
  else if w.choice = 'g'.toUInt8 then
    (enter "Enter id: " w.deviceId w).bind fun (deviceId, w) =>
    (refresh tokener { w with deviceId := deviceId }).bind fun w =>
    (text w.deviceId.bytes).map fun id => w.emit (printDeviceState w.jobj id)
  else if w.choice = 's'.toUInt8 then
    (enter "Enter id: " w.deviceId w).bind fun (deviceId, w) =>
    (enter "Enter state [0, 1]: " w.deviceState { w with deviceId := deviceId }).bind
      fun (deviceState, w) => switchDevice deviceId deviceState { w with deviceState := deviceState }
  else if w.choice = 'q'.toUInt8 then some w
  else some (w.emit [.invalid w.choice])

/-- The loop of `main`: its condition and its body. -/
def goesOn (w : World) : Bool := w.choice != 'q'.toUInt8

def turn (tokener : List UInt8 → Json) (w : World) : Option World :=
  (readChoice w).bind (choose tokener)

/-- `main` without its options, from the uninitialised locals in `w` on. -/
def main (tokener : List UInt8 → Json) (w : World) : Option World :=
  (refresh tokener { w with choice := ' '.toUInt8, trace := [] }).bind fun w =>
  (whileLoop goesOn (turn tokener) (·.typed.length) w).bind fun w =>
  (free w.response.memory).map fun _ => w

/-! ## Sessions -/

/-- The first byte of an array that holds the string `t`. -/
def first (t : List UInt8) : UInt8 := t.headD 0

/-- The lines typed for a round of the menu, and the answer that it takes. -/
inductive Round where
  | all (line : Line)
  | get (line id : Line) (curl : Option Transfer)
  | switch (line id state : Line) (curl : Option Transfer)
  | quit (line : Line)
  | invalid (line : Line)

namespace Round

def line : Round → Line
  | .all line | .get line _ _ | .switch line _ _ _ | .quit line | .invalid line => line

def choice (r : Round) : UInt8 := first r.line.text

/-- What is typed after the choice. -/
def entered : Round → List Line
  | .all _ | .quit _ | .invalid _ => []
  | .get _ id _ => [id]
  | .switch _ id state _ => [id, state]

def typed (r : Round) : List Line := r.line :: r.entered

def answers : Round → List (Option Transfer)
  | .get _ _ curl | .switch _ _ _ curl => [curl]
  | .all _ | .quit _ | .invalid _ => []

end Round

/-- What an answer tells about the devices. -/
def devicesOf (tokener : List UInt8 → Json) (curl : Option Transfer) : Json :=
  tokener ((received curl).takeWhile (· ≠ 0))

/-- The devices that are known after the round. -/
def Round.next (tokener : List UInt8 → Json) (devices : Json) : Round → Json
  | .get _ _ curl => devicesOf tokener curl
  | .all _ | .switch .. | .quit _ | .invalid _ => devices

/-- The choice is the one of the round, a list needs an object, an update an answer with a body, and
`remove_nl` a character. -/
def Round.Ok (devices : Json) : Round → Prop
  | .all line => first line.text = 'a'.toUInt8 ∧ devices.isObject = true
  | .get line id curl => first line.text = 'g'.toUInt8 ∧ id.text ≠ [] ∧ Delivered curl
  | .switch line id state _ => first line.text = 's'.toUInt8 ∧ id.text ≠ [] ∧ state.text ≠ []
  | .quit line => first line.text = 'q'.toUInt8
  | .invalid line => first line.text ∉ ['a', 'g', 's', 'q'].map Char.toUInt8

/-- A request and what it answers. -/
def switchEvents (id : List UInt8) (off : Bool) : Option Transfer → List Event
  | none => []
  | some t => [switchRequest id off, .output (collected t.chunks)]

/-- What the choice does, after the menu. -/
def Round.acts (tokener : List UInt8 → Json) (devices : Json) : Round → List Event
  | .all _ => (printDevices devices).getD []
  | .get _ id curl => .printf "Enter id: " :: .getLights ::
      printDeviceState (devicesOf tokener curl) (chomp id.text)
  | .switch _ id state curl => .printf "Enter id: " :: .printf "Enter state [0, 1]: " ::
      switchEvents (chomp id.text) (first (chomp state.text) == '0'.toUInt8) curl
  | .quit _ => []
  | .invalid line => [.invalid (first line.text)]

def Round.events (tokener : List UInt8 → Json) (devices : Json) (r : Round) : List Event :=
  .printf menu :: .printf "\n" :: r.acts tokener devices

/-- The rounds of a session, each with the devices that are known when it begins. -/
def Follows (tokener : List UInt8 → Json) : Json → List Round → Prop
  | _, [] => True
  | devices, r :: rounds => r.Ok devices ∧ Follows tokener (r.next tokener devices) rounds

def events (tokener : List UInt8 → Json) : Json → List Round → List Event
  | _, [] => []
  | devices, r :: rounds =>
    r.events tokener devices ++ events tokener (r.next tokener devices) rounds

/-! ## The calls -/

section Calls
variable {tokener : List UInt8 → Json} {w v : World} {l : Line} {typed : List Line} {s b : CBuf 80}

theorem head_first {t tail bytes : List UInt8} (h : bytes = t ++ 0 :: tail) :
    bytes.head? = some (first t) := by
  rw [h, first]
  cases t <;> rfl

theorem gets_line (htyped : w.typed = l :: typed) (s : CBuf 80) :
    ∃ b tail, gets s w = some (b, { w with typed := typed }) ∧ b.bytes = l.text ++ 0 :: tail := by
  obtain ⟨b, tail, hb, hbytes⟩ := fgets_line s l
  refine ⟨b, tail, ?_, hbytes⟩
  rw [gets, htyped]
  simp only [hb, Option.map_some]

theorem gets_nil (htyped : w.typed = []) (s : CBuf 80) : gets s w = none := by
  rw [gets, htyped]

theorem enter_line (htyped : w.typed = l :: typed) (hl : l.text ≠ []) (prompt : String)
    (s : CBuf 80) : ∃ b, text b.bytes = some (chomp l.text) ∧
      b.bytes.head? = some (first (chomp l.text)) ∧
      enter prompt s w = some (b, { w with typed := typed }.emit [.printf prompt]) := by
  obtain ⟨b, tail, hb, hbytes⟩ := gets_line (w := w.emit [.printf prompt]) htyped s
  obtain ⟨b', tail', hb', hbytes'⟩ := removeNl_text hbytes (nul_notMem_text l) hl
  refine ⟨b', ?_, head_first hbytes', ?_⟩
  · rw [hbytes', text_of_terminated (nul_notMem_chomp (nul_notMem_text l))]
  · rw [enter, hb, Option.bind_some]
    dsimp only
    rw [hb', Option.map_some]
    rfl

theorem enter_cases {prompt : String} (h : enter prompt s w = some (b, v)) :
    ∃ l typed, w.typed = l :: typed ∧ l.text ≠ [] ∧ text b.bytes = some (chomp l.text) ∧
      b.bytes.head? = some (first (chomp l.text)) ∧
      v = { w with typed := typed }.emit [.printf prompt] := by
  cases htyped : w.typed with
  | nil =>
    rw [enter, gets_nil (w := w.emit [.printf prompt]) htyped] at h
    cases h
  | cons l typed =>
    by_cases hl : l.text = []
    · obtain ⟨b', tail, hb, hbytes⟩ := gets_line (w := w.emit [.printf prompt]) htyped s
      rw [hl] at hbytes
      rw [enter, hb, Option.bind_some] at h
      dsimp only at h
      rw [removeNl_nil hbytes] at h
      cases h
    · obtain ⟨b', htext, hhead, hb⟩ := enter_line htyped hl prompt s
      rw [hb] at h
      obtain ⟨rfl, rfl⟩ := Prod.mk.inj (Option.some.inj h)
      exact ⟨l, typed, rfl, hl, htext, hhead, rfl⟩

end Calls

/-! ## The rounds -/

section Rounds
variable {tokener : List UInt8 → Json} {w w' : World} {l : Line} {typed : List Line}

end Rounds

/-! ## The session -/

def Round.isQuit (r : Round) : Bool := r.choice == 'q'.toUInt8

/-- From `w` to `w'` the rounds are gone through, one after the other. -/
structure Served (tokener : List UInt8 → Json) (rounds : List Round) (w w' : World) : Prop where
  follows : Follows tokener w.jobj rounds
  typed : w.typed = rounds.flatMap Round.typed ++ w'.typed
  bridge : w.bridge = rounds.flatMap Round.answers ++ w'.bridge
  trace : w'.trace = w.trace ++ events tokener w.jobj rounds
  live : w.response.memory ≠ .wild → w'.response.memory ≠ .wild

/-- The round `r` is gone through, and its choice is the last one read. -/
structure Turned (tokener : List UInt8 → Json) (r : Round) (w w' : World) : Prop where
  served : Served tokener [r] w w'
  choice : w'.choice = r.choice
  jobj : w'.jobj = r.next tokener w.jobj

section Session
variable {tokener : List UInt8 → Json} {w w' v : World} {r : Round} {rounds : List Round}

theorem Served.cons (h : Turned tokener r w v) (hrest : Served tokener rounds v w') :
    Served tokener (r :: rounds) w w' where
  follows := ⟨h.served.follows.1, h.jobj ▸ hrest.follows⟩
  typed := by
    rw [h.served.typed, hrest.typed, List.flatMap_singleton, List.flatMap_cons, List.append_assoc]
  bridge := by
    rw [h.served.bridge, hrest.bridge, List.flatMap_singleton, List.flatMap_cons,
      List.append_assoc]
  trace := by
    rw [hrest.trace, h.served.trace, h.jobj, events, events, events, List.append_nil,
      List.append_assoc]
  live := fun hw => hrest.live (h.served.live hw)

theorem Turned.goesOn (h : Turned tokener r w v) : goesOn v = !r.isQuit := by
  rw [El32.Hue.goesOn, h.choice]
  rfl

end Session

end El32.Hue

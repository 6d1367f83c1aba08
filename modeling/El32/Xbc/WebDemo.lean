import El32.Foundations.Mailbox
import El32.Foundations.Transition
import El32.Xbc.ButtonReader
import El32.Xbc.Page

/-! The running demo: any number of pages, an `xbcweb` process for each request, and the threads of
the daemon, with the queue and the button store between them.

Every request, every iteration of the listener and every half of the reader's iteration is a step of
its own, and they come in any order. A click sends its request at once, and the requests that are under
way are served in any order, each by an `xbcweb` process in one step: commands are executed in the order
in which these processes queue them, whatever order the pages sent them in. The device table changes
under the daemon at will. Every process gets its memory and finds the store mapped and the queue open,
and no call on the queue fails. -/
namespace El32.WebDemo
open CString Decimal Commands Controller Devices Shm Web Listener CommandPath Mailbox Transition
  ButtonReader Page
set_option autoImplicit false

/-- `MAX_MESSAGES`. -/
def maxMessages : ℕ := 50

/-- A command of a page: the value is a literal of an `int`, with at most 40 characters. -/
structure Order where
  d : Fin maxDevs
  k : Kind
  V : List UInt8
  v : ℤ
  literal : Literal V v
  short : V.length ≤ 40
  fits : FitsInt v
deriving DecidableEq

def Order.query (o : Order) : List UInt8 := queryText o.d o.k o.V

/-- What the locals of an `xbcweb` process hold at its start. -/
structure Stack where
  frame : SendFrame
  cmd : Command
  btn : Button

/-- What the listener did for a message: the table it found and the transfers it made. -/
structure Executed where
  devices : Table
  transfers : List OutTransfer

/-- The reader thread: the calls made, its array, and whether the record of the current slot is read
and not yet written. -/
structure Reader where
  n : ℕ
  btns : Map
  holds : Bool

/-- `clicked` are the commands whose requests are under way, and `done` is what the listener did so
far. -/
structure State (P : Type) where
  pages : P → Script
  clicked : List Order
  queue : Bounded Message maxMessages
  listener : Command
  reader : Reader
  map : Map
  devices : Table
  done : List Executed

inductive Label (P : Type) where
  | load (p : P)
  | click (o : Order)
  | command (o : Order) (w : Stack)
  | answer (p : P) (w : Stack)
  | deliver (p : P) (status : ℕ)
  | refuse (p : P) (status : ℕ) (responseText : List UInt8)
  | receive (usb : ℤ)
  | transfer (input : Report) (usb : InTransfer)
  | write
  | plug (devices : Table)

section Steps
variable {P : Type}

/-- A web process that finds the store mapped, the queue open and memory for its string. -/
def State.env (wide : ℤ → ℤ) (s : State P) (w : Stack) : WebEnv where
  wide := wide
  tmpStr := true
  shm := some s.map
  queue := some s.queue.waiting
  frame := w.frame
  cmd := w.cmd
  btn := w.btn

/-- A request and the text of its answer, the header taken off by the server. The process waits in
`mq_send` while its message does not fit. -/
def State.request (wide : ℤ → ℤ) (s : State P) (w : Stack) (query : List UInt8) :
    Option (Bounded Message maxMessages × List UInt8) := do
  let out ← main (s.env wide w) (some (query ++ [0]))
  let queue ← accept (← out.queue)
  return (queue, out.output.drop contentType.length)

def State.received (s : State P) (call : Option ControllerCall) (usb : ℤ) : Executed where
  devices := s.devices
  transfers := (call.map fun call => (call.perform s.devices usb).2).getD []

variable [DecidableEq P]

def State.setPage (s : State P) (p : P) (page : Script) : State P :=
  { s with pages := Function.update s.pages p page }

def step (wide : ℤ → ℤ) (s : State P) : Label P → Option (State P)
  | .load p => some (s.setPage p .init)
  | .click o => some { s with clicked := s.clicked ++ [o] }
  | .command o w =>
    if o ∈ s.clicked then do
      let (queue, _) ← s.request wide w o.query
      return { s with clicked := s.clicked.erase o, queue }
    else none
  | .answer p w =>
    match (s.pages p).request with
    | .sent id => do
      let (queue, text) ← s.request wide w (pollQuery id)
      return { s with queue }.setPage p { s.pages p with request := .answered text }
    | _ => none
  | .deliver p status =>
    match (s.pages p).request with
    | .answered text => some (s.setPage p ((s.pages p).onreadystatechange status text))
    | _ => none
  | .refuse p status responseText =>
    match (s.pages p).request with
    | .sent _ =>
      if status = 200 then none
      else some (s.setPage p ((s.pages p).onreadystatechange status responseText))
    | _ => none
  | .receive usb => do
    let (m, queue) ← s.queue.take
    let (listener, call) ← listenOnce wide s.listener (some m)
    return { s with queue, listener, done := s.done ++ [s.received call usb] }
  | .transfer input usb =>
    if s.reader.holds then none
    else
      let i := slotOf s.reader.n
      let c : Call := ⟨getDeviceHandle s.devices (UInt8.ofNat i), usb⟩
      let btns := Function.update s.reader.btns i (c.record (s.reader.btns i) input)
      some { s with reader := ⟨s.reader.n, btns, true⟩ }
  | .write =>
    if s.reader.holds then do
      let i := slotOf s.reader.n
      let map ← witeButtonToSHM (some s.map) (s.reader.btns i) (UInt8.ofNat i)
      return { s with map := ← map, reader := ⟨s.reader.n + 1, s.reader.btns, false⟩ }
    else none
  | .plug devices => some { s with devices }

/-- The daemon has just made the queue, and no page has been loaded. -/
structure Starts (s : State P) : Prop where
  queue : s.queue.waiting = []
  done : s.done = []
  pages : ∀ p, (s.pages p).idx = 0 ∧ (s.pages p).request = .stopped

end Steps

/-! ## What a request does -/

section Requests
variable {P : Type} {wide : ℤ → ℤ} {s : State P}

/-- The message for a command. -/
def Encodes (o : Order) (m : Message) : Prop :=
  text m.bytes = some (messageText (idOf o.d) o.k.text (Int16.ofInt o.v))

/-- One transfer with the bytes of the command, to the controller in its slot. -/
def Executes (o : Order) (e : Executed) : Prop := OneTransfer e.devices o.d o.v o.k e.transfers

theorem Order.text_query (o : Order) : text (o.query ++ [0]) = some o.query :=
  text_of_terminated (not_mem_queryText o.literal (by decide) (by decide)
    (by cases o.k <;> decide)) []

theorem request_order (wide : ℤ → ℤ) (s : State P) (w : Stack) (o : Order) :
    ∃ m, Encodes o m ∧ s.request wide w o.query =
      (accept (s.queue.waiting ++ [m])).map fun queue => (queue, []) := by
  obtain ⟨m, hmain, hm⟩ :=
    main_query o.literal o.short o.fits (show (s.env wide w).tmpStr = true from rfl) rfl o.text_query
  refine ⟨m, hm, ?_⟩
  simp only [State.request, bind_eq, hmain, some_bind]
  cases (accept (s.queue.waiting ++ [m]) : Option (Bounded Message maxMessages)) <;> rfl

theorem request_poll (wide : ℤ → ℤ) (s : State P) (w : Stack) (i : Fin maxDevs) :
    s.request wide w (pollQuery i) = some (s.queue, printButton (s.map i)) := by
  have hmain := main_pollQuery i (show (s.env wide w).tmpStr = true from rfl) rfl
  have hqueue : (s.env wide w).queue = some s.queue.waiting := rfl
  simp only [State.request, bind_eq, hmain, hqueue, some_bind, accept_waiting, List.drop_left]
  rfl

theorem listen_order {o : Order} {m : Message} (hm : Encodes o m) (wide : ℤ → ℤ) (s : State P)
    (usb : ℤ) : ∃ c call, listenOnce wide s.listener (some m) = some (c, call) ∧
      Executes o (s.received call usb) := by
  obtain ⟨c, hc⟩ := listenOnce_message wide s.listener hm
  exact ⟨c, _, hc, perform_callFor s.devices o.d o.k o.v usb⟩

end Requests

/-! ## What a step does -/

section Inversion
variable {P : Type} {wide : ℤ → ℤ} {s s' : State P} {a : Label P}

def Label.page : Label P → Option P
  | .load p => some p
  | .answer p _ => some p
  | .deliver p _ => some p
  | .refuse p _ _ => some p
  | _ => none

/-- The command that a page sends. -/
def Label.clicked : Label P → Option Order
  | .click o => some o
  | _ => none

/-- The command that is queued. -/
def Label.order : Label P → Option Order
  | .command o _ => some o
  | _ => none

/-- What a step makes of the page `p`. -/
inductive PageStep (s : State P) (p : P) : Label P → Script → Prop
  | other {a : Label P} (h : a.page ≠ some p) : PageStep s p a (s.pages p)
  | load : PageStep s p (.load p) .init
  | answer {id : ℕ} {w : Stack} {text : List UInt8} (h : (s.pages p).request = .sent id)
      (htext : ∀ i : Fin maxDevs, id = i.val → text = printButton (s.map i)) :
      PageStep s p (.answer p w) { s.pages p with request := .answered text }
  | deliver {status : ℕ} {text : List UInt8} (h : (s.pages p).request = .answered text) :
      PageStep s p (.deliver p status) ((s.pages p).onreadystatechange status text)
  | refuse {id status : ℕ} {text : List UInt8} (h : (s.pages p).request = .sent id)
      (hstatus : status ≠ 200) :
      PageStep s p (.refuse p status text) ((s.pages p).onreadystatechange status text)

/-- What a step makes of the requests under way, the queue and what the listener did, while every page
polls a controller. -/
inductive QueueStep (s : State P) :
    Label P → List Order → List Message → List Executed → Prop
  | other {a : Label P} (hclicked : a.clicked = none) (horder : a.order = none) :
      QueueStep s a s.clicked s.queue.waiting s.done
  | click {o : Order} : QueueStep s (.click o) (s.clicked ++ [o]) s.queue.waiting s.done
  | command {o : Order} {w : Stack} {m : Message} (ho : o ∈ s.clicked) (h : Encodes o m) :
      QueueStep s (.command o w) (s.clicked.erase o) (s.queue.waiting ++ [m]) s.done
  | receive {usb : ℤ} {m : Message} {waiting : List Message} {e : Executed}
      (h : s.queue.waiting = m :: waiting) (hexec : ∀ o, Encodes o m → Executes o e) :
      QueueStep s (.receive usb) s.clicked waiting (s.done ++ [e])

variable [DecidableEq P]

theorem setPage_same (s : State P) (p : P) (page : Script) :
    (s.setPage p page).pages p = page := Function.update_self ..

theorem setPage_other (s : State P) {p q : P} (h : q ≠ p) (page : Script) :
    (s.setPage p page).pages q = s.pages q := Function.update_of_ne h ..

theorem pageStep_setPage {t : State P} {p q : P} {page : Script} (ha : a.page = some q)
    (ht : t.pages = s.pages) (h : PageStep s q a page) :
    PageStep s p a ((t.setPage q page).pages p) := by
  by_cases hp : p = q
  · rw [hp, setPage_same]
    exact h
  · rw [setPage_other t hp, ht]
    exact .other (by rw [ha]; exact fun h => hp (Option.some.inj h).symm)

theorem page_step (h : step wide s a = some s') (p : P) : PageStep s p a (s'.pages p) := by
  cases a with
  | load q =>
    obtain rfl := Option.some.inj h
    exact pageStep_setPage rfl rfl .load
  | click o =>
    obtain rfl := Option.some.inj h
    exact .other nofun
  | command o w =>
    simp only [step, bind_eq] at h
    split at h
    · obtain ⟨r, -, h⟩ := Option.bind_eq_some_iff.mp h
      obtain rfl := Option.some.inj h
      exact .other nofun
    · exact nomatch h
  | answer q w =>
    simp only [step, bind_eq] at h
    split at h
    · next id hid =>
      obtain ⟨r, hr, h⟩ := Option.bind_eq_some_iff.mp h
      obtain rfl := Option.some.inj h
      refine pageStep_setPage rfl rfl (.answer hid fun i hi => ?_)
      rw [hi, request_poll] at hr
      exact (congrArg Prod.snd (Option.some.inj hr)).symm
    · exact nomatch h
  | deliver q status =>
    simp only [step] at h
    split at h
    · next text htext =>
      obtain rfl := Option.some.inj h
      exact pageStep_setPage rfl rfl (.deliver htext)
    · exact nomatch h
  | refuse q status text =>
    simp only [step] at h
    split at h
    · next id hid =>
      split at h
      · exact nomatch h
      · next hstatus =>
        obtain rfl := Option.some.inj h
        exact pageStep_setPage rfl rfl (.refuse hid hstatus)
    · exact nomatch h
  | receive usb =>
    simp only [step, bind_eq] at h
    obtain ⟨r, -, h⟩ := Option.bind_eq_some_iff.mp h
    obtain ⟨c, -, h⟩ := Option.bind_eq_some_iff.mp h
    obtain rfl := Option.some.inj h
    exact .other nofun
  | transfer input usb =>
    simp only [step] at h
    split at h
    · exact nomatch h
    · obtain rfl := Option.some.inj h
      exact .other nofun
  | write =>
    simp only [step, bind_eq] at h
    split at h
    · obtain ⟨m, -, h⟩ := Option.bind_eq_some_iff.mp h
      obtain ⟨m', -, h⟩ := Option.bind_eq_some_iff.mp h
      obtain rfl := Option.some.inj h
      exact .other nofun
    · exact nomatch h
  | plug devices =>
    obtain rfl := Option.some.inj h
    exact .other nofun

theorem queue_step (hp : ∀ p, (s.pages p).Polls) (h : step wide s a = some s') :
    QueueStep s a s'.clicked s'.queue.waiting s'.done := by
  cases a with
  | load q =>
    obtain rfl := Option.some.inj h
    exact .other rfl rfl
  | click o =>
    obtain rfl := Option.some.inj h
    exact .click
  | command o w =>
    obtain ⟨m, hm, hr⟩ := request_order wide s w o
    simp only [step, bind_eq, hr] at h
    split at h
    · next ho =>
      obtain ⟨r, hr, h⟩ := Option.bind_eq_some_iff.mp h
      obtain ⟨queue, hqueue, rfl⟩ := Option.map_eq_some_iff.mp hr
      obtain rfl := Option.some.inj h
      show QueueStep s _ _ queue.waiting s.done
      rw [accept_eq_some.mp hqueue]
      exact .command ho hm
    · exact nomatch h
  | answer q w =>
    simp only [step, bind_eq] at h
    split at h
    · next id hid =>
      have hi := (hp q).1
      rw [← (hp q).2 id hid] at hi
      obtain rfl : s' = s.setPage q { s.pages q with
          request := .answered (printButton (s.map ⟨id, hi⟩)) } := by
        have hr := request_poll wide s w ⟨id, hi⟩
        rw [hr, some_bind] at h
        exact (Option.some.inj h).symm
      exact .other rfl rfl
    · exact nomatch h
  | deliver q status =>
    simp only [step] at h
    split at h
    · obtain rfl := Option.some.inj h
      exact .other rfl rfl
    · exact nomatch h
  | refuse q status text =>
    simp only [step] at h
    split at h
    · split at h
      · exact nomatch h
      · obtain rfl := Option.some.inj h
        exact .other rfl rfl
    · exact nomatch h
  | receive usb =>
    simp only [step, bind_eq] at h
    obtain ⟨⟨m, queue⟩, hm, h⟩ := Option.bind_eq_some_iff.mp h
    obtain ⟨⟨c, call⟩, hlisten, h⟩ := Option.bind_eq_some_iff.mp h
    obtain rfl := Option.some.inj h
    refine .receive (take_eq_some.mp hm) fun o ho => ?_
    obtain ⟨c', call', hlisten', hexec⟩ := listen_order ho wide s usb
    rw [hlisten, Option.some.injEq, Prod.mk.injEq] at hlisten'
    rw [hlisten'.2]
    exact hexec
  | transfer input usb =>
    simp only [step] at h
    split at h
    · exact nomatch h
    · obtain rfl := Option.some.inj h
      exact .other rfl rfl
  | write =>
    simp only [step, bind_eq] at h
    split at h
    · obtain ⟨m, -, h⟩ := Option.bind_eq_some_iff.mp h
      obtain ⟨m', -, h⟩ := Option.bind_eq_some_iff.mp h
      obtain rfl := Option.some.inj h
      exact .other rfl rfl
    · exact nomatch h
  | plug devices =>
    obtain rfl := Option.some.inj h
    exact .other rfl rfl

end Inversion

/-! ## The commands -/

section Commands
variable {P : Type} {wide : ℤ → ℤ} {s t : State P} {a : Label P} {ls : List (Label P)}

/-- The commands that the pages send in a run. -/
def clicks (ls : List (Label P)) : List Order := ls.filterMap Label.clicked

/-- The commands of a run, in the order in which they are queued. -/
def orders (ls : List (Label P)) : List Order := ls.filterMap Label.order

theorem orders_concat (ls : List (Label P)) (a : Label P) :
    orders (ls ++ [a]) = orders ls ++ a.order.toList := by
  rw [orders, List.filterMap_append, List.filterMap_cons]
  cases a.order <;> rfl

theorem clicks_concat (ls : List (Label P)) (a : Label P) :
    clicks (ls ++ [a]) = clicks ls ++ a.clicked.toList := by
  rw [clicks, List.filterMap_append, List.filterMap_cons]
  cases a.clicked <;> rfl

theorem PageStep.polls {p : P} {page : Script} (hp : (s.pages p).Polls)
    (h : PageStep s p a page) : page.Polls := by
  cases h with
  | other h => exact hp
  | load => exact polls_init
  | answer h htext => exact ⟨hp.1, nofun⟩
  | deliver h => exact hp.onreadystatechange _ _
  | refuse h hstatus => exact hp.onreadystatechange _ _

/-- What is sent comes to what is under way, and what is queued leaves it. -/
theorem QueueStep.clicked {clicked : List Order} {waiting : List Message} {done : List Executed}
    (h : QueueStep s a clicked waiting done) :
    (s.clicked ++ a.clicked.toList).Perm (a.order.toList ++ clicked) := by
  cases h with
  | other hclicked horder =>
    rw [hclicked, horder, Option.toList_none, List.append_nil, List.nil_append]
  | click => exact List.Perm.refl _
  | command ho _ =>
    show (s.clicked ++ []).Perm _
    rw [List.append_nil]
    exact List.perm_cons_erase ho
  | receive h hexec =>
    show (s.clicked ++ []).Perm _
    rw [List.append_nil]
    exact List.Perm.refl _

theorem QueueStep.exchange {clicked sent : List Order} {waiting : List Message}
    {done : List Executed} (hex : Exchange Encodes Executes sent s.queue.waiting s.done)
    (h : QueueStep s a clicked waiting done) :
    Exchange Encodes Executes (sent ++ a.order.toList) waiting done := by
  cases h with
  | other _ horder =>
    rw [horder, Option.toList_none, List.append_nil]
    exact hex
  | click =>
    show Exchange Encodes Executes (sent ++ []) _ _
    rw [List.append_nil]
    exact hex
  | command _ hm => exact hex.send hm
  | receive h hexec =>
    rw [h] at hex
    show Exchange Encodes Executes (sent ++ []) _ _
    rw [List.append_nil]
    exact hex.receive hexec

variable [DecidableEq P]

theorem run_exchange (hs : Starts s) (h : after (step wide) s ls = some t) :
    Exchange Encodes Executes (orders ls) t.queue.waiting t.done ∧ ∀ p, (t.pages p).Polls := by
  refine after_induction (Q := fun ls t =>
    Exchange Encodes Executes (orders ls) t.queue.waiting t.done ∧ ∀ p, (t.pages p).Polls)
    ?_ ?_ h
  · refine ⟨by rw [hs.queue, hs.done]; exact exchange_empty, fun p => ?_⟩
    obtain ⟨hidx, hreq⟩ := hs.pages p
    refine ⟨by rw [hidx]; exact maxDevs_pos, fun id h => ?_⟩
    rw [hreq] at h
    exact nomatch h
  · rintro ks u a u' - ⟨hex, hp⟩ hstep
    refine ⟨?_, fun p => (page_step hstep p).polls (hp p)⟩
    rw [orders_concat]
    exact (queue_step hp hstep).exchange hex

/-- Every command that is sent is under way or queued. -/
theorem run_clicked (hs : Starts s) (h : after (step wide) s ls = some t) :
    (s.clicked ++ clicks ls).Perm (orders ls ++ t.clicked) := by
  refine after_induction (Q := fun ls t => (s.clicked ++ clicks ls).Perm (orders ls ++ t.clicked))
    (by rw [clicks, List.filterMap_nil, List.append_nil]; exact List.Perm.refl _) ?_ h
  intro ks u a u' hks hperm hstep
  have hstep := (queue_step (run_exchange hs hks).2 hstep).clicked
  rw [clicks_concat, orders_concat, ← List.append_assoc, List.append_assoc (orders ks)]
  refine (hperm.append_right _).trans ?_
  rw [List.append_assoc]
  exact hstep.append_left _

/-- A sender waits exactly while the queue is full. -/
theorem command_enabled {o : Order} (ho : o ∈ s.clicked) (w : Stack) :
    (∃ s', step wide s (.command o w) = some s') ↔ s.queue.waiting.length < maxMessages := by
  obtain ⟨m, -, hr⟩ := request_order wide s w o
  have hroom : (∃ queue : Bounded Message maxMessages,
      accept (s.queue.waiting ++ [m]) = some queue) ↔ s.queue.waiting.length < maxMessages := by
    rw [exists_accept, List.length_append, List.length_singleton, Nat.succ_le_iff]
  rw [← hroom]
  simp only [step, bind_eq, hr, if_pos ho]
  cases (accept (s.queue.waiting ++ [m]) : Option (Bounded Message maxMessages)) with
  | none => exact iff_of_false (by simp) (by simp)
  | some queue => exact iff_of_true ⟨_, rfl⟩ ⟨queue, rfl⟩

/-- The listener gets through every message that was queued. -/
theorem receive_enabled {sent : List Order}
    (hex : Exchange Encodes Executes sent s.queue.waiting s.done) (hne : s.queue.waiting ≠ [])
    (usb : ℤ) : ∃ s', step wide s (.receive usb) = some s' ∧
      s'.queue.waiting.length + 1 = s.queue.waiting.length := by
  obtain ⟨m, queue, htake⟩ := take_isSome hne
  have hwaiting := take_eq_some.mp htake
  rw [hwaiting] at hex
  obtain ⟨o, ho⟩ := hex.head
  obtain ⟨c, call, hlisten, -⟩ := listen_order ho wide s usb
  refine ⟨{ s with queue, listener := c, done := s.done ++ [s.received call usb] }, ?_,
    by rw [hwaiting, List.length_cons]⟩
  simp only [step, bind_eq, htake, some_bind, hlisten]
  rfl

theorem drain (hs : Starts s) (h : after (step wide) s ls = some t) (usbs : List ℤ)
    (hlen : usbs.length = t.queue.waiting.length) :
    ∃ u, after (step wide) t (usbs.map .receive) = some u ∧ u.queue.waiting = [] := by
  induction usbs generalizing t ls with
  | nil => exact ⟨t, rfl, List.eq_nil_of_length_eq_zero hlen.symm⟩
  | cons usb usbs ih =>
    have hne : t.queue.waiting ≠ [] := by
      intro hnil
      rw [hnil] at hlen
      exact nomatch hlen
    obtain ⟨t', hstep, hshort⟩ := receive_enabled (run_exchange hs h).1 hne usb
    have hrun : after (step wide) s (ls ++ [.receive usb]) = some t' := by
      rw [after_concat, h, Option.bind_some, hstep]
    obtain ⟨u, hu, hempty⟩ := ih hrun (by rw [List.length_cons] at hlen; omega)
    exact ⟨u, by rw [List.map_cons, after_cons hstep, hu], hempty⟩

/-- **Every command is queued at most once, and every queued one is executed exactly once and in the
order of queueing**, whatever else happens in between: what the listener did are the first commands
queued, the others wait, a sender is held up exactly by a full queue, and the listener alone brings the
rest to an end. -/
theorem commands_delivered (hs : Starts s) (h : after (step wide) s ls = some t) :
    (s.clicked ++ clicks ls).Perm (orders ls ++ t.clicked) ∧
      (orders ls).length = t.done.length + t.queue.waiting.length ∧
      List.Forall₂ Executes ((orders ls).take t.done.length) t.done ∧
      (∀ o ∈ t.clicked, ∀ w, (∃ u, step wide t (.command o w) = some u) ↔
        t.queue.waiting.length < maxMessages) ∧
      ∀ usbs : List ℤ, usbs.length = t.queue.waiting.length →
        ∃ u, after (step wide) t (usbs.map .receive) = some u ∧
          List.Forall₂ Executes (orders ls) u.done := by
  have hex := (run_exchange hs h).1
  refine ⟨run_clicked hs h, hex.length, hex.results, fun o ho w => command_enabled ho w,
    fun usbs hlen => ?_⟩
  obtain ⟨u, hu, hempty⟩ := drain hs h usbs hlen
  refine ⟨u, hu, ?_⟩
  have hrun : after (step wide) s (ls ++ usbs.map .receive) = some u := by
    rw [after_append h, hu]
  have hall := (run_exchange hs hrun).1
  have hsame : orders (ls ++ usbs.map .receive) = orders ls := by
    have hnone : orders (usbs.map (Label.receive (P := P))) = [] := by
      rw [orders, List.filterMap_map]
      exact List.filterMap_eq_nil_iff.mpr fun _ _ => rfl
    rw [orders, List.filterMap_append]
    exact (congrArg (orders ls ++ ·) hnone).trans (List.append_nil _)
  rw [hsame, hempty] at hall
  have hlength : (orders ls).length = u.done.length := hall.length
  have hresults := hall.results
  rwa [← hlength, List.take_length] at hresults

end Commands

/-! ## The boxes -/

section Boxes
variable {P : Type} {wide : ℤ → ℤ} {s t : State P} {a : Label P} {ls : List (Label P)} {p : P}

/-- A box was updated: the answer was `200`. -/
def Label.shows [DecidableEq P] (p : P) : Label P → Bool
  | .deliver q status => q = p ∧ status = 200
  | _ => false

theorem slot_covered (start : ℕ) {k : ℕ} (hk : maxDevs < k) (i : Fin maxDevs) :
    ∃ j, 1 ≤ j ∧ j < k ∧ (start + j) % maxDevs = i.val := by
  have hi := i.isLt
  unfold maxDevs at *
  by_cases h : start % 4 < i.val
  · exact ⟨i.val - start % 4, by omega, by omega, by omega⟩
  · exact ⟨i.val + 4 - start % 4, by omega, by omega, by omega⟩

/-- After `k` updates from the index `start` on: where the page is, and which boxes show a record
that `Fresh` allows. The answer under way at the start may be an old one. -/
structure Recent (Fresh : Fin maxDevs → Box → Prop) (start k : ℕ) (page : Script) : Prop where
  polls : page.Polls
  idx : page.idx = (start + k) % maxDevs
  boxes : ∀ j, 1 ≤ j → j < k → ∀ i : Fin maxDevs, (start + j) % maxDevs = i.val →
    Fresh i (page.boxes i)
  answered : 1 ≤ k → ∀ text, page.request = .answered text → ∀ i : Fin maxDevs,
    page.idx = i.val → Fresh i (updateControllerElements (ReportPath.Page.split text))

section Step
variable {Fresh : Fin maxDevs → Box → Prop} {start k : ℕ} {page : Script}

theorem Recent.mono {Fresh' : Fin maxDevs → Box → Prop} (h : Recent Fresh start k page)
    (hle : ∀ i b, Fresh i b → Fresh' i b) : Recent Fresh' start k page where
  polls := h.polls
  idx := h.idx
  boxes j h1 hj i hi := hle i _ (h.boxes j h1 hj i hi)
  answered hk text ht i hi := hle i _ (h.answered hk text ht i hi)

theorem Recent.all (h : Recent Fresh start k page) (hk : maxDevs < k) (i : Fin maxDevs) :
    Fresh i (page.boxes i) := by
  obtain ⟨j, h1, hj, hi⟩ := slot_covered start hk i
  exact h.boxes j h1 hj i hi

theorem Recent.answer (h : Recent Fresh start k page) {id : ℕ} (hid : page.request = .sent id)
    {text : List UInt8} (htext : ∀ i : Fin maxDevs, id = i.val →
      Fresh i (updateControllerElements (ReportPath.Page.split text))) :
    Recent Fresh start k { page with request := .answered text } where
  polls := ⟨h.polls.1, nofun⟩
  idx := h.idx
  boxes := h.boxes
  answered _ text' ht i hi := by
    injection ht with ht
    rw [← ht]
    exact htext i ((h.polls.2 id hid).trans hi)

/-- One more update: the box of the index, with the answer that was asked for after the last. -/
theorem Recent.deliver (h : Recent Fresh start k page) {text : List UInt8}
    (ht : page.request = .answered text) :
    Recent Fresh start (k + 1) (page.onreadystatechange 200 text) := by
  rw [Script.onreadystatechange_ok h.polls.1]
  have hnext : (page.idx + 1) % maxDevs = (start + (k + 1)) % maxDevs := by
    rw [h.idx, Nat.mod_add_mod, Nat.add_assoc]
  refine ⟨⟨Nat.mod_lt _ maxDevs_pos, fun id h => ?_⟩, hnext, ?_, fun _ text h => nomatch h⟩
  · injection h with h
    exact h.symm
  · intro j h1 hj i hi
    show Fresh i (Function.update page.boxes _ _ i)
    by_cases hbox : page.idx = i.val
    · obtain rfl : ⟨page.idx, h.polls.1⟩ = i := Fin.ext hbox
      rw [Function.update_self]
      exact h.answered (by omega) text ht _ rfl
    · have hother : i ≠ ⟨page.idx, h.polls.1⟩ := fun h => hbox (congrArg Fin.val h).symm
      rw [Function.update_of_ne hother]
      refine h.boxes j h1 ?_ i hi
      have hne : j ≠ k := by
        rintro rfl
        exact hbox (h.idx.trans hi)
      omega

end Step

variable [DecidableEq P]

/-- A step of the page keeps its boxes recent, where `Fresh` allows what the store holds. -/
theorem PageStep.recent {Fresh : Fin maxDevs → Box → Prop} {start k : ℕ} {page : Script}
    (hfresh : ∀ i, Fresh i (Box.of (s.map i))) (hr : Recent Fresh start k (s.pages p))
    (hload : a ≠ .load p) (h : PageStep s p a page) :
    Recent Fresh start (k + if a.shows p then 1 else 0) page := by
  cases h with
  | other h =>
    have hshows : a.shows p = false := by
      cases a with
      | deliver q status =>
        have hne : q ≠ p := fun hq => h (congrArg some hq)
        simp [Label.shows, hne]
      | _ => rfl
    rw [hshows]
    exact hr
  | load => exact absurd rfl hload
  | answer hid htext =>
    refine hr.answer hid fun i hi => ?_
    rw [htext i hi, updateControllerElements_printButton]
    exact hfresh i
  | @deliver status text ht =>
    by_cases hstatus : status = 200
    · rw [hstatus, if_pos (by simp [Label.shows])]
      exact hr.deliver ht
    · rw [if_neg (by simp [Label.shows, hstatus]), Script.onreadystatechange_refused hstatus]
      exact ⟨⟨hr.polls.1, nofun⟩, hr.idx, hr.boxes, nofun⟩
  | refuse hid hstatus =>
    rw [Script.onreadystatechange_refused hstatus]
    exact ⟨⟨hr.polls.1, nofun⟩, hr.idx, hr.boxes, nofun⟩

theorem recent_run {r : State P} (hs : Starts r) {ks : List (Label P)}
    (hr : after (step wide) r ks = some s) (h : after (step wide) s ls = some t)
    (hload : .load p ∉ ls) :
    Recent (fun i b => ∃ u, Passes (step wide) s ls u ∧ b = Box.of (u.map i))
      (s.pages p).idx (ls.countP (Label.shows p)) (t.pages p) := by
  refine after_induction (s := s) (Q := fun ls t => .load p ∉ ls →
    Recent (fun i b => ∃ u, Passes (step wide) s ls u ∧ b = Box.of (u.map i))
      (s.pages p).idx (ls.countP (Label.shows p)) (t.pages p)) ?_ ?_ h hload
  · have hpolls := (run_exchange hs hr).2 p
    exact fun _ => ⟨hpolls, (Nat.mod_eq_of_lt hpolls.1).symm,
      fun _ _ hj => absurd hj (Nat.not_lt_zero _), fun hk => absurd hk (Nat.not_lt_zero _)⟩
  · intro ks u a u' hu hrec hstep hload
    rw [List.mem_append, not_or, List.mem_singleton] at hload
    rw [List.countP_append, List.countP_singleton]
    refine PageStep.recent (s := u) (fun i => ?_) ?_ (Ne.symm hload.2) (page_step hstep p)
    · exact ⟨u, (passes_end hu).append [a], rfl⟩
    · refine (hrec hload.1).mono ?_
      rintro i b ⟨v, hv, hb⟩
      exact ⟨v, hv.append [a], hb⟩

/-- **Every box is recent**: after more than four updates of a page, each box shows a record that
the store held since the first of them was awaited. -/
theorem boxes_recent {r : State P} (hs : Starts r) {ks : List (Label P)}
    (hr : after (step wide) r ks = some s) (h : after (step wide) s ls = some t)
    (hload : .load p ∉ ls) (hcount : maxDevs < ls.countP (Label.shows p)) (i : Fin maxDevs) :
    ∃ u, Passes (step wide) s ls u ∧ (t.pages p).boxes i = Box.of (u.map i) :=
  (recent_run hs hr h hload).all hcount i

/-! ## The polling -/

/-- The request ended with another status. -/
def Label.fails (p : P) : Label P → Bool
  | .deliver q status => q = p ∧ status ≠ 200
  | .refuse q _ _ => q = p
  | _ => false

theorem PageStep.stopped {page : Script} (hload : a ≠ .load p) (h : PageStep s p a page) :
    page.request = .stopped ↔ a.fails p = true ∨ (s.pages p).request = .stopped := by
  cases h with
  | other h =>
    have hfails : a.fails p = false := by
      cases a with
      | deliver q status =>
        have hne : q ≠ p := fun hq => h (congrArg some hq)
        simp [Label.fails, hne]
      | refuse q status text =>
        have hne : q ≠ p := fun hq => h (congrArg some hq)
        simp [Label.fails, hne]
      | _ => rfl
    simp [hfails]
  | load => exact absurd rfl hload
  | answer hid htext => simp [Label.fails, hid]
  | @deliver status text ht =>
    by_cases hstatus : status = 200
    · simp [Label.fails, hstatus, ht, Script.onreadystatechange, Script.getButtons]
    · simp [Label.fails, hstatus, Script.onreadystatechange]
  | refuse hid hstatus => simp [Label.fails, Script.onreadystatechange, hstatus]

theorem stopped_iff {ks : List (Label P)} (h : after (step wide) s (.load p :: ks) = some t)
    (hload : .load p ∉ ks) :
    (t.pages p).request = .stopped ↔ ∃ a ∈ ks, a.fails p = true := by
  have hstart : step wide s (.load p) = some (s.setPage p .init) := rfl
  rw [after_cons hstart] at h
  refine after_induction (Q := fun ks t => .load p ∉ ks →
    ((t.pages p).request = .stopped ↔ ∃ a ∈ ks, a.fails p = true)) ?_ ?_ h hload
  · intro _
    rw [setPage_same]
    exact iff_of_false nofun fun ⟨_, ha, _⟩ => nomatch ha
  · intro ks u a u' _ hrec hstep hload
    rw [List.mem_append, not_or, List.mem_singleton] at hload
    rw [(page_step hstep p).stopped (Ne.symm hload.2), hrec hload.1]
    simp only [List.mem_append, List.mem_singleton, or_and_right, exists_or, exists_eq_left]
    exact or_comm

/-- A page that stopped takes no step any more. -/
theorem step_stopped (h : (t.pages p).request = .stopped) (ha : a.page = some p)
    (hload : a ≠ .load p) : step wide t a = none := by
  cases a with
  | load q => exact absurd (congrArg Label.load (Option.some.inj ha)) hload
  | answer q w =>
    obtain rfl := Option.some.inj ha
    simp only [step, h]
  | deliver q status =>
    obtain rfl := Option.some.inj ha
    simp only [step, h]
  | refuse q status text =>
    obtain rfl := Option.some.inj ha
    simp only [step, h]
  | _ => exact nomatch ha

theorem step_polls (hp : (t.pages p).Polls) (h : (t.pages p).request ≠ .stopped) :
    (∀ w, ∃ u, step wide t (.answer p w) = some u) ∨
      ∃ u, step wide t (.deliver p 200) = some u := by
  cases hreq : (t.pages p).request with
  | stopped => exact absurd hreq h
  | answered text => exact .inr ⟨_, by simp only [step, hreq]; rfl⟩
  | sent id =>
    refine .inl fun w => ?_
    have hid := hp.1
    rw [← hp.2 id hreq] at hid
    refine ⟨{ t with queue := t.queue }.setPage p { t.pages p with
      request := .answered (printButton (t.map ⟨id, hid⟩)) }, ?_⟩
    have hr := request_poll wide t w ⟨id, hid⟩
    simp only [step, hreq, bind_eq, hr, some_bind]
    rfl

/-- **A page polls the controllers in turn until an answer fails**, and nothing else stops it. -/
theorem page_goes_on {r : State P} (hs : Starts r) {ks : List (Label P)}
    (hr : after (step wide) r ks = some s) (h : after (step wide) s (.load p :: ls) = some t)
    (hload : .load p ∉ ls) :
    (t.pages p).idx = ls.countP (Label.shows p) % maxDevs ∧
      ((∃ a ∈ ls, a.fails p = true) → ∀ a, a.page = some p → a ≠ .load p →
        step wide t a = none) ∧
      (¬ (∃ a ∈ ls, a.fails p = true) → (∀ w, ∃ u, step wide t (.answer p w) = some u) ∨
        ∃ u, step wide t (.deliver p 200) = some u) := by
  have hrun : after (step wide) r (ks ++ .load p :: ls) = some t := by rw [after_append hr, h]
  have hpolls := (run_exchange hs hrun).2 p
  have hstop := stopped_iff h hload
  refine ⟨?_, fun hf a ha hne => step_stopped (hstop.mpr hf) ha hne,
    fun hf => step_polls hpolls fun h => hf (hstop.mp h)⟩
  have hstart : step wide s (.load p) = some (s.setPage p .init) := rfl
  have hfirst : after (step wide) r (ks ++ [.load p]) = some (s.setPage p .init) := by
    rw [after_concat, hr, Option.bind_some, hstart]
  rw [after_cons hstart] at h
  have hidx := (recent_run hs hfirst h hload).idx
  rw [setPage_same] at hidx
  rw [hidx]
  exact congrArg (· % maxDevs) (Nat.zero_add _)

end Boxes

/-! ## A run -/

/-- One page, not loaded yet, with a daemon that has no controllers. -/
def quiet : State Unit where
  pages _ := ⟨0, fun _ => default, .stopped⟩
  clicked := []
  queue := empty
  listener := rumbleOn
  reader := ⟨0, fun _ => default, false⟩
  map _ := default
  devices _ := Device.empty
  done := []

theorem starts_quiet : Starts quiet := ⟨rfl, rfl, fun _ => ⟨rfl, rfl⟩⟩

def freshStack : Stack := ⟨emptyFrame, rumbleOn, default⟩

def rumbleOff (d : Fin maxDevs) : Order where
  d := d
  k := .rumble
  V := [48]
  v := 0
  literal := .plain [48] (by decide) (List.forall_mem_singleton.mpr (by decide))
  short := by decide
  fits := by decide

/-- Two commands are under way, and the second is queued first; it is received between two polls of the
page. -/
def twoClicks : List (Label Unit) :=
  [.load (), .click (rumbleOff ⟨0, maxDevs_pos⟩), .click (rumbleOff ⟨1, one_lt_maxDevs⟩),
    .command (rumbleOff ⟨1, one_lt_maxDevs⟩) freshStack, .answer () freshStack, .receive 0,
    .deliver () 200, .command (rumbleOff ⟨0, maxDevs_pos⟩) freshStack]

theorem twoClicks_runs : (after (step id) quiet twoClicks).isSome := by decide +kernel

theorem commands_delivered_twoClicks : ∃ t, after (step id) quiet twoClicks = some t ∧
    (clicks twoClicks).Perm (orders twoClicks ++ t.clicked) ∧
    List.Forall₂ Executes [rumbleOff ⟨1, one_lt_maxDevs⟩] t.done := by
  have hrun := (Option.some_get twoClicks_runs).symm
  have hdone : ((after (step id) quiet twoClicks).get twoClicks_runs).done.length = 1 := by
    decide +kernel
  obtain ⟨hperm, -, h, -⟩ := commands_delivered starts_quiet hrun
  rw [hdone] at h
  exact ⟨_, hrun, hperm, h⟩

def poll : List (Label Unit) := [.answer () freshStack, .deliver () 200]

/-- Five polls, while a record is written to the first slot. -/
def fivePolls : List (Label Unit) :=
  poll ++ poll ++ .transfer (fun _ => 0) ⟨0, [], Nat.zero_le _⟩ :: poll ++ .write :: poll ++ poll

theorem fivePolls_runs : (after (step id) (quiet.setPage () .init) fivePolls).isSome := by
  decide +kernel

theorem not_load_fivePolls : .load () ∉ fivePolls := by simp [fivePolls, poll]

theorem boxes_recent_fivePolls :
    ∃ t u, after (step id) (quiet.setPage () .init) fivePolls = some t ∧
      Passes (step id) (quiet.setPage () .init) fivePolls u ∧
      (t.pages ()).boxes ⟨0, maxDevs_pos⟩ = Box.of (u.map ⟨0, maxDevs_pos⟩) := by
  have hload : after (step id) quiet [.load ()] = some (quiet.setPage () .init) := rfl
  have hrun := (Option.some_get fivePolls_runs).symm
  obtain ⟨u, hu, hbox⟩ :=
    boxes_recent starts_quiet hload hrun not_load_fivePolls (by decide) ⟨0, maxDevs_pos⟩
  exact ⟨_, u, hrun, hu, hbox⟩

theorem page_goes_on_fivePolls :
    ∃ t, after (step id) quiet (.load () :: fivePolls) = some t ∧ (t.pages ()).idx = 1 := by
  have hload : step id quiet (.load ()) = some (quiet.setPage () .init) := rfl
  have hrun := (after_cons hload fivePolls).trans (Option.some_get fivePolls_runs).symm
  have hstart : after (step id) quiet [] = some quiet := rfl
  exact ⟨_, hrun, (page_goes_on starts_quiet hstart hrun not_load_fivePolls).1⟩

end El32.WebDemo

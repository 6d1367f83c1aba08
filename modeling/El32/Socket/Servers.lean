import El32.Foundations.Descriptors
import El32.Foundations.Processes
import El32.Foundations.Transition

/-! The descriptors of the three echo servers: `TCPEchoServer.c`, `TCPEchoServer-Fork.c` and
`TCPEchoServer-Thread.c`.

Each accepts a client and has `HandleTCPClient` serve it: in a call, in a child with a copy of the
descriptors, or in a thread. The handler closes the socket it was given, in its own process. -/
namespace El32.Servers
open Descriptors Descriptors.Table Processes Transition
set_option autoImplicit false

inductive Design where
  | sequential
  | fork
  | thread
deriving DecidableEq

/-- What a descriptor stands for; the clients are numbered as they are accepted. -/
inductive File where
  | inherited
  | servSock
  | clntSock (client : ℕ)
deriving DecidableEq

/-- Where the main process is in its loop. -/
inductive Place where
  | accept
  | accepted (clntSock client : ℕ)
  | calling
deriving DecidableEq

/-- A handler has the number of its socket; a child has its own table as well. -/
structure Handler where
  clntSock : ℕ
  client : ℕ
  child : Option (Table File)
  running : Bool
deriving DecidableEq

/-- A handler that has come to its end; a child's table is gone with it. -/
def Handler.finished (h : Handler) : Handler := { h with child := none, running := false }

structure State where
  main : Table File
  place : Place
  clients : ℕ
  handlers : List Handler
deriving DecidableEq

/-- The files that are open when the server is started. -/
def inheritedTable (inherited : List Bool) : Table File :=
  inherited.map fun b => if b then some .inherited else none

/-- Behind `CreateTCPServerSocket`. -/
def initial (inherited : List Bool) : State :=
  ⟨allot .servSock (inheritedTable inherited), .accept, 0, []⟩

/-- A client is accepted, a handler is started for it, or handler `i` comes to its end. -/
inductive Label where
  | accept
  | start
  | finish (i : ℕ)
deriving DecidableEq

/-- A `fork` or a `pthread_create` that fails ends the server. -/
def step (d : Design) (s : State) : Label → Option State
  | .accept =>
    if s.place = .accept then
      some { s with
        main := allot (.clntSock s.clients) s.main,
        place := .accepted (lowest s.main) s.clients, clients := s.clients + 1 }
    else none
  | .start =>
    match s.place with
    | .accepted clntSock client =>
      let child := if d = .fork then some s.main else none
      some { s with
        place := if d = .sequential then .calling else .accept,
        handlers := s.handlers ++ [⟨clntSock, client, child, true⟩] }
    | .accept | .calling => none
  | .finish i => do
    let h ← s.handlers[i]?
    if h.running then
      let handlers := s.handlers.set i h.finished
      match h.child with
      -- the child exits behind its `close`
      | some _ => some { s with handlers := handlers }
      | none => some { s with
          main := close s.main h.clntSock, handlers := handlers,
          place := if d = .sequential then .accept else s.place }
    else none

def Place.client : Place → List ℕ
  | .accepted _ client => [client]
  | .accept | .calling => []

def unfinished (s : State) : List ℕ :=
  s.handlers.filterMap fun h : Handler => if h.running then some h.client else none

/-- The main process has the listening socket, that of a client for which no handler has started yet,
and, unless the handlers have their own copies, those of the handlers that have not finished. -/
def Exact (d : Design) (inherited : List Bool) (s : State) : Prop :=
  (opened s.main).Perm (opened (inheritedTable inherited) ++ .servSock :: (s.place.client ++
    match d with
    | .fork => []
    | .sequential | .thread => unfinished s).map .clntSock)

/-! ## What every step keeps -/

/-- The client of a handler, while its socket is open in the main process. -/
def inMain (d : Design) (h : Handler) : Option ℕ :=
  if d = .fork ∨ h.running = true then some h.client else none

structure Inv (d : Design) (inherited : List Bool) (s : State) : Prop where
  opened : (opened s.main).Perm (opened (inheritedTable inherited) ++
    .servSock :: (s.place.client ++ s.handlers.filterMap (inMain d)).map .clntSock)
  numbered : ∀ (i : ℕ) (h : Handler), s.handlers[i]? = some h → h.client = i
  pending : ∀ clntSock client, s.place = .accepted clntSock client →
    client = s.handlers.length ∧ s.main[clntSock]? = some (some (File.clntSock client))
  clients : s.clients = s.handlers.length + s.place.client.length
  child : ∀ h ∈ s.handlers, h.running = true → (h.child.isSome ↔ d = .fork)
  slot : d ≠ .fork → ∀ h ∈ s.handlers, h.running = true →
    s.main[h.clntSock]? = some (some (File.clntSock h.client))
  called : d = .sequential → ∀ h ∈ s.handlers, h.running = true →
    s.place = .calling ∧ h.client + 1 = s.handlers.length

section Step
variable {d : Design} {inherited : List Bool} {s s' : State}

theorem inv_initial (d : Design) (inherited : List Bool) : Inv d inherited (initial inherited) where
  opened := by
    refine (opened_allot _ _).trans ?_
    exact @List.perm_append_comm _ [File.servSock] _
  numbered := nofun
  pending := nofun
  clients := rfl
  child := nofun
  slot := nofun
  called := nofun

theorem perm_clntSock (fs gs : List File) (f : File) :
    (fs ++ .servSock :: f :: gs).Perm (f :: (fs ++ .servSock :: gs)) :=
  (List.Perm.append_left fs (List.Perm.swap f .servSock gs)).trans List.perm_middle

theorem accept_cases (hstep : step d s .accept = some s') : s.place = .accept ∧ s' = { s with
    main := allot (.clntSock s.clients) s.main,
    place := .accepted (lowest s.main) s.clients, clients := s.clients + 1 } := by
  obtain ⟨hplace, hs'⟩ := Option.ite_none_right_eq_some.mp hstep
  exact ⟨hplace, (Option.some.inj hs').symm⟩

theorem start_cases (hstep : step d s .start = some s') :
    ∃ clntSock client, s.place = .accepted clntSock client ∧ s' = { s with
      place := if d = .sequential then .calling else .accept,
      handlers := s.handlers ++
        [⟨clntSock, client, if d = .fork then some s.main else none, true⟩] } := by
  cases hplace : s.place with
  | accept => simp [step, hplace] at hstep
  | calling => simp [step, hplace] at hstep
  | accepted clntSock client =>
    simp only [step, hplace] at hstep
    exact ⟨clntSock, client, rfl, (Option.some.inj hstep).symm⟩

theorem inv_accept (h : Inv d inherited s) (hstep : step d s .accept = some s') :
    Inv d inherited s' := by
  obtain ⟨hplace, rfl⟩ := accept_cases hstep
  have hclients : s.clients = s.handlers.length := by simpa [hplace, Place.client] using h.clients
  refine ⟨?_, h.numbered, ?_, ?_, h.child, ?_, ?_⟩
  · have hopen := h.opened
    rw [hplace] at hopen
    exact (opened_allot _ _).trans ((hopen.cons _).trans (perm_clntSock _ _ _).symm)
  · rintro clntSock client ⟨⟩
    exact ⟨hclients, allot_lowest _ _⟩
  · simp [Place.client, hclients]
  · intro hd h' hmem hrun
    exact allot_other _ (h.slot hd h' hmem hrun)
  · intro hd h' hmem hrun
    have hcall := (h.called hd h' hmem hrun).1
    rw [hplace] at hcall
    cases hcall

theorem numbered_concat {hs : List Handler} {h₁ : Handler}
    (hnum : ∀ (i : ℕ) (h : Handler), hs[i]? = some h → h.client = i) (hlast : h₁.client = hs.length)
    (i : ℕ) (h : Handler) (hi : (hs ++ [h₁])[i]? = some h) : h.client = i := by
  obtain hlt | heq | hgt := Nat.lt_trichotomy i hs.length
  · rw [List.getElem?_append_left hlt] at hi
    exact hnum i h hi
  · rw [heq, List.getElem?_concat_length] at hi
    obtain rfl := Option.some.inj hi
    exact hlast.trans heq.symm
  · rw [List.getElem?_eq_none (by rw [List.length_append, List.length_singleton]; omega)] at hi
    cases hi

theorem inv_start (h : Inv d inherited s) (hstep : step d s .start = some s') :
    Inv d inherited s' := by
  obtain ⟨clntSock, client, hplace, rfl⟩ := start_cases hstep
  obtain ⟨rfl, hslot⟩ := h.pending clntSock client hplace
  have hclients : s.clients = s.handlers.length + 1 := by
    simpa [hplace, Place.client] using h.clients
  -- in the sequential server no other handler is running
  have hidle : d = .sequential → ∀ h' ∈ s.handlers, h'.running = false := by
    intro hd h' hmem
    by_contra hrun
    have hcall := (h.called hd h' hmem (by simpa using hrun)).1
    rw [hplace] at hcall
    cases hcall
  have hnone : (if d = .sequential then Place.calling else .accept).client = [] := by
    split <;> rfl
  refine ⟨?_, numbered_concat h.numbered rfl, ?_, ?_, ?_, ?_, ?_⟩
  · have hopen := h.opened
    have hlast : [(⟨clntSock, s.handlers.length, if d = .fork then some s.main else none, true⟩ :
        Handler)].filterMap (inMain d) = [s.handlers.length] := by
      simp [inMain]
    rw [hplace] at hopen
    refine hopen.trans (List.Perm.append_left _ (List.Perm.cons _ (List.Perm.map _ ?_)))
    rw [hnone, List.filterMap_append, hlast]
    exact List.perm_append_comm
  · intro clntSock' client' hacc
    split at hacc <;> cases hacc
  · simp [hnone, hclients]
  · refine forall_mem_concat h.child fun _ => ?_
    by_cases hd : d = .fork <;> simp [hd]
  · exact fun hd => forall_mem_concat (h.slot hd) fun _ => hslot
  · intro hd
    refine forall_mem_concat (fun h' hmem hrun => ?_) fun _ => ⟨if_pos hd, by simp⟩
    rw [hidle hd h' hmem] at hrun
    cases hrun

theorem finish_cases {i : ℕ} (h : Inv d inherited s) (hstep : step d s (.finish i) = some s') :
    ∃ h₁, s.handlers[i]? = some h₁ ∧ h₁.running = true ∧
      (d = .fork ∧ s' = { s with handlers := s.handlers.set i h₁.finished } ∨
        d ≠ .fork ∧ s' = { s with
          main := close s.main h₁.clntSock, handlers := s.handlers.set i h₁.finished,
          place := if d = .sequential then .accept else s.place }) := by
  obtain ⟨h₁, hi, hstep⟩ := Option.bind_eq_some_iff.mp hstep
  by_cases hrun : h₁.running = true
  · rw [if_pos hrun] at hstep
    have hchild := h.child h₁ (List.mem_of_getElem? hi) hrun
    refine ⟨h₁, hi, hrun, ?_⟩
    cases hc : h₁.child with
    | none =>
      simp only [hc] at hstep
      exact .inr ⟨hchild.not.mp (by simp [hc]), (Option.some.inj hstep).symm⟩
    | some t =>
      simp only [hc] at hstep
      exact .inl ⟨hchild.mp (by simp [hc]), (Option.some.inj hstep).symm⟩
  · rw [if_neg hrun] at hstep
    cases hstep

section Finish
variable {hs : List Handler} {i : ℕ} {h₁ : Handler}

theorem numbered_finished (hnum : ∀ (j : ℕ) (h : Handler), hs[j]? = some h → h.client = j)
    (hi : hs[i]? = some h₁) (j : ℕ) (h : Handler) (hj : (hs.set i h₁.finished)[j]? = some h) :
    h.client = j := by
  by_cases hij : i = j
  · subst hij
    rw [List.getElem?_set_self (List.getElem?_eq_some_iff.mp hi).1] at hj
    obtain rfl := Option.some.inj hj
    exact hnum i h₁ hi
  · rw [List.getElem?_set_ne hij] at hj
    exact hnum j h hj

/-- The handlers still running were running before, and are others. -/
theorem running_finished (hnum : ∀ (j : ℕ) (h : Handler), hs[j]? = some h → h.client = j)
    {h : Handler} (hmem : h ∈ hs.set i h₁.finished) (hrun : h.running = true) :
    h ∈ hs ∧ h.client ≠ i := by
  obtain ⟨j, hj⟩ := List.mem_iff_getElem?.mp hmem
  have hij : i ≠ j := by
    rintro rfl
    have hlt : i < (hs.set i h₁.finished).length := (List.getElem?_eq_some_iff.mp hj).1
    rw [List.length_set] at hlt
    rw [List.getElem?_set_self hlt] at hj
    obtain rfl := Option.some.inj hj
    cases hrun
  rw [List.getElem?_set_ne hij] at hj
  refine ⟨List.mem_of_getElem? hj, ?_⟩
  rw [hnum j h hj]
  exact hij.symm

end Finish

/-- The child has its own descriptors, and the main process none the less. -/
theorem inv_finish_child {i : ℕ} {h₁ : Handler} (h : Inv .fork inherited s)
    (hi : s.handlers[i]? = some h₁) :
    Inv .fork inherited { s with handlers := s.handlers.set i h₁.finished } := by
  have hfiles : (s.handlers.set i h₁.finished).filterMap (inMain .fork) =
      s.handlers.filterMap (inMain .fork) :=
    filterMap_set_same hi (by simp [inMain, Handler.finished])
  refine ⟨?_, numbered_finished h.numbered hi, ?_, ?_, ?_, fun hne => absurd rfl hne, nofun⟩
  · simpa only [hfiles] using h.opened
  · simpa only [List.length_set] using h.pending
  · simpa only [List.length_set] using h.clients
  · intro h' hmem hrun
    exact h.child h' (running_finished h.numbered hmem hrun).1 hrun

/-- The socket that the handler closes is the only one that goes. -/
theorem opened_finish {i : ℕ} {h₁ : Handler} (hd : d ≠ .fork) (h : Inv d inherited s)
    (hi : s.handlers[i]? = some h₁) (hrun : h₁.running = true) :
    (opened (close s.main h₁.clntSock)).Perm (opened (inheritedTable inherited) ++ .servSock ::
      (s.place.client ++ (s.handlers.set i h₁.finished).filterMap (inMain d)).map .clntSock) := by
  have hslot := h.slot hd h₁ (List.mem_of_getElem? hi) hrun
  have hfiles := filterMap_set_none (f := inMain d) (b := h₁.finished) hi
    (by rw [inMain, if_pos (.inr hrun)]) (by simp [inMain, hd, Handler.finished])
  have hinner := (hfiles.append_left s.place.client).trans List.perm_middle
  have hmove := (List.Perm.append_left (opened (inheritedTable inherited))
    ((hinner.map File.clntSock).cons File.servSock)).trans (perm_clntSock _ _ _)
  exact ((opened_close hslot).symm.trans (h.opened.trans hmove)).cons_inv

theorem inv_finish_shared {i : ℕ} {h₁ : Handler} (hd : d ≠ .fork) (h : Inv d inherited s)
    (hi : s.handlers[i]? = some h₁) (hrun : h₁.running = true) :
    Inv d inherited { s with
      main := close s.main h₁.clntSock, handlers := s.handlers.set i h₁.finished,
      place := if d = .sequential then .accept else s.place } := by
  have hmem₁ := List.mem_of_getElem? hi
  have hclient := h.numbered i h₁ hi
  have hslot := h.slot hd h₁ hmem₁ hrun
  have hplace : (if d = .sequential then Place.accept else s.place).client = s.place.client := by
    split
    · rename_i hseq
      rw [(h.called hseq h₁ hmem₁ hrun).1]
      rfl
    · rfl
  refine ⟨?_, numbered_finished h.numbered hi, ?_, ?_, ?_, ?_, ?_⟩
  · rw [hplace]
    exact opened_finish hd h hi hrun
  · intro clntSock client hacc
    split at hacc
    · cases hacc
    · obtain ⟨rfl, hpending⟩ := h.pending clntSock client hacc
      refine ⟨List.length_set.symm, close_other hslot hpending ?_⟩
      have hlt := (List.getElem?_eq_some_iff.mp hi).1
      simp only [ne_eq, File.clntSock.injEq]
      omega
  · simpa only [hplace, List.length_set] using h.clients
  · intro h' hmem hrun'
    exact h.child h' (running_finished h.numbered hmem hrun').1 hrun'
  · intro _ h' hmem hrun'
    obtain ⟨hold, hne⟩ := running_finished h.numbered hmem hrun'
    refine close_other hslot (h.slot hd h' hold hrun') ?_
    simp only [ne_eq, File.clntSock.injEq]
    omega
  · intro hseq h' hmem hrun'
    -- it is the last one, and so is the one that has finished
    obtain ⟨hold, hne⟩ := running_finished h.numbered hmem hrun'
    have hlast := (h.called hseq h' hold hrun').2
    have hlast₁ := (h.called hseq h₁ hmem₁ hrun).2
    omega

theorem inv_finish {i : ℕ} (h : Inv d inherited s) (hstep : step d s (.finish i) = some s') :
    Inv d inherited s' := by
  obtain ⟨h₁, hi, hrun, ⟨rfl, rfl⟩ | ⟨hd, rfl⟩⟩ := finish_cases h hstep
  · exact inv_finish_child h hi
  · exact inv_finish_shared hd h hi hrun

theorem inv_step (s : State) (a : Label) (s' : State) (h : Inv d inherited s)
    (hstep : step d s a = some s') : Inv d inherited s' := by
  cases a with
  | accept => exact inv_accept h hstep
  | start => exact inv_start h hstep
  | finish i => exact inv_finish h hstep

/-! ## Which sockets stay open -/

/-- Where the handlers close the main process's own descriptors, none is left behind. -/
theorem exact_of_shared (hd : d ≠ .fork) (h : Inv d inherited s) : Exact d inherited s := by
  have hin : inMain d = fun h : Handler => if h.running then some h.client else none := by
    funext h
    simp [inMain, hd]
  have hopen := h.opened
  rw [hin] at hopen
  cases d with
  | fork => exact absurd rfl hd
  | sequential => exact hopen
  | thread => exact hopen

theorem inMain_fork (hs : List Handler) : hs.filterMap (inMain .fork) = hs.map Handler.client := by
  induction hs with
  | nil => rfl
  | cons h hs ih =>
    have hclient : inMain .fork h = some h.client := if_pos (.inl rfl)
    rw [List.filterMap_cons_some hclient, ih, List.map_cons]

theorem exact_fork (h : Inv .fork inherited s) : Exact .fork inherited s ↔ s.handlers = [] := by
  have hopen := h.opened
  rw [inMain_fork] at hopen
  constructor
  · intro hexact
    have hlen := hopen.symm.trans hexact |>.length_eq
    simp at hlen
    exact hlen
  · intro hnil
    simpa [Exact, hnil] using hopen

/-- The condition on a step: no child is started. -/
def NoChild (d : Design) (_ : State) (a : Label) : Prop := d = .fork → a ≠ .start

theorem exact_step (s : State) (a : Label) (s' : State) (h : Inv d inherited s)
    (hexact : Exact d inherited s) (hstep : step d s a = some s') :
    Exact d inherited s' ↔ NoChild d s a := by
  have hinv := inv_step s a s' h hstep
  by_cases hd : d = .fork
  · subst hd
    have hnil := (exact_fork h).mp hexact
    rw [exact_fork hinv]
    cases a with
    | accept =>
      obtain ⟨-, rfl⟩ := accept_cases hstep
      exact iff_of_true hnil nofun
    | start =>
      obtain ⟨clntSock, client, -, rfl⟩ := start_cases hstep
      exact iff_of_false (by simp) fun hno => hno rfl rfl
    | finish i =>
      obtain ⟨h₁, hi, -⟩ := finish_cases h hstep
      rw [hnil] at hi
      cases hi
  · exact iff_of_true (exact_of_shared hd hinv) fun hfork => absurd hfork hd

end Step

/-- **The sequential and the threaded server keep exactly the sockets of their unfinished handlers; the
forking one does as long as it has started no child.** -/
theorem descriptors_exact_iff (d : Design) (inherited : List Bool) (ls : List Label) :
    AllStates (step d) (Exact d inherited) (initial inherited) ls ↔
      AllSteps (step d) (NoChild d) (initial inherited) ls := by
  have hinv := inv_initial d inherited
  have hexact : Exact d inherited (initial inherited) := by
    cases d with
    | fork => exact (exact_fork hinv).mpr rfl
    | sequential => exact exact_of_shared nofun hinv
    | thread => exact exact_of_shared nofun hinv
  exact allStates_iff_allSteps inv_step exact_step hinv hexact ls

/-- The main process of the forking server keeps a descriptor of every client it has accepted. -/
theorem fork_keeps_all {inherited : List Bool} {ls : List Label} {s : State}
    (h : after (step .fork) (initial inherited) ls = some s) :
    (opened s.main).length = (opened (inheritedTable inherited)).length + 1 + s.clients := by
  have hinv := invariant_after inv_step (inv_initial .fork inherited) h
  rw [hinv.opened.length_eq, inMain_fork, hinv.clients, List.length_append, List.length_cons,
    List.length_map, List.length_append, List.length_map]
  omega

/-- One client is accepted, served by a child and gone: its socket stays open in the main process. -/
theorem servedClient_not_exact : ¬ AllStates (step .fork) (Exact .fork [true, true, true])
    (initial [true, true, true]) [.accept, .start, .finish 0] := by
  intro h
  obtain ⟨s, hs, hopen⟩ : ∃ s, after (step .fork) (initial [true, true, true])
      [.accept, .start, .finish 0] = some s ∧
        (opened s.main).length = 5 ∧ s.place.client = [] := by
    decide +kernel
  have hlen := (AllStates.after h hs).length_eq
  rw [hopen.1, hopen.2] at hlen
  have hfive : 5 = 4 := hlen
  omega

end El32.Servers

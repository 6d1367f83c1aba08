import El32.Xbc.Shm

/-! The button reader thread of `xbcdaemon/main.c`.

The thread goes round the slots: it looks up the handle, reads the controller into its local array
and writes the record to the shared memory. Neither the result of the transfer nor the number of
bytes is looked at, so what the array and the input buffer held before can be published. -/
namespace El32.ButtonReader
open Controller Shm
set_option autoImplicit false

/-- One `getControllerInput` call: the handle that was looked up and what the transfer does. -/
structure Call where
  handle : Option Handle
  usb : InTransfer

def slotOf (n : ℕ) : Fin maxDevs := ⟨n % maxDevs, Nat.mod_lt n maxDevs_pos⟩

def Call.record (c : Call) (b : Button) (input : Report) : Button :=
  ((getControllerInput c.handle (some b) input c.usb).2).getD b

/-- The records written to the shared memory from the `n`-th call on, with their slots. `btns` is
the local array and `inputs n` what the input buffer of the `n`-th call held. -/
def buttonReaderThread :
    ℕ → Map → (ℕ → Report) → List Call → List (Fin maxDevs × Button)
  | _, _, _, [] => []
  | n, btns, inputs, c :: cs =>
    let b := c.record (btns (slotOf n)) (inputs n)
    (slotOf n, b) :: buttonReaderThread (n + 1) (Function.update btns (slotOf n) b) inputs cs

def published (m : Map) (writes : List (Fin maxDevs × Button)) : Option (Option Map) :=
  writes.foldlM (fun map w => witeButtonToSHM map w.2 (UInt8.ofNat w.1)) (some m)

theorem published_eq (m : Map) (writes : List (Fin maxDevs × Button)) :
    published m writes =
      some (some (writes.foldl (fun m w => Function.update m w.1 w.2) m)) := by
  induction writes generalizing m with
  | nil => rfl
  | cons w ws ih =>
    have h := witeButtonToSHM_slot m w.2 w.1
    rw [published, List.foldlM_cons, h, List.foldl_cons]
    exact ih (Function.update m w.1 w.2)

/-- The fields of a record without `avail`. -/
def fields (b : Button) : Button := { b with avail := true }

def Call.Failed (c : Call) : Prop := c.handle ≠ none ∧ c.usb.result ≠ 0

/-- No failed transfer changes the button fields of its slot. -/
def FailedKeep : ℕ → Map → (ℕ → Report) → List Call → Prop
  | _, _, _, [] => True
  | n, btns, inputs, c :: cs =>
    let b := c.record (btns (slotOf n)) (inputs n)
    (c.Failed → fields b = fields (btns (slotOf n))) ∧
      FailedKeep (n + 1) (Function.update btns (slotOf n) b) inputs cs

/-- Nothing uninitialised is published: the records do not depend on what the array and the buffers
held, and failed transfers keep the fields. -/
structure Clean (calls : List Call) : Prop where
  independent : ∀ btns btns' inputs inputs',
    buttonReaderThread 0 btns inputs calls = buttonReaderThread 0 btns' inputs' calls
  failedKeep : ∀ btns inputs, FailedKeep 0 btns inputs calls

/-! ## When the records are clean -/

/-- The bytes that a transfer stored, over zeros. -/
def stored (usb : InTransfer) : Report := usb.into fun _ => 0

def SameButtons (r r' : Report) : Prop := ∀ i : Fin 20, 2 ≤ i.val → i.val ≤ 13 → r i = r' i

/-- Along the calls, with the last report of each slot: a slot without a controller had one before,
every transfer stores the bytes 2 to 13, and a failed one stores those that the slot had. -/
def Sound : ℕ → (Fin maxDevs → Option Report) → List Call → Prop
  | _, _, [] => True
  | n, seen, c :: cs =>
    match c.handle with
    | none => seen (slotOf n) ≠ none ∧ Sound (n + 1) seen cs
    | some _ =>
      14 ≤ c.usb.data.length ∧
        (c.usb.result ≠ 0 →
          ∃ r, seen (slotOf n) = some r ∧ SameButtons r (stored c.usb)) ∧
        Sound (n + 1) (Function.update seen (slotOf n) (some (stored c.usb))) cs

section Reader
variable {n : ℕ} {c : Call} {cs : List Call} {b : Button} {input : Report}

def decode (r : Report) : Button := ({ (default : Button) with avail := true }).assign r

theorem assign_eq_decode (b : Button) (r : Report) :
    ({ b with avail := true }).assign r = decode r := rfl

theorem record_absent (h : c.handle = none) : c.record b input = { b with avail := false } := by
  simp [Call.record, getControllerInput, h]

theorem record_transfer {v : Handle} (h : c.handle = some v) :
    c.record b input = decode (c.usb.into input) := by
  simp [Call.record, getControllerInput, h, assign_eq_decode]

theorem decode_congr {r r' : Report} (h : SameButtons r r') : decode r = decode r' :=
  Button.assign_congr _ h

theorem sameButtons_of_decode {r r' : Report} (h : decode r = decode r') : SameButtons r r' :=
  fun _ h2 h13 => Button.assign_injective h h2 h13

theorem into_sameButtons {usb : InTransfer} (h : 14 ≤ usb.data.length) (input : Report) :
    SameButtons (usb.into input) (stored usb) := by
  intro i _ h13
  rw [stored, usb.into_delivered input (by omega), usb.into_delivered _ (by omega)]

theorem fields_decode (r : Report) : fields (decode r) = decode r := rfl

end Reader

/-! ## Runs from a partly known array -/

def Known (last : Fin maxDevs → Option Button) (btns : Map) : Prop :=
  ∀ i b, last i = some b → btns i = b

/-- `Clean` from the `n`-th call on, over the arrays that hold the known records. -/
structure CleanFrom (n : ℕ) (last : Fin maxDevs → Option Button) (calls : List Call) : Prop where
  independent : ∀ btns btns', Known last btns → Known last btns' → ∀ inputs inputs',
    buttonReaderThread n btns inputs calls = buttonReaderThread n btns' inputs' calls
  failedKeep : ∀ btns, Known last btns → ∀ inputs, FailedKeep n btns inputs calls

section Runs
variable {n : ℕ} {last : Fin maxDevs → Option Button} {c : Call} {cs : List Call}

theorem known_getD (last : Fin maxDevs → Option Button) :
    Known last fun i => (last i).getD default := by
  intro i b h
  simp [h]

theorem Known.update_unknown {btns : Map} (h : Known last btns) {i : Fin maxDevs}
    (hi : last i = none) (b : Button) : Known last (Function.update btns i b) := by
  intro j b' hj
  have hne : j ≠ i := by
    rintro rfl
    rw [hi] at hj
    exact absurd hj (by simp)
  rw [Function.update_of_ne hne]
  exact h j b' hj

theorem Known.update {btns : Map} (h : Known last btns) (i : Fin maxDevs) (b : Button) :
    Known (Function.update last i (some b)) (Function.update btns i b) := by
  intro j b' hj
  by_cases hne : j = i
  · subst hne
    rw [Function.update_self] at hj ⊢
    exact Option.some.inj hj
  · rw [Function.update_of_ne hne] at hj ⊢
    exact h j b' hj

/-- Every array that knows the new record is the array after a call from one that knows the old
ones. -/
theorem Known.before {btns : Map} {i : Fin maxDevs} {b : Button}
    (h : Known (Function.update last i (some b)) btns) :
    ∃ old, Known last old ∧ Function.update old i b = btns := by
  refine ⟨Function.update btns i ((last i).getD default), ?_, ?_⟩
  · intro j b' hj
    by_cases hne : j = i
    · subst hne
      rw [Function.update_self, hj]
      rfl
    · rw [Function.update_of_ne hne]
      exact h j b' (by rwa [Function.update_of_ne hne])
  · rw [Function.update_idem, ← h i b (Function.update_self ..), Function.update_eq_self]

theorem CleanFrom.record (h : CleanFrom n last (c :: cs)) {btns btns' : Map}
    (hb : Known last btns) (hb' : Known last btns') (input input' : Report) :
    c.record (btns (slotOf n)) input = c.record (btns' (slotOf n)) input' := by
  have hrun := h.independent btns btns' hb hb' (fun _ => input) fun _ => input'
  exact (Prod.mk.inj (List.cons.inj hrun).1).2

/-- One call: the run is clean when the record is `b` and the rest is clean from there. -/
theorem cleanFrom_cons {b : Button}
    (hrec : ∀ btns, Known last btns → ∀ input, c.record (btns (slotOf n)) input = b) :
    CleanFrom n last (c :: cs) ↔
      (∀ btns, Known last btns → c.Failed → fields b = fields (btns (slotOf n))) ∧
        CleanFrom (n + 1) (Function.update last (slotOf n) (some b)) cs := by
  have hrun : ∀ btns, Known last btns → ∀ inputs, buttonReaderThread n btns inputs (c :: cs) =
      (slotOf n, b) ::
        buttonReaderThread (n + 1) (Function.update btns (slotOf n) b) inputs cs := by
    intro btns hb inputs
    simp only [buttonReaderThread, hrec btns hb]
  have hkeep : ∀ btns, Known last btns → ∀ inputs, FailedKeep n btns inputs (c :: cs) ↔
      (c.Failed → fields b = fields (btns (slotOf n))) ∧
        FailedKeep (n + 1) (Function.update btns (slotOf n) b) inputs cs := by
    intro btns hb inputs
    simp only [FailedKeep, hrec btns hb]
  constructor
  · intro h
    refine ⟨fun btns hb => ((hkeep btns hb fun _ _ => 0).mp (h.failedKeep btns hb _)).1, ?_, ?_⟩
    · intro btns btns' hb hb' inputs inputs'
      obtain ⟨old, ho, rfl⟩ := hb.before
      obtain ⟨old', ho', rfl⟩ := hb'.before
      have heq := h.independent old old' ho ho' inputs inputs'
      rw [hrun old ho, hrun old' ho'] at heq
      exact (List.cons.inj heq).2
    · intro btns hb inputs
      obtain ⟨old, ho, rfl⟩ := hb.before
      exact ((hkeep old ho inputs).mp (h.failedKeep old ho inputs)).2
  · rintro ⟨hfailed, h⟩
    refine ⟨fun btns btns' hb hb' inputs inputs' => ?_, fun btns hb inputs => ?_⟩
    · rw [hrun btns hb, hrun btns' hb',
        h.independent _ _ (hb.update (slotOf n) b) (hb'.update (slotOf n) b) inputs inputs']
    · exact (hkeep btns hb inputs).mpr
        ⟨hfailed btns hb, h.failedKeep _ (hb.update (slotOf n) b) inputs⟩

end Runs

/-! ## The condition is exact -/

def Tracks (last : Fin maxDevs → Option Button) (seen : Fin maxDevs → Option Report) : Prop :=
  ∀ i, (last i).map fields = (seen i).map decode

section Exact
variable {n : ℕ} {last : Fin maxDevs → Option Button} {seen : Fin maxDevs → Option Report}
  {c : Call} {cs : List Call}

theorem Tracks.of_seen (h : Tracks last seen) {i : Fin maxDevs} {r : Report}
    (hs : seen i = some r) : ∃ b, last i = some b ∧ fields b = decode r := by
  have hi := h i
  rw [hs, Option.map_some] at hi
  exact Option.map_eq_some_iff.mp hi

theorem Tracks.of_unseen (h : Tracks last seen) {i : Fin maxDevs} (hs : seen i = none) :
    last i = none := by
  have hi := h i
  rw [hs, Option.map_none] at hi
  exact Option.map_eq_none_iff.mp hi

theorem Tracks.update (h : Tracks last seen) (i : Fin maxDevs) {b : Button} {r : Report}
    (hb : fields b = decode r) :
    Tracks (Function.update last i (some b)) (Function.update seen i (some r)) := by
  intro j
  by_cases hne : j = i
  · subst hne
    simp [hb]
  · rw [Function.update_of_ne hne, Function.update_of_ne hne]
    exact h j

/-- A pressed button, for a second array that differs from the first. -/
def pressed : Button := { (default : Button) with a := true }

theorem fields_pressed : fields pressed ≠ fields default := by decide

section Step
variable (ih : ∀ {last' seen'}, Tracks last' seen' → (CleanFrom (n + 1) last' cs ↔
  Sound (n + 1) seen' cs))
include ih

/-- A slot without a controller: its record has to be known. -/
theorem cleanFrom_absent (ht : Tracks last seen) (hh : c.handle = none) :
    CleanFrom n last (c :: cs) ↔ Sound n seen (c :: cs) := by
  have hsound : Sound n seen (c :: cs) ↔ seen (slotOf n) ≠ none ∧ Sound (n + 1) seen cs := by
    simp only [Sound, hh]
  rw [hsound]
  cases hs : seen (slotOf n) with
  | none =>
    refine iff_of_false (fun hclean => ?_) fun h => h.1 rfl
    have hl := ht.of_unseen hs
    have hk := known_getD last
    have heq := hclean.record (hk.update_unknown hl pressed) (hk.update_unknown hl default)
      (fun _ => 0) fun _ => 0
    rw [Function.update_self, Function.update_self, record_absent hh, record_absent hh] at heq
    exact absurd heq (by decide)
  | some r =>
    obtain ⟨b, hl, hb⟩ := ht.of_seen hs
    have hrec : ∀ btns, Known last btns → ∀ input,
        c.record (btns (slotOf n)) input = { b with avail := false } := by
      intro btns hk input
      rw [record_absent hh, hk _ b hl]
    have hseen : Function.update seen (slotOf n) (some r) = seen := by
      rw [← hs, Function.update_eq_self]
    have hrest := ih (ht.update (slotOf n) (b := { b with avail := false }) hb)
    have hnf : ¬ c.Failed := fun hf => hf.1 hh
    rw [hseen] at hrest
    rw [cleanFrom_cons hrec, hrest]
    exact ⟨fun h => ⟨by simp, h.2⟩, fun h => ⟨fun _ _ hf => absurd hf hnf, h.2⟩⟩

/-- A transfer: it has to store the bytes that are read, and the same ones when it fails. -/
theorem cleanFrom_transfer (ht : Tracks last seen) {v : Handle} (hh : c.handle = some v) :
    CleanFrom n last (c :: cs) ↔ Sound n seen (c :: cs) := by
  have hsound : Sound n seen (c :: cs) ↔ 14 ≤ c.usb.data.length ∧
      (c.usb.result ≠ 0 → ∃ r, seen (slotOf n) = some r ∧ SameButtons r (stored c.usb)) ∧
      Sound (n + 1) (Function.update seen (slotOf n) (some (stored c.usb))) cs := by
    simp only [Sound, hh]
  have hk := known_getD last
  rw [hsound]
  by_cases hlen : 14 ≤ c.usb.data.length
  · have hrec : ∀ btns, Known last btns → ∀ input,
        c.record (btns (slotOf n)) input = decode (stored c.usb) := by
      intro btns _ input
      rw [record_transfer hh, decode_congr (into_sameButtons hlen input)]
    have hrest := ih (ht.update (slotOf n) (b := decode (stored c.usb)) (fields_decode _))
    have hfailed : c.Failed ↔ c.usb.result ≠ 0 := and_iff_right (by simp [hh])
    rw [cleanFrom_cons hrec, hrest, and_iff_right hlen, hfailed, fields_decode]
    apply and_congr_left
    intro _
    constructor
    · intro h hres
      cases hs : seen (slotOf n) with
      | none =>
        -- an unknown record can have other fields than the transfer leaves
        have hl := ht.of_unseen hs
        have h1 := h _ (hk.update_unknown hl pressed) hres
        have h2 := h _ (hk.update_unknown hl default) hres
        rw [Function.update_self] at h1 h2
        exact absurd (h1.symm.trans h2) fields_pressed
      | some r =>
        obtain ⟨b, hl, hb⟩ := ht.of_seen hs
        have heq := h _ hk hres
        rw [hl, Option.getD_some, hb] at heq
        exact ⟨r, rfl, sameButtons_of_decode heq.symm⟩
    · intro h btns hknown hres
      obtain ⟨r, hs, hsame⟩ := h hres
      obtain ⟨b, hl, hb⟩ := ht.of_seen hs
      rw [hknown _ b hl, hb, decode_congr hsame]
  · refine iff_of_false (fun hclean => ?_) fun h => hlen h.1
    -- the byte 13 is what the buffer held
    have heq := hclean.record hk hk (fun _ => 0) fun _ => 1
    have hout : c.usb.data.length ≤ (13 : Fin 20).val := by
      show c.usb.data.length ≤ 13
      omega
    rw [record_transfer hh, record_transfer hh] at heq
    have h13 := sameButtons_of_decode heq 13 (by decide) (by decide)
    rw [c.usb.into_kept _ hout, c.usb.into_kept _ hout] at h13
    exact absurd h13 (by decide)

end Step

theorem cleanFrom_iff (ht : Tracks last seen) (calls : List Call) :
    CleanFrom n last calls ↔ Sound n seen calls := by
  induction calls generalizing n last seen with
  | nil => exact iff_of_true ⟨fun _ _ _ _ _ _ => rfl, fun _ _ _ => trivial⟩ trivial
  | cons c cs ih =>
    cases hh : c.handle with
    | none => exact cleanFrom_absent ih ht hh
    | some v => exact cleanFrom_transfer ih ht hh

end Exact

/-- **The records are clean exactly when the calls are sound.** -/
theorem clean_iff (calls : List Call) : Clean calls ↔ Sound 0 (fun _ => none) calls := by
  have hclean : Clean calls ↔ CleanFrom 0 (fun _ => none) calls := by
    have hk : ∀ btns : Map, Known (fun _ => none) btns := fun _ _ _ h => absurd h (by simp)
    constructor
    · exact fun h => ⟨fun btns btns' _ _ => h.independent btns btns',
        fun btns _ => h.failedKeep btns⟩
    · exact fun h => ⟨fun btns btns' => h.independent btns btns' (hk _) (hk _),
        fun btns => h.failedKeep btns (hk _)⟩
  have ht : Tracks (fun _ => none) fun _ => none := fun _ => rfl
  rw [hclean, cleanFrom_iff ht]

/-- An empty slot: its record was never read from a controller. -/
theorem not_clean_absent : ¬ Clean [⟨none, ⟨0, [], by decide⟩⟩] := by
  intro h
  have heq := h.independent (fun _ => pressed) (fun _ => default) (fun _ _ => 0) fun _ _ => 0
  exact absurd heq (by decide)

end El32.ButtonReader

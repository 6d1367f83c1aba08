import El32.Foundations.HeapBlock

/-! The buffer in which `hue.c` collects the answer of the bridge.

libcurl is the environment: a transfer is the sequence of chunks it hands to `WriteMemoryCallback`.
A call that leaves the process, or whose behaviour is undefined, has no value. -/
namespace El32.Hue
open HeapBlock CString
set_option autoImplicit false

structure MemoryStruct where
  memory : Pointer
  size : ℕ
deriving DecidableEq

/-- Arithmetic in `size_t`. -/
def sizeT (n : ℕ) : ℕ := n % 18446744073709551616

/-- The arguments of one call of the callback: `nmemb` members of `size` bytes. -/
structure Chunk where
  size : ℕ
  nmemb : ℕ
  contents : List UInt8
  length_contents : contents.length = size * nmemb

def collected (chunks : List Chunk) : List UInt8 := chunks.flatMap (·.contents)

structure Transfer where
  chunks : List Chunk
  total_lt : (collected chunks).length < 18446744073709551616

/-! ## The program -/

/-- Returns the number of bytes taken. `DieWithError` ends the process. -/
def writeMemoryCallback (c : Chunk) (mem : MemoryStruct) : Option (MemoryStruct × ℕ) :=
  let realsize := sizeT (c.size * c.nmemb)
  (realloc mem.memory (sizeT (mem.size + realsize + 1))).bind fun
    | .block b =>
      (b.memcpy mem.size (c.contents.take realsize)).bind fun b =>
      (b.store (sizeT (mem.size + realsize)) 0).bind fun b =>
        some (⟨.block b, sizeT (mem.size + realsize)⟩, realsize)
    | _ => none

/-- `curl_easy_perform`: it goes on as long as the callback takes every byte it was given. -/
def perform : List Chunk → MemoryStruct → Option MemoryStruct
  | [], mem => some mem
  | c :: chunks, mem =>
    (writeMemoryCallback c mem).bind fun (mem, taken) =>
      if taken = c.size * c.nmemb then perform chunks mem else none

/-- `none` is a handle that `curl_easy_init` could not make. -/
def updateDevices (response : MemoryStruct) (curl : Option Transfer) : Option MemoryStruct :=
  (free response.memory).bind fun _ =>
    let response := ⟨malloc 1, 0⟩
    match curl with
    | some t => perform t.chunks response
    | none => some response

/-- What `json_tokener_parse` reads. -/
def tokenerText (response : MemoryStruct) : Option (List UInt8) :=
  match response.memory with
  | .block b => b.string
  | _ => none

/-! ## One transfer -/

def received : Option Transfer → List UInt8
  | some t => collected t.chunks
  | none => []

/-- The bytes and a terminator fill the allocation, and a string is read from them. -/
structure Valid (bytes : List UInt8) (response : MemoryStruct) : Prop where
  size : response.size = bytes.length
  memory : response.memory = .block ((bytes ++ [0]).map some)
  text : tokenerText response = some (bytes.takeWhile (· ≠ 0))

/-- The bytes so far, and one more byte of which nothing is known. -/
def Holds (bytes : List UInt8) (mem : MemoryStruct) : Prop :=
  ∃ x, mem = ⟨.block (bytes.map some ++ [x]), bytes.length⟩

section Transfer
variable {bytes : List UInt8} {mem : MemoryStruct} {c : Chunk} {chunks : List Chunk}

theorem holds_malloc : Holds [] ⟨malloc 1, 0⟩ := ⟨none, rfl⟩

theorem holds_terminated (bytes : List UInt8) :
    Holds bytes ⟨.block ((bytes ++ [0]).map some), bytes.length⟩ :=
  ⟨some 0, by rw [List.map_append]; rfl⟩

theorem valid_terminated (bytes : List UInt8) :
    Valid bytes ⟨.block ((bytes ++ [0]).map some), bytes.length⟩ where
  size := rfl
  memory := rfl
  text := string_terminated bytes

theorem sizeT_of_lt {n : ℕ} (h : n < 18446744073709551616) : sizeT n = n := Nat.mod_eq_of_lt h

/-- A chunk is taken whole, with a terminator after it. -/
theorem writeMemoryCallback_eq (h : Holds bytes mem)
    (hlt : bytes.length + c.contents.length + 1 < 18446744073709551616) :
    writeMemoryCallback c mem =
      some (⟨.block ((bytes ++ c.contents ++ [0]).map some), (bytes ++ c.contents).length⟩,
        c.size * c.nmemb) := by
  obtain ⟨x, rfl⟩ := h
  obtain ⟨n, hn⟩ : ∃ n, n = c.contents.length := ⟨_, rfl⟩
  have hmul : c.size * c.nmemb = n := c.length_contents.symm.trans hn.symm
  have hsum : sizeT (bytes.length + n) = bytes.length + n := sizeT_of_lt (by omega)
  have halloc : sizeT (bytes.length + n + 1) = bytes.length + n + 1 := sizeT_of_lt (by omega)
  have hrealloc : realloc (.block (bytes.map some ++ [x])) (bytes.length + n + 1) =
      some (.block (bytes.map some ++ ([x] ++ indeterminate n))) := by
    rw [realloc_grow (Nat.succ_pos _) (by simp), List.append_assoc]
    congr 5
    simp
  have hrest : ([x] ++ indeterminate n).length = n + 1 := by simp [indeterminate]
  have hcopy : Block.memcpy (bytes.map some ++ ([x] ++ indeterminate n)) bytes.length c.contents =
      some (bytes.map some ++ c.contents.map some ++ ([x] ++ indeterminate n).drop n) := by
    have h := @memcpy_after (bytes.map some) ([x] ++ indeterminate n) c.contents (by omega)
    rwa [List.length_map, ← hn] at h
  have hstore : Block.store
      (bytes.map some ++ c.contents.map some ++ ([x] ++ indeterminate n).drop n)
      (bytes.length + n) 0 = some ((bytes ++ c.contents ++ [0]).map some) := by
    have h := @store_after (bytes.map some ++ c.contents.map some)
      (([x] ++ indeterminate n).drop n) 0 (by rw [List.length_drop, hrest]; omega)
    rw [List.length_append, List.length_map, List.length_map, ← hn] at h
    rw [h, List.map_append, List.map_append]
    rfl
  rw [writeMemoryCallback, hmul, sizeT_of_lt (by omega : n < _), halloc, hrealloc]
  simp only [Option.bind_some, List.take_of_length_le (Nat.le_of_eq hn.symm), hcopy, hsum, hstore,
    List.length_append, ← hn]

/-- A request for 2^64 bytes is one for none. -/
theorem writeMemoryCallback_wrap (h : Holds bytes mem)
    (heq : bytes.length + c.contents.length + 1 = 18446744073709551616) :
    writeMemoryCallback c mem = none := by
  obtain ⟨x, rfl⟩ := h
  have hreal : sizeT (c.size * c.nmemb) = c.contents.length := by
    rw [← c.length_contents, sizeT_of_lt (by omega)]
  have hzero : sizeT (bytes.length + c.contents.length + 1) = 0 := by
    rw [heq, sizeT, Nat.mod_self]
  rw [writeMemoryCallback, hreal, hzero]
  rfl

theorem perform_cons (h : Holds bytes mem)
    (hlt : bytes.length + c.contents.length + 1 < 18446744073709551616) :
    perform (c :: chunks) mem = perform chunks
      ⟨.block ((bytes ++ c.contents ++ [0]).map some), (bytes ++ c.contents).length⟩ := by
  rw [perform, writeMemoryCallback_eq h hlt, Option.bind_some]
  exact if_pos rfl

theorem collected_cons (c : Chunk) (chunks : List Chunk) :
    collected (c :: chunks) = c.contents ++ collected chunks := List.flatMap_cons

/-- After the first chunk the buffer is terminated at every point. -/
theorem perform_eq (h : Holds bytes mem) (hne : chunks ≠ [])
    (hlt : bytes.length + (collected chunks).length + 1 < 18446744073709551616) :
    perform chunks mem = some ⟨.block ((bytes ++ collected chunks ++ [0]).map some),
      (bytes ++ collected chunks).length⟩ := by
  induction chunks generalizing bytes mem with
  | nil => exact absurd rfl hne
  | cons c chunks ih =>
    rw [collected_cons, List.length_append] at hlt
    rw [perform_cons h (by omega), collected_cons, ← List.append_assoc]
    by_cases hnil : chunks = []
    · subst hnil
      simp [perform, collected]
    · exact ih (holds_terminated _) hnil (by rw [List.length_append]; omega)

theorem perform_wrap (h : Holds bytes mem) (hlt : bytes.length + 1 < 18446744073709551616)
    (heq : bytes.length + (collected chunks).length + 1 = 18446744073709551616) :
    perform chunks mem = none := by
  induction chunks generalizing bytes mem with
  | nil =>
    have h0 : (collected []).length = 0 := rfl
    omega
  | cons c chunks ih =>
    rw [collected_cons, List.length_append] at heq
    rcases Nat.lt_or_ge (bytes.length + c.contents.length + 1) 18446744073709551616 with hc | hc
    · rw [perform_cons h hc]
      have hlen : (bytes ++ c.contents).length = _ := List.length_append
      exact ih (holds_terminated _) (by omega) (by omega)
    · rw [perform, writeMemoryCallback_wrap h (by omega)]
      rfl

end Transfer

/-! ## Refreshes -/

/-- libcurl calls the callback at least once, and the bytes leave room for the terminator in what a
`size_t` counts. -/
def Delivered (curl : Option Transfer) : Prop :=
  ∃ t, curl = some t ∧ t.chunks ≠ [] ∧ (collected t.chunks).length + 1 < 18446744073709551616

/-- In a run of `main`, which updates once before its menu and again for every `g`, the response is
valid after every update. -/
def AllValid : MemoryStruct → List (Option Transfer) → Prop
  | _, [] => True
  | response, curl :: rest =>
    ∃ r, updateDevices response curl = some r ∧ Valid (received curl) r ∧ AllValid r rest

section Refresh
variable {response r : MemoryStruct} {curl : Option Transfer}

theorem updateDevices_wild (h : response.memory = .wild) (curl : Option Transfer) :
    updateDevices response curl = none := by
  rw [updateDevices, h]
  rfl

theorem updateDevices_some (h : response.memory ≠ .wild) (t : Transfer) :
    updateDevices response (some t) = perform t.chunks ⟨malloc 1, 0⟩ := by
  rw [updateDevices]
  cases hm : response.memory with
  | null => rfl
  | block b => rfl
  | wild => exact absurd hm h

theorem updateDevices_none (h : response.memory ≠ .wild) :
    updateDevices response none = some ⟨malloc 1, 0⟩ := by
  rw [updateDevices]
  cases hm : response.memory with
  | null => rfl
  | block b => rfl
  | wild => exact absurd hm h

/-- The one byte of a buffer that got no chunk is indeterminate. -/
theorem not_valid_malloc : ¬ Valid [] ⟨malloc 1, 0⟩ := fun h => by
  have hmem := h.memory
  cases hmem

theorem updateDevices_delivered (h : response.memory ≠ .wild) (hd : Delivered curl) :
    ∃ r, updateDevices response curl = some r ∧ Valid (received curl) r := by
  obtain ⟨t, rfl, hne, hlt⟩ := hd
  refine ⟨_, ?_, valid_terminated (received (some t))⟩
  rw [updateDevices_some h, perform_eq holds_malloc hne (by rw [List.length_nil]; omega)]
  rfl

theorem delivered_of_valid (h : updateDevices response curl = some r)
    (hv : Valid (received curl) r) : Delivered curl := by
  have hfree : response.memory ≠ .wild := by
    intro hw
    rw [updateDevices_wild hw] at h
    cases h
  cases curl with
  | none =>
    rw [updateDevices_none hfree] at h
    obtain rfl := Option.some.inj h
    exact absurd hv not_valid_malloc
  | some t =>
    rw [updateDevices_some hfree] at h
    refine ⟨t, rfl, ?_, ?_⟩
    · intro hnil
      rw [hnil] at h
      obtain rfl := Option.some.inj h
      rw [received, hnil] at hv
      exact not_valid_malloc hv
    · by_contra hge
      have hlt := t.total_lt
      rw [perform_wrap holds_malloc (by decide) (by rw [List.length_nil]; omega)] at h
      cases h

theorem Valid.not_wild {bytes : List UInt8} (h : Valid bytes r) : r.memory ≠ .wild := by
  rw [h.memory]
  nofun

theorem allValid_iff {rest : List (Option Transfer)} (h : response.memory ≠ .wild) :
    AllValid response rest ↔ ∀ curl ∈ rest, Delivered curl := by
  induction rest generalizing response with
  | nil => simp [AllValid]
  | cons curl rest ih =>
    rw [List.forall_mem_cons]
    constructor
    · rintro ⟨r, hr, hv, hrest⟩
      exact ⟨delivered_of_valid hr hv, (ih hv.not_wild).mp hrest⟩
    · rintro ⟨hd, hrest⟩
      obtain ⟨r, hr, hv⟩ := updateDevices_delivered h hd
      exact ⟨r, hr, hv, (ih hv.not_wild).mpr hrest⟩

/-- **The response is a string after every update exactly when every update delivers a chunk** and
the pointer that `main` does not set before the first one is one that can be freed. -/
theorem main_allValid_iff (response : MemoryStruct) (curl : Option Transfer)
    (rest : List (Option Transfer)) :
    AllValid response (curl :: rest) ↔
      response.memory ≠ .wild ∧ ∀ c ∈ curl :: rest, Delivered c := by
  constructor
  · intro h
    have hfree : response.memory ≠ .wild := by
      intro hw
      obtain ⟨r, hr, -⟩ := h
      rw [updateDevices_wild hw] at hr
      cases hr
    exact ⟨hfree, (allValid_iff hfree).mp h⟩
  · rintro ⟨hfree, hd⟩
    exact (allValid_iff hfree).mpr hd

/-- An answer without a body: the buffer holds one byte that nothing has written, and nothing can be
read from it. -/
theorem empty_body_not_valid :
    updateDevices ⟨.null, 0⟩ (some ⟨[], by decide⟩) = some ⟨.block [none], 0⟩ ∧
      tokenerText ⟨.block [none], 0⟩ = none ∧
      ¬ AllValid ⟨.null, 0⟩ [some ⟨[], by decide⟩] := by
  refine ⟨rfl, rfl, ?_⟩
  rintro ⟨r, hr, hv, -⟩
  obtain ⟨t, ht, hne, -⟩ := delivered_of_valid hr hv
  obtain rfl := Option.some.inj ht
  exact hne rfl

end Refresh

end El32.Hue

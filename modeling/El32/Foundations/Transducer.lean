import El32.Foundations.Loop
import Mathlib.Data.List.Basic

/-! Programs that take pieces from an input and write what each piece asks for.

A program *translates* a language of pieces when every run that returns has taken one, and every piece
that stands in front of the input is taken. The rules follow the program: one after the other, an
update at the start or at the end, a loop. -/
namespace El32.Transducer
open Loop
set_option autoImplicit false

/-- A list that ends with its first item that satisfies `p`. -/
inductive Until {γ : Type} (p : γ → Bool) : List γ → Prop
  | last (c : γ) (h : p c = true) : Until p [c]
  | cons (c : γ) (cs : List γ) (h : p c = false) (rest : Until p cs) : Until p (c :: cs)

section Translation
variable {σ ι ο γ δ : Type} (input : σ → List ι) (output : σ → List ο)

/-- From `s` to `s'` the piece is taken and its output is written. -/
structure Moves (eaten : List ι) (written : List ο) (s s' : σ) : Prop where
  input : input s = eaten ++ input s'
  output : output s' = output s ++ written

/-- Where `I` holds, `f` returns exactly on the pieces of the language `Ok`, and `Post` tells of the
piece in which state. -/
structure Translates (I : σ → Prop) (f : σ → Option σ) (Ok : γ → Prop) (eats : γ → List ι)
    (writes : γ → List ο) (Post : γ → σ → Prop) : Prop where
  sound : ∀ s s', I s → f s = some s' →
    ∃ c, Ok c ∧ Moves input output (eats c) (writes c) s s' ∧ Post c s'
  complete : ∀ s c rest, I s → Ok c → input s = eats c ++ rest →
    ∃ s', f s = some s' ∧ input s' = rest ∧ Moves input output (eats c) (writes c) s s' ∧ Post c s'

variable {input output} {I : σ → Prop} {f : σ → Option σ} {Ok : γ → Prop} {eats : γ → List ι}
  {writes : γ → List ο} {Post : γ → σ → Prop}

theorem Moves.trans {a b : List ι} {x y : List ο} {s t u : σ} (h : Moves input output a x s t)
    (h' : Moves input output b y t u) : Moves input output (a ++ b) (x ++ y) s u := by
  constructor
  · rw [h.input, h'.input, List.append_assoc]
  · rw [h'.output, h.output, List.append_assoc]

/-- Another account of the same pieces, under a stronger condition. -/
theorem Translates.consequence {J : σ → Prop} {Ok' : γ → Prop} {eats' : γ → List ι}
    {writes' : γ → List ο} {Q : γ → σ → Prop}
    (h : Translates input output I f Ok eats writes Post) (hI : ∀ s, J s → I s)
    (hOk : ∀ c, Ok c ↔ Ok' c) (heats : ∀ c, Ok c → eats c = eats' c)
    (hwrites : ∀ c, Ok c → writes c = writes' c)
    (hpost : ∀ c s, Ok c → Post c s → Q c s) :
    Translates input output J f Ok' eats' writes' Q := by
  constructor
  · intro s t hs ht
    obtain ⟨c, hc, hmove, hp⟩ := h.sound s t (hI s hs) ht
    exact ⟨c, (hOk c).mp hc, heats c hc ▸ hwrites c hc ▸ hmove, hpost c t hc hp⟩
  · intro s c rest hs hc hin
    have hc' := (hOk c).mpr hc
    obtain ⟨t, ht, hrest, hmove, hp⟩ :=
      h.complete s c rest (hI s hs) hc' (hin.trans (by rw [heats c hc']))
    exact ⟨t, ht, hrest, heats c hc' ▸ hwrites c hc' ▸ hmove, hpost c t hc' hp⟩

theorem Translates.of_eq (h : Translates input output I f Ok eats writes Post) (f' : σ → Option σ)
    (heq : ∀ s, I s → f' s = f s) : Translates input output I f' Ok eats writes Post :=
  ⟨fun s t hs ht => h.sound s t hs ((heq s hs).symm.trans ht), fun s c rest hs hc hin => by
    rw [heq s hs]
    exact h.complete s c rest hs hc hin⟩

/-- A program that reads nothing. -/
theorem translates_update {g : σ → σ} {J : σ → Prop} (written : List ο)
    (hmove : ∀ s, I s → Moves input output [] written s (g s)) (hpost : ∀ s, I s → J (g s)) :
    Translates input output I (fun s => some (g s)) (fun c : List ι => c = []) id
      (fun _ => written) (fun _ => J) := by
  constructor
  · intro s t hs ht
    obtain rfl := Option.some.inj ht
    exact ⟨[], rfl, hmove s hs, hpost s hs⟩
  · rintro s c rest hs rfl hin
    exact ⟨g s, rfl, (hmove s hs).input.symm.trans hin, hmove s hs, hpost s hs⟩

theorem Translates.bind {g : σ → Option σ} {Ok' : γ → δ → Prop} {eats' : γ → δ → List ι}
    {writes' : γ → δ → List ο} {Post' : γ → δ → σ → Prop}
    (hf : Translates input output I f Ok eats writes Post)
    (hg : ∀ c, Ok c → Translates input output (Post c) g (Ok' c) (eats' c) (writes' c) (Post' c)) :
    Translates input output I (fun s => (f s).bind g) (fun c : γ × δ => Ok c.1 ∧ Ok' c.1 c.2)
      (fun c => eats c.1 ++ eats' c.1 c.2) (fun c => writes c.1 ++ writes' c.1 c.2)
      (fun c => Post' c.1 c.2) := by
  constructor
  · intro s u hs h
    obtain ⟨t, ht, hu⟩ := Option.bind_eq_some_iff.mp h
    obtain ⟨c, hc, hmove, hpost⟩ := hf.sound s t hs ht
    obtain ⟨d, hd, hmove', hpost'⟩ := (hg c hc).sound t u hpost hu
    exact ⟨(c, d), ⟨hc, hd⟩, hmove.trans hmove', hpost'⟩
  · rintro s ⟨c, d⟩ rest hs ⟨hc, hd⟩ hin
    rw [List.append_assoc] at hin
    obtain ⟨t, ht, hrest, hmove, hpost⟩ := hf.complete s c _ hs hc hin
    obtain ⟨u, hu, hrest', hmove', hpost'⟩ := (hg c hc).complete t d rest hpost hd hrest
    exact ⟨u, by rw [ht, Option.bind_some, hu], hrest', hmove.trans hmove', hpost'⟩

/-- An update after the program, which may write something about the piece. -/
theorem Translates.andThen {g : σ → σ} {Q : γ → σ → Prop}
    (h : Translates input output I f Ok eats writes Post) (more : γ → List ο)
    (hmove : ∀ c s, Post c s → Moves input output [] (more c) s (g s))
    (hpost : ∀ c s, Post c s → Q c (g s)) :
    Translates input output I (fun s => (f s).map g) Ok eats (fun c => writes c ++ more c) Q := by
  constructor
  · intro s u hs hu
    obtain ⟨t, ht, rfl⟩ := Option.map_eq_some_iff.mp hu
    obtain ⟨c, hc, hmoved, hp⟩ := h.sound s t hs ht
    have hall := hmoved.trans (hmove c t hp)
    rw [List.append_nil] at hall
    exact ⟨c, hc, hall, hpost c t hp⟩
  · intro s c rest hs hc hin
    obtain ⟨t, ht, hrest, hmoved, hp⟩ := h.complete s c rest hs hc hin
    have hall := hmoved.trans (hmove c t hp)
    rw [List.append_nil] at hall
    refine ⟨g t, by rw [ht, Option.map_some], ?_, hall, hpost c t hp⟩
    rw [← hrest, (hmove c t hp).input]
    rfl

/-- An update before the program. -/
theorem Translates.after {g : σ → σ} {J : σ → Prop}
    (h : Translates input output I f Ok eats writes Post) (first : List ο)
    (hmove : ∀ s, J s → Moves input output [] first s (g s)) (hI : ∀ s, J s → I (g s)) :
    Translates input output J (fun s => f (g s)) Ok eats (fun c => first ++ writes c) Post := by
  constructor
  · intro s u hs hu
    obtain ⟨c, hc, hmoved, hp⟩ := h.sound (g s) u (hI s hs) hu
    exact ⟨c, hc, (hmove s hs).trans hmoved, hp⟩
  · intro s c rest hs hc hin
    have hin' : input (g s) = eats c ++ rest := (hmove s hs).input.symm.trans hin
    obtain ⟨u, hu, hrest, hmoved, hp⟩ := h.complete (g s) c rest (hI s hs) hc hin'
    exact ⟨u, hu, hrest, (hmove s hs).trans hmoved, hp⟩

section Loop
variable {cond : σ → Bool} {μ : σ → ℕ} {p : γ → Bool}

/-- A loop that goes on while the pieces do not satisfy `p`. -/
theorem Translates.loop
    (h : Translates input output (fun s => I s ∧ cond s = true) f Ok eats writes Post)
    (hI : ∀ c s, Post c s → I s) (hcond : ∀ c s, Post c s → cond s = !p c)
    (hμ : Lowers cond f μ) :
    Translates input output (fun s => I s ∧ cond s = true) (whileLoop cond f μ)
      (fun cs => Until p cs ∧ ∀ c ∈ cs, Ok c) (·.flatMap eats) (·.flatMap writes)
      (fun cs s => ∃ c ∈ cs, p c = true ∧ Post c s) := by
  constructor
  · intro s
    -- the induction is on the measure, which every round lowers
    induction hm : μ s using Nat.strongRecOn generalizing s with
    | _ m ih =>
      intro u hs hu
      rw [whileLoop_next hμ hs.2] at hu
      obtain ⟨t, ht, hu⟩ := Option.bind_eq_some_iff.mp hu
      obtain ⟨c, hc, hmove, hpost⟩ := h.sound s t hs ht
      have hnext := hcond c t hpost
      cases hp : p c with
      | true =>
        rw [hp] at hnext
        rw [whileLoop_done hnext] at hu
        obtain rfl := Option.some.inj hu
        refine ⟨[c], ⟨.last c hp, List.forall_mem_singleton.mpr hc⟩, ?_, c, List.mem_singleton_self c,
          hp, hpost⟩
        simpa using hmove
      | false =>
        rw [hp] at hnext
        obtain ⟨cs, ⟨huntil, hall⟩, hmove', d, hd, hpd, hpost'⟩ :=
          ih (μ t) (hm ▸ hμ s t hs.2 ht) t rfl u ⟨hI c t hpost, hnext⟩ hu
        exact ⟨c :: cs, ⟨.cons c cs hp huntil, List.forall_mem_cons.mpr ⟨hc, hall⟩⟩,
          hmove.trans hmove', d, List.mem_cons_of_mem c hd, hpd, hpost'⟩
  · rintro s cs rest hs ⟨huntil, hall⟩ hin
    induction huntil generalizing s with
    | last c hp =>
      have hc := hall c (List.mem_singleton_self c)
      have hin' : input s = eats c ++ rest := by simpa using hin
      obtain ⟨t, ht, hrest, hmove, hpost⟩ := h.complete s c rest hs hc hin'
      have hnext := hcond c t hpost
      rw [hp] at hnext
      refine ⟨t, ?_, hrest, by simpa using hmove, c, List.mem_singleton_self c, hp, hpost⟩
      rw [whileLoop_next hμ hs.2, ht, Option.bind_some, whileLoop_done hnext]
    | cons c cs hp _ ih =>
      obtain ⟨hc, hcs⟩ := List.forall_mem_cons.mp hall
      rw [List.flatMap_cons, List.append_assoc] at hin
      obtain ⟨t, ht, hrest, hmove, hpost⟩ := h.complete s c _ hs hc hin
      have hnext := hcond c t hpost
      rw [hp] at hnext
      obtain ⟨u, hu, hrest', hmove', d, hd, hpd, hpost'⟩ :=
        ih t ⟨hI c t hpost, hnext⟩ hcs hrest
      refine ⟨u, ?_, hrest', hmove.trans hmove', d, List.mem_cons_of_mem c hd, hpd, hpost'⟩
      rw [whileLoop_next hμ hs.2, ht, Option.bind_some, hu]

end Loop

end Translation

end El32.Transducer

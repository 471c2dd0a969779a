import RespWire.Reader.Draft

/-!
# A run that tracks another

Two runs of one step, the second from a state that need not pass for the state
of the first. The second tracks the first if they answer the same, or if it
stops with a fault from a given class. How far their states may differ is said
before a step and after it, and after it in terms of what was answered: two
runs that start apart may have to come together again.

Two outcomes that are equal need no more tracking, whatever the states were
before. So a step is done with as soon as it makes the two runs meet, and every
step behind it is.
-/

namespace RespWire

namespace Step

variable {σ α β : Type} {stops : Fault → Prop}

/-- How the outcome of a run may compare with that of the run it tracks, which
comes first. -/
inductive Tracked (stops : Fault → Prop) (R : α → σ → σ → Prop) :
    Except Fault α × σ → Except Fault α × σ → Prop where
  | met (x : Except Fault α × σ) : Tracked stops R x x
  | ok {a : α} {s t : σ} (h : R a s t) : Tracked stops R (.ok a, s) (.ok a, t)
  | error {f : Fault} {s t : σ} : Tracked stops R (.error f, s) (.error f, t)
  | stopped {x : Except Fault α × σ} {f : Fault} {t : σ} (h : stops f) :
      Tracked stops R x (.error f, t)

/-- No fault at all. -/
abbrev Never : Fault → Prop := fun _ => False

/-- A step whose runs from states related by `P` are tracked, and leave states
related by `R`. -/
def Tracks (stops : Fault → Prop) (P : σ → σ → Prop) (m : Step σ α)
    (R : α → σ → σ → Prop) :
    Prop :=
  ∀ s t, P s t → Tracked stops R (m s) (m t)

/-- What is answered is the same, or the second run has stopped. -/
theorem Tracked.result {R : α → σ → σ → Prop} {x y : Except Fault α × σ}
    (h : Tracked stops R x y) : y.1 = x.1 ∨ ∃ f, stops f ∧ y.1 = .error f := by
  cases h with
  | stopped hf => exact Or.inr ⟨_, hf, rfl⟩
  | met | ok | error => exact Or.inl rfl

theorem Tracked.mono {stops' : Fault → Prop} {R S : α → σ → σ → Prop}
    {x y : Except Fault α × σ} (h : Tracked stops R x y)
    (hstops : ∀ f, stops f → stops' f) (hR : ∀ a s t, R a s t → S a s t) :
    Tracked stops' S x y := by
  cases h with
  | met x => exact .met x
  | ok h => exact .ok (hR _ _ _ h)
  | error => exact .error
  | stopped hf => exact .stopped (hstops _ hf)

theorem Tracked.bind {s t : σ} {m : Step σ α} {f : α → Step σ β}
    {R : α → σ → σ → Prop} {R' : β → σ → σ → Prop}
    (hm : Tracked stops R (m s) (m t))
    (hf : ∀ a s' t', m s = (.ok a, s') → R a s' t' → Tracked stops R' (f a s')
      (f a t')) :
    Tracked stops R' ((m >>= f) s) ((m >>= f) t) := by
  rw [bind_apply, bind_apply]
  generalize m s = x at hm hf
  generalize m t = y at hm
  cases hm with
  | met => exact .met _
  | ok h => exact hf _ _ _ rfl h
  | error => exact .error
  | stopped hf => exact .stopped hf

theorem Tracked.mapFault {s t : σ} {m : Step σ α} {R : α → σ → σ → Prop}
    (hm : Tracked stops R (m s) (m t)) {change : Fault → Fault}
    (hchange : ∀ f, stops f → stops (change f)) :
    Tracked stops R (m.mapFault change s) (m.mapFault change t) := by
  unfold Step.mapFault
  generalize m s = x at hm
  generalize m t = y at hm
  cases hm with
  | met => exact .met _
  | ok h => exact .ok h
  | error => exact .error
  | stopped hf => exact .stopped (hchange _ hf)

/-- Runs that have met may be said to leave what states one likes. -/
theorem Tracked.of_met {R : α → σ → σ → Prop} {x y : Except Fault α × σ}
    (h : Tracked Never (fun _ => Eq) x y) : Tracked stops R x y := by
  cases h with
  | met x => exact .met x
  | ok h => exact h ▸ .met _
  | error => exact .error
  | stopped hf => exact hf.elim

section

variable {P : σ → σ → Prop} {m : Step σ α} {f : α → Step σ β}
  {R : α → σ → σ → Prop} {R' : β → σ → σ → Prop}

theorem Tracks.bind (hm : Tracks stops P m R)
    (hf : ∀ a, Tracks stops (R a) (f a) R') :
    Tracks stops P (m >>= f) R' :=
  fun s t h => (hm s t h).bind fun a s' t' _ => hf a s' t'

/-- Once two runs have met, they stay together. -/
theorem Tracks.bind_met (hm : Tracks stops P m fun _ => Eq) :
    Tracks stops P (m >>= f) R' :=
  hm.bind fun _ _ _ h => h ▸ .met _

theorem Tracks.mono {Q : σ → σ → Prop} {S : α → σ → σ → Prop}
    (hm : Tracks stops Q m S) (hP : ∀ s t, P s t → Q s t)
    (hR : ∀ a s t, S a s t → R a s t) : Tracks stops P m R :=
  fun s t h => (hm s t (hP s t h)).mono (fun _ hf => hf) hR

theorem Tracks.pure {a : α} (h : ∀ s t, P s t → R a s t) :
    Tracks stops P (Pure.pure a : Step σ α) R := fun s t hst => .ok (h s t hst)

theorem Tracks.fail (e : Fault) : Tracks stops P (Step.fail e : Step σ α) R :=
  fun _ _ _ => .error

theorem Tracks.mapFault (hm : Tracks stops P m R) {change : Fault → Fault}
    (hchange : ∀ f, stops f → stops (change f)) :
    Tracks stops P (m.mapFault change) R :=
  fun s t h => (hm s t h).mapFault hchange

end

section

variable {P : σ → σ → Prop}

theorem Tracks.done (a : α) :
    Tracks stops P (Pure.pure a : Step σ α) fun _ => P :=
  .pure fun _ _ h => h

theorem Tracks.times {m : Step σ α} (hm : Tracks stops P m fun _ => P)
    (n : Nat) :
    Tracks stops P (m.times n) fun _ => P := by
  induction n with
  | zero => exact .done []
  | succ n ih => exact hm.bind fun _ => ih.bind fun _ => .done _

theorem Tracks.collect {m : Step σ (Option α)}
    (hm : Tracks stops P m fun _ => P) (budget : Nat) :
    Tracks stops P (m.collect budget) fun _ => P := by
  induction budget with
  | zero => exact .done []
  | succ budget ih =>
      refine hm.bind fun found => ?_
      cases found with
      | none => exact .done []
      | some a => exact ih.bind fun _ => .done _

end

end Step

/-! ## Drafts -/

/-- Drafts with related readers and the same octets gathered. -/
structure Draft.Related (P : Reader → Reader → Prop) (d e : Draft) : Prop where
  reader : P d.reader e.reader
  gathered : d.gathered = e.gathered

theorem Draft.Related.eq {d e : Draft} (h : Draft.Related Eq d e) : d = e := by
  obtain ⟨r, g⟩ := d
  obtain ⟨r', g'⟩ := e
  obtain ⟨rfl, rfl⟩ := h
  rfl

namespace Gather

open Step (Tracked Tracks)

variable {α : Type} {stops : Fault → Prop} {P : Reader → Reader → Prop}

theorem tracks_ofRead {m : Read α} {R : α → Reader → Reader → Prop}
    (h : Tracks stops P m R) :
    Tracks stops (Draft.Related P) (ofRead m) fun a => Draft.Related (R a) := by
  rintro ⟨r, g⟩ ⟨r', g'⟩ ⟨hreader, rfl⟩
  have hx := h r r' hreader
  unfold ofRead
  generalize m r = x at hx
  generalize m r' = y at hx
  cases hx with
  | met x => exact .met _
  | ok h => exact .ok ⟨h, rfl⟩
  | error => exact .error
  | stopped hf => exact .stopped hf

theorem tracks_atomically {m : Gather α} {Q : Draft → Draft → Prop}
    {R : α → Draft → Draft → Prop} (h : Tracks stops Q m R) :
    Tracks stops Q (atomically m) R := by
  intro d e hde
  have hx := h d e hde
  unfold atomically
  generalize m d = x at hx
  generalize m e = y at hx
  cases hx with
  | met x =>
      obtain ⟨result | result, after⟩ := x
      · exact .error
      · exact .met _
  | ok h => exact .ok h
  | error => exact .error
  | stopped hf => exact .stopped hf

theorem tracks_collected {m : Gather α} {R : α → Reader → Reader → Prop}
    (h : Tracks stops (Draft.Related P) m fun a => Draft.Related (R a)) :
    Tracks stops P m.collected fun x => R x.1 := by
  intro r r' hr
  have hx := h ⟨r, []⟩ ⟨r', []⟩ ⟨hr, rfl⟩
  unfold collected
  generalize m ⟨r, []⟩ = x at hx
  generalize m ⟨r', []⟩ = y at hx
  cases hx with
  | met x => exact .met _
  | ok h =>
      simp only [h.gathered]
      exact .ok h.reader
  | error => exact .error
  | stopped hf => exact .stopped hf

theorem tracks_dropped {m : Gather α} {R : α → Reader → Reader → Prop}
    (h : Tracks stops (Draft.Related P) m fun a => Draft.Related (R a)) :
    Tracks stops P m.dropped R :=
  (tracks_collected h).bind fun _ => .pure fun _ _ h => h

end Gather

end RespWire

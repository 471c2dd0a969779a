import RespWire.Step

/-!
# Two runs in lockstep

A step is steady when it cannot tell two states apart that pass for the same:
started from either, it gives the same answer and leaves states that again
pass for the same. One way out is left open. Two runs may both be refused for
the size of something, and then they may have stopped in different places and
may report different sizes; what has to be true of two such failures is up to
the notion of sameness, `Lockstep.apart`.

Steadiness is a property of the whole step and is handed on by every way of
joining steps. So it is proved here once for sequences, repetitions and loops,
and after that only for the steps that look at what a state holds.
-/

namespace RespWire

/-- What passes for the same, and what may come of it. -/
structure Lockstep (σ : Type) where
  /-- The states that no step is to tell apart. -/
  same : σ → σ → Prop
  /-- The states that can follow on a state. -/
  follows : σ → σ → Prop
  /-- Two failures that differ, seen from the state where the runs started. -/
  apart : σ → Fault × σ → Fault × σ → Prop
  follows_refl (s : σ) : follows s s
  follows_trans {s t u : σ} : follows s t → follows t u → follows s u
  apart_of_follows {s t : σ} {x y : Fault × σ} : follows s t → apart t x y →
    apart s x y
  tooLarge_of_apart {s : σ} {x y : Fault × σ} : apart s x y →
    ∃ size size' limit, x.1 = .violation (.tooLarge size limit) ∧
      y.1 = .violation (.tooLarge size' limit)

namespace Step

variable {σ α β : Type} {l : Lockstep σ}

/-- How the outcomes of two runs from states like `s` may compare. -/
inductive Agree (l : Lockstep σ) (s : σ) :
    Except Fault α × σ → Except Fault α × σ → Prop where
  | same {result : Except Fault α} {t u : σ} (hsame : l.same t u)
      (hfollows : l.follows s t) :
      Agree l s (result, t) (result, u)
  | apart {e f : Fault} {t u : σ} (hapart : l.apart s (e, t) (f, u)) :
      Agree l s (.error e, t) (.error f, u)

/-- A step that cannot tell apart what passes for the same. -/
def Steady (l : Lockstep σ) (m : Step σ α) : Prop :=
  ∀ s t, l.same s t → Agree l s (m s) (m t)

theorem Agree.of_follows {s s' : σ} {x y : Except Fault α × σ}
    (h : l.follows s s') (hxy : Agree l s' x y) : Agree l s x y := by
  cases hxy with
  | same hsame hfollows => exact .same hsame (l.follows_trans h hfollows)
  | apart hapart => exact .apart (l.apart_of_follows h hapart)

theorem Agree.bind {s t : σ} {m : Step σ α} {f : α → Step σ β}
    (hm : Agree l s (m s) (m t))
    (hf : ∀ a s' t', l.same s' t' → l.follows s s' → Agree l s' (f a s')
      (f a t')) :
    Agree l s ((m >>= f) s) ((m >>= f) t) := by
  rw [bind_apply, bind_apply]
  generalize m s = x at hm
  generalize m t = y at hm
  cases hm with
  | @same result s' t' hsame hfollows =>
      cases result with
      | ok a => exact .of_follows hfollows (hf a s' t' hsame hfollows)
      | error e => exact .same hsame hfollows
  | apart hapart => exact .apart hapart

theorem Steady.of_ok {m : Step σ α} (hm : Steady l m) {s t u : σ} {a : α}
    (h : l.same s t) (hrun : m s = (.ok a, u)) :
    ∃ v, m t = (.ok a, v) ∧ l.same u v := by
  have hagree := hm s t h
  rw [hrun] at hagree
  generalize m t = x at hagree
  cases hagree with
  | same hsame hfollows => exact ⟨_, rfl, hsame⟩

/-- A run that is not refused for a size is the same from what passes for the
same. -/
theorem Steady.of_run {m : Step σ α} (hm : Steady l m) {s t u : σ}
    {result : Except Fault α} (h : l.same s t) (hrun : m t = (result, u))
    (hresult : ∀ size limit,
      result ≠ .error (.violation (.tooLarge size limit))) :
    ∃ v, m s = (result, v) ∧ l.same v u := by
  have hagree := hm s t h
  rw [hrun] at hagree
  generalize m s = x at hagree
  cases hagree with
  | same hsame hfollows => exact ⟨_, rfl, hsame⟩
  | apart hapart =>
      obtain ⟨size, size', limit, -, hlarge⟩ := l.tooLarge_of_apart hapart
      exact absurd (congrArg Except.error hlarge) (hresult size' limit)

theorem Steady.bind {m : Step σ α} {f : α → Step σ β} (hm : Steady l m)
    (hf : ∀ a, Steady l (f a)) : Steady l (m >>= f) :=
  fun s t h => (hm s t h).bind fun a s' t' hsame _ => hf a s' t' hsame

theorem Steady.pure (a : α) : Steady l (Pure.pure a : Step σ α) :=
  fun s _ h => .same h (l.follows_refl s)

theorem Steady.fail (e : Fault) : Steady l (Step.fail e : Step σ α) :=
  fun s _ h => .same h (l.follows_refl s)

/-- Rewording other faults leaves two failures for size as they are. -/
theorem Steady.mapFault {m : Step σ α} (hm : Steady l m)
    {change : Fault → Fault} (hchange : ∀ size limit,
      change (.violation (.tooLarge size limit)) =
        .violation (.tooLarge size limit)) :
    Steady l (m.mapFault change) := by
  intro s t h
  have hx := hm s t h
  unfold Step.mapFault
  generalize m s = x at hx
  generalize m t = y at hx
  cases hx with
  | @same result s' t' hsame hfollows =>
      cases result <;> exact .same hsame hfollows
  | apart hapart =>
      obtain ⟨size, size', limit, rfl, rfl⟩ := l.tooLarge_of_apart hapart
      simp only [hchange]
      exact .apart hapart

theorem Steady.times {m : Step σ α} (hm : Steady l m) (n : Nat) :
    Steady l (m.times n) := by
  induction n with
  | zero => exact .pure []
  | succ n ih => exact hm.bind fun a => ih.bind fun as => .pure (a :: as)

theorem Steady.collect {m : Step σ (Option α)} (hm : Steady l m)
    (budget : Nat) :
    Steady l (m.collect budget) := by
  induction budget with
  | zero => exact .pure []
  | succ budget ih =>
      refine hm.bind fun found => ?_
      cases found with
      | none => exact .pure []
      | some a => exact ih.bind fun as => .pure (a :: as)

end Step

end RespWire

import RespWire.Fault

/-!
# Steps

A step acts on a state and answers a result or a fault. The state is there
after a fault too: what a failed read has taken from the stream is gone, and
the caller who goes on reading goes on from there.
-/

namespace RespWire

/-- A fallible action on a state that survives the failure. -/
def Step (σ α : Type) : Type := σ → Except Fault α × σ

namespace Step

variable {σ α β : Type}

/-- Stops with a fault and leaves the state as it is. -/
def fail (f : Fault) : Step σ α := fun s => (.error f, s)

/-- Stops with a violation of the protocol. -/
def violate (v : Violation) : Step σ α := fail (.violation v)

/-- Stops at a line that ends in the wrong place. -/
def cut (c : Cut) : Step σ α := fail (.cut c)

instance : Monad (Step σ) where
  pure a := fun s => (.ok a, s)
  bind m f := fun s =>
    match m s with
    | (.ok a, after) => f a after
    | (.error e, after) => (.error e, after)

theorem pure_apply (a : α) (s : σ) : (pure a : Step σ α) s = (.ok a, s) := rfl

theorem bind_apply (m : Step σ α) (f : α → Step σ β) (s : σ) :
    (m >>= f) s = match m s with
      | (.ok a, after) => f a after
      | (.error e, after) => (.error e, after) := rfl

theorem bind_of_ok {m : Step σ α} {f : α → Step σ β} {s after : σ} {a : α}
    (h : m s = (.ok a, after)) : (m >>= f) s = f a after := by
  show (match m s with
    | (.ok a, after) => f a after
    | (.error e, after) => (.error e, after)) = _
  rw [h]

theorem bind_of_error {m : Step σ α} {f : α → Step σ β} {s after : σ}
    {e : Fault} (h : m s = (.error e, after)) :
    (m >>= f) s = (.error e, after) := by
  show (match m s with
    | (.ok a, after) => f a after
    | (.error e, after) => (.error e, after)) = _
  rw [h]

/-- An answer that is made of the answer of a step. -/
theorem map_of_run {m : Step σ α} {s after : σ} {result : Except Fault α}
    (h : m s = (result, after)) (f : α → β) :
    (m >>= fun a => pure (f a)) s = (result.map f, after) := by
  rw [bind_apply, h]
  cases result <;> rfl

theorem bind_assoc_apply {γ : Type} (m : Step σ α) (f : α → Step σ β)
    (g : β → Step σ γ) :
    m >>= f >>= g = m >>= fun a => f a >>= g := by
  funext s
  simp only [bind_apply]
  cases m s with
  | mk result after => cases result <;> rfl

theorem bind_pure_apply (m : Step σ α) : (m >>= fun a => pure a) = m := by
  funext s
  rw [bind_apply]
  cases m s with
  | mk result after => cases result <;> rfl

instance : LawfulMonad (Step σ) :=
  LawfulMonad.mk' (Step σ) bind_pure_apply (fun _ _ => rfl) bind_assoc_apply

/-- Replaces the fault of a step. -/
def mapFault (change : Fault → Fault) (m : Step σ α) : Step σ α := fun s =>
  match m s with
  | (.ok a, after) => (.ok a, after)
  | (.error e, after) => (.error (change e), after)

/-- Runs a step whose failure is an answer too: none. -/
def attempt (m : Step σ α) : Step σ (Option α) := fun s =>
  match m s with
  | (.ok a, after) => (.ok (some a), after)
  | (.error _, after) => (.ok none, after)

/-- Runs a step so many times. -/
def times (m : Step σ α) : Nat → Step σ (List α)
  | 0 => pure []
  | n + 1 => do
      let a ← m
      let as ← m.times n
      return a :: as

/-- Runs a step until it answers none, and collects what it answered before.
The budget bounds the number of runs; a caller passes more than can succeed. -/
def collect (m : Step σ (Option α)) : Nat → Step σ (List α)
  | 0 => pure []
  | budget + 1 => do
      match ← m with
      | none => return []
      | some a => do
          let as ← m.collect budget
          return a :: as

end Step

end RespWire

import RespWire.Proofs.Consuming

/-!
# Guards

Some operations of a reader have no answer where they are asked for more than
there is: to take octets that are not held, to show an octet or a slice that
lies behind the end, to shorten a destination by more than it holds, to double a
count in a word that is too small. The operations of a `Step` are total and
answer all the same, with as much as there is, so that a run does not show
whether it ever asked for too much.

A guarded step shows it. Its operations stand behind guards, and a guard that
does not hold is a `Hazard`: everything stops there, and no read catches it as
it may catch a fault. A loop is guarded too, by a number of turns that it must
not use up.

`Clear g m s` says that from the state `s` the guarded step `g` meets no hazard
and does what the step `m` does. What a guard asks for has been made sure of by
the steps in front of it, so the rule for a sequence (`Clear.bind`) hands on
what the first step has answered and the state it has left.
-/

namespace RespWire

/-- What an operation was asked for in vain. -/
inductive Hazard where
  /-- To take more octets than are held. -/
  | overdrawn (n held : Nat)
  /-- To show an octet behind the last. -/
  | noOctet (i length : Nat)
  /-- To show, or to take out, a slice that does not lie within the octets. -/
  | noSlice (start stop length : Nat)
  /-- To put more octets down than there is room for. -/
  | noRoom (n room : Nat)
  /-- To shorten a destination by more, or back to more, than it holds. -/
  | tooShort (n length : Nat)
  /-- To double a count in a word that is too small for it. -/
  | saturated (n : Nat)
  /-- To go on with a loop when its turns are used up. -/
  | endless
  deriving DecidableEq, Repr

/-- A step whose operations stand behind guards. -/
def Guarded (σ α : Type) : Type := σ → Except Hazard (Except Fault α × σ)

namespace Guarded

variable {σ α β : Type}

/-- Stops where a guard does not hold. -/
def hazard (h : Hazard) : Guarded σ α := fun _ => .error h

/-- A step that has nothing to guard. -/
def ofStep (m : Step σ α) : Guarded σ α := fun s => .ok (m s)

/-- Stops at a line that ends in the wrong place. -/
def cut (c : Cut) : Guarded σ α := ofStep (Step.cut c)

/-- Stops with a violation of the protocol. -/
def violate (v : Violation) : Guarded σ α := ofStep (Step.violate v)

instance : Monad (Guarded σ) where
  pure a := ofStep (pure a)
  bind g f := fun s =>
    match g s with
    | .ok (.ok a, after) => f a after
    | .ok (.error e, after) => .ok (.error e, after)
    | .error h => .error h

theorem pure_bind (a : α) (f : α → Guarded σ β) :
    (pure a >>= f : Guarded σ β) = f a :=
  rfl

def get : Guarded σ σ := fun s => .ok (.ok s, s)

def set (s : σ) : Guarded σ Unit := fun _ => .ok (.ok (), s)

/-- Replaces the fault of a step. -/
def mapFault (change : Fault → Fault) (g : Guarded σ α) : Guarded σ α :=
  fun s =>
    match g s with
    | .ok (.ok a, after) => .ok (.ok a, after)
    | .ok (.error e, after) => .ok (.error (change e), after)
    | .error h => .error h

/-- Runs a step whose fault, but not whose hazard, is an answer too: none. -/
def attempt (g : Guarded σ α) : Guarded σ (Option α) := fun s =>
  match g s with
  | .ok (.ok a, after) => .ok (.ok (some a), after)
  | .ok (.error _, after) => .ok (.ok none, after)
  | .error h => .error h

/-- Runs a step so many times. -/
def times (g : Guarded σ α) : Nat → Guarded σ (List α)
  | 0 => pure []
  | n + 1 => do
      let a ← g
      let as ← g.times n
      return a :: as

/-- Runs a step until it answers none, in fewer than so many turns. -/
def collect (g : Guarded σ (Option α)) : Nat → Guarded σ (List α)
  | 0 => hazard .endless
  | turns + 1 => do
      match ← g with
      | none => return []
      | some a => do
          let as ← g.collect turns
          return a :: as

/-! ## Operations behind guards -/

/-- The octet at a place. -/
def octet (octets : Bytes) (i : Nat) : Guarded σ UInt8 :=
  match octets[i]? with
  | some b => pure b
  | none => hazard (.noOctet i octets.length)

/-- The octets from `start` up to `stop`. -/
def slice (octets : Bytes) (start stop : Nat) : Guarded σ Bytes :=
  if start ≤ stop ∧ stop ≤ octets.length then
    pure ((octets.take stop).drop start)
  else hazard (.noSlice start stop octets.length)

/-- A room after octets were put down at its front. -/
def putDown (room octets : Bytes) : Guarded σ Bytes :=
  if octets.length ≤ room.length then pure (octets ++ room.drop octets.length)
  else hazard (.noRoom octets.length room.length)

/-- The greatest count that a word holds. -/
def maxCount : Nat := UInt64.size - 1

/-- Twice a count. -/
def doubled (n : Nat) : Guarded σ Nat :=
  if n * 2 ≤ maxCount then pure (n * 2) else hazard (.saturated n)

/-- From the state `s` the guarded step meets no hazard and does what the step
does. -/
def Clear (g : Guarded σ α) (m : Step σ α) (s : σ) : Prop := g s = .ok (m s)

variable {g : Guarded σ α} {m : Step σ α} {s : σ}

theorem Clear.ofStep (m : Step σ α) (s : σ) : Clear (ofStep m) m s := rfl

theorem Clear.pure (a : α) (s : σ) : Clear (Pure.pure a) (Pure.pure a) s := rfl

theorem Clear.bind_apply (hg : Clear g m s) (f : α → Guarded σ β) :
    (g >>= f) s = match m s with
      | (.ok a, after) => f a after
      | (.error e, after) => .ok (.error e, after) := by
  show (match g s with
    | .ok (.ok a, after) => f a after
    | .ok (.error e, after) => .ok (.error e, after)
    | .error h => .error h) = _
  rw [hg]
  cases m s with
  | mk result after => cases result <;> rfl

/-- What stands behind the first step is reached where the first step answers,
and may rely on its answer and on the state it leaves. -/
theorem Clear.bind {f : α → Guarded σ β} {f' : α → Step σ β} (hg : Clear g m s)
    (hf : ∀ a after, m s = (.ok a, after) → Clear (f a) (f' a) after) :
    Clear (g >>= f) (m >>= f') s := by
  rw [Clear, hg.bind_apply, Step.bind_apply]
  cases hrun : m s with
  | mk result after =>
      cases result with
      | ok a => exact hf a after hrun
      | error e => rfl

theorem Clear.bind_pure (hg : Clear g m s) (f : α → β) :
    Clear (g >>= fun a => Pure.pure (f a)) (m >>= fun a => Pure.pure (f a)) s :=
  hg.bind fun a after _ => .pure (f a) after

theorem Clear.mapFault (hg : Clear g m s) (change : Fault → Fault) :
    Clear (g.mapFault change) (m.mapFault change) s := by
  rw [Clear, Guarded.mapFault, hg, Step.mapFault]
  cases m s with
  | mk result after => cases result <;> rfl

theorem Clear.attempt (hg : Clear g m s) : Clear g.attempt m.attempt s := by
  rw [Clear, Guarded.attempt, hg, Step.attempt]
  cases m s with
  | mk result after => cases result <;> rfl

theorem Clear.times (hg : ∀ s, Clear g m s) (n : Nat) (s : σ) :
    Clear (g.times n) (m.times n) s := by
  induction n generalizing s with
  | zero => exact .pure [] s
  | succ n ih => exact (hg s).bind fun a after _ => (ih after).bind_pure _

/-- A loop has turns to spare if each of them takes an octet and there are more
turns than octets. -/
theorem Clear.collect {v : σ → Bytes} {faults : Fault → Prop}
    {g : Guarded σ (Option α)} {m : Step σ (Option α)} (hg : ∀ s, Clear g m s)
    (htakes : Step.Takes v faults 1 m) {turns : Nat} {s : σ}
    (hturns : (v s).length < turns) :
    Clear (g.collect turns) (m.collect turns) s := by
  induction turns generalizing s with
  | zero => exact absurd hturns (Nat.not_lt_zero _)
  | succ turns ih =>
      refine (hg s).bind fun found after hturn => ?_
      cases found with
      | none => exact .pure [] after
      | some a =>
          have htaken := htakes.of_ok hturn
          exact (ih (by omega)).bind_pure _

end Guarded

end RespWire

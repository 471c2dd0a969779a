import RespWire.Step

/-!
# Sinks

Where a writer sends its octets. A sink is scripted: the script says how the
next calls turn out, and after the script every call takes all it is given. A
call may take a part, nothing, or fail; sending repeats calls until everything
is taken, through parts and interruptions, and gives up at a call that takes
nothing or fails otherwise.
-/

namespace RespWire

/-- How a call on a sink turns out. -/
inductive Acceptance where
  /-- The call takes at most so many octets. -/
  | upTo (n : Nat)
  | failure (e : IoFailure)
  deriving DecidableEq, Repr

/-- A sink and what it has taken. -/
structure Sink where
  /-- How the next calls turn out. -/
  script : List Acceptance := []
  /-- How the next flushes turn out: well, or with a failure. -/
  flushes : List (Option IoFailure) := []
  /-- What the calls that did not fail have taken, in order. -/
  taken : List Bytes := []
  deriving DecidableEq, Repr

/-- An action on a sink. -/
abbrev Write (α : Type) := Step Sink α

namespace Sink

/-- All octets that the sink has taken. -/
def accepted (s : Sink) : Bytes := s.taken.flatten

/-- Forgets what the sink has taken. -/
def clear (s : Sink) : Sink := { s with taken := [] }

/-- The failure of a sink that takes nothing. -/
def takesNothing : IoFailure := ⟨.writeZero, "failed to write whole buffer"⟩

/-- Offers octets to a sink with the given script until all are taken. The
answer is what the calls took, what is left of the script, and the failure that
ended it, if any. -/
def offer :
    List Acceptance → Bytes → List Bytes × List Acceptance × Option IoFailure
  | script, [] => ([], script, none)
  | [], b :: bs => ([b :: bs], [], none)
  | .failure e :: script, b :: bs =>
      if e.kind = .interrupted then offer script (b :: bs)
      else ([], script, some e)
  | .upTo n :: script, b :: bs =>
      if n = 0 then ([[]], script, some takesNothing)
      else
        let (later, script, failed) := offer script ((b :: bs).drop n)
        ((b :: bs).take n :: later, script, failed)

/-- Sends octets. -/
def send (octets : Bytes) : Write Unit := fun s =>
  let (pieces, script, failed) := offer s.script octets
  let after := { s with script := script, taken := s.taken ++ pieces }
  match failed with
  | none => (.ok (), after)
  | some e => (.error (.io e), after)

/-- Sends an encoding, or nothing at all where there is none. -/
def sendEncoded : Except Violation Bytes → Write Unit
  | .ok octets => send octets
  | .error v => Step.violate v

/-- Asks the sink to pass on what it has taken. -/
def flush : Write Unit := fun s =>
  match s.flushes with
  | [] => (.ok (), s)
  | none :: later => (.ok (), { s with flushes := later })
  | some e :: later => (.error (.io e), { s with flushes := later })

end Sink

end RespWire

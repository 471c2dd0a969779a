import RespWire.Value.Encode
import RespWire.Writer.Sink

/-!
# Writers

A writer puts the octets of a call together before it sends them. So a value
that turns out unwritable halfway through has sent nothing, although a part of
it was already put together. The place where this happens is kept and used
again for every call; it is emptied before the octets of a call come in and
after they went out. Fixed forms do not pass through it.
-/

namespace RespWire

/-- A sink, and the place where octets are put together for it. -/
structure Writer where
  sink : Sink
  scratch : Bytes := []
  deriving DecidableEq, Repr

namespace Writer

/-- Exchanges the sink and drops what is put together. -/
def reset (w : Writer) (sink : Sink) : Writer :=
  { w with sink := sink, scratch := [] }

/-- An action on the sink alone. -/
def onSink {α : Type} (m : Write α) : Step Writer α := fun w =>
  match m w.sink with
  | (result, sink) => (result, { w with sink := sink })

/-- Drops what is put together. -/
def clear : Step Writer Unit := fun w => (.ok (), { w with scratch := [] })

/-- Puts an encoding behind what is there. Of one that is stopped it puts there
what was written by then. -/
def assemble (e : Encoding) : Step Writer Unit := fun w =>
  let after := { w with scratch := w.scratch ++ e.written }
  match e.stopped with
  | none => (.ok (), after)
  | some v => (.error (.violation v), after)

/-- Sends what is put together. -/
def sendScratch : Step Writer Unit := fun w => onSink (Sink.send w.scratch) w

/-- Puts an encoding together and sends it, or sends nothing where it is
stopped. -/
def emit (e : Encoding) : Step Writer Unit := fun w =>
  match (do clear; assemble e; sendScratch : Step Writer Unit) w with
  | (result, after) => (result, { after with scratch := [] })

/-- Sends a fixed form. -/
def sendForm (octets : Bytes) : Step Writer Unit := onSink (Sink.send octets)

end Writer

end RespWire

import RespWire.Reader.Call
import RespWire.Writer.Call

/-!
# Links

A reader and a writer on the two ends of one loop: what is written is what can
be read, after everything written before. The loop takes all it is given, and
what was written and not yet handed out is the feed of the reader. Of the writer
there is only the place where it puts octets together.

A caller may hold both ends as one, borrow the two of them at once or take them
apart. The ends stay what they are, so a call does the same in each case.
-/

namespace RespWire

/-- A reader and a writer that share a loop. -/
structure Link where
  reader : Reader
  /-- Where the writer puts the octets of a call together. -/
  scratch : Bytes := []
  deriving DecidableEq, Repr

namespace Link

/-- A link whose loop holds some octets. -/
def ofBytes (octets : Bytes) (options : Options) : Link :=
  ⟨⟨.ofBytes octets, options, []⟩, []⟩

/-- The writer, over a sink that takes all it is given. -/
def writer (l : Link) : Writer := ⟨{}, l.scratch⟩

/-- Makes a call on the writer. The answer tells what its calls on the loop
took. -/
def write (l : Link) (call : Writer.Call) :
    Except Fault Unit × List Bytes × Link :=
  match call.perform l.writer with
  | (result, after) =>
      (result, after.sink.taken,
        { reader :=
            { l.reader with feed := l.reader.feed.extend after.sink.accepted }
          scratch := after.scratch })

/-- Makes a call on the reader with a destination that holds some octets. -/
def read (l : Link) (call : Reader.Call) (gathered : Bytes) :
    Except Fault Reader.Answer × Bytes × Link :=
  match call.make ⟨l.reader, gathered⟩ with
  | (result, d) => (result, d.gathered, { l with reader := d.reader })

/-- Gives both ends a new loop. What the reader holds and what the writer has
put together is dropped. -/
def reset (l : Link) (octets : Bytes) : Link :=
  ⟨l.reader.reset (.ofBytes octets), []⟩

end Link

end RespWire

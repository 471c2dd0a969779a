import RespWire.Proofs.Guards

/-!
# Guarded reads

The parts that values are made of, each with its operations behind guards, and
that none of them meets a hazard.

Whatever a feed does, a look ahead answers octets that are held, though perhaps
fewer than it was asked for. A part that goes on to take octets has compared
what it saw with what it wants, and two runs of octets that are equal are of one
length. That is why as much is held as is taken, at the end of the input and
after a fill that failed as well.
-/

namespace RespWire

namespace Guarded

variable {α : Type}

/-! ## Octets held -/

/-- Asks the feed once. What it hands out is put down in a room behind the
octets held, and what is left over of the room is given back. -/
def fill : Guarded Reader Nat := do
  let r ← get
  let start := r.buffer.length
  let grown := r.buffer ++ List.replicate r.options.fillSize 0
  let room ← slice grown start grown.length
  match r.feed.afterInterruptions.read room.length with
  | (.ok got, feed) =>
      let filled ← putDown room got
      set { r with
        feed := feed
        buffer := (grown.take start ++ filled).take (start + got.length) }
      return got.length
  | (.error e, feed) =>
      set { r with feed := feed, buffer := grown.take start }
      ofStep (Step.fail (.io e))

/-- Fills until `n` octets are held or the input ends. -/
def await (n : Nat) : Nat → Guarded Reader Unit
  | 0 => hazard .endless
  | turns + 1 => do
      if (← get).lacks n then
        if (← fill) = 0 then pure () else await n turns
      else pure ()

/-- The next `n` octets, or as many as there are before the input ends. -/
def lookAhead (n : Nat) : Guarded Reader Bytes := do
  await n (n + 1)
  let r ← get
  slice r.buffer 0 (min n r.buffer.length)

/-- The octets held, after a fill where none were. -/
def held : Guarded Reader Bytes := do
  if (← get).buffer.isEmpty then
    let _ ← fill
    return (← get).buffer
  else return (← get).buffer

/-- Takes `n` of the octets held. -/
def consume (n : Nat) : Guarded Reader Unit := do
  let r ← get
  if n ≤ r.buffer.length then set { r with buffer := r.buffer.drop n }
  else hazard (.overdrawn n r.buffer.length)

/-- What is not held cannot be taken, whatever the feed has left. -/
example : consume 3 ⟨⟨[.piece [3]], none⟩, {}, [1, 2]⟩ =
  .error (.overdrawn 3 2) := rfl

/-! ## First octets and fixed forms -/

/-- The kind that the next octet announces. -/
def peekLead : Guarded Reader Kind := do
  match ← lookAhead 1 with
  | [] => ofStep (Step.fail .endOfInput)
  | b :: _ =>
      match Kind.ofLead? b with
      | some k => return k
      | none => violate (.unknownKind b)

/-- Takes these octets if they come next, and answers whether they did. -/
def takeForm (form : Bytes) : Guarded Reader Bool := do
  let next ← lookAhead form.length
  if next == form then
    consume form.length
    return true
  else return false

/-- Takes the first octet of a value of the kind. -/
def expect (k : Kind) : Guarded Reader Unit := do
  let got ← peekLead.mapFault (Reader.noValueInstead k)
  if got = k then consume 1 else violate (.unexpectedKind k got)

/-- Takes the end of a line. -/
def lineEnd : Guarded Reader Unit := do
  let next ← lookAhead 2
  if next = Bytes.crlf then consume 2
  else if next.length < 2 then cut .noLineEnd
  else cut (.wrongLineEnd next)

/-- Takes a minus sign if one comes next. -/
def minusSign : Guarded Reader Bool := do
  match ← lookAhead 1 with
  | [] => cut .noNumber
  | b :: _ =>
      if b = Decimal.minus then
        consume 1
        return true
      else return false

/-- Takes digits up to the end of a line, one in each turn. -/
def digitsFrom (negative : Bool) :
    Nat → Option Int → Guarded Reader (Option Int)
  | 0, _ => hazard .endless
  | turns + 1, before => do
      match ← lookAhead 1 with
      | [] => cut .noNumber
      | b :: _ =>
          if Decimal.isDigit b then
            let n := Reader.appendDigit negative (before.getD 0) b
            if Reader.fits n then
              consume 1
              digitsFrom negative turns (some n)
            else violate .overflow
          else if b = Bytes.cr || b = Bytes.lf then return before
          else violate (.badDigit b)

/-- Takes a number and the end of its line. -/
def number : Guarded Reader Int := do
  let negative ← minusSign
  let octets ← ofStep Reader.remainingLength
  let n? ← digitsFrom negative (octets + 1) none
  lineEnd
  match n? with
  | some n => return n
  | none => cut .emptyNumber

/-- Takes the header of an aggregate. -/
def header (a : Aggregate) : Guarded Reader Length := do
  if ← takeForm (Kind.aggregate a).streamHeader then return .streamed
  else
    expect (.aggregate a)
    let n ← number.mapFault Reader.badCountInstead
    if n < 0 then violate .badCount else return .known n.toNat

end Guarded

end RespWire

import RespWire.Decimal.Literal
import RespWire.Reader.Framing
import RespWire.Value.Basic

/-!
# Typed reads

One read for each kind of value. The caller has looked ahead with `peek` and
asks for the kind that comes; asked for another kind, a read takes nothing.
Reads of octets append them to a destination, and a read that fails leaves the
destination as it was.
-/

namespace RespWire

namespace Reader

/-- The null of the earlier protocol version, if it comes next where a value of
the kind `k` has been seen to start. A failure of the source here is no answer:
the value is then taken for what its first octet says. The sign is looked at
before the rest, so that a short value is not waited past. -/
def earlierNull? (k : Kind) : Read (Option Bytes) :=
  match k.earlierNull? with
  | none => pure none
  | some form => do
      match ← (lookAhead 2).attempt with
      | some [_, sign] =>
          if sign = Decimal.minus then
            let next? ← (lookAhead form.length).attempt
            return if next? = some form then some form else none
          else return none
      | _ => return none

/-- The kind of the next value. -/
def peek : Read Kind := do
  let k ← peekLead
  if (← earlierNull? k).isSome then return .null else return k

def boolean : Read Bool := do
  expect .boolean
  match ← lookAhead 3 with
  | [b, cr, lf] =>
      if b = 't'.toUInt8 || b = 'f'.toUInt8 then
        if [cr, lf] = Bytes.crlf then
          consume 3
          return b == 't'.toUInt8
        else Step.cut (.wrongLineEnd [cr, lf])
      else Step.violate (.badBoolean b)
  | _ => Step.cut .noBoolean

def integer : Read Int64 := do
  expect .integer
  return Int64.ofInt (← number)

/-- The close of a streamed aggregate. -/
def close : Read Unit := do
  expect .close
  lineEnd

def null : Read Unit := do
  let k ← peekLead.mapFault (noValueInstead .null)
  match ← earlierNull? k with
  | some form => consume form.length
  | none =>
      expect .null
      lineEnd

/-- A line that holds a double. -/
def doubleLine (text : Bytes) : Except Fault Double :=
  if text.isEmpty then .error (.cut .emptyLine)
  else
    match Double.ofText? text with
    | some x => .ok x
    | none => .error (.violation (.badDouble text))

/-- A line that holds a big number. -/
def bigNumberLine (text : Bytes) : Except Fault Int :=
  if text.isEmpty then .error (.cut .emptyLine)
  else
    let (negative, ds) := Decimal.signed text
    if ds.isEmpty || !ds.all Decimal.isDigit then
      .error (.violation (.badBigNumber text))
    else .ok (if negative then -Decimal.value ds else Decimal.value ds)

/-- Takes a line of a kind and settles what it holds. -/
def lineOf {α : Type} (k : Kind) (settle : Bytes → Except Fault α) :
    Read α := do
  expect k
  let (_, text) ← Gather.line.collected
  fun r => (settle text, r)

def double : Read Double := lineOf .double doubleLine

def bigNumber : Read Int := lineOf .bigNumber bigNumberLine

end Reader

namespace Gather

/-- A blob, or the header of a streamed one, whose chunks are read on their
own. -/
def blob (role : Role) : Gather Length := atomically do
  if ← Reader.takeStreamHeader (.blob role) then return .streamed
  else return .known (← counted (.blob role))

/-- One chunk of a streamed blob; the answer is whether it was the last. -/
def chunk : Gather Bool := do
  if ← Reader.takeForm Marker.lastChunk then return true
  else
    let _ ← atomically (counted .chunk)
    return false

/-- A chunk that may be followed by more, or none for the last. -/
def chunk? : Gather (Option Unit) := do
  if ← chunk then return none else return some ()

/-- All chunks of a streamed blob. Every chunk but the last takes octets away,
so there are fewer of them than octets. -/
def chunks : Gather Unit := atomically do
  let budget ← Reader.remainingLength
  let _ ← chunk?.collect (budget + 1)

/-- A simple string or error. -/
def simple (role : Role) : Gather Unit := atomically do
  Reader.expect (.simple role)
  line

/-- A verbatim string. The format is answered and the text gathered. -/
def verbatim : Gather Format := atomically do
  let start ← mark
  let _ ← counted .verbatim
  let octets ← since start
  match octets with
  | a :: b :: c :: separator :: text =>
      if separator = ':'.toUInt8 then
        cutBack start
        push text
        return ⟨a, b, c⟩
      else Step.violate (.badVerbatim (octets.take 10))
  | _ => Step.violate (.badVerbatim octets)

end Gather

end RespWire

import RespWire.Proofs.EndOfInput
import RespWire.Proofs.GuardedGathers
import RespWire.Proofs.Languages

/-!
# Guarded values

Scalars, whole values and skips, each with its operations behind guards. What
they add to the parts they are made of is little: the octets of a boolean, the
sign of a big number, and the count of a map that a skip doubles because its
pairs are two values each.

A count is a number that was read, and a number that is read fits 64 bits with a
sign (`Reader.lt_of_header`). So there is a bit to spare for doubling it.
-/

namespace RespWire

namespace Reader

end Reader

namespace Guarded

variable {σ α : Type}

/-! ## Scalars -/

/-- The null of the earlier protocol version, if it comes next. -/
def earlierNull? (k : Kind) : Guarded Reader (Option Bytes) :=
  match k.earlierNull? with
  | none => pure none
  | some form => do
      match ← (lookAhead 2).attempt with
      | some [_, sign] =>
          if sign = Decimal.minus then
            let next? ← (lookAhead form.length).attempt
            return if next? = some form then some form else none
          else return none
      | _ => return none

/-- The kind of the next value. -/
def peek : Guarded Reader Kind := do
  let k ← peekLead
  if (← earlierNull? k).isSome then return .null else return k

def boolean : Guarded Reader Bool := do
  expect .boolean
  let octets ← lookAhead 3
  if octets.length < 3 then cut .noBoolean
  else
    let b ← octet octets 0
    if b = 't'.toUInt8 || b = 'f'.toUInt8 then
      let ending ← slice octets 1 octets.length
      if ending = Bytes.crlf then
        consume 3
        return b == 't'.toUInt8
      else cut (.wrongLineEnd ending)
    else violate (.badBoolean b)

def integer : Guarded Reader Int64 := do
  expect .integer
  return Int64.ofInt (← number)

/-- The close of a streamed aggregate. -/
def close : Guarded Reader Unit := do
  expect .close
  lineEnd

def null : Guarded Reader Unit := do
  let k ← peekLead.mapFault (Reader.noValueInstead .null)
  match ← earlierNull? k with
  | some form => consume form.length
  | none =>
      expect .null
      lineEnd

/-- What stands behind the sign of a line. -/
def unsigned (text : Bytes) : Guarded σ Bytes :=
  match text with
  | [] => cut .emptyLine
  | b :: _ =>
      if b = Decimal.minus || b = Decimal.plus then slice text 1 text.length
      else slice text 0 text.length

/-- Checks a line that holds a big number. -/
def checkedBigNumberLine (text : Bytes) : Guarded σ Unit := do
  let ds ← unsigned text
  if ds.isEmpty || !ds.all Decimal.isDigit then violate (.badBigNumber text)
  else return

/-- Takes a line of a kind and settles what it holds. -/
def lineOf (k : Kind) (settle : Bytes → Guarded Reader α) :
    Guarded Reader α := do
  expect k
  let (_, text) ← collected line
  settle text

def double : Guarded Reader Double :=
  lineOf .double fun text => ofStep fun r => (Reader.doubleLine text, r)

/-- The number of a line is made of it once the line is checked. -/
def bigNumber : Guarded Reader Int :=
  lineOf .bigNumber fun text => do
    checkedBigNumberLine text
    ofStep fun r => (Reader.bigNumberLine text, r)

/-- A value that has to be there. -/
def nested (item : Guarded Reader α) : Guarded Reader α :=
  item.mapFault (Reader.noElementInstead .noElement)

/-- The next element of a streamed aggregate, or none at its close. -/
def element? (item : Guarded Reader α) : Guarded Reader (Option α) := do
  let k ← peek.mapFault (Reader.noElementInstead .noElementOrClose)
  if k = .close then
    close
    return none
  else return some (← item)

/-- The elements of an aggregate. -/
def elements (a : Aggregate) (item : Guarded Reader α)
    (streamed : Guarded Reader (Option α)) :
    Guarded Reader (List α) := do
  match ← header a with
  | .known n => item.times n
  | .streamed => do
      let octets ← ofStep Reader.remainingLength
      streamed.collect (octets + 1)

/-- A pair of values. -/
def pair (item : Guarded Reader Value) : Guarded Reader (Value × Value) := do
  let key ← nested item
  let value ← nested item
  return (key, value)

/-- The next pair of a streamed aggregate, or none at its close. -/
def pair? (item : Guarded Reader Value) :
    Guarded Reader (Option (Value × Value)) := do
  match ← element? (nested item) with
  | none => return none
  | some key =>
      let value ← nested item
      return some (key, value)

/-- The octets of a blob, the chunks of a streamed one joined. -/
def joinedBlob (role : Role) : Guarded Reader Bytes := do
  let (_, octets) ← collected do
    match ← blob role with
    | .known _ => return
    | .streamed => chunks
  return octets

/-- A value that starts with so many levels left, itself included. -/
def valueWithin : Nat → Guarded Reader Value
  | 0 => ofStep Reader.tooDeep
  | levels + 1 => do
      let item := valueWithin levels
      match ← peek with
      | .aggregate (.sequence s) =>
          return .sequence s
            (← elements (.sequence s) (nested item) (element? (nested item)))
      | .aggregate (.pairing p) =>
          return .pairing p (← elements (.pairing p) (pair item) (pair? item))
      | .blob role => return .blob role (← joinedBlob role)
      | .simple role =>
          let (_, text) ← collected (simple role)
          return .simple role text
      | .verbatim =>
          let (format, text) ← collected verbatim
          return .verbatim format text
      | .bigNumber => return .bigNumber (← bigNumber)
      | .boolean => return .boolean (← boolean)
      | .double => return .double (← double)
      | .integer => return .integer (← integer)
      | .null =>
          null
          return .null
      | .chunk => violate (.misplaced .chunk)
      | .close => violate (.misplaced .close)

/-- The next value. -/
def value : Guarded Reader Value := do
  valueWithin ((← ofStep Reader.getOptions).maxDepth + 1)

section Values

variable {item : Guarded Reader α} {item' : Read α}

end Values

section Pairs

variable {item : Guarded Reader Value} {item' : Read Value}

end Pairs

/-- Passes one chunk of a streamed blob; the answer is whether it was the
last. -/
def skipChunk : Guarded Reader Bool := do
  if ← takeForm Marker.lastChunk then return true
  else
    let _ ← dropped (counted .chunk)
    return false

/-- A chunk that may be followed by more, or none for the last. -/
def skipChunk? : Guarded Reader (Option Unit) := do
  if ← skipChunk then return none else return some ()

/-- Passes all chunks of a streamed blob. -/
def skipChunks : Guarded Reader Unit := do
  let octets ← ofStep Reader.remainingLength
  let _ ← skipChunk?.collect (octets + 1)

/-- A skip that has to pass something, told apart by whether it was a close. -/
def skipElement? (item : Guarded Reader Kind) :
    Guarded Reader (Option Unit) := do
  if (← nested item) = .close then return none else return some ()

/-- The number of values that so many counted elements of an aggregate are. -/
def valueCount (a : Aggregate) (n : Nat) : Guarded σ Nat :=
  match a with
  | .sequence _ => pure n
  | .pairing _ => doubled n

/-- Passes the elements that a header announces. -/
def skipElements (a : Aggregate) (item : Guarded Reader Kind) :
    Length → Guarded Reader Unit
  | .known n => do
      let values ← valueCount a n
      let _ ← (nested item).times values
  | .streamed => do
      let octets ← ofStep Reader.remainingLength
      let _ ← (skipElement? item).collect (octets + 1)

/-- Passes what starts with so many levels left, itself included. -/
def skipWithin (deep : Bool) : Nat → Guarded Reader Kind
  | 0 => ofStep Reader.tooDeep
  | levels + 1 => do
      let k ← peek
      match k with
      | .aggregate a =>
          let n ← header a
          if deep then skipElements a (skipWithin deep levels) n
      | .blob role =>
          if ← takeForm (Kind.blob role).streamHeader then
            if deep then skipChunks
          else
            let _ ← dropped (counted (.blob role))
      | .chunk =>
          if deep then skipChunks
          else
            let _ ← skipChunk
      | .simple role =>
          expect (.simple role)
          dropped line
      | .verbatim =>
          let _ ← dropped verbatim
      | .bigNumber => lineOf .bigNumber checkedBigNumberLine
      | .boolean =>
          let _ ← boolean
      | .double =>
          let _ ← double
      | .integer =>
          let _ ← integer
      | .null => null
      | .close => close
      return k

/-- Passes the next value and answers its kind. -/
def skip (deep : Bool) : Guarded Reader Kind := do
  skipWithin deep ((← ofStep Reader.getOptions).maxDepth + 1)

section Skips

variable {item : Guarded Reader Kind} {item' : Read Kind}

end Skips

end Guarded

end RespWire

import RespWire.Reader.Typed

/-!
# Reading values

A whole value with everything nested in it. How deep a value may still nest is
the number of levels left, and the recursion goes by that number: at no level
left there is nothing to read but a refusal. Within a level, counted elements
are read one by one, and streamed ones until the close.
-/

namespace RespWire

namespace Reader

/-- The end of input where an element has to follow is a cut. -/
def noElementInstead (c : Cut) : Fault → Fault
  | .endOfInput => .cut c
  | f => f

/-- A value that has to be there. -/
def nested {α : Type} (item : Read α) : Read α :=
  item.mapFault (noElementInstead .noElement)

/-- The next element of a streamed aggregate, or none at its close, which is
taken. -/
def element? {α : Type} (item : Read α) : Read (Option α) := do
  let k ← peek.mapFault (noElementInstead .noElementOrClose)
  if k = .close then
    close
    return none
  else return some (← item)

/-- The elements of an aggregate. An element that is read takes octets away, so
a stream has fewer of them than octets. -/
def elements {α : Type} (a : Aggregate) (item : Read α)
    (streamed : Read (Option α)) :
    Read (List α) := do
  match ← header a with
  | .known n => item.times n
  | .streamed => do
      let budget ← remainingLength
      streamed.collect (budget + 1)

/-- A pair of values. -/
def pair (item : Read Value) : Read (Value × Value) := do
  let key ← nested item
  let value ← nested item
  return (key, value)

/-- The next pair of a streamed aggregate, or none at its close. -/
def pair? (item : Read Value) : Read (Option (Value × Value)) := do
  match ← element? (nested item) with
  | none => return none
  | some key =>
      let value ← nested item
      return some (key, value)

/-- The octets of a blob, the chunks of a streamed one joined. -/
def joinedBlob (role : Role) : Read Bytes := do
  let (_, octets) ← Gather.collected do
    match ← Gather.blob role with
    | .known _ => return
    | .streamed => Gather.chunks
  return octets

/-- A refusal to nest deeper. -/
def tooDeep {α : Type} : Read α := do
  Step.violate (.tooDeep (← getOptions).maxDepth)

/-- A value that starts with so many levels left, itself included. -/
def valueWithin : Nat → Read Value
  | 0 => tooDeep
  | levels + 1 => do
      let item := valueWithin levels
      match ← peek with
      | .aggregate (.sequence s) =>
          return .sequence s
            (← elements (.sequence s) (nested item) (element? (nested item)))
      | .aggregate (.pairing p) =>
          return .pairing p (← elements (.pairing p) (pair item) (pair? item))
      | .blob role => return .blob role (← joinedBlob role)
      | .simple role =>
          let (_, text) ← (Gather.simple role).collected
          return .simple role text
      | .verbatim =>
          let (format, text) ← Gather.verbatim.collected
          return .verbatim format text
      | .bigNumber => return .bigNumber (← bigNumber)
      | .boolean => return .boolean (← boolean)
      | .double => return .double (← double)
      | .integer => return .integer (← integer)
      | .null =>
          null
          return .null
      | .chunk => Step.violate (.misplaced .chunk)
      | .close => Step.violate (.misplaced .close)

/-- The next value. The outermost value is no nesting yet. -/
def value : Read Value := do
  valueWithin ((← getOptions).maxDepth + 1)

end Reader

end RespWire

import RespWire.Bytes

/-!
# Kinds

The first octet of a value says what kind of value follows. There are
seventeen, in five families: aggregates, which announce how many elements
follow; blobs, which announce how many octets follow; simple lines; scalars;
and the two markers that only have a place inside a stream, the chunk of a
blob and the close of an aggregate.

Strings and errors come in the same two shapes, so blob and simple kinds
carry a `Role` instead of being listed twice.
-/

namespace RespWire

/-- Whether a text reports a result or a failure. -/
inductive Role where
  | string
  | error
  deriving DecidableEq, Repr

/-- The aggregates of single elements. -/
inductive Sequence where
  | array
  | push
  | set
  deriving DecidableEq, Repr

/-- The aggregates of key and value pairs. -/
inductive Pairing where
  | map
  | attributes
  deriving DecidableEq, Repr

/-- A kind whose header counts the values nested in it. -/
inductive Aggregate where
  | sequence (s : Sequence)
  | pairing (p : Pairing)
  deriving DecidableEq, Repr

/-- How many values one counted element of an aggregate holds. -/
def Aggregate.width : Aggregate → Nat
  | .sequence _ => 1
  | .pairing _ => 2

/-- What the first octet of a value announces. -/
inductive Kind where
  | aggregate (a : Aggregate)
  | blob (role : Role)
  | simple (role : Role)
  | verbatim
  | bigNumber
  | boolean
  | double
  | integer
  | null
  /-- One piece of a streamed blob. -/
  | chunk
  /-- The close of a streamed aggregate. -/
  | close
  deriving DecidableEq, Repr

namespace Kind

@[match_pattern] abbrev array : Kind := .aggregate (.sequence .array)
@[match_pattern] abbrev push : Kind := .aggregate (.sequence .push)
@[match_pattern] abbrev set : Kind := .aggregate (.sequence .set)
@[match_pattern] abbrev map : Kind := .aggregate (.pairing .map)
@[match_pattern] abbrev attributes : Kind := .aggregate (.pairing .attributes)
@[match_pattern] abbrev blobString : Kind := .blob .string
@[match_pattern] abbrev blobError : Kind := .blob .error
@[match_pattern] abbrev simpleString : Kind := .simple .string
@[match_pattern] abbrev simpleError : Kind := .simple .error

/-- Every kind, in the order of the table of kinds. -/
def all : List Kind :=
  [array, attributes, bigNumber, boolean, double, blobError, blobString, chunk,
    close, map, null, integer, push, set, simpleError, simpleString, verbatim]

/-- The character that stands for a kind on the wire. -/
def symbol : Kind → Char
  | array => '*'
  | attributes => '|'
  | bigNumber => '('
  | boolean => '#'
  | double => ','
  | blobError => '!'
  | blobString => '$'
  | chunk => ';'
  | close => '.'
  | map => '%'
  | null => '_'
  | integer => ':'
  | push => '>'
  | set => '~'
  | simpleError => '-'
  | simpleString => '+'
  | verbatim => '='

/-- The first octet of every value of the kind. -/
def lead (k : Kind) : UInt8 := k.symbol.toUInt8

/-- The kind an octet announces, if it announces one. -/
def ofLead? (b : UInt8) : Option Kind := all.find? (·.lead == b)

/-- The name of a kind in reports. -/
def name : Kind → String
  | array => "Array"
  | attributes => "Attribute"
  | bigNumber => "BigNumber"
  | boolean => "Boolean"
  | double => "Double"
  | blobError => "BlobError"
  | blobString => "BlobString"
  | chunk => "BlobChunk"
  | close => "End"
  | map => "Map"
  | null => "Null"
  | integer => "Integer"
  | push => "Push"
  | set => "Set"
  | simpleError => "SimpleError"
  | simpleString => "SimpleString"
  | verbatim => "VerbatimString"

/-- Whether values of the kind hold other values. -/
def isAggregate : Kind → Bool
  | .aggregate _ => true
  | _ => false

theorem mem_all (k : Kind) : k ∈ all := by
  cases k with
  | aggregate a =>
      cases a with
      | sequence s => cases s <;> decide
      | pairing p => cases p <;> decide
  | blob r => cases r <;> decide
  | simple r => cases r <;> decide
  | _ => decide

/-- No two kinds share a first octet, so the octet gives the kind back. -/
theorem ofLead?_lead (k : Kind) : ofLead? k.lead = some k := by
  cases k with
  | aggregate a =>
      cases a with
      | sequence s => cases s <;> decide
      | pairing p => cases p <;> decide
  | blob r => cases r <;> decide
  | simple r => cases r <;> decide
  | _ => decide

theorem lead_of_ofLead? {b : UInt8} {k : Kind} (h : ofLead? b = some k) :
    k.lead = b := by
  simpa using List.find?_some h

end Kind

/-- What the header of an aggregate or a blob announces: a count, or a stream
that runs until it is closed. -/
inductive Length where
  | known (n : Nat)
  | streamed
  deriving DecidableEq, Repr

namespace Length

def isStreamed : Length → Bool
  | streamed => true
  | known _ => false

/-- The count, where there is one. -/
def known? : Length → Option Nat
  | known n => some n
  | streamed => none

end Length

end RespWire

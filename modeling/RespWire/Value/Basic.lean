import RespWire.Decimal.Double
import RespWire.Kind
import RespWire.Text.Utf8

/-!
# Values

A complete value, however it was written. Streams leave no trace: the chunks of
a blob are joined and the elements of an aggregate collected. Pairs keep the
order in which they came, and an attribute is a value of its own that stands
before the value it describes.
-/

namespace RespWire

/-- The three octets that name the format of a verbatim string. -/
structure Format where
  first : UInt8
  second : UInt8
  third : UInt8
  deriving DecidableEq, Repr

namespace Format

def octets (f : Format) : Bytes := [f.first, f.second, f.third]

/-- Plain text. -/
def text : Format := ⟨116, 120, 116⟩

/-- The format that exactly three octets name. -/
def ofBytes? : Bytes → Option Format
  | [a, b, c] => some ⟨a, b, c⟩
  | _ => none

end Format

/-- A complete value. -/
inductive Value where
  | sequence (s : Sequence) (items : List Value)
  | pairing (p : Pairing) (pairs : List (Value × Value))
  | blob (role : Role) (octets : Bytes)
  | simple (role : Role) (line : Bytes)
  | verbatim (format : Format) (text : Bytes)
  | bigNumber (n : Int)
  | boolean (b : Bool)
  | double (x : Double)
  | integer (n : Int64)
  | null

namespace Value

/-- An array. -/
abbrev array (items : List Value) : Value := .sequence .array items

/-- A map. -/
abbrev map (pairs : List (Value × Value)) : Value := .pairing .map pairs

/-- A verbatim string of plain text. -/
def text (octets : Bytes) : Value := .verbatim .text octets

/-- A blob string that holds a text. -/
def ofText (s : String) : Value := .blob .string (Bytes.ofText s)

/-- The kind under which a value is written. -/
def kind : Value → Kind
  | sequence s _ => .aggregate (.sequence s)
  | pairing p _ => .aggregate (.pairing p)
  | blob role _ => .blob role
  | simple role _ => .simple role
  | verbatim .. => .verbatim
  | bigNumber _ => .bigNumber
  | boolean _ => .boolean
  | double _ => .double
  | integer _ => .integer
  | null => .null

def isNull : Value → Bool
  | null => true
  | _ => false

/-- Whether a value reports a failure. -/
def isError : Value → Bool
  | blob .error _ | simple .error _ => true
  | _ => false

/-- The octets of a value that holds octets. -/
def octets? : Value → Option Bytes
  | blob _ octets => some octets
  | simple _ line => some line
  | verbatim _ text => some text
  | _ => none

/-- The octets of a value as text, where they are UTF-8. -/
def text? (v : Value) : Option String :=
  (v.octets?.bind Text.Utf8.decode?).map String.ofList

def integer? : Value → Option Int64
  | integer n => some n
  | _ => none

/-- The elements of an array, push or set. -/
def items? : Value → Option (List Value)
  | sequence _ items => some items
  | _ => none

/-- The pairs of a map or attribute. -/
def pairs? : Value → Option (List (Value × Value))
  | pairing _ pairs => some pairs
  | _ => none

mutual

/-- Equality of values. Doubles are compared as numbers, so a value that holds
one that is not a number does not equal itself. -/
def equals : Value → Value → Bool
  | sequence s items, sequence s' items' => s == s' && itemsEqual items items'
  | pairing p pairs, pairing p' pairs' => p == p' && pairsEqual pairs pairs'
  | blob role octets, blob role' octets' => role == role' && octets == octets'
  | simple role line, simple role' line' => role == role' && line == line'
  | verbatim format text, verbatim format' text' =>
      format == format' && text == text'
  | bigNumber n, bigNumber n' => n == n'
  | boolean b, boolean b' => b == b'
  | double x, double x' => x.equals x'
  | integer n, integer n' => n == n'
  | null, null => true
  | _, _ => false

def itemsEqual : List Value → List Value → Bool
  | [], [] => true
  | v :: vs, v' :: vs' => equals v v' && itemsEqual vs vs'
  | _, _ => false

def pairsEqual : List (Value × Value) → List (Value × Value) → Bool
  | [], [] => true
  | (k, v) :: rest, (k', v') :: rest' =>
      equals k k' && equals v v' && pairsEqual rest rest'
  | _, _ => false

end

end Value

end RespWire

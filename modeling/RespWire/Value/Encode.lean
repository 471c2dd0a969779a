import RespWire.Decimal.Shortest
import RespWire.Fault
import RespWire.Marker
import RespWire.Value.Basic

/-!
# Encoding

The octets of headers, scalars and whole values. Only two things can go wrong:
the text of a simple value may span lines, and the format of a verbatim string
may have the wrong length. The encoding of a value runs through its parts in
the order of the wire and stops at the first part that fails; what it has
written by then is part of its result.
-/

namespace RespWire

/-- The result of encoding. -/
abbrev Encoded := Except Violation Bytes

namespace Encode

/-- The line that announces a count or a length. -/
def countLine (k : Kind) (n : Nat) : Bytes :=
  k.lead :: Decimal.ofNat n ++ Bytes.crlf

/-- A body after the line that announces its length. -/
def counted (k : Kind) (octets : Bytes) : Bytes :=
  countLine k octets.length ++ octets ++ Bytes.crlf

/-- The header of an aggregate. Minus one opens a stream, and other negative
numbers are no counts. -/
def header (a : Aggregate) (n : Int) : Encoded :=
  if n = -1 then .ok ((Kind.aggregate a).streamHeader)
  else if n < 0 then .error .badCount
  else .ok (countLine (.aggregate a) n.toNat)

/-- A text on a line of its own, which it may not leave. -/
def simple (role : Role) (line : Bytes) : Encoded :=
  if line.any fun b => b == Bytes.cr || b == Bytes.lf then .error .multiline
  else .ok ((Kind.simple role).lead :: line ++ Bytes.crlf)

/-- A text after its format and a colon. -/
def verbatim (format : Format) (text : Bytes) : Bytes :=
  counted .verbatim (format.octets ++ ':'.toUInt8 :: text)

/-- A verbatim string whose format comes from elsewhere. -/
def verbatimOf (format text : Bytes) : Encoded :=
  match Format.ofBytes? format with
  | some f => .ok (verbatim f text)
  | none => .error (.badFormat format)

/-- One chunk of a streamed blob. The empty chunk is the last. -/
def chunk (octets : Bytes) : Bytes :=
  if octets.isEmpty then Marker.lastChunk else counted .chunk octets

def bigNumber (n : Int) : Bytes :=
  Kind.bigNumber.lead :: Decimal.ofInt n ++ Bytes.crlf

def integer (n : Int64) : Bytes :=
  Kind.integer.lead :: Decimal.ofInt n.toInt ++ Bytes.crlf

def boolean (b : Bool) : Bytes := if b then Marker.yes else Marker.no

/-- A double in digits, or the fixed form of one that has none. -/
def double (x : Double) : Bytes :=
  if x.isNotANumber then Marker.notANumber
  else if x.isInfinite then
    if x.isNegative then Marker.minusInfinity else Marker.infinity
  else Kind.double.lead :: x.text ++ Bytes.crlf

end Encode

/-- What an encoding has written, and the violation that stopped it, if any. -/
structure Encoding where
  written : Bytes
  stopped : Option Violation
  deriving DecidableEq, Repr

namespace Encoding

/-- A part that is there in full. -/
def whole (octets : Bytes) : Encoding := ⟨octets, none⟩

/-- A part that is there in full or not at all. -/
def ofEncoded : Encoded → Encoding
  | .ok octets => whole octets
  | .error v => ⟨[], some v⟩

/-- Goes on with another encoding unless the first has stopped. -/
def andThen (first second : Encoding) : Encoding :=
  match first.stopped with
  | some _ => first
  | none => ⟨first.written ++ second.written, second.stopped⟩

/-- The octets of an encoding that was not stopped. -/
def result (e : Encoding) : Encoded :=
  match e.stopped with
  | some v => .error v
  | none => .ok e.written

end Encoding

namespace Value

mutual

/-- The encoding of a value and of all that is nested in it. -/
def encoding : Value → Encoding
  | .sequence s items =>
      (Encoding.whole
        (Encode.countLine (.aggregate (.sequence s)) items.length)).andThen
        (itemsEncoding items)
  | .pairing p pairs =>
      (Encoding.whole
        (Encode.countLine (.aggregate (.pairing p)) pairs.length)).andThen
        (pairsEncoding pairs)
  | .blob role octets => .whole (Encode.counted (.blob role) octets)
  | .simple role line => .ofEncoded (Encode.simple role line)
  | .verbatim format text => .whole (Encode.verbatim format text)
  | .bigNumber n => .whole (Encode.bigNumber n)
  | .boolean b => .whole (Encode.boolean b)
  | .double x => .whole (Encode.double x)
  | .integer n => .whole (Encode.integer n)
  | .null => .whole Marker.null

def itemsEncoding : List Value → Encoding
  | [] => .whole []
  | v :: vs => (encoding v).andThen (itemsEncoding vs)

def pairsEncoding : List (Value × Value) → Encoding
  | [] => .whole []
  | (k, v) :: rest =>
      ((encoding k).andThen (encoding v)).andThen (pairsEncoding rest)

end

/-- The octets of a value, if it can be written. -/
def encode (v : Value) : Encoded := v.encoding.result

/-- Appends the encoding of a value to octets; what was written stays also
where the encoding was stopped. -/
def encodeOnto (v : Value) (before : Bytes) : Bytes × Except Violation Unit :=
  (before ++ v.encoding.written, v.encode.map fun _ => ())

end Value

end RespWire

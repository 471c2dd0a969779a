import RespWire.Decimal.Double

/-!
# Decimal literals

A double is written as digits with at most one point among or beside them, and
an optional exponent; a sign may come first. Infinity and what is not a number
are written as words, in capital or small letters. Every other text is none.

The value is the double nearest to the decimal number, from the middle between
two to the one with the even significand, however many digits there are.
-/

namespace RespWire.Decimal

/-- The run of digits at the front. -/
def leadingDigits (text : Bytes) : Bytes := text.takeWhile isDigit

/-- What follows the run of digits at the front. -/
def afterDigits (text : Bytes) : Bytes := text.dropWhile isDigit

/-- Takes a sign off the front; the answer says whether it is a minus. -/
def signed (text : Bytes) : Bool × Bytes :=
  match text with
  | b :: rest =>
      if b = minus then (true, rest)
      else if b = plus then (false, rest)
      else (false, text)
  | [] => (false, [])

/-- The value of the digits of an exponent. Once it has reached 65536 further
digits no longer count. -/
def exponentValue (ds : Bytes) : Nat :=
  ds.foldl (fun n b => if n < 65536 then n * 10 + digitValue b else n) 0

/-- The exponent that a text consists of, after the letter that announces it. -/
def exponentOf? (text : Bytes) : Option Int :=
  let (negative, ds) := signed text
  if ds.isEmpty || !ds.all isDigit then none
  else some (if negative then -exponentValue ds else exponentValue ds)

/-- The exponent at the end of a literal: none at all, or a letter and a
number. -/
def scale? (text : Bytes) : Option Int :=
  match text with
  | [] => some 0
  | b :: rest =>
      if b = 'e'.toUInt8 || b = 'E'.toUInt8 then exponentOf? rest else none

/-- The digits of a literal before and behind the point, and what follows. -/
def places (text : Bytes) : Bytes × Bytes × Bytes :=
  let whole := leadingDigits text
  match afterDigits text with
  | b :: rest =>
      if b = '.'.toUInt8 then (whole, leadingDigits rest, afterDigits rest)
      else (whole, [], b :: rest)
  | [] => (whole, [], [])

/-- The literal that a text without a sign consists of. -/
def literal? (text : Bytes) : Option Scaled :=
  let (whole, behind, rest) := places text
  if whole.isEmpty && behind.isEmpty then none
  else (scale? rest).map fun e => ⟨value (whole ++ behind), e - behind.length⟩

/-- An octet with capital letters made small. -/
def lower (b : UInt8) : UInt8 := if 65 ≤ b && b ≤ 90 then b + 32 else b

/-- The magnitude that a word names. -/
def word? (text : Bytes) : Option Nat :=
  let word := text.map lower
  if word = Bytes.ofChars ['i', 'n', 'f'] then some Double.infinity
  else if word = Bytes.ofChars ['i', 'n', 'f', 'i', 'n', 'i', 't', 'y'] then
    some Double.infinity
  else if word = Bytes.ofChars ['n', 'a', 'n'] then
    some Double.notANumber.magnitude
  else none

/-- The magnitude that a text without a sign denotes. -/
def magnitude? (text : Bytes) : Option Nat :=
  match literal? text with
  | some l => some (Double.nearestDecimal l)
  | none => word? text

end RespWire.Decimal

namespace RespWire.Double

/-- The double that a text denotes. -/
def ofText? (text : Bytes) : Option Double :=
  let (negative, rest) := Decimal.signed text
  (Decimal.magnitude? rest).map (ofMagnitude negative)

end RespWire.Double

import RespWire.Decimal.Digits
import RespWire.Text.Extending
import RespWire.Text.Printable
import RespWire.Text.Utf8

/-!
# Quoted text

Text between quotes in which every character can be told from every other: a
character that has no printed form, or that would be drawn on its neighbour,
is written as its code point in hexadecimal. Octets that are not text have two
forms of their own, a list of numbers and a quoted form with hexadecimal
octets.
-/

namespace RespWire.Text

/-- The digits of a number in hexadecimal. -/
def hex (n : Nat) : List Char := Nat.toDigits 16 n

/-- The spelling of a character between two `quote`s. -/
def escape (quote c : Char) : List Char :=
  if c = '\x00' then ['\\', '0']
  else if c = '\t' then ['\\', 't']
  else if c = '\r' then ['\\', 'r']
  else if c = '\n' then ['\\', 'n']
  else if c = '\\' || c = quote then ['\\', c]
  else if isExtending c || !isPrintable c then
    ['\\', 'u', '{'] ++ hex c.toNat ++ ['}']
  else [c]

/-- A text between double quotes. -/
def quoted (cs : List Char) : String :=
  String.ofList ('"' :: cs.flatMap (escape '"') ++ ['"'])

/-- A character between single quotes. -/
def quotedChar (c : Char) : String :=
  String.ofList ('\'' :: escape '\'' c ++ ['\''])

/-- The spelling of an octet in a quoted run of octets. -/
def escapeOctet (b : UInt8) : List Char :=
  if b = 10 then ['\\', 'n']
  else if b = 13 then ['\\', 'r']
  else if b = 9 then ['\\', 't']
  else if b = 92 || b = 34 then ['\\', Char.ofNat b.toNat]
  else if b = 0 then ['\\', '0']
  else if 32 ≤ b && b < 127 then [Char.ofNat b.toNat]
  else ['\\', 'x'] ++ hex (b.toNat / 16) ++ hex (b.toNat % 16)

/-- A run of octets between double quotes, marked as octets. -/
def quotedOctets (bs : Bytes) : String :=
  String.ofList (['b', '"'] ++ bs.flatMap escapeOctet ++ ['"'])

/-- A run of octets as a list of numbers. -/
def listedOctets (bs : Bytes) : String :=
  "[" ++ ", ".intercalate (bs.map fun b => Decimal.showNat b.toNat) ++ "]"

/-- Any octets as text, with replacement characters where they are not UTF-8. -/
def lossy (bs : Bytes) : String := String.ofList (Utf8.decodeLossy bs)

/-- Any octets as quoted text. -/
def quotedLossy (bs : Bytes) : String := quoted (Utf8.decodeLossy bs)

example : quotedChar '"' = "'\"'" ∧ quotedChar '\'' = "'\\''" := by cbv

end RespWire.Text

import RespWire.Bytes

/-!
# Decimal digits

Whole numbers as the octets of their decimal digits, most significant first,
and the value of such a run of digits.
-/

namespace RespWire.Decimal

/-- The octet of a digit. -/
def digit (d : Nat) : UInt8 := UInt8.ofNat (48 + d)

/-- Whether an octet is one of the ten digits. -/
def isDigit (b : UInt8) : Bool := 48 ≤ b && b ≤ 57

/-- The digit an octet stands for. -/
def digitValue (b : UInt8) : Nat := b.toNat - 48

/-- Puts the digits of `n` in front of `rest`. -/
def digitsOnto (n : Nat) (rest : Bytes) : Bytes :=
  if n < 10 then digit n :: rest
  else digitsOnto (n / 10) (digit (n % 10) :: rest)

/-- The digits of a natural number, without leading zeros. -/
def ofNat (n : Nat) : Bytes := digitsOnto n []

def minus : UInt8 := '-'.toUInt8

def plus : UInt8 := '+'.toUInt8

/-- The digits of an integer, after a minus sign where it is negative. -/
def ofInt : Int → Bytes
  | .ofNat n => ofNat n
  | .negSucc n => minus :: ofNat (n + 1)

/-- The number that a run of digits denotes, continuing from `start`. -/
def valueFrom (start : Nat) (ds : Bytes) : Nat :=
  ds.foldl (fun n b => n * 10 + digitValue b) start

/-- The number that a run of digits denotes. -/
def value (ds : Bytes) : Nat := valueFrom 0 ds

/-- A decimal number: a coefficient and the power of ten that scales it. -/
structure Scaled where
  coefficient : Nat
  power : Int
  deriving DecidableEq, Repr

/-- How many digits a number has. -/
def digitCount (n : Nat) : Nat := (ofNat n).length

/-- The octets of decimal text as text. -/
def toText (ds : Bytes) : String :=
  String.ofList (ds.map fun b => Char.ofNat b.toNat)

/-- A natural number as text. -/
def showNat (n : Nat) : String := toText (ofNat n)

/-- An integer as text. -/
def showInt (n : Int) : String := toText (ofInt n)

end RespWire.Decimal

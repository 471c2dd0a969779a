import RespWire.Decimal.Digits

/-!
# Doubles

A double is its 64 bits: a sign, eleven bits of exponent and fifty-two of
fraction. Apart from the sign the bits are a natural number, the magnitude,
and magnitudes are in the order of the values they stand for. So rounding a
fraction to a double is finding one magnitude, `nearest`, and overflow needs no
care: the magnitude after the greatest finite one is infinity.
-/

namespace RespWire

/-- A 64-bit floating point number, by its bits. -/
structure Double where
  bits : UInt64
  deriving DecidableEq, Repr

namespace Double

/-- The magnitude of infinity; what lies above it is not a number. -/
def infinity : Nat := 0x7FF0000000000000

/-- The double of a sign and a magnitude. -/
def ofMagnitude (negative : Bool) (m : Nat) : Double :=
  ⟨UInt64.ofNat ((if negative then 0x8000000000000000 else 0) + m)⟩

/-- The one result that stands for all that are not numbers. -/
def notANumber : Double := ofMagnitude false 0x7FF8000000000000

def isNegative (x : Double) : Bool := 0x8000000000000000 ≤ x.bits.toNat

/-- The bits without the sign. -/
def magnitude (x : Double) : Nat := x.bits.toNat % 0x8000000000000000

def isNotANumber (x : Double) : Bool := infinity < x.magnitude

def isInfinite (x : Double) : Bool := x.magnitude == infinity

/-- Equality of values: the two zeros are one, and what is not a number equals
nothing. -/
def equals (x y : Double) : Bool :=
  !x.isNotANumber && !y.isNotANumber
    && (x.bits == y.bits || (x.magnitude == 0 && y.magnitude == 0))

/-- The whole number that a finite magnitude scales by a power of two. -/
def significand (m : Nat) : Nat :=
  if m / 0x10000000000000 = 0 then m
  else 0x10000000000000 + m % 0x10000000000000

/-- The exponent of the power of two that scales the significand. -/
def exponent (m : Nat) : Int := (max 1 (m / 0x10000000000000) : Nat) - 1075

/-- A finite magnitude as a fraction. -/
def fraction (m : Nat) : Nat × Nat :=
  let q := exponent m
  if 0 ≤ q then (significand m <<< q.toNat, 1)
  else (significand m, 1 <<< (-q).toNat)

/-- The quotient to the nearest whole number, from the middle to the even
one. -/
def roundDiv (num den : Nat) : Nat :=
  let quotient := num / den
  let rest := num % den
  if 2 * rest < den then quotient
  else if den < 2 * rest then quotient + 1
  else quotient + quotient % 2

/-- Whether `num / den` is at least two to the power `k`. -/
def reachesPower (num den : Nat) (k : Int) : Bool :=
  if 0 ≤ k then den <<< k.toNat ≤ num else den ≤ num <<< (-k).toNat

/-- The exponent of the greatest power of two that is at most `num / den`. -/
def floorLog2 (num den : Nat) : Int :=
  let k : Int := (Nat.log2 num : Int) - Nat.log2 den
  if reachesPower num den k then k else k - 1

/-- The magnitude nearest to `num / den`, from the middle to the even one. -/
def nearest (num den : Nat) : Nat :=
  if num = 0 then 0
  else
    let q := max (floorLog2 num den - 52) (-1074)
    let m :=
      if 0 ≤ q then roundDiv num (den <<< q.toNat)
      else roundDiv (num <<< (-q).toNat) den
    min ((q + 1074).toNat * 0x10000000000000 + m) infinity

/-- The magnitude nearest to a decimal number. Far outside the range of doubles
the answer is known without the power of ten. -/
def nearestDecimal (s : Decimal.Scaled) : Nat :=
  let top := (Decimal.digitCount s.coefficient : Int) + s.power
  if s.coefficient = 0 || top < -400 then 0
  else if 400 < top then infinity
  else if 0 ≤ s.power then nearest (s.coefficient * Nat.pow 10 s.power.toNat) 1
  else nearest s.coefficient (Nat.pow 10 (-s.power).toNat)

end Double

end RespWire

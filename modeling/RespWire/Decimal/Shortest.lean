import RespWire.Decimal.Double

/-!
# Shortest digits

A finite double is written with the fewest digits that read back as the same
double. Among the decimals with that many digits that do, it is the one
nearest to the double, and of two equally near the greater.

For a number of digits the search looks at the two decimals around the double
and asks of each whether it reads back. Should no decimal with up to seventeen
digits do, all digits of the exact value are written, which always reads back.
The digits are written out in full, without an exponent.
-/

namespace RespWire

namespace Double

open Decimal (Scaled)

/-- The exponent of the greatest power of ten that is at most `num / den`. -/
def floorLog10 (num den : Nat) : Int :=
  if den ≤ num then (Decimal.digitCount (num / den) : Int) - 1
  else -(Decimal.digitCount ((den + num - 1) / num - 1) : Int)

/-- The quotient `num / (den * 10 ^ p)` rounded down. -/
def floorAt (num den : Nat) (p : Int) : Nat :=
  if 0 ≤ p then num / (den * Nat.pow 10 p.toNat)
  else num * Nat.pow 10 (-p).toNat / den

/-- Whether `num / den` lies below the middle between `c` and `c + 1` at the
power `p`. -/
def belowMiddle (num den c : Nat) (p : Int) : Bool :=
  if 0 ≤ p then 2 * num < (2 * c + 1) * (den * Nat.pow 10 p.toNat)
  else 2 * (num * Nat.pow 10 (-p).toNat) < (2 * c + 1) * den

/-- The decimal of the power `p` that reads back as the magnitude `m`, the
nearer one where two do. -/
def atPower? (m : Nat) (p : Int) : Option Scaled :=
  let (num, den) := fraction m
  let low := floorAt num den p
  match nearestDecimal ⟨low, p⟩ == m, nearestDecimal ⟨low + 1, p⟩ == m with
  | true, true => some ⟨if belowMiddle num den low p then low else low + 1, p⟩
  | true, false => some ⟨low, p⟩
  | false, true => some ⟨low + 1, p⟩
  | false, false => none

/-- All digits of a finite magnitude. -/
def exact (m : Nat) : Scaled :=
  let q := exponent m
  if 0 ≤ q then ⟨significand m <<< q.toNat, 0⟩
  else ⟨significand m * Nat.pow 5 (-q).toNat, q⟩

/-- Takes zeros off the end of the coefficient. -/
def trim (c : Nat) (p : Int) : Scaled :=
  if h : 0 < c ∧ c % 10 = 0 then trim (c / 10) (p + 1) else ⟨c, p⟩
termination_by c
decreasing_by omega

/-- The shortest decimal that reads back as a finite magnitude above zero. -/
def shortest (m : Nat) : Scaled :=
  let (num, den) := fraction m
  let top := floorLog10 num den
  let found := (List.range 17).findSome? fun (i : Nat) => atPower? m (top - i)
  let s := found.getD (exact m)
  trim s.coefficient s.power

/-- A decimal number written out, with a point only where digits follow it. -/
def positional (s : Scaled) : Bytes :=
  let ds := Decimal.ofNat s.coefficient
  if 0 ≤ s.power then ds ++ List.replicate s.power.toNat (Decimal.digit 0)
  else
    let places := (-s.power).toNat
    let point := '.'.toUInt8
    if places < ds.length then
      ds.take (ds.length - places) ++ point :: ds.drop (ds.length - places)
    else
      Decimal.digit 0 :: point ::
        List.replicate (places - ds.length) (Decimal.digit 0) ++ ds

/-- A finite double in digits. -/
def text (x : Double) : Bytes :=
  let digits :=
    if x.magnitude = 0 then [Decimal.digit 0]
    else positional (shortest x.magnitude)
  if x.isNegative then Decimal.minus :: digits else digits

/-- Any double in digits or in a word. -/
def display (x : Double) : String :=
  if x.isNotANumber then "NaN"
  else if x.isInfinite then if x.isNegative then "-inf" else "inf"
  else Decimal.toText x.text

end Double

end RespWire

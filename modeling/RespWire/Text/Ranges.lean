/-!
# Ranges of characters

A property of characters as the list of the code point ranges that have it,
both ends included, in ascending order. The order is what lets a look-up stop
early: plain text is decided by the first range or two.
-/

namespace RespWire.Text

/-- Code point ranges, both ends included. -/
abbrev Ranges := List (Nat × Nat)

/-- Whether a code point lies in one of the ranges, which ascend. -/
def Ranges.covers (code : Nat) : Ranges → Bool
  | [] => false
  | (low, high) :: rest =>
      if code < low then false else code ≤ high || Ranges.covers code rest

end RespWire.Text

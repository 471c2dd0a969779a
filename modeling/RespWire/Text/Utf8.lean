import RespWire.Bytes

/-!
# UTF-8

Octets as characters. Decoding never fails as a whole: it answers a list with
one entry per character and one empty entry per place where the octets are
not UTF-8. Such a place is as long as can be, the longest run of octets that
starts a character without finishing it, or a single octet that starts none.
A text is well formed when no entry is empty; to show any octets at all, the
empty entries become the replacement character.
-/

namespace RespWire.Text.Utf8

/-- What the first octet of a longer character asks for: how many octets are
to follow, the range of the first of them, and the leading bits of the code. -/
structure Lead where
  followers : Nat
  low : UInt8
  high : UInt8
  code : Nat

/-- The first octets of characters of two, three and four octets. The ranges
keep out overlong forms, surrogates and codes above the last character. -/
def lead? (b : UInt8) : Option Lead :=
  if 0xC2 ≤ b && b ≤ 0xDF then some ⟨1, 0x80, 0xBF, b.toNat - 0xC0⟩
  else if b == 0xE0 then some ⟨2, 0xA0, 0xBF, 0⟩
  else if b == 0xED then some ⟨2, 0x80, 0x9F, 0xD⟩
  else if 0xE1 ≤ b && b ≤ 0xEF then some ⟨2, 0x80, 0xBF, b.toNat - 0xE0⟩
  else if b == 0xF0 then some ⟨3, 0x90, 0xBF, 0⟩
  else if 0xF1 ≤ b && b ≤ 0xF3 then some ⟨3, 0x80, 0xBF, b.toNat - 0xF0⟩
  else if b == 0xF4 then some ⟨3, 0x80, 0x8F, 4⟩
  else none

/-- Reads `n` further octets of a character, the first of them between `low`
and `high`, and answers the character, if it is complete, and the rest. -/
def follow : Nat → UInt8 → UInt8 → Nat → Bytes → Option Char × Bytes
  | 0, _, _, code, rest => (some (Char.ofNat code), rest)
  | _ + 1, _, _, _, [] => (none, [])
  | n + 1, low, high, code, b :: rest =>
      if low ≤ b && b ≤ high then
        follow n 0x80 0xBF (code * 64 + (b.toNat - 0x80)) rest
      else (none, b :: rest)

/-- Reads one entry that starts with the octet `b`. -/
def next (b : UInt8) (rest : Bytes) : Option Char × Bytes :=
  if b < 0x80 then (some (Char.ofNat b.toNat), rest)
  else
    match lead? b with
    | some l => follow l.followers l.low l.high l.code rest
    | none => (none, rest)

theorem length_follow_le (n : Nat) (low high : UInt8) (code : Nat)
    (rest : Bytes) :
    (follow n low high code rest).2.length ≤ rest.length := by
  induction n generalizing low high code rest with
  | zero => simp [follow]
  | succ n ih =>
      cases rest with
      | nil => simp [follow]
      | cons b rest =>
          rw [follow]
          split
          · exact Nat.le_succ_of_le (ih ..)
          · exact Nat.le_refl _

theorem length_next_le (b : UInt8) (rest : Bytes) :
    (next b rest).2.length ≤ rest.length := by
  rw [next]
  split
  · exact Nat.le_refl _
  · split
    · exact length_follow_le ..
    · exact Nat.le_refl _

/-- The entries of a run of octets, empty where the octets are not UTF-8. -/
def entries : Bytes → List (Option Char)
  | [] => []
  | b :: rest => (next b rest).1 :: entries (next b rest).2
termination_by bytes => bytes.length
decreasing_by exact Nat.lt_succ_of_le (length_next_le b rest)

/-- The characters of a run of octets that is UTF-8 throughout. -/
def decode? (bytes : Bytes) : Option (List Char) := (entries bytes).mapM id

/-- The character shown where octets are not UTF-8. -/
def replacement : Char := '\uFFFD'

/-- The characters of any run of octets. -/
def decodeLossy (bytes : Bytes) : List Char :=
  (entries bytes).map fun entry => entry.getD replacement

end RespWire.Text.Utf8

/-!
# Bytes

Everything on the wire is a list of octets. Lists rather than packed arrays:
the reader only ever looks at the front of what it holds, and a statement
about what is still to come is then a statement about `++`.
-/

namespace RespWire

/-- A run of octets, first octet first. -/
abbrev Bytes := List UInt8

namespace Bytes

/-- The octets of a text whose characters are all below 256. -/
def ofChars (cs : List Char) : Bytes := cs.map Char.toUInt8

/-- The UTF-8 form of a text. -/
def ofText (s : String) : Bytes := s.toUTF8.data.toList

/-- Carriage return. -/
def cr : UInt8 := 13

/-- Line feed. -/
def lf : UInt8 := 10

/-- The end of every line on the wire. -/
def crlf : Bytes := [cr, lf]

@[simp] theorem length_crlf : crlf.length = 2 := rfl

end Bytes

end RespWire

import RespWire.Kind

/-!
# Fixed forms

The lines that are the same wherever they occur. The reader recognises them
by a single look ahead and the writer sends them as they stand.

Besides the forms of its own, the reader accepts the two nulls of the earlier
protocol version: an array or a blob string of length minus one.
-/

namespace RespWire

/-- The version of this library. -/
def version : String := "0.1.0"

/-- The version of the wire protocol. -/
def protocolVersion : Nat := 3

/-- The number of octets in the format of a verbatim string. -/
def formatLength : Nat := 3

namespace Marker

/-- Stands for the count in the header of a stream. -/
def streamed : Bytes := .ofChars ['?']

def null : Bytes := .ofChars ['_', '\r', '\n']

def close : Bytes := .ofChars ['.', '\r', '\n']

def yes : Bytes := .ofChars ['#', 't', '\r', '\n']

def no : Bytes := .ofChars ['#', 'f', '\r', '\n']

def infinity : Bytes := .ofChars [',', 'i', 'n', 'f', '\r', '\n']

def minusInfinity : Bytes := .ofChars [',', '-', 'i', 'n', 'f', '\r', '\n']

def notANumber : Bytes := .ofChars [',', 'n', 'a', 'n', '\r', '\n']

/-- The empty chunk that closes a streamed blob. -/
def lastChunk : Bytes := .ofChars [';', '0', '\r', '\n']

def nullArray : Bytes := .ofChars ['*', '-', '1', '\r', '\n']

def nullBlob : Bytes := .ofChars ['$', '-', '1', '\r', '\n']

end Marker

namespace Kind

/-- The line that opens a stream of the kind. -/
def streamHeader (k : Kind) : Bytes := k.lead :: Marker.streamed ++ Bytes.crlf

/-- The line that opens a stream, for the kinds that can be streamed. -/
def streamHeader? : Kind → Option Bytes
  | .aggregate a => some (Kind.aggregate a).streamHeader
  | .blob role => some (Kind.blob role).streamHeader
  | _ => none

/-- The null that the earlier protocol version wrote with the header of the
kind. -/
def earlierNull? : Kind → Option Bytes
  | array => some Marker.nullArray
  | blobString => some Marker.nullBlob
  | _ => none

end Kind

end RespWire

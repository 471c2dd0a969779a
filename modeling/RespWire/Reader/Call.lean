import RespWire.Reader.Skip

/-!
# Calls of a reader

The reads that a caller can ask for, as data, and what they answer. All of them
act on a reader and one destination; only the reads of octets touch the
destination.
-/

namespace RespWire

namespace Reader

/-- A read that a caller can ask for. -/
inductive Call where
  | peek
  | header (a : Aggregate)
  | blob (role : Role)
  | chunk
  | chunks
  | simple (role : Role)
  | verbatim
  | bigNumber
  | boolean
  | double
  | integer
  | close
  | null
  | value
  | skip (deep : Bool)
  deriving DecidableEq, Repr

/-- What a read answers. -/
inductive Answer where
  | done
  | kind (k : Kind)
  | length (n : Length)
  /-- Whether a chunk was the last. -/
  | last (isLast : Bool)
  | format (f : Format)
  | bigNumber (n : Int)
  | boolean (b : Bool)
  | double (x : Double)
  | integer (n : Int64)
  | value (v : Value)

namespace Call

/-- Makes a call. -/
def make : Call → Gather Answer
  | peek => return .kind (← Reader.peek)
  | header a => return .length (← Reader.header a)
  | blob role => return .length (← Gather.blob role)
  | chunk => return .last (← Gather.chunk)
  | chunks => do
      Gather.chunks
      return .done
  | simple role => do
      Gather.simple role
      return .done
  | verbatim => return .format (← Gather.verbatim)
  | bigNumber => return .bigNumber (← Reader.bigNumber)
  | boolean => return .boolean (← Reader.boolean)
  | double => return .double (← Reader.double)
  | integer => return .integer (← Reader.integer)
  | close => do
      Reader.close
      return .done
  | null => do
      Reader.null
      return .done
  | value => return .value (← Reader.value)
  | skip deep => return .kind (← Reader.skip deep)

end Call

end Reader

end RespWire

import RespWire.Writer.Basic

/-!
# Writing

The calls of a writer. Each call but a flush has an encoding that depends on
its arguments alone, `encoded`. How a call is made is another matter: where its
form is fixed it is sent as it stands, and everything else is put together
first, `perform`.
-/

namespace RespWire

namespace Writer

/-- A call of a writer. -/
inductive Call where
  /-- The header of an aggregate; minus one opens a stream. -/
  | header (a : Aggregate) (n : Int)
  | openAggregate (a : Aggregate)
  | openBlob (role : Role)
  /-- The close of a streamed aggregate. -/
  | close
  | blob (role : Role) (octets : Bytes)
  | chunk (octets : Bytes)
  | verbatim (format text : Bytes)
  | simple (role : Role) (line : Bytes)
  | bigNumber (n : Int)
  | boolean (b : Bool)
  | double (x : Double)
  | integer (n : Int64)
  | null
  | value (v : Value)
  | flush

namespace Call

/-- What a call sends. A flush sends nothing. -/
def encoded : Call → Encoded
  | header a n => Encode.header a n
  | openAggregate a => .ok ((Kind.aggregate a).streamHeader)
  | openBlob role => .ok ((Kind.blob role).streamHeader)
  | close => .ok Marker.close
  | blob role octets => .ok (Encode.counted (.blob role) octets)
  | chunk octets => .ok (Encode.chunk octets)
  | verbatim format text => Encode.verbatimOf format text
  | simple role line => Encode.simple role line
  | bigNumber n => .ok (Encode.bigNumber n)
  | boolean b => .ok (Encode.boolean b)
  | double x => .ok (Encode.double x)
  | integer n => .ok (Encode.integer n)
  | null => .ok Marker.null
  | value v => v.encode
  | flush => .ok []

/-- Makes a call. -/
def perform : Call → Step Writer Unit
  | header a n =>
      if n = -1 then sendForm ((Kind.aggregate a).streamHeader)
      else emit (.ofEncoded (Encode.header a n))
  | openAggregate a => sendForm ((Kind.aggregate a).streamHeader)
  | openBlob role => sendForm ((Kind.blob role).streamHeader)
  | close => sendForm Marker.close
  | blob role octets => emit (.whole (Encode.counted (.blob role) octets))
  | chunk octets =>
      if octets.isEmpty then sendForm Marker.lastChunk
      else emit (.whole (Encode.counted .chunk octets))
  | verbatim format text => emit (.ofEncoded (Encode.verbatimOf format text))
  | simple role line => emit (.ofEncoded (Encode.simple role line))
  | bigNumber n => emit (.whole (Encode.bigNumber n))
  | boolean b => sendForm (Encode.boolean b)
  | double x =>
      if x.isNotANumber || x.isInfinite then sendForm (Encode.double x)
      else emit (.whole (Encode.double x))
  | integer n => emit (.whole (Encode.integer n))
  | null => sendForm Marker.null
  | value v => emit v.encoding
  | flush => onSink Sink.flush

end Call

end Writer

end RespWire

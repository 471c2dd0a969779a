import RespWire.Kind
import RespWire.Text.Quoted

/-!
# Faults

Why a read or a write fails. Three causes are kept apart because a caller
treats them differently: the input ended between two values, the octets or
the arguments do not follow the protocol, or the source or the sink failed.

A fault records the cause; its wording is given by `message` alone, and its
class, which decides whether the stream can still be used, by `faultClass`.
-/

namespace RespWire

/-- The ways in which a source or a sink fails. -/
inductive IoKind where
  | wouldBlock
  | interrupted
  | connectionReset
  | brokenPipe
  | timedOut
  | unexpectedEof
  | writeZero
  | other
  deriving DecidableEq, Repr

/-- A failure of a source or a sink. -/
structure IoFailure where
  kind : IoKind
  message : String
  deriving DecidableEq, Repr

/-- What was missing where a line had to end, or where the input ended. -/
inductive Cut where
  /-- The input ended before a value of the kind. -/
  | noValue (wanted : Kind)
  /-- The input ended before the end of the line. -/
  | noLineEnd
  /-- These two octets stand where the end of the line was due. -/
  | wrongLineEnd (found : Bytes)
  /-- A line feed ended the line without a carriage return. -/
  | bareLineFeed
  /-- The input ended inside a number. -/
  | noNumber
  /-- A number has no digits. -/
  | emptyNumber
  /-- The input ended this many octets before the end of a body. -/
  | shortBody (missing : Nat)
  /-- The input ended inside a boolean. -/
  | noBoolean
  /-- A line that has to hold a number is empty. -/
  | emptyLine
  /-- The input ended before an element of an aggregate. -/
  | noElement
  /-- The input ended inside a streamed aggregate. -/
  | noElementOrClose
  /-- A description from elsewhere. -/
  | described (text : String)
  deriving DecidableEq, Repr

/-- The ways in which octets or arguments break the protocol. -/
inductive Violation where
  | cut (c : Cut)
  /-- The octet announces no kind. -/
  | unknownKind (lead : UInt8)
  | unexpectedKind (wanted got : Kind)
  /-- A chunk or a close where a value is due. -/
  | misplaced (kind : Kind)
  /-- The count of an aggregate is negative or not a number. -/
  | badCount
  /-- The length of a blob is negative. -/
  | negativeLength (n : Int)
  | badBoolean (found : UInt8)
  | badDouble (line : Bytes)
  /-- An octet that is no digit in a number. -/
  | badDigit (found : UInt8)
  /-- A number outside the range of 64 bits. -/
  | overflow
  | badBigNumber (line : Bytes)
  /-- The body of a verbatim string does not start with a format and a colon. -/
  | badVerbatim (start : Bytes)
  /-- The format given for a verbatim string has the wrong length. -/
  | badFormat (format : Bytes)
  /-- The text given for a simple value spans lines. -/
  | multiline
  | tooLarge (size limit : Nat)
  | tooDeep (maxDepth : Nat)
  deriving DecidableEq, Repr

/-- Why a read or a write failed. -/
inductive Fault where
  /-- The input ended between two values. -/
  | endOfInput
  | violation (v : Violation)
  | io (failure : IoFailure)
  deriving DecidableEq, Repr

/-- What a fault means for the rest of the stream. -/
inductive FaultClass where
  | endOfInput
  | framing
  | type
  | grammar
  | limit
  | io
  deriving DecidableEq, Repr

/-- How the end of a line is spelt in reports. -/
def lineEndText : String := "\\r\\n"

namespace Cut

def message : Cut → String
  | noValue wanted => "expected value of type " ++ wanted.name ++ ", got EOF"
  | noLineEnd => "expected " ++ lineEndText ++ ", got EOF"
  | wrongLineEnd found =>
      "expected " ++ lineEndText ++ ", got " ++ Text.quotedLossy found
  | bareLineFeed => "line not terminated by " ++ lineEndText
  | noNumber => "expected number, got EOF"
  | emptyNumber => "expected number, got empty value"
  | shortBody missing =>
      "expected " ++ Decimal.showNat missing ++ " more bytes, got EOF"
  | noBoolean => "expected boolean, got EOF"
  | emptyLine => "missing value"
  | noElement => "expected value, got EOF"
  | noElementOrClose => "expected value or end, got EOF"
  | described text => text

end Cut

namespace Violation

/-- An octet as the character of the same code, quoted. -/
def quotedOctet (b : UInt8) : String := Text.quotedChar (Char.ofNat b.toNat)

def message : Violation → String
  | cut c => "unexpected end of line: " ++ c.message
  | unknownKind lead => "invalid type: " ++ quotedOctet lead
  | unexpectedKind wanted got =>
      "unexpected type: expected " ++ wanted.name ++ ", got " ++ got.name
  | misplaced kind => "unexpected " ++ kind.name ++ " outside a stream"
  | badCount => "invalid aggregate type length"
  | negativeLength n => "blob length must be >= 0, got " ++ Decimal.showInt n
  | badBoolean found =>
      "invalid boolean: expected f or t, got " ++ quotedOctet found
  | badDouble line => "invalid double: " ++ Text.lossy line
  | badDigit found => "invalid number: invalid character " ++ quotedOctet found
  | overflow => "number overflows a 64-bit signed integer"
  | badBigNumber line => "invalid big number: " ++ Text.lossy line
  | badVerbatim start => "invalid verbatim string: " ++ Text.lossy start
  | badFormat format =>
      "invalid verbatim string: prefix must be 3 bytes, got " ++
        Text.quotedLossy format
  | multiline => "simple errors/strings must not contain \\r or \\n"
  | tooLarge size limit =>
      "value of size " ++ Decimal.showNat size ++
        " exceeds configured limit of " ++ Decimal.showNat limit ++ " bytes"
  | tooDeep maxDepth =>
      "nesting too deep: exceeds maximum depth of " ++ Decimal.showNat maxDepth

/-- Cuts break the framing, and a surprising kind leaves the reader at a value
it cannot place. Bad content and exceeded limits concern one value only. -/
def faultClass : Violation → FaultClass
  | cut _ => .framing
  | unknownKind _ | unexpectedKind .. | misplaced _ => .type
  | overflow | tooLarge .. | tooDeep _ => .limit
  | badCount | negativeLength _ | badBoolean _ | badDouble _ | badDigit _
  | badBigNumber _ | badVerbatim _ | badFormat _ | multiline => .grammar

end Violation

namespace Fault

/-- The fault of a line that ends in the wrong place. -/
abbrev cut (c : Cut) : Fault := .violation (.cut c)

def message : Fault → String
  | endOfInput => "end of input"
  | violation v => "protocol error: " ++ v.message
  | io failure => "I/O error: " ++ failure.message

def faultClass : Fault → FaultClass
  | endOfInput => .endOfInput
  | violation v => v.faultClass
  | io _ => .io

/-- Whether the fault concerns a single value rather than the stream, so that
a caller may choose to skip that value. -/
def isRecoverable (f : Fault) : Bool :=
  f.faultClass == .grammar || f.faultClass == .limit

/-- Whether the fault is the end of the input between two values. -/
def isEndOfInput : Fault → Bool
  | endOfInput => true
  | _ => false

/-- The violation of the protocol, where that is the cause. -/
def violation? : Fault → Option Violation
  | violation v => some v
  | _ => none

end Fault

end RespWire

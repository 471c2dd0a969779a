import Mathlib.Data.List.Basic
import RespWire.Proofs.Destination
import RespWire.Proofs.GuardedReads

/-!
# Guarded reads for a destination

Lines, bodies and the typed reads that append to a destination. Besides what is
held it is the destination now that may be too short: for the end of a line that
is cut off again, for the format that is taken out of a verbatim string, or for
the length that a failure cuts it back to.

A line remembers of the portions taken so far how long they were and which octet
was the last, no more. That is the last octet of the destination, and a line
feed behind a carriage return makes two octets of the line, both gathered. A
failure finds at least what was there before, since it could not be restored
otherwise (`Gather.Restores`).
-/

namespace RespWire

namespace Guarded

variable {σ α : Type}

/-- A read that leaves the destination alone. -/
def ofRead (g : Guarded Reader α) : Guarded Draft α := fun d =>
  match g d.reader with
  | .ok (result, r) => .ok (result, { d with reader := r })
  | .error h => .error h

instance : MonadLift (Guarded Reader) (Guarded Draft) := ⟨ofRead⟩

/-- A read that, when it fails, cuts the destination back to the length it
had. -/
def atomically (g : Guarded Draft α) : Guarded Draft α := fun d =>
  match g d with
  | .ok (.ok a, after) => .ok (.ok a, after)
  | .ok (.error e, after) =>
      if d.gathered.length ≤ after.gathered.length then
        .ok
          (.error e,
            { after with gathered := after.gathered.take d.gathered.length })
      else .error (.tooShort d.gathered.length after.gathered.length)
  | .error h => .error h

/-- Runs a read on a destination of its own and answers what it gathered. -/
def collected (g : Guarded Draft α) : Guarded Reader (α × Bytes) := fun r =>
  match g ⟨r, []⟩ with
  | .ok (.ok a, d) => .ok (.ok (a, d.gathered), d.reader)
  | .ok (.error e, d) => .ok (.error e, d.reader)
  | .error h => .error h

/-- Runs a read for its effect on the reader and drops what it gathers. -/
def dropped (g : Guarded Draft α) : Guarded Reader α := do
  let (a, _) ← g.collected
  return a

/-- Appends to the destination. -/
def push (octets : Bytes) : Guarded Draft Unit := ofStep (Gather.push octets)

/-- What was appended since the destination had length `start`. -/
def since (start : Nat) : Guarded Draft Bytes := do
  let d ← get
  slice d.gathered start d.gathered.length

/-- Cuts `n` octets off the end of the destination. -/
def cutOff (n : Nat) : Guarded Draft Unit := do
  let d ← get
  if n ≤ d.gathered.length then
    set { d with gathered := d.gathered.take (d.gathered.length - n) }
  else hazard (.tooShort n d.gathered.length)

/-- Takes a slice out of the destination. -/
def drain (start stop : Nat) : Guarded Draft Unit := do
  let d ← get
  if start ≤ stop ∧ stop ≤ d.gathered.length then
    set { d with gathered := d.gathered.take start ++ d.gathered.drop stop }
  else hazard (.noSlice start stop d.gathered.length)

/-- What a line takes of the octets held. -/
structure Portion where
  length : Nat
  /-- Whether a line feed is the last octet of the portion. -/
  ended : Bool
  /-- The octet before that line feed, or the last octet where there is none. -/
  last? : Option UInt8

/-- The octets held up to the first line feed, or all of them. -/
def portion (octets : Bytes) : Guarded σ Portion :=
  match octets.findIdx? (· == Bytes.lf) with
  | some 0 => return ⟨1, true, none⟩
  | some (i + 1) => return ⟨i + 2, true, some (← octet octets i)⟩
  | none => return ⟨octets.length, false, octets.getLast?⟩

/-- Settles a line of `total` octets that a line feed has ended, behind another
octet if there is one. -/
def settleLine (total : Nat) (before? : Option UInt8) : Guarded Draft Unit :=
  if total < 2 || before? != some Bytes.cr then cut .bareLineFeed else cutOff 2

/-- Gathers the rest of a line, one portion in each turn. Of the line so far
`taken` octets are gathered, and `last?` is the last of them. -/
def lineFrom : Nat → Nat → Option UInt8 → Guarded Draft Unit
  | 0, _, _ => hazard .endless
  | turns + 1, taken, last? => do
      let next ← held
      if next.isEmpty then cut .noLineEnd
      else
        let found ← portion next
        let total := taken + found.length
        ofRead (ofStep (Reader.checkSize (total - 2)))
        let d ← get
        push (← slice d.reader.buffer 0 found.length)
        consume found.length
        if found.ended then
          settleLine total (if 1 < found.length then found.last? else last?)
        else lineFrom turns total found.last?

/-- Gathers a line without its end. -/
def line : Guarded Draft Unit := do
  let octets ← ofRead (ofStep Reader.remainingLength)
  lineFrom (octets + 1) 0 none

/-- Gathers the `missing` octets that a body still lacks, a portion in each
turn. -/
def bodyFrom : Nat → Nat → Guarded Draft Unit
  | 0, missing => if missing = 0 then pure () else hazard .endless
  | turns + 1, missing => do
      if missing = 0 then pure ()
      else
        let next ← held
        if next.isEmpty then cut (.shortBody missing)
        else
          let taken := min missing next.length
          push (← slice next 0 taken)
          consume taken
          bodyFrom turns (missing - taken)

/-- Gathers a body of `n` octets and takes the end of the line behind it. -/
def body (n : Nat) : Guarded Draft Unit := do
  ofRead (ofStep (Reader.checkSize n))
  bodyFrom n n
  lineEnd

/-- Gathers a value of the kind whose header announces the length of its body,
and answers that length. -/
def counted (k : Kind) : Guarded Draft Nat := do
  expect k
  let n ← number
  if n < 0 then violate (.negativeLength n)
  else
    body n.toNat
    return n.toNat

/-- A blob, or the header of a streamed one. -/
def blob (role : Role) : Guarded Draft Length := atomically do
  if ← takeForm (Kind.blob role).streamHeader then return .streamed
  else return .known (← counted (.blob role))

/-- One chunk of a streamed blob; the answer is whether it was the last. -/
def chunk : Guarded Draft Bool := do
  if ← takeForm Marker.lastChunk then return true
  else
    let _ ← atomically (counted .chunk)
    return false

/-- A chunk that may be followed by more, or none for the last. -/
def chunk? : Guarded Draft (Option Unit) := do
  if ← chunk then return none else return some ()

/-- All chunks of a streamed blob. -/
def chunks : Guarded Draft Unit := atomically do
  let octets ← ofRead (ofStep Reader.remainingLength)
  let _ ← chunk?.collect (octets + 1)

/-- A simple string or error. -/
def simple (role : Role) : Guarded Draft Unit := atomically do
  expect (.simple role)
  line

/-- Whether a colon follows the octets of a format. -/
def separated (octets : Bytes) : Guarded σ Bool :=
  if octets.length ≤ formatLength then pure false
  else do return (← octet octets formatLength) == ':'.toUInt8

/-- A verbatim string. The format is answered, and is taken out of the
destination again with the colon behind it. -/
def verbatim : Guarded Draft Format := atomically do
  let start ← ofStep Gather.mark
  let _ ← counted .verbatim
  let octets ← since start
  if ← separated octets then
    let a ← octet octets 0
    let b ← octet octets 1
    let c ← octet octets 2
    drain start (start + formatLength + 1)
    return ⟨a, b, c⟩
  else violate (.badVerbatim (← slice octets 0 (min octets.length 10)))

end Guarded

end RespWire

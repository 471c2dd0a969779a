import RespWire.Decimal.Digits
import RespWire.Marker
import RespWire.Reader.Draft
import RespWire.Reader.Lookahead

/-!
# Framing

The parts that values are made of: the first octet, ends of lines, numbers,
lines and counted bodies, and the headers built from them.

Lines and bodies arrive in whatever portions the feed hands out, and both are
taken portion by portion. A line is checked against the size limit before each
portion is taken, so an endless line is refused without being stored; a body
is checked once, against its announced length.
-/

namespace RespWire

namespace Reader

/-- The fault of a size that exceeds the limit in force. -/
def sizeFault? (o : Options) (size : Nat) : Option Fault :=
  match o.effectiveLimit? with
  | some limit =>
      if limit < size then some (.violation (.tooLarge size limit)) else none
  | none => none

/-- Refuses a size above the limit. -/
def checkSize (size : Nat) : Read Unit := do
  match sizeFault? (← getOptions) size with
  | some f => Step.fail f
  | none => return

/-- The kind that the next octet announces. -/
def peekLead : Read Kind := do
  match ← lookAhead 1 with
  | [] => Step.fail .endOfInput
  | b :: _ =>
      match Kind.ofLead? b with
      | some k => return k
      | none => Step.violate (.unknownKind b)

/-- Whether exactly these octets come next. -/
def startsWith (form : Bytes) : Read Bool := do
  return (← lookAhead form.length) == form

/-- Takes these octets if they come next, and answers whether they did. -/
def takeForm (form : Bytes) : Read Bool := do
  if ← startsWith form then
    consume form.length
    return true
  else
    return false

theorem takeForm_eq (form : Bytes) :
    takeForm form = lookAhead form.length >>= fun bs =>
      if (bs == form) = true then consume form.length >>= fun _ => pure true
      else pure false := by
  simp only [takeForm, startsWith, bind_assoc, pure_bind]

/-- Takes the header of a stream of the kind if it comes next. -/
def takeStreamHeader (k : Kind) : Read Bool := takeForm k.streamHeader

/-- The end of input before a value that has to be there is a cut. -/
def noValueInstead (k : Kind) : Fault → Fault
  | .endOfInput => .cut (.noValue k)
  | f => f

/-- Takes the first octet of a value of the kind. Of another kind, nothing is
taken. -/
def expect (k : Kind) : Read Unit := do
  let got ← peekLead.mapFault (noValueInstead k)
  if got = k then consume 1
  else Step.violate (.unexpectedKind k got)

/-- Takes the end of a line. -/
def lineEnd : Read Unit := do
  let next ← lookAhead 2
  if next = Bytes.crlf then consume 2
  else if next.length < 2 then Step.cut .noLineEnd
  else Step.cut (.wrongLineEnd next)

/-- Takes a minus sign if one comes next. -/
def minusSign : Read Bool := do
  match ← lookAhead 1 with
  | [] => Step.cut .noNumber
  | b :: _ =>
      if b = Decimal.minus then
        consume 1
        return true
      else
        return false

/-- A number with one more digit behind it, away from zero. -/
def appendDigit (negative : Bool) (n : Int) (b : UInt8) : Int :=
  if negative then n * 10 - Decimal.digitValue b
  else n * 10 + Decimal.digitValue b

/-- Whether a number fits 64 bits with a sign. -/
def fits (n : Int) : Bool :=
  Int64.minValue.toInt ≤ n && n ≤ Int64.maxValue.toInt

/-- Takes digits up to the end of a line and answers the number they denote
behind `before`, or `before` itself if there are none. A digit that carries
the number out of range is not taken. -/
def digitsFrom (negative : Bool) (before : Option Int) (r : Reader) :
    Except Fault (Option Int) × Reader :=
  match _h : lookAhead 1 r with
  | (.error e, after) => (.error e, after)
  | (.ok [], after) => (.error (.cut .noNumber), after)
  | (.ok (b :: _), after) =>
      if Decimal.isDigit b then
        let n := appendDigit negative (before.getD 0) b
        if fits n then digitsFrom negative (some n) (consume 1 after).2
        else (.error (.violation .overflow), after)
      else if b = Bytes.cr || b = Bytes.lf then (.ok before, after)
      else (.error (.violation (.badDigit b)), after)
termination_by r.remaining.length
decreasing_by exact length_remaining_lt_of_lookAhead _h

theorem digitsFrom_apply (negative : Bool) (before : Option Int) (r : Reader) :
    digitsFrom negative before r =
      match lookAhead 1 r with
      | (.error e, after) => (.error e, after)
      | (.ok [], after) => (.error (.cut .noNumber), after)
      | (.ok (b :: _), after) =>
          if Decimal.isDigit b then
            let n := appendDigit negative (before.getD 0) b
            if fits n then digitsFrom negative (some n) (consume 1 after).2
            else (.error (.violation .overflow), after)
          else if b = Bytes.cr || b = Bytes.lf then (.ok before, after)
          else (.error (.violation (.badDigit b)), after) := by
  rw [digitsFrom]
  split <;> (next h => rw [h])

/-- One digit is looked at, and taken if the number stays in range. -/
theorem digitsFrom_eq (negative : Bool) (before : Option Int) :
    digitsFrom negative before = lookAhead 1 >>= fun bs =>
      match bs with
      | [] => Step.cut .noNumber
      | b :: _ =>
          if Decimal.isDigit b then
            let n := appendDigit negative (before.getD 0) b
            if fits n then consume 1 >>= fun _ => digitsFrom negative (some n)
            else Step.violate .overflow
          else if b = Bytes.cr || b = Bytes.lf then pure before
          else Step.violate (.badDigit b) := by
  funext r
  rw [digitsFrom_apply, Step.bind_apply]
  cases lookAhead 1 r with
  | mk result after =>
      match result with
      | .error e => rfl
      | .ok [] => rfl
      | .ok (b :: bs) =>
          simp only
          split
          · split <;> rfl
          · split <;> rfl

/-- Takes a run of digits, which may be empty. -/
def digits (negative : Bool) : Read (Option Int) := digitsFrom negative none

/-- Takes a number and the end of its line. -/
def number : Read Int := do
  let negative ← minusSign
  let n? ← digits negative
  lineEnd
  match n? with
  | some n => return n
  | none => Step.cut .emptyNumber

/-- The octets up to the first line feed, which is included, or all of them. -/
def throughLineFeed : Bytes → Bytes
  | [] => []
  | b :: bs => if b = Bytes.lf then [b] else b :: throughLineFeed bs

theorem length_throughLineFeed_cons_pos (b : UInt8) (bs : Bytes) :
    0 < (throughLineFeed (b :: bs)).length := by
  unfold throughLineFeed
  split <;> simp

end Reader

namespace Gather

/-- Settles a line of `total` octets that a line feed has ended: takes its end
off the destination, where a carriage return belongs to it. -/
def settleLine (total : Nat) (d : Draft) : Except Fault Unit × Draft :=
  let length := d.gathered.length - 2
  if 2 ≤ total && d.gathered.drop length == Bytes.crlf then
    (.ok (), { d with gathered := d.gathered.take length })
  else (.error (.cut .bareLineFeed), d)

/-- Gathers the rest of a line of which `taken` octets are gathered. -/
def lineFrom (taken : Nat) (d : Draft) : Except Fault Unit × Draft :=
  match _h : Reader.held d.reader with
  | (.error e, r) => (.error e, { d with reader := r })
  | (.ok [], r) => (.error (.cut .noLineEnd), { d with reader := r })
  | (.ok (b :: bs), r) =>
      let portion := Reader.throughLineFeed (b :: bs)
      let total := taken + portion.length
      match Reader.sizeFault? r.options (total - 2) with
      | some f => (.error f, { d with reader := r })
      | none =>
          let after : Draft :=
            { reader := (Reader.consume portion.length r).2
              gathered := d.gathered ++ portion }
          if portion.getLast? = some Bytes.lf then settleLine total after
          else lineFrom total after
termination_by d.reader.remaining.length
decreasing_by
  exact Reader.length_remaining_lt_of_held
    (Reader.length_throughLineFeed_cons_pos b bs) _h

theorem lineFrom_apply (taken : Nat) (d : Draft) :
    lineFrom taken d =
      match Reader.held d.reader with
      | (.error e, r) => (.error e, { d with reader := r })
      | (.ok [], r) => (.error (.cut .noLineEnd), { d with reader := r })
      | (.ok (b :: bs), r) =>
          let portion := Reader.throughLineFeed (b :: bs)
          let total := taken + portion.length
          match Reader.sizeFault? r.options (total - 2) with
          | some f => (.error f, { d with reader := r })
          | none =>
              let after : Draft :=
                { reader := (Reader.consume portion.length r).2
                  gathered := d.gathered ++ portion }
              if portion.getLast? = some Bytes.lf then settleLine total after
              else lineFrom total after := by
  rw [lineFrom]
  split <;> (next h => rw [h])

/-- One portion of a line is checked, taken and gathered. -/
theorem lineFrom_eq (taken : Nat) :
    lineFrom taken = ofRead Reader.held >>= fun next =>
      match next with
      | [] => Step.cut .noLineEnd
      | b :: bs =>
          let portion := Reader.throughLineFeed (b :: bs)
          let total := taken + portion.length
          ofRead (Reader.checkSize (total - 2)) >>= fun _ =>
            ofRead (Reader.consume portion.length) >>= fun _ =>
              push portion >>= fun _ => fun d =>
                if portion.getLast? = some Bytes.lf then settleLine total d
                else lineFrom total d := by
  funext d
  rw [lineFrom_apply, Step.bind_apply, ofRead]
  cases Reader.held d.reader with
  | mk result r =>
      rcases result with e | (_ | ⟨b, bs⟩)
      · rfl
      · rfl
      · simp only [Step.bind_apply, ofRead, Reader.checkSize, Reader.getOptions]
        cases Reader.sizeFault? r.options _ with
        | some f => rfl
        | none => rfl

/-- Gathers a line without its end. -/
def line : Gather Unit := lineFrom 0

/-- Gathers the `missing` octets that a body still lacks. -/
def bodyFrom (missing : Nat) (d : Draft) : Except Fault Unit × Draft :=
  if _h : missing = 0 then (.ok (), d)
  else
    match Reader.held d.reader with
    | (.error e, r) => (.error e, { d with reader := r })
    | (.ok [], r) =>
        (.error (.cut (.shortBody missing)), { d with reader := r })
    | (.ok (b :: bs), r) =>
        let portion := (b :: bs).take missing
        bodyFrom (missing - portion.length)
          { reader := (Reader.consume portion.length r).2
            gathered := d.gathered ++ portion }
termination_by missing
decreasing_by
  simp only [List.length_take, List.length_cons]
  omega

/-- One portion of a body is taken and gathered. -/
theorem bodyFrom_eq {missing : Nat} (h : missing ≠ 0) :
    bodyFrom missing = ofRead Reader.held >>= fun next =>
      match next with
      | [] => Step.cut (.shortBody missing)
      | b :: bs =>
          let portion := (b :: bs).take missing
          ofRead (Reader.consume portion.length) >>= fun _ =>
            push portion >>= fun _ =>
              bodyFrom (missing - portion.length) := by
  funext d
  rw [bodyFrom, dif_neg h, Step.bind_apply, ofRead]
  cases Reader.held d.reader with
  | mk result r =>
      rcases result with e | (_ | ⟨b, bs⟩)
      · rfl
      · rfl
      · rfl

/-- Gathers a body of `n` octets and takes the end of the line behind it. -/
def body (n : Nat) : Gather Unit := do
  Reader.checkSize n
  bodyFrom n
  Reader.lineEnd

/-- Gathers a value of the kind whose header announces the length of its body,
and answers that length. -/
def counted (k : Kind) : Gather Nat := do
  Reader.expect k
  let n ← Reader.number
  if n < 0 then Step.violate (.negativeLength n)
  else
    body n.toNat
    return n.toNat

end Gather

namespace Reader

/-- A count that is no number is reported as a bad count. -/
def badCountInstead : Fault → Fault
  | .violation (.badDigit _) => .violation .badCount
  | f => f

/-- Takes the header of an aggregate. -/
def header (a : Aggregate) : Read Length := do
  if ← takeStreamHeader (.aggregate a) then
    return .streamed
  else
    expect (.aggregate a)
    let n ← number.mapFault badCountInstead
    if n < 0 then Step.violate .badCount else return .known n.toNat

end Reader

end RespWire

import RespWire.Decimal.Shortest
import RespWire.Text.Quoted
import RespWire.Value.Basic

/-!
# Values as text

Three ways to show a value to a person. `inspect` names the kind of everything
and quotes all text, on one line; `pretty` is the same over several lines, one
element a line and nested elements indented; `summary` is what a command line
shows: elements numbered, texts quoted, and octets that are not text counted.
-/

namespace RespWire

namespace Value

/-- Octets as quoted text, or as a list of numbers where they are not text. -/
def inspectOctets (octets : Bytes) : String :=
  match Text.Utf8.decode? octets with
  | some cs => Text.quoted cs
  | none => Text.listedOctets octets

/-- The text of a verbatim string, or its octets where they are not text. -/
def inspectVerbatim (text : Bytes) : String :=
  match Text.Utf8.decode? text with
  | some cs => Text.quoted cs
  | none => Text.quotedOctets text

/-- A truth value in words. -/
def booleanText (b : Bool) : String := if b then "true" else "false"

/-- The name of a kind with what is inside it in parentheses. -/
def inspectScalar (k : Kind) (inside : String) : String :=
  k.name ++ "(" ++ inside ++ ")"

/-- The inspection of a value that holds no others. -/
def inspectLeaf : Value → String
  | blob role octets => inspectScalar (.blob role) (inspectOctets octets)
  | simple role line => inspectScalar (.simple role) (inspectOctets line)
  | verbatim format text =>
      inspectScalar .verbatim
        (Text.lossy format.octets ++ ":" ++ inspectVerbatim text)
  | bigNumber n => inspectScalar .bigNumber (Decimal.showInt n)
  | boolean b => inspectScalar .boolean (booleanText b)
  | double x => inspectScalar .double x.display
  | integer n => inspectScalar .integer (Decimal.showInt n.toInt)
  | v => v.kind.name

/-- The brackets around the elements of a sequence. -/
def brackets : Sequence → String × String
  | .array | .push => ("[", "]")
  | .set => ("\x7b", "\x7d")

/-- Elements between brackets on one line. -/
def inline (around : String × String) (parts : List String) : String :=
  around.1 ++ ", ".intercalate parts ++ around.2

/-- What moves a line to the right. -/
def indent : List Char := [' ', ' ', ' ', ' ']

/-- Every line of a text moved to the right. -/
def indented (text : String) : String :=
  String.ofList
    (indent ++ text.toList.flatMap fun c =>
      if c = '\n' then c :: indent else [c])

/-- Elements between brackets, each on lines of its own; nothing between the
brackets of none. -/
def stacked (around : String × String) (parts : List String) : String :=
  if parts.isEmpty then around.1 ++ around.2
  else
    around.1 ++ "\n" ++
      String.join (parts.map fun part => indented part ++ ",\n") ++ around.2

mutual

/-- A value with the kinds of everything in it, elements laid out by
`layout`. -/
def inspectWith (layout : String × String → List String → String) :
    Value → String
  | .sequence s items =>
      (Kind.aggregate (.sequence s)).name ++
        layout (brackets s) (inspectItems layout items)
  | .pairing p pairs =>
      (Kind.aggregate (.pairing p)).name ++
        layout ("\x7b", "\x7d") (inspectPairs layout pairs)
  | v => inspectLeaf v

def inspectItems (layout : String × String → List String → String) :
    List Value → List String
  | [] => []
  | v :: vs => inspectWith layout v :: inspectItems layout vs

def inspectPairs (layout : String × String → List String → String) :
    List (Value × Value) → List String
  | [] => []
  | (k, v) :: rest =>
      (inspectWith layout k ++ ": " ++ inspectWith layout v) ::
        inspectPairs layout rest

end

/-- A value with the kinds of everything in it, on one line. -/
def inspect (v : Value) : String := inspectWith inline v

/-- A value with the kinds of everything in it, one element a line. -/
def pretty (v : Value) : String := inspectWith stacked v

/-- What a command line calls an aggregate. -/
def commonName : Aggregate → String
  | .sequence .array => "array"
  | .sequence .push => "push"
  | .sequence .set => "set"
  | .pairing .map => "map"
  | .pairing .attributes => "attribute"

/-- Octets as quoted text, or their number where they are not text. -/
def summaryOctets (octets : Bytes) : String :=
  match Text.Utf8.decode? octets with
  | some cs => Text.quoted cs
  | none => "<" ++ Decimal.showNat octets.length ++ " bytes>"

/-- The summary of a value that holds no others. -/
def summaryLeaf : Value → String
  | blob .error octets | simple .error octets => "(error) " ++ Text.lossy octets
  | blob .string octets | simple .string octets => summaryOctets octets
  | verbatim format text =>
      "(" ++ Text.lossy format.octets ++ ") " ++ Text.lossy text
  | bigNumber n => "(big number) " ++ Decimal.showInt n
  | boolean b => "(" ++ booleanText b ++ ")"
  | double x => "(double) " ++ x.display
  | integer n => "(integer) " ++ Decimal.showInt n.toInt
  | _ => "(nil)"

/-- Numbered lines, or a word for an aggregate without elements. -/
def summaryLines (a : Aggregate) (lines : List String) : String :=
  if lines.isEmpty then "(empty " ++ commonName a ++ ")"
  else "\n".intercalate lines

mutual

/-- A value as a command line shows it. -/
def summary : Value → String
  | .sequence s items => summaryLines (.sequence s) (summaryItems 1 items)
  | .pairing p pairs => summaryLines (.pairing p) (summaryPairs 1 pairs)
  | v => summaryLeaf v

def summaryItems (position : Nat) : List Value → List String
  | [] => []
  | v :: vs =>
      (Decimal.showNat position ++ ") " ++ summary v) ::
        summaryItems (position + 1) vs

def summaryPairs (position : Nat) : List (Value × Value) → List String
  | [] => []
  | (k, v) :: rest =>
      (Decimal.showNat position ++ "# " ++ summary k ++ " => " ++ summary v)
        :: summaryPairs (position + 1) rest

end

end Value

end RespWire

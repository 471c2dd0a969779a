import Mathlib.Algebra.Group.Nat.Defs
import RespWire.Decimal.Literal
import RespWire.Value.Basic
import RespWire.Reader.Framing

/-!
# The grammar of values

Which words stand for which values, said without a reader. A word may be
longer than it has to be: numbers may have leading zeros and zero a minus sign,
an aggregate or a blob may be counted or left open, and null has three forms.
What the grammar does not leave to the writer is the end of a stream: the chunk
that stands literally for the last one ends the blob, also where its header
could be read as that of an empty chunk.

The grammar is that of a reader with limits. Sizes are limited where octets are
gathered, and a value derives at a depth, which for nested values is one more
than that of the aggregate around them.
-/

namespace RespWire

/-- One digit or more. -/
structure Digits (ds : Bytes) : Prop where
  ne_nil : ds ≠ []
  isDigit : ∀ b ∈ ds, Decimal.isDigit b = true

theorem Digits.singleton {d : UInt8} (h : Decimal.isDigit d = true) :
    Digits [d] :=
  ⟨List.cons_ne_nil _ _, List.forall_mem_singleton.mpr h⟩

/-- Digits that may follow a minus sign, and the number they denote. -/
inductive Numeral : Bytes → Int → Prop where
  | plain {ds : Bytes} (h : Digits ds) : Numeral ds (Decimal.value ds)
  | negative {ds : Bytes} (h : Digits ds) :
      Numeral (Decimal.minus :: ds) (-Decimal.value ds)

/-- Digits that may follow a sign, and the number they denote. -/
inductive SignedNumeral : Bytes → Int → Prop where
  | numeral {text : Bytes} {n : Int} (h : Numeral text n) : SignedNumeral text n
  | positive {ds : Bytes} (h : Digits ds) :
      SignedNumeral (Decimal.plus :: ds) (Decimal.value ds)

/-- A numeral that counts: from zero to the greatest number of 64 bits with a
sign. -/
def Count (num : Bytes) (n : Nat) : Prop := Numeral num n ∧ n < 2 ^ 63

/-- A text on a line of its own, after the first octet of the kind. -/
def Kind.line (k : Kind) (text : Bytes) : Bytes :=
  k.lead :: (text ++ Bytes.crlf)

theorem Numeral.length_pos {num : Bytes} {n : Int} (h : Numeral num n) :
    0 < num.length := by
  cases h with
  | plain hds => exact List.length_pos_iff.mpr hds.ne_nil
  | negative hds => exact Nat.succ_pos _

/-- Digits in front of a carriage return run up to it. -/
theorem Digits.eq_singleton {ds t u : Bytes} {d : UInt8} (h : Digits ds)
    (hfront : d :: Bytes.cr :: t = ds ++ u) : ds = [d] := by
  rcases ds with _ | ⟨e, _ | ⟨b, ds⟩⟩
  · exact absurd rfl h.ne_nil
  · rw [(List.cons.inj hfront).1]
  · obtain ⟨rfl, -⟩ := List.cons.inj (List.cons.inj hfront).2
    exact absurd (h.isDigit _ (.tail _ (.head _))) (by decide)

/-- The header of a stream is no header with a number. -/
theorem Numeral.not_streamHeader {num : Bytes} {n : Int} (h : Numeral num n)
    (k : Kind) (rest : Bytes) : ¬ k.streamHeader <+: k.line num ++ rest := by
  intro hprefix
  have hmark : (Kind.streamHeader k).take 2 = [k.lead, '?'.toUInt8] := rfl
  obtain ⟨t, ht⟩ := hprefix
  cases h with
  | plain hds =>
      cases num with
      | nil => exact hds.ne_nil rfl
      | cons b ds =>
          have hb : '?'.toUInt8 = b := (List.cons.inj (List.cons.inj ht).2).1
          exact absurd (hds.isDigit b (.head _)) (by rw [← hb]; decide)
  | negative hds =>
      exact absurd (List.cons.inj (List.cons.inj ht).2).1 (by decide)

/-- A body of octets after the line that announces how many they are. -/
def Counted (l : Limits) (k : Kind) (w octets : Bytes) : Prop :=
  ∃ num, Count num octets.length ∧ l.Admits octets.length ∧
    w = k.line num ++ (octets ++ Bytes.crlf)

theorem Counted.length_le {l : Limits} {k : Kind} {w octets : Bytes}
    (h : Counted l k w octets) :
    4 ≤ w.length := by
  obtain ⟨num, hcount, -, rfl⟩ := h
  have := hcount.1.length_pos
  simp only [Kind.line, List.length_append, List.length_cons, Bytes.length_crlf]
  omega

/-- No chunk that announces its octets is as short as the last. -/
theorem Counted.ne_lastChunk {l : Limits} {w p : Bytes}
    (h : Counted l .chunk w p) :
    w ≠ Marker.lastChunk := by
  obtain ⟨num, hcount, -, rfl⟩ := h
  intro heq
  have hlength := congrArg List.length heq
  have hpos := hcount.1.length_pos
  simp only [Kind.line, List.length_append, List.length_cons,
    Bytes.length_crlf] at hlength
  have hlast : Marker.lastChunk.length = 4 := rfl
  omega

/-- The chunks of a streamed blob, the last included, and the octets they
hold. -/
inductive Chunks (l : Limits) : Bytes → Bytes → Prop where
  | last : Chunks l Marker.lastChunk []
  | more {u w octets later : Bytes} (h : Counted l .chunk u octets)
      (hmore : ¬ Marker.lastChunk <+: u) (hlater : Chunks l w later) :
      Chunks l (u ++ w) (octets ++ later)

mutual

/-- The words of a value at a depth. -/
inductive Derives (l : Limits) : Nat → Bytes → Value → Prop where
  | sequence {depth : Nat} {s : Sequence} {num w : Bytes} {items : List Value}
      (hcount : Count num items.length)
      (hitems : DerivesItems l (depth + 1) w items) :
      Derives l depth ((Kind.aggregate (.sequence s)).line num ++ w)
        (.sequence s items)
  | openSequence {depth : Nat} {s : Sequence} {w : Bytes} {items : List Value}
      (hitems : DerivesItems l (depth + 1) w items) :
      Derives l depth
        ((Kind.aggregate (.sequence s)).streamHeader ++ (w ++ Marker.close))
        (.sequence s items)
  | pairing {depth : Nat} {p : Pairing} {num w : Bytes}
      {pairs : List (Value × Value)}
      (hcount : Count num pairs.length)
      (hpairs : DerivesPairs l (depth + 1) w pairs) :
      Derives l depth ((Kind.aggregate (.pairing p)).line num ++ w)
        (.pairing p pairs)
  | openPairing {depth : Nat} {p : Pairing} {w : Bytes}
      {pairs : List (Value × Value)}
      (hpairs : DerivesPairs l (depth + 1) w pairs) :
      Derives l depth
        ((Kind.aggregate (.pairing p)).streamHeader ++ (w ++ Marker.close))
        (.pairing p pairs)
  | blob {depth : Nat} {role : Role} {w octets : Bytes}
      (h : Counted l (.blob role) w octets) :
      Derives l depth w (.blob role octets)
  | openBlob {depth : Nat} {role : Role} {w octets : Bytes}
      (h : Chunks l w octets) :
      Derives l depth ((Kind.blob role).streamHeader ++ w) (.blob role octets)
  | simple {depth : Nat} {role : Role} {text : Bytes} (hlf : Bytes.lf ∉ text)
      (hsize : l.Admits text.length) :
      Derives l depth ((Kind.simple role).line text) (.simple role text)
  | verbatim {depth : Nat} {w : Bytes} {format : Format} {text : Bytes}
      (h : Counted l .verbatim w (format.octets ++ ':'.toUInt8 :: text)) :
      Derives l depth w (.verbatim format text)
  | bigNumber {depth : Nat} {text : Bytes} {n : Int} (hn : SignedNumeral text n)
      (hsize : l.Admits text.length) :
        Derives l depth (Kind.bigNumber.line text) (.bigNumber n)
  | boolean {depth : Nat} (b : Bool) :
      Derives l depth (if b then Marker.yes else Marker.no) (.boolean b)
  | double {depth : Nat} {text : Bytes} {x : Double}
      (hx : Double.ofText? text = some x)
      (hsize : l.Admits text.length) :
        Derives l depth (Kind.double.line text) (.double x)
  | integer {depth : Nat} {num : Bytes} {n : Int} (hn : Numeral num n)
      (hfits : Reader.fits n = true) :
      Derives l depth (Kind.integer.line num) (.integer (Int64.ofInt n))
  | null {depth : Nat} : Derives l depth Marker.null .null
  | nullArray {depth : Nat} : Derives l depth Marker.nullArray .null
  | nullBlob {depth : Nat} : Derives l depth Marker.nullBlob .null

/-- The words of values one behind the other, nested at a depth. -/
inductive DerivesItems (l : Limits) : Nat → Bytes → List Value → Prop where
  | nil {depth : Nat} : DerivesItems l depth [] []
  | cons {depth : Nat} {u w : Bytes} {v : Value} {items : List Value}
      (hdepth : depth ≤ l.depth)
      (hitem : Derives l depth u v) (hlater : DerivesItems l depth w items) :
      DerivesItems l depth (u ++ w) (v :: items)

/-- The words of pairs one behind the other, nested at a depth. -/
inductive DerivesPairs (l : Limits) :
    Nat → Bytes → List (Value × Value) → Prop where
  | nil {depth : Nat} : DerivesPairs l depth [] []
  | cons {depth : Nat} {t u w : Bytes} {k v : Value}
      {pairs : List (Value × Value)}
      (hdepth : depth ≤ l.depth) (hkey : Derives l depth t k)
      (hvalue : Derives l depth u v)
      (hlater : DerivesPairs l depth w pairs) :
      DerivesPairs l depth (t ++ (u ++ w)) ((k, v) :: pairs)

end

end RespWire

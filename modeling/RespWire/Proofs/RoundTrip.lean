import RespWire.Proofs.Refusing

/-!
# Reading undoes writing

What a value is written as is a word for it that a deep skip passes over too,
if the reader has the levels for it; and it is refused if the reader has not.
All of this is known of readers that hold everything. Reads and skips are
steady, so it is true of every calm reader.

A value is read back but for the doubles that are not numbers, which are all
read as one.
-/

namespace RespWire

namespace Value

open Reader

/-- What is written of a value is read back, whatever follows it and however it
arrives, by every reader that may go as deep as the value is high. A deep skip
passes over just as much. A reader that may not go so deep refuses it, and the
skip does too. -/
theorem encode_reads_back {v : Value} (hline : v.OneLine)
    (hcount : v.Countable) :
    ∃ octets, v.encode = .ok octets ∧
      ∀ (r : Reader) (rest : Bytes),
        r.feed.Calm → r.remaining = octets ++ rest → v.Fits r.options.limits →
          (v.height ≤ r.options.maxDepth →
            (∃ after, value r = (.ok v.canonical, after) ∧
              after.remaining = rest) ∧
            (∃ after, skip true r = (.ok v.kind, after) ∧
              after.remaining = rest)) ∧
          (r.options.maxDepth < v.height →
            (value r).1 = .error (.violation (.tooDeep r.options.maxDepth)) ∧
            (skip true r).1 = .error
              (.violation (.tooDeep r.options.maxDepth))) := by
  refine ⟨v.octets, encode_eq_ok hline,
    fun r rest hcalm hr hsize => ⟨fun hlow => ⟨?_, ?_⟩,
      fun hhigh => ⟨?_, ?_⟩⟩⟩
  · refine (reads_value.accepts_iff steady_value hcalm _ _).mpr
      ⟨v.octets, hr, ?_⟩
    exact derives_octets hline hcount hsize 0 ((Nat.zero_add _).symm ▸ hlow)
  · refine (reads_skip.accepts_iff (steady_skip true) hcalm _ _).mpr
      ⟨v.octets, hr, ?_⟩
    exact skips_octets hline hcount hsize _ (Nat.lt_succ_of_le hlow)
  · have hrefuses : Refuses r.options value v.octets _ :=
      refuses_valueWithin hline hcount hsize (r.options.maxDepth + 1) 0
        (Nat.zero_add _) hhigh
    exact hrefuses.of_steady steady_value nofun hcalm hr
  · have hrefuses : Refuses r.options (skip true) v.octets _ :=
      refuses_skipWithin hline hcount hsize (r.options.maxDepth + 1) hhigh
    exact hrefuses.of_steady (steady_skip true) nofun hcalm hr

/-- A map in which a text leads to a list of a number and a big number, one
octet at a time and with no octet to spare in the limit. It may be two levels
high, and is refused where it may not. -/
theorem encode_reads_back_nested :
    let v : Value := .map [(.simple .string (.ofChars ['k']),
      .array [.integer 7, .bigNumber (-5)])]
    let octets := Bytes.ofChars "%1\r\n+k\r\n*2\r\n:7\r\n(-5\r\n".toList
    let r (depth : Nat) : Reader :=
      ⟨⟨[.piece octets, .piece (Bytes.ofChars "_\r\n".toList)], some 1⟩,
        { sizeLimit := 2, maxDepth := depth }, []⟩
    v.OneLine ∧ v.Countable ∧ v.encode = .ok octets ∧
      (∃ after, value (r 2) = (.ok v, after) ∧ after.remaining = Marker.null) ∧
      (skip true (r 1)).1 = .error (.violation (.tooDeep 1)) := by
  intro v octets r
  have hline : v.OneLine := by decide
  have hcount : v.Countable := by decide
  have hencode : v.encode = .ok octets := by decide +kernel
  obtain ⟨written, hwritten, hread⟩ := encode_reads_back hline hcount
  obtain rfl : written = octets := Except.ok.inj (hwritten.symm.trans hencode)
  obtain ⟨hlow, -⟩ :=
    hread (r 2) Marker.null (by decide) (by decide) (by decide +kernel)
  obtain ⟨-, hhigh⟩ :=
    hread (r 1) Marker.null (by decide) (by decide) (by decide +kernel)
  exact ⟨hline, hcount, hencode, (hlow (by decide)).1, (hhigh (by decide)).2⟩

end Value

end RespWire

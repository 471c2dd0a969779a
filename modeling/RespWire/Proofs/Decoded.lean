import RespWire.Proofs.Parsing
import RespWire.Proofs.Piecewise

/-!
# Values that were read

What a reader answers comes from a word of the grammar, and so does each part
of it, from a piece of that word. A word bounds what it stands for: a value has
no more elements, and a text no more octets, than the word has, and where a size
limit is applied to a text on its way in, the text is within the limit. An
induction over the value carries the depth along, so that the height of what was
read is known too.

What is written of a value that was read is one of its words, if not the one
that was read. It is the same for the value that it is read back as, so that
encoding settles after one turn.
-/

namespace RespWire

/-! ## Numbers are written no longer than they were read -/

namespace Decimal

theorem valueFrom_lt {ds : Bytes} (h : ∀ d ∈ ds, isDigit d = true) (m : Nat) :
    valueFrom m ds < (m + 1) * 10 ^ ds.length := by
  induction ds generalizing m with
  | nil => simp [valueFrom]
  | cons d ds ih =>
      have hd : digitValue d < 10 := by
        have hdigit := h d (.head _)
        simp only [isDigit, Bool.and_eq_true, decide_eq_true_eq,
          UInt8.le_iff_toNat_le] at hdigit
        have hle : d.toNat ≤ 57 := hdigit.2
        simp only [digitValue]
        omega
      calc valueFrom (m * 10 + digitValue d) ds
          < (m * 10 + digitValue d + 1) * 10 ^ ds.length :=
            ih (fun b hb => h b (.tail _ hb)) _
        _ ≤ ((m + 1) * 10) * 10 ^ ds.length := Nat.mul_le_mul_right _ (by omega)
        _ = (m + 1) * 10 ^ (d :: ds).length := by
            rw [List.length_cons, Nat.pow_succ, Nat.mul_assoc, Nat.mul_comm 10]

theorem digitCount_value_le {ds : Bytes} (h : Digits ds) :
    digitCount (value ds) ≤ ds.length := by
  have hlt := valueFrom_lt h.isDigit 0
  obtain ⟨k, hk⟩ := Nat.exists_eq_add_one.mpr (List.length_pos_iff.mpr h.ne_nil)
  rw [Nat.zero_add, Nat.one_mul, hk] at hlt
  rw [hk]
  exact digitCount_le_iff.mpr hlt

theorem length_ofInt_neg_le (n : Nat) :
    (ofInt (-n)).length ≤ digitCount n + 1 := by
  cases n with
  | zero => exact Nat.le_succ _
  | succ n => exact Nat.le_refl _

end Decimal

theorem SignedNumeral.length_ofInt_le {text : Bytes} {n : Int}
    (h : SignedNumeral text n) :
    (Decimal.ofInt n).length ≤ text.length := by
  cases h with
  | numeral h =>
      cases h with
      | plain hds => exact Decimal.digitCount_value_le hds
      | @negative ds hds =>
          have hneg := Decimal.length_ofInt_neg_le (Decimal.value ds)
          have hds := Decimal.digitCount_value_le hds
          rw [List.length_cons]
          omega
  | positive hds =>
      have hds := Decimal.digitCount_value_le hds
      exact Nat.le_succ_of_le hds

theorem Limits.Admits.mono {l : Limits} {m n : Nat} (h : l.Admits n)
    (hle : m ≤ n) : l.Admits m :=
  fun limit hlimit => Nat.le_trans hle (h limit hlimit)

/-! ## Parts of values come from pieces of words -/

variable {l : Limits} {depth : Nat} {w : Bytes} {u v : Value}
  {items : List Value} {pairs : List (Value × Value)}

theorem Counted.length_octets_le {k : Kind} {octets : Bytes}
    (h : Counted l k w octets) :
    octets.length ≤ w.length := by
  obtain ⟨num, -, -, rfl⟩ := h
  simp only [List.length_append]
  omega

theorem Chunks.length_le {octets : Bytes} (h : Chunks l w octets) :
    octets.length ≤ w.length := by
  induction h with
  | last => exact Nat.zero_le _
  | more h _ _ ih =>
      have := h.length_octets_le
      simp only [List.length_append]
      omega

theorem DerivesItems.length_le (h : DerivesItems l depth w items) :
    items.length ≤ w.length := by
  induction items generalizing w with
  | nil => exact Nat.zero_le _
  | cons v items ih =>
      cases h with
      | cons hdepth hitem hlater =>
          have hpos := List.length_pos_iff.mpr hitem.shows.ne_nil
          have := ih hlater
          simp only [List.length_append, List.length_cons]
          omega

theorem DerivesItems.of_mem (h : DerivesItems l depth w items)
    (hv : v ∈ items) :
    depth ≤ l.depth ∧ ∃ t, t <:+: w ∧ Derives l depth t v := by
  induction items generalizing w with
  | nil => cases hv
  | cons u items ih =>
      cases h with
      | @cons _ t w _ _ hdepth hitem hlater =>
          rcases List.mem_cons.mp hv with rfl | hv
          · exact ⟨hdepth, t, (List.prefix_append t w).isInfix, hitem⟩
          · obtain ⟨-, t', ht', hderives⟩ := ih hlater hv
            exact ⟨hdepth, t', ht'.trans (List.suffix_append t w).isInfix,
              hderives⟩

theorem DerivesPairs.flat (h : DerivesPairs l depth w pairs) :
    DerivesItems l depth w (Value.flat pairs) := by
  induction pairs generalizing w with
  | nil =>
      cases h
      exact .nil
  | cons x pairs ih =>
      cases h with
      | cons hdepth hkey hvalue hlater =>
          exact .cons hdepth hkey (.cons hdepth hvalue (ih hlater))

theorem DerivesPairs.length_le (h : DerivesPairs l depth w pairs) :
    pairs.length ≤ w.length := by
  have hflat := h.flat.length_le
  rw [Value.length_flat] at hflat
  omega

theorem Derives.children (h : Derives l depth w v) :
    ∃ t, t <:+: w ∧ DerivesItems l (depth + 1) t v.children := by
  cases h with
  | sequence hcount hitems =>
      exact ⟨_, (List.suffix_append _ _).isInfix, hitems⟩
  | openSequence hitems =>
      rw [← List.append_assoc]
      exact ⟨_, List.infix_append .., hitems⟩
  | pairing hcount hpairs =>
      exact ⟨_, (List.suffix_append _ _).isInfix, hpairs.flat⟩
  | openPairing hpairs =>
      rw [← List.append_assoc]
      exact ⟨_, List.infix_append .., hpairs.flat⟩
  | _ => exact ⟨[], List.nil_infix, .nil⟩

/-- Each part of a value derives from a piece of its word. -/
theorem Derives.of_mem_parts (h : Derives l depth w v) (hu : u ∈ v.parts) :
    ∃ depth' t, t <:+: w ∧ Derives l depth' t u := by
  induction v using Value.inductionOn generalizing depth w with
  | _ v ih =>
      rcases Value.mem_parts_iff.mp hu with rfl | ⟨c, hc, hu⟩
      · exact ⟨depth, w, List.infix_refl w, h⟩
      · obtain ⟨t, ht, hchildren⟩ := h.children
        obtain ⟨-, t', ht', hderives⟩ := hchildren.of_mem hc
        obtain ⟨depth', t'', ht'', hu⟩ := ih c hc hderives hu
        exact ⟨depth', t'', ht''.trans (ht'.trans ht), hu⟩

/-- A value that derives where there is room for it leaves room for its
height. -/
theorem Derives.height_le (h : Derives l depth w v) (hdepth : depth ≤ l.depth) :
    depth + v.height ≤ l.depth := by
  induction v using Value.inductionOn generalizing depth w with
  | _ v ih =>
      -- the children stand one deeper, and there only because there is room for
      -- them
      have hheight : v.height ≤ l.depth - depth := by
        refine Value.height_le_iff.mpr fun c hc => ?_
        obtain ⟨t, -, hchildren⟩ := h.children
        obtain ⟨hroom, t', -, hderives⟩ := hchildren.of_mem hc
        have := ih c hc hderives hroom
        omega
      omega

/-! ## What a word says of its value -/

namespace Value

/-- Octets that a size limit is applied to when they are read back, though no
limit was applied to them as such before: chunks were joined, and the digits of
a double may have been fewer. -/
def rewritten? : Value → Option Bytes
  | .blob _ octets => some octets
  | .double x => some x.wireText
  | _ => none

/-- What is known of a value, leaving aside what is in it, that was read from so
many octets. -/
structure Received (l : Limits) (size : Nat) (v : Value) : Prop where
  line : ∀ line ∈ v.line?, Bytes.lf ∉ line
  announced : ∀ n ∈ v.announced?, n < 2 ^ 63 ∨ n ≤ size
  admits : ∀ octets ∈ v.limited?, v.rewritten? = some octets ∨
    l.Admits octets.length

end Value

open Value (OneLine Received line? announced? limited? rewritten?)

theorem Derives.received (h : Derives l depth w v) : Received l w.length v := by
  cases h with
  | sequence hcount hitems =>
      constructor <;> simp [line?, announced?, limited?]
      exact Or.inl hcount.2
  | openSequence hitems =>
      have := hitems.length_le
      constructor <;> simp [line?, announced?, limited?]
      omega
  | pairing hcount hpairs =>
      constructor <;> simp [line?, announced?, limited?]
      exact Or.inl hcount.2
  | openPairing hpairs =>
      have := hpairs.length_le
      constructor <;> simp [line?, announced?, limited?]
      omega
  | blob h =>
      have := h.length_octets_le
      constructor <;> simp [line?, announced?, limited?, rewritten?]
      omega
  | openBlob h =>
      have := h.length_le
      constructor <;> simp [line?, announced?, limited?, rewritten?]
      omega
  | simple hlf hsize =>
      constructor <;> simp [line?, announced?, limited?, hlf, hsize]
  | verbatim h =>
      have := h.length_octets_le
      obtain ⟨num, -, hsize, -⟩ := h
      constructor <;> simp only [line?, announced?, limited?, Option.mem_some]
      · simp
      · omega
      · exact fun octets ho => Or.inr (ho ▸ hsize)
  | bigNumber hn hsize =>
      have := hsize.mono hn.length_ofInt_le
      constructor <;> simp [line?, announced?, limited?, this]
  | _ => constructor <;> simp [line?, announced?, limited?, rewritten?]

theorem Derives.received_of_mem (h : Derives l depth w v) (hu : u ∈ v.parts) :
    ∃ size ≤ w.length, Received l size u := by
  obtain ⟨depth', t, ht, hderives⟩ := h.of_mem_parts hu
  exact ⟨t.length, ht.length_le, hderives.received⟩

theorem Derives.countable (h : Derives l depth w v)
    (hlength : w.length < 2 ^ 63) :
    v.Countable := by
  intro u hu n hn
  obtain ⟨size, hsize, hreceived⟩ := h.received_of_mem hu
  have := hreceived.announced n hn
  omega

theorem Derives.line_of_mem (h : Derives l depth w v) (hu : u ∈ v.parts)
    {line : Bytes} (hline : line ∈ u.line?) :
    Bytes.lf ∉ line ∧ l.Admits line.length := by
  obtain ⟨size, -, hreceived⟩ := h.received_of_mem hu
  refine ⟨hreceived.line line hline, ?_⟩
  cases u with
  | simple role text =>
      cases hline
      exact (hreceived.admits line rfl).resolve_left nofun
  | _ => cases hline

theorem Derives.verbatim_of_mem (h : Derives l depth w v) {format : Format}
    {text : Bytes} (hu : .verbatim format text ∈ v.parts) :
    l.Admits (text.length + 4) := by
  obtain ⟨size, -, hreceived⟩ := h.received_of_mem hu
  exact (hreceived.admits _ rfl).resolve_left nofun

/-- What was read cannot be written only because of a carriage return. -/
theorem Derives.exists_cr_mem (h : Derives l depth w v) (hline : ¬ v.OneLine) :
    ∃ u ∈ v.parts, ∃ line ∈ u.line?, Bytes.cr ∈ line := by
  simp only [OneLine, not_forall] at hline
  obtain ⟨u, hu, line, hmem, hbad⟩ := hline
  have hlf := (h.line_of_mem hu hmem).1
  exact ⟨u, hu, line, hmem, by tauto⟩

/-- Only joined chunks and the digits of doubles may exceed a limit. -/
theorem Derives.fits_iff (h : Derives l depth w v) :
    v.Fits l ↔
      ∀ u ∈ v.parts, ∀ octets ∈ u.rewritten?, l.Admits octets.length := by
  constructor
  · intro hfits u hu octets ho
    refine hfits u hu octets ?_
    cases u with
    | blob role p => exact ho
    | double x => exact ho
    | _ => cases ho
  · intro hrewritten u hu octets ho
    obtain ⟨size, -, hreceived⟩ := h.received_of_mem hu
    rcases hreceived.admits octets ho with hagain | hadmits
    · exact hrewritten u hu octets hagain
    · exact hadmits

/-! ## Encoding settles -/

namespace Double

theorem wireText_canonical (x : Double) :
    x.canonical.wireText = x.wireText := by
  unfold canonical
  split
  · next h =>
      have hnan : notANumber.isNotANumber = true := rfl
      rw [wireText, wireText, if_pos h, if_pos hnan]
  · rfl

end Double

namespace Value

theorem flat_canonical (pairs : List (Value × Value)) :
    flat (pairs.map fun x => (x.1.canonical, x.2.canonical)) =
      (flat pairs).map canonical := by
  induction pairs with
  | nil => rfl
  | cons x pairs ih => simpa [flat] using ih

theorem itemsEncoding_canonical {vs : List Value}
    (h : ∀ c ∈ vs, c.canonical.encoding = c.encoding) :
    itemsEncoding (vs.map canonical) = itemsEncoding vs := by
  induction vs with
  | nil => rfl
  | cons v vs ih =>
      rw [List.map_cons, itemsEncoding, itemsEncoding, h v (.head _),
        ih fun c hc => h c (.tail _ hc)]

/-- What is read back is written as the value was. -/
theorem canonical_encoding (v : Value) : v.canonical.encoding = v.encoding := by
  induction v using inductionOn with
  | _ v ih =>
      have hchildren := itemsEncoding_canonical ih
      cases v with
      | sequence s items =>
          rw [canonical, encoding, encoding, itemsCanonical_eq, List.length_map]
          exact congrArg _ hchildren
      | pairing p pairs =>
          rw [canonical, encoding, encoding, pairsCanonical_eq, List.length_map,
            pairsEncoding_eq, pairsEncoding_eq, flat_canonical]
          exact congrArg _ hchildren
      | double x =>
          rw [canonical, encoding, encoding, Double.encode_eq_line,
            Double.encode_eq_line, Double.wireText_canonical]
      | _ => rfl

/-- Reading back leaves a value as it is that has no doubles but numbers. -/
theorem canonical_eq_self {v : Value}
    (h : ∀ x, .double x ∈ v.parts → x.isNotANumber = false) :
    v.canonical = v := by
  induction v using inductionOn with
  | _ v ih =>
      have hchildren : ∀ c ∈ v.children, c.canonical = c := fun c hc =>
        ih c hc fun x hx => h x (mem_parts_of_mem hc hx)
      cases v with
      | sequence s items =>
          rw [canonical, itemsCanonical_eq]
          exact congrArg _
            ((List.map_congr_left hchildren).trans (List.map_id' items))
      | pairing p pairs =>
          rw [canonical, pairsCanonical_eq]
          refine congrArg _ ?_
          have hpairs : ∀ x ∈ pairs, (x.1.canonical, x.2.canonical) = x :=
            fun x hx => by
            rw [hchildren x.1 (mem_flat.mpr ⟨x, hx, Or.inl rfl⟩),
              hchildren x.2 (mem_flat.mpr ⟨x, hx, Or.inr rfl⟩)]
          rw [List.map_congr_left hpairs, List.map_id']
      | double x =>
          rw [canonical, Double.canonical, h x (mem_parts_self _),
            if_neg Bool.false_ne_true]
      | _ => rfl

theorem fits_of_unlimited {l : Limits} {v : Value} (h : l.size? = none) :
    v.Fits l := by
  intro u _ octets _ limit hlimit
  rw [h] at hlimit
  cases hlimit

theorem oneLine_of_encode {v : Value} {octets : Bytes}
    (h : v.encode = .ok octets) :
    v.OneLine ∧ octets = v.octets := by
  rcases encoding_cases v with ⟨hline, -⟩ | ⟨-, hstopped, -⟩
  · rw [encode_eq_ok hline] at h
    exact ⟨hline, (Except.ok.inj h).symm⟩
  · rw [encode, Encoding.result, hstopped] at h
    cases h

theorem not_oneLine_of_encode {v : Value} {e : Violation}
    (h : v.encode = .error e) :
    ¬ v.OneLine := by
  intro hline
  rw [encode_eq_ok hline] at h
  cases h

end Value

namespace Reader

theorem derives_of_value_ok {r after : Reader} {v : Value} (h : r.feed.Calm)
    (hlength : r.remaining.length < 2 ^ 63) (hv : value r = (.ok v, after)) :
    ∃ w, Derives r.options.limits 0 w v ∧ w.length < 2 ^ 63 := by
  obtain ⟨w, hw, hderives⟩ :=
    (reads_value.accepts_iff steady_value h v after.remaining).mp
      ⟨after, hv, rfl⟩
  rw [hw, List.length_append] at hlength
  exact ⟨w, hderives, by omega⟩

/-- A value that was read is no higher than its reader allows, no text in it has
left its line, and the texts that came in whole are within the size limit. It
can be written unless a simple text has a carriage return in it. Then a reader
without a size limit and with the same depth reads it back, and what it reads is
written in the same way. -/
theorem value_ok_wellFormed {r after : Reader} {v : Value} (h : r.feed.Calm)
    (hlength : r.remaining.length < 2 ^ 63) (hv : value r = (.ok v, after)) :
    v.height ≤ r.options.maxDepth ∧
    (∀ u ∈ v.parts, ∀ line ∈ u.line?,
      Bytes.lf ∉ line ∧ r.options.limits.Admits line.length) ∧
    (∀ format text, .verbatim format text ∈ v.parts →
      r.options.limits.Admits (text.length + 4)) ∧
    (∀ e, v.encode = .error e →
      ∃ u ∈ v.parts, ∃ line ∈ u.line?, Bytes.cr ∈ line) ∧
    ((∀ x, .double x ∈ v.parts → x.isNotANumber = false) → v.canonical = v) ∧
    ∀ octets, v.encode = .ok octets → v.canonical.encode = .ok octets ∧
      ∀ (q : Reader) (rest : Bytes),
        q.feed.Calm → q.options.effectiveLimit? = none →
        q.options.maxDepth = r.options.maxDepth → q.remaining = octets ++ rest →
          ∃ after,
            value q = (.ok v.canonical, after) ∧ after.remaining = rest := by
  obtain ⟨w, hderives, hshort⟩ := derives_of_value_ok h hlength hv
  have hheight : v.height ≤ r.options.maxDepth := by
    have := hderives.height_le (Nat.zero_le _)
    rwa [Nat.zero_add] at this
  refine ⟨hheight, fun u hu line => hderives.line_of_mem hu,
    fun format text => hderives.verbatim_of_mem,
    fun e he => hderives.exists_cr_mem (Value.not_oneLine_of_encode he),
    Value.canonical_eq_self, ?_⟩
  intro octets hoctets
  obtain ⟨hline, rfl⟩ := Value.oneLine_of_encode hoctets
  refine ⟨?_, fun q rest hcalm hlimit hdepth hq => ?_⟩
  · rw [Value.encode, Value.canonical_encoding]
    exact hoctets
  · refine (reads_value.accepts_iff steady_value hcalm _ _).mpr
      ⟨v.octets, hq, ?_⟩
    refine Value.derives_octets hline (hderives.countable hshort)
      (Value.fits_of_unlimited hlimit) 0 ?_
    show 0 + v.height ≤ q.options.maxDepth
    omega

/-- A stream of a blob in two chunks with a leading zero, a number with a sign,
a double with an exponent and an old null, three octets at a time and with two
octets to spare in the limit. It is read back from what a writer makes of it. -/
theorem value_ok_wellFormed_stream :
    let octets :=
      Bytes.ofChars "*4\r\n$6\r\nabcdef\r\n(7\r\n,1000\r\n_\r\n".toList
    let r : Reader := ⟨⟨[.piece (Bytes.ofChars
      "*?\r\n$?\r\n;03\r\nabc\r\n;3\r\ndef\r\n;0\r\n(+7\r\n,1e3\r\n$-1\r\n.\r\n".toList)],
      some 3⟩, { sizeLimit := 5, maxDepth := 1 }, []⟩
    let q : Reader :=
      ⟨⟨[.piece octets], some 1⟩, { sizeLimit := -1, maxDepth := 1 }, []⟩
    r.feed.Calm ∧ r.remaining.length < 2 ^ 63 ∧
      ∃ v after, value r = (.ok v, after) ∧
      v.encode = .ok octets ∧ ∃ later, value q = (.ok v, later) ∧
        later.remaining = [] := by
  intro octets r q
  let v : Value :=
    .array [.blob .string (.ofChars "abcdef".toList), .bigNumber 7,
      .double ⟨0x408F400000000000⟩, .null]
  have hcalm : r.feed.Calm := by decide
  have hlength : r.remaining.length < 2 ^ 63 := by decide +kernel
  have habc :
      Counted r.options.limits .chunk (Bytes.ofChars ";03\r\nabc\r\n".toList)
      (.ofChars "abc".toList) :=
    ⟨.ofChars ['0', '3'],
      ⟨.plain ⟨by decide, List.all_eq_true.mp rfl⟩, by decide⟩, by decide, rfl⟩
  have hdef :
      Counted r.options.limits .chunk (Bytes.ofChars ";3\r\ndef\r\n".toList)
      (.ofChars "def".toList) :=
    ⟨.ofChars ['3'], ⟨.plain (.singleton rfl), by decide⟩, by decide, rfl⟩
  have hseven : SignedNumeral (.ofChars ['+', '7']) 7 :=
    .positive (.singleton rfl)
  have hthousand : Double.ofText? (.ofChars ['1', 'e', '3']) =
      some ⟨0x408F400000000000⟩ := by
    decide +kernel
  have hderives : Derives r.options.limits 0 _ v :=
    .openSequence (.cons (by decide)
      (.openBlob (.more habc (by decide) (.more hdef (by decide) .last)))
      (.cons (by decide) (.bigNumber hseven (by decide))
        (.cons (by decide) (.double hthousand (by decide))
          (.cons (by decide) .nullBlob .nil))))
  obtain ⟨after, hvalue, -⟩ :=
    (reads_value.accepts_iff steady_value hcalm _ []).mpr
      ⟨_, by decide, hderives⟩
  have hencode : v.encode = .ok octets := by decide +kernel
  obtain ⟨-, -, -, -, -, hagain⟩ := value_ok_wellFormed hcalm hlength hvalue
  have hread := (hagain octets hencode).2 q [] (by decide) rfl rfl (by decide)
  exact ⟨hcalm, hlength, v, after, hvalue, hencode, hread⟩

end Reader

end RespWire

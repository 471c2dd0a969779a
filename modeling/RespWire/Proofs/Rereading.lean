import RespWire.Proofs.Decoded
import RespWire.Proofs.Tightened

/-!
# Reading again what was read

A size limit is applied to octets as they come in: to every chunk of a streamed
blob for itself, and to the text of a double as it stands. The value has neither
chunks nor that text any more. So what is written of it may exceed the limit
that it has passed, and then a reader with the same options refuses it. It does
so in these two cases only, joined chunks and the digits of doubles, and
otherwise it reads the value back.

That a value too large is not read back takes an argument about words: what is
written of an aggregate can be cut in one way only into words of its elements.
Without a limit what is written of each element is its word, and words of which
one starts where the other does are the same word, since both are what a reader
takes.
-/

namespace RespWire

theorem Kind.line_inj {k : Kind} {t u : Bytes} (h : k.line t = k.line u) :
    t = u :=
  List.append_cancel_right (List.cons.inj h).2

/-- The same options without a limit on sizes. -/
def Options.sizeless (o : Options) : Options := { o with sizeLimit := -1 }

theorem Options.tighter_sizeless (o : Options) : o.Tighter o.sizeless :=
  ⟨nofun, Nat.le_refl _, rfl⟩

namespace Reader

variable {α : Type} {o tight loose : Options}

/-! ## Words are told apart -/

/-- Of two accepted words neither goes on behind the other. -/
theorem Reads.unique {m : Read α} {L : Bytes → α → Prop} (hm : Reads o m L)
    {u u' t t' : Bytes} {a a' : α} (hu : L u a) (hu' : L u' a')
    (h : u ++ t = u' ++ t') :
    u = u' ∧ t = t' ∧ a = a' := by
  have hrun := (reads_iff.mp hm (u ++ t) a _).mpr ⟨u, t, rfl, rfl, hu⟩
  have hrun' := (reads_iff.mp hm (u ++ t) a' _).mpr ⟨u', t', h, rfl, hu'⟩
  obtain ⟨ha, hrest⟩ := Prod.mk.inj (hrun.symm.trans hrun')
  obtain rfl : t = t' := congrArg Reader.buffer hrest
  exact ⟨List.append_cancel_right h, rfl, Except.ok.inj ha⟩

/-- What stands behind a header with a number is settled by what it starts
with. -/
theorem line_append_inj {a : Aggregate} {num num' u u' : Bytes} {n n' : Nat}
    (hn : Count num n) (hn' : Count num' n')
    (h : (Kind.aggregate a).line num ++ u =
      (Kind.aggregate a).line num' ++ u') :
    u = u' :=
  ((reads_header (o := {}) a).unique (Or.inr ⟨num, n, rfl, hn, rfl⟩)
    (Or.inr ⟨num', n', rfl, hn', rfl⟩) h).2.1

/-- Words of a reader are words of every reader that allows more. -/
theorem Nests.loosen (h : tight.Tighter loose) {depth : Nat} {w : Bytes}
    {v : Value} (hw : Nests tight.limits depth w v) :
    Nests loose.limits depth w v := by
  have hroom : depth ≤ tight.maxDepth := hw.1
  have hloose := h.depth
  have hstrict :=
    reads_valueWithin (o := tight) (tight.maxDepth + 1 - depth) depth (by omega)
  have hgenerous :=
    reads_valueWithin (o := loose) (loose.maxDepth + 1 - depth) depth (by omega)
  have hrun :=
    (reads_iff.mp hstrict w v _).mpr ⟨w, [], (List.append_nil w).symm, rfl, hw⟩
  have hmatched :=
    (followers_tightened h).valueWithin (loose.maxDepth + 1 - depth)
    (tight.maxDepth + 1 - depth) (by omega) (holding loose w) (holding tight w)
      ⟨rfl, rfl⟩
  rw [hrun] at hmatched
  -- the looser reader ends where the tighter one does, so it has taken the same
  -- word
  obtain ⟨s, hs, -, hoptions⟩ := hmatched.of_ok
  obtain ⟨w', rest, hsplit, rfl, hw'⟩ := (reads_iff.mp hgenerous w v s).mp hs
  obtain rfl : [] = rest := congrArg Reader.buffer hoptions
  rw [List.append_nil] at hsplit
  rwa [hsplit]

end Reader

namespace Value

open Reader

variable {o : Options} {l : Limits} {depth : Nat}

/-! ## What is written is a word only within the limits -/

/-- In what is written of an aggregate the children are where they were
written. -/
theorem derivesItems_children {v : Value} (hline : v.OneLine)
    (hcount : v.Countable) (h : Derives l depth v.octets v.canonical) :
    DerivesItems l (depth + 1) (v.children.flatMap octets)
      (v.children.map canonical) := by
  have hcounts := hcount v (mem_parts_self v)
  cases v with
  | sequence s items =>
      have hn : Count (Decimal.ofNat items.length) items.length :=
        count_ofNat (hcounts _ rfl)
      rw [octets_sequence hline, canonical, itemsCanonical_eq] at h
      generalize hw : _ ++ items.flatMap octets = w at h
      cases h with
      | sequence hnum hitems =>
          rw [show (sequence s items).children = items
            from rfl, line_append_inj hn hnum hw]
          exact hitems
      | openSequence hitems =>
          exact absurd ⟨_, hw.symm⟩ (hn.1.not_streamHeader _ _)
  | pairing p pairs =>
      have hn : Count (Decimal.ofNat pairs.length) pairs.length :=
        count_ofNat (hcounts _ rfl)
      rw [octets_pairing hline, canonical, pairsCanonical_eq] at h
      generalize hw : _ ++ (flat pairs).flatMap octets = w at h
      cases h with
      | pairing hnum hpairs =>
          rw [show (pairing p pairs).children = flat pairs
            from rfl, line_append_inj hn hnum hw, ← flat_canonical]
          exact hpairs.flat
      | openPairing hpairs =>
          exact absurd ⟨_, hw.symm⟩ (hn.1.not_streamHeader _ _)
  | _ => exact .nil

/-- What is written of values one behind the other is a word of each, if it is
one for all and was one without a limit. -/
theorem nests_of_derivesItems {vs : List Value}
    (hwords : ∀ c ∈ vs, Nests o.sizeless.limits depth c.octets c.canonical)
    (h : DerivesItems o.limits depth (vs.flatMap octets) (vs.map canonical)) :
    ∀ c ∈ vs, Derives o.limits depth c.octets c.canonical := by
  induction vs with
  | nil => exact nofun
  | cons v vs ih =>
      rw [List.flatMap_cons, List.map_cons] at h
      generalize hw : v.octets ++ vs.flatMap octets = w at h
      cases h with
      | cons hdepth hitem hlater =>
          have hv := hwords v (.head _)
          have hitem' : Nests o.sizeless.limits depth _ _ :=
            Nests.loosen o.tighter_sizeless ⟨hdepth, hitem⟩
          have hroom : depth ≤ o.sizeless.maxDepth := hdepth
          have hreads := reads_valueWithin (o := o.sizeless)
            (o.sizeless.maxDepth + 1 - depth) depth (by omega)
          -- without a limit both are words of the first value, so they end
          -- together
          obtain ⟨hword, hrest, -⟩ := hreads.unique hv hitem' hw
          rw [← hword] at hitem
          rw [← hrest] at hlater
          exact List.forall_mem_cons.mpr
            ⟨hitem, ih (fun c hc => hwords c (.tail _ hc)) hlater⟩

theorem admits_of_derives_octets {v : Value}
    (h : Derives l depth v.octets v.canonical) (hcount : v.Countable) :
    ∀ text ∈ v.limited?, l.Admits text.length := by
  have hcounts := hcount v (mem_parts_self v)
  intro text htext
  cases v with
  | blob role p =>
      cases htext
      generalize hw : (blob role text).octets = w at h
      cases h with
      | blob h =>
          obtain ⟨num, -, hsize, -⟩ := h
          exact hsize
      | openBlob h =>
          obtain ⟨num, hn, -, hword⟩ :=
            counted_encode (l := ⟨none, 0⟩) (.blob role) (hcounts _ rfl) nofun
          exact absurd ⟨_, hw.symm.trans hword⟩ (hn.1.not_streamHeader _ _)
  | simple role line =>
      cases htext
      generalize hw : (simple role text).octets = w at h
      cases h with
      | simple hlf hsize => exact hsize
  | verbatim format body =>
      cases htext
      generalize hw : (verbatim format body).octets = w at h
      cases h with
      | verbatim h =>
          obtain ⟨num, -, hsize, -⟩ := h
          exact hsize
  | bigNumber n =>
      cases htext
      generalize hw : (bigNumber n).octets = w at h
      cases h with
      | bigNumber hn hsize => exact Kind.line_inj hw ▸ hsize
  | double x =>
      cases htext
      generalize hw : (double x).octets = w at h
      cases h with
      | double hx hsize =>
          rw [octets, encoding, Double.encode_eq_line] at hw
          exact Kind.line_inj hw ▸ hsize
  | _ => cases htext

/-- Where there is room for its height, what is written of a value is a word for
it just if all of it is within the limit. -/
theorem derives_octets_iff {v : Value} (hline : v.OneLine)
    (hcount : v.Countable) (hdepth : depth + v.height ≤ o.maxDepth) :
    Derives o.limits depth v.octets v.canonical ↔ v.Fits o.limits := by
  refine ⟨fun h => ?_,
    fun hfits => derives_octets hline hcount hfits depth hdepth⟩
  induction v using inductionOn generalizing depth with
  | _ v ih =>
      have hwords : ∀ c ∈ v.children,
          Nests o.sizeless.limits (depth + 1) c.octets c.canonical :=
            fun c hc => by
        have hlt := height_lt_of_mem hc
        refine ⟨show depth + 1 ≤ o.maxDepth by omega, ?_⟩
        exact derives_octets (hline.child hc) (hcount.child hc)
          (fits_of_unlimited rfl) (depth + 1)
          (show depth + 1 + c.height ≤ o.maxDepth by omega)
      have hchildren :=
        nests_of_derivesItems hwords (derivesItems_children hline hcount h)
      intro u hu text htext
      rcases mem_parts_iff.mp hu with rfl | ⟨c, hc, hu⟩
      · exact admits_of_derives_octets h hcount text htext
      · have hlt := height_lt_of_mem hc
        exact ih c hc (hline.child hc) (hcount.child hc) (by omega)
          (hchildren c hc) u hu text htext

end Value

namespace Reader

/-- What is a word without a limit on sizes is read, or refused for a limit. -/
theorem value_ok_or_limit {q : Reader} {w rest : Bytes} {v : Value}
    (hq : q.feed.Calm) (hrem : q.remaining = w ++ rest)
    (hw : Derives q.options.sizeless.limits 0 w v) :
    (∃ after, value q = (.ok v, after) ∧ after.remaining = rest) ∨
      ∃ f, f.IsLimit ∧ (value q).1 = .error f := by
  have hcalm : (q.setOptions q.options.sizeless).feed.Calm := hq
  obtain ⟨later, hlater, hrest⟩ :=
    (reads_value.accepts_iff steady_value hcalm v rest).mpr ⟨w, hrem, hw⟩
  have hmatched := (followers_tightened q.options.tighter_sizeless).value
    (q.setOptions q.options.sizeless) q ⟨rfl, rfl⟩
  rw [hlater] at hmatched
  generalize value q = x at hmatched
  cases hmatched with
  | stopped hf => exact Or.inr ⟨_, hf, rfl⟩
  | same hsame =>
      refine Or.inl ⟨_, rfl, ?_⟩
      rw [hsame.eq]
      exact hrest

/-- What is written of a value that was read is read back under the same limits
just if all blobs in it, however many chunks they came in, and the digits of all
doubles are within the size limit. Otherwise it is refused for a limit. -/
theorem value_rereads_iff {r after : Reader} {v : Value} {octets : Bytes}
    (h : r.feed.Calm) (hlength : r.remaining.length < 2 ^ 63)
    (hv : value r = (.ok v, after)) (hencode : v.encode = .ok octets)
    {q : Reader} {rest : Bytes} (hq : q.feed.Calm)
    (hlimits : q.options.limits = r.options.limits)
    (hrem : q.remaining = octets ++ rest) :
    ((∃ after, value q = (.ok v.canonical, after) ∧ after.remaining = rest) ↔
      ∀ u ∈ v.parts,
        ∀ text ∈ u.rewritten?, q.options.limits.Admits text.length) ∧
    ((∃ u ∈ v.parts, ∃ text ∈ u.rewritten?,
      ¬ q.options.limits.Admits text.length) →
      ∃ f, f.IsLimit ∧ (value q).1 = .error f) := by
  obtain ⟨w, hderives, hshort⟩ := derives_of_value_ok h hlength hv
  rw [← hlimits] at hderives
  have hcount := hderives.countable hshort
  have hheight : 0 + v.height ≤ q.options.maxDepth :=
    hderives.height_le (Nat.zero_le _)
  obtain ⟨hline, rfl⟩ := Value.oneLine_of_encode hencode
  have hiff :
      (∃ after, value q = (.ok v.canonical, after) ∧ after.remaining = rest) ↔
      ∀ u ∈ v.parts,
        ∀ text ∈ u.rewritten?, q.options.limits.Admits text.length := by
    rw [← hderives.fits_iff, ← Value.derives_octets_iff hline hcount hheight,
      reads_value.accepts_iff steady_value hq]
    constructor
    · intro hleft
      obtain ⟨w', hw', hderives'⟩ := hleft
      rw [hrem] at hw'
      rwa [List.append_cancel_right hw']
    · intro hright
      exact ⟨v.octets, hrem, hright⟩
  refine ⟨hiff, fun hexceeds => ?_⟩
  obtain ⟨u, hu, text, htext, hlong⟩ := hexceeds
  have hword : Derives q.options.sizeless.limits 0 v.octets v.canonical :=
    Value.derives_octets hline hcount (Value.fits_of_unlimited rfl) 0 hheight
  rcases value_ok_or_limit hq hrem hword with hread | hrefused
  · exact absurd (hiff.mp hread u hu text htext) hlong
  · exact hrefused

theorem derives_two_chunks {l : Limits} {depth : Nat} (hsize : l.Admits 1) :
    Derives l depth (Bytes.ofChars "$?\r\n;1\r\na\r\n;1\r\nb\r\n;0\r\n".toList)
      (.blob .string (.ofChars ['a', 'b'])) := by
  have hone : Count (Bytes.ofChars ['1']) 1 :=
    ⟨.plain (.singleton rfl), by decide⟩
  have ha : Counted l .chunk (Bytes.ofChars ";1\r\na\r\n".toList)
      (.ofChars ['a']) :=
    ⟨_, hone, hsize, rfl⟩
  have hb : Counted l .chunk (Bytes.ofChars ";1\r\nb\r\n".toList)
      (.ofChars ['b']) :=
    ⟨_, hone, hsize, rfl⟩
  have hword : Derives l depth _ (.blob .string _) :=
    .openBlob (.more ha (by decide) (.more hb (by decide) .last))
  exact hword

/-- Two chunks of one octet each, joined to a blob of two, and a double that
is written with more octets than it was read from. With a limit of four
they are read back, with a limit of three the double is refused. -/
theorem value_rereads_iff_joined :
    let octets := Bytes.ofChars "*2\r\n$2\r\nab\r\n,1000\r\n".toList
    let feed : Feed := ⟨[.piece (Bytes.ofChars
      "*2\r\n$?\r\n;1\r\na\r\n;1\r\nb\r\n;0\r\n,1e3\r\n".toList)], some 1⟩
    let r (limit : Int) : Reader := ⟨feed, { sizeLimit := limit }, []⟩
    let q (limit : Int) : Reader :=
      ⟨⟨[.piece octets], some 3⟩, { sizeLimit := limit }, []⟩
    ∃ v, v.encode = .ok octets ∧
      (∃ after, value (r 4) = (.ok v, after)) ∧
      (∃ later, value (q 4) = (.ok v, later) ∧ later.remaining = []) ∧
      (∃ after, value (r 3) = (.ok v, after)) ∧
      ∃ f, f.IsLimit ∧ (value (q 3)).1 = .error f := by
  intro octets feed r q
  let v : Value :=
    .array [.blob .string (.ofChars ['a', 'b']), .double ⟨0x408F400000000000⟩]
  have hencode : v.encode = .ok octets := by decide +kernel
  have htwo : Count (Bytes.ofChars ['2']) 2 :=
    ⟨.plain (.singleton rfl), by decide⟩
  have hthousand : Double.ofText? (.ofChars ['1', 'e', '3']) =
      some ⟨0x408F400000000000⟩ := by
    decide +kernel
  have hderives (l : Limits) (hroom : 1 ≤ l.depth) (hsize : l.Admits 3) :
      Derives l 0 _ v :=
    .sequence htwo (.cons hroom (derives_two_chunks (hsize.mono (by decide)))
      (.cons hroom (.double hthousand hsize) .nil))
  have hvalue (limit : Int) (hsize : (r limit).options.limits.Admits 3) :
      ∃ after, value (r limit) = (.ok v, after) := by
    have hcalm : (r limit).feed.Calm := show feed.Calm by decide
    have hword := hderives (r limit).options.limits
      (show 1 ≤ defaultMaxDepth by decide) hsize
    obtain ⟨after, hafter, -⟩ :=
      (reads_value.accepts_iff steady_value hcalm v []).mpr ⟨_, rfl, hword⟩
    exact ⟨after, hafter⟩
  obtain ⟨after, hafter⟩ := hvalue 4 (by decide)
  obtain ⟨after', hafter'⟩ := hvalue 3 (by decide)
  obtain ⟨hback, -⟩ :=
    value_rereads_iff (q := q 4) (by decide) (by decide +kernel) hafter
    hencode (by decide) rfl (show (q 4).remaining = octets ++ [] by decide)
  obtain ⟨-, hrefused⟩ :=
    value_rereads_iff (q := q 3) (by decide) (by decide +kernel) hafter'
    hencode (by decide) rfl (show (q 3).remaining = octets ++ [] by decide)
  exact ⟨v, hencode, ⟨after, hafter⟩, hback.mpr (by decide +kernel),
    ⟨after', hafter'⟩, hrefused (by decide +kernel)⟩

/-- A blob that came in two chunks within the limit is refused as one. -/
theorem value_refuses_joined_blob :
    let o : Options := { sizeLimit := 1 }
    let octets := Bytes.ofChars "$2\r\nab\r\n".toList
    let v : Value := .blob .string (.ofChars ['a', 'b'])
    let r : Reader :=
      ⟨.ofBytes (Bytes.ofChars "$?\r\n;1\r\na\r\n;1\r\nb\r\n;0\r\n".toList), o,
        []⟩
    let q : Reader := ⟨.ofBytes octets, o, []⟩
    (∃ after, value r = (.ok v, after) ∧ after.remaining = []) ∧
      v.encode = .ok octets ∧
      (value q).1 = .error (.violation (.tooLarge 2 1)) := by
  intro o octets v r q
  have hderives : Derives o.limits 0 _ v := derives_two_chunks (by decide)
  have hr : r.feed.Calm := by decide
  exact ⟨(reads_value.accepts_iff steady_value hr v []).mpr
    ⟨_, by decide, hderives⟩,
    by decide +kernel, by with_unfolding_all rfl⟩

end Reader

end RespWire

import RespWire.Proofs.Parsing

/-!
# What a deep skip passes over

A deep skip has a language too, with a kind for every word. It is close to the
grammar of values but not the same. Elements are passed one at a time whatever
the aggregate makes of them, so the pairs of a stream need not be complete, and
chunks and closes are passed wherever they stand.

The close of a stream is passed as an element is. So it takes a level of its
own, and a stream cannot stand where no level is left for its close.

The language goes by the levels left, as the skip does. `SkipsOver` is one
level over the language of what is nested.
-/

namespace RespWire

/-- Words that a skip passes without going deeper. -/
inductive Passes (l : Limits) : Bytes → Kind → Prop where
  | blob {role : Role} {w octets : Bytes}
      (h : Counted l (.blob role) w octets) :
      Passes l w (.blob role)
  | simple {role : Role} {text : Bytes} (hlf : Bytes.lf ∉ text)
      (hsize : l.Admits text.length) :
      Passes l ((Kind.simple role).line text) (.simple role)
  | verbatim {w : Bytes} {format : Format} {text : Bytes}
      (h : Counted l .verbatim w (format.octets ++ ':'.toUInt8 :: text)) :
        Passes l w .verbatim
  | bigNumber {text : Bytes} {n : Int} (hn : SignedNumeral text n)
      (hsize : l.Admits text.length) :
        Passes l (Kind.bigNumber.line text) .bigNumber
  | boolean (b : Bool) : Passes l (if b then Marker.yes else Marker.no) .boolean
  | double {text : Bytes} {x : Double} (hx : Double.ofText? text = some x)
      (hsize : l.Admits text.length) : Passes l (Kind.double.line text) .double
  | integer {num : Bytes} {n : Int} (hn : Numeral num n)
      (hfits : Reader.fits n = true) :
      Passes l (Kind.integer.line num) .integer
  | null : Passes l Marker.null .null
  | nullArray : Passes l Marker.nullArray .null
  | nullBlob : Passes l Marker.nullBlob .null
  | close : Passes l Marker.close .close

/-- Words that a deep skip passes, over the words that it passes a level
deeper. -/
inductive SkipsOver (l : Limits) (inner : Bytes → Kind → Prop) :
    Bytes → Kind → Prop where
  | flat {w : Bytes} {k : Kind} (h : Passes l w k) : SkipsOver l inner w k
  | openBlob {role : Role} {w octets : Bytes} (h : Chunks l w octets) :
      SkipsOver l inner ((Kind.blob role).streamHeader ++ w) (.blob role)
  | chunks {w octets : Bytes} (h : Chunks l w octets) :
      SkipsOver l inner w .chunk
  | counted {a : Aggregate} {num w : Bytes} {n : Nat} {ks : List Kind}
      (hcount : Count num n)
      (hlength : ks.length = n * a.width) (h : Reader.Many inner w ks) :
      SkipsOver l inner ((Kind.aggregate a).line num ++ w) (.aggregate a)
  | opened {a : Aggregate} {u w : Bytes} {ks : List Kind}
      (h : Reader.Many (fun w k => inner w k ∧ k ≠ .close) u ks)
        (hclose : inner w .close) :
      SkipsOver l inner ((Kind.aggregate a).streamHeader ++ (u ++ w))
        (.aggregate a)

/-- Words that a deep skip passes with so many levels left. -/
def Skips (l : Limits) : Nat → Bytes → Kind → Prop
  | 0 => fun _ _ => False
  | levels + 1 => SkipsOver l (Skips l levels)

theorem Passes.shows {l : Limits} {w : Bytes} {k : Kind} (h : Passes l w k) :
    Kind.Shows w k := by
  cases h with
  | blob h => exact h.shows
  | simple hlf hsize => exact Kind.shows_of_lead rfl _
  | verbatim h => exact h.shows
  | bigNumber hn hsize => exact Kind.shows_of_lead rfl _
  | boolean b => cases b <;> exact Kind.shows_of_lead (k := .boolean) rfl _
  | double hx hsize => exact Kind.shows_of_lead rfl _
  | integer hn hfits => exact Kind.shows_of_lead rfl _
  | null => exact Kind.shows_of_lead (k := .null) rfl _
  | nullArray => exact fun rest => rfl
  | nullBlob => exact fun rest => rfl
  | close => exact Kind.shows_of_lead (k := .close) rfl _

theorem Chunks.shows {l : Limits} {w octets : Bytes} (h : Chunks l w octets) :
    Kind.Shows w .chunk := by
  cases h with
  | last => exact Kind.shows_of_lead (k := .chunk) rfl _
  | more h hmore hlater =>
      intro rest
      rw [List.append_assoc]
      exact h.shows _

theorem SkipsOver.shows {l : Limits} {inner : Bytes → Kind → Prop} {w : Bytes}
    {k : Kind} (h : SkipsOver l inner w k) : Kind.Shows w k := by
  cases h with
  | flat h => exact h.shows
  | openBlob h => exact Kind.shows_streamHeader _ _
  | chunks h => exact h.shows
  | counted hcount hlength h => exact hcount.shows _ _
  | opened h hclose => exact Kind.shows_streamHeader _ _

/-- A word for a value that is no aggregate is passed wherever a level is
left. -/
theorem Derives.skipsOver {l : Limits} {inner : Bytes → Kind → Prop}
    {depth : Nat} {w : Bytes} {v : Value} (h : Derives l depth w v)
    (hflat : ∀ a, v.kind ≠ .aggregate a) :
    SkipsOver l inner w v.kind := by
  cases h with
  | sequence hcount hitems => exact absurd rfl (hflat _)
  | openSequence hitems => exact absurd rfl (hflat _)
  | pairing hcount hpairs => exact absurd rfl (hflat _)
  | openPairing hpairs => exact absurd rfl (hflat _)
  | blob h => exact .flat (.blob h)
  | openBlob h => exact .openBlob h
  | simple hlf hsize => exact .flat (.simple hlf hsize)
  | verbatim h => exact .flat (.verbatim h)
  | bigNumber hn hsize => exact .flat (.bigNumber hn hsize)
  | boolean b => exact .flat (.boolean b)
  | double hx hsize => exact .flat (.double hx hsize)
  | integer hn hfits => exact .flat (.integer hn hfits)
  | null => exact .flat .null
  | nullArray => exact .flat .nullArray
  | nullBlob => exact .flat .nullBlob

theorem Skips.shows {l : Limits} {levels : Nat} {w : Bytes} {k : Kind}
    (h : Skips l levels w k) :
    Kind.Shows w k := by
  cases levels with
  | zero => exact h.elim
  | succ levels => exact SkipsOver.shows h

/-- A word that is passed as a close is one. -/
theorem Skips.eq_close {l : Limits} {levels : Nat} {w : Bytes}
    (h : Skips l levels w .close) :
    w = Marker.close := by
  cases levels with
  | zero => exact h.elim
  | succ levels =>
      cases h with
      | flat h =>
          cases h
          rfl

namespace Reader

variable {o : Options}

theorem reads_skipChunk :
    Reads o skipChunk fun w isLast =>
      (isLast = true ∧ w = Marker.lastChunk) ∨
      (isLast = false ∧ ∃ octets, Counted o.limits .chunk w octets ∧
        ¬ Marker.lastChunk <+: w) := by
  refine (Reads.orForm _ (Reads.pure true)
    ((Gather.gathers_counted .chunk).dropped.bind_pure fun _ => false) ?_).congr
    fun w isLast => ?_
  · rintro w _ ⟨n, -, p, -, h⟩
    exact h.length_le
  · refine ⟨fun hleft => ?_, fun hright => ?_⟩
    · obtain ⟨t, rfl, rfl, rfl⟩ | ⟨⟨n, rfl, p, -, h⟩, hnot⟩ := hleft
      · exact Or.inl ⟨rfl, List.append_nil _⟩
      · exact Or.inr ⟨rfl, p, h, hnot⟩
    · obtain ⟨rfl, rfl⟩ | ⟨rfl, p, h, hnot⟩ := hright
      · exact Or.inl ⟨[], (List.append_nil _).symm, rfl, rfl⟩
      · exact Or.inr ⟨⟨p.length, rfl, p, rfl, h⟩, hnot⟩

theorem reads_skipChunk? :
    Reads o skipChunk? fun w found =>
      (found = none ∧ w = Marker.lastChunk) ∨
      ∃ u : Unit, found = some u ∧ ∃ octets,
        Counted o.limits .chunk w octets ∧ ¬ Marker.lastChunk <+: w := by
  refine (reads_skipChunk.bind fun isLast =>
    Reads.ite (Reads.pure none) (Reads.pure (some ()))).congr
    fun w found => ?_
  refine ⟨fun hleft => ?_, fun hright => ?_⟩
  · obtain ⟨t, _, isLast, rfl, hlast, ⟨hc, rfl, rfl⟩ | ⟨hc, rfl, rfl⟩⟩ := hleft
    · obtain ⟨-, rfl⟩ | ⟨hf, -⟩ := hlast
      · exact Or.inl ⟨rfl, List.append_nil _⟩
      · rw [hc] at hf
        cases hf
    · obtain ⟨hf, -⟩ | ⟨-, p, h, hnot⟩ := hlast
      · exact absurd hf hc
      · rw [List.append_nil]
        exact Or.inr ⟨(), rfl, p, h, hnot⟩
  · obtain ⟨rfl, rfl⟩ | ⟨u, rfl, p, h, hnot⟩ := hright
    · exact ⟨_, [], true, (List.append_nil _).symm, Or.inl ⟨rfl, rfl⟩,
        Or.inl ⟨rfl, rfl, rfl⟩⟩
    · exact ⟨w, [], false, (List.append_nil _).symm, Or.inr ⟨rfl, p, h, hnot⟩,
        Or.inr ⟨Bool.false_ne_true, rfl, rfl⟩⟩

theorem many_chunks_iff {l : Limits} {w : Bytes} :
    (∃ us : List Unit, ∃ u t, w = u ++ t ∧
      Many (fun w _ => ∃ octets, Counted l .chunk w octets ∧
        ¬ Marker.lastChunk <+: w) u us ∧ t = Marker.lastChunk) ↔
      ∃ octets, Chunks l w octets := by
  refine ⟨fun hleft => ?_, fun hright => ?_⟩
  · obtain ⟨us, u, _, rfl, hmany, rfl⟩ := hleft
    induction hmany with
    | nil => exact ⟨[], .last⟩
    | cons h hlater ih =>
        obtain ⟨p, hcounted, hnot⟩ := h
        obtain ⟨later, hchunks⟩ := ih
        rw [List.append_assoc]
        exact ⟨p ++ later, .more hcounted hnot hchunks⟩
  · obtain ⟨octets, h⟩ := hright
    induction h with
    | last => exact ⟨[], [], _, rfl, .nil, rfl⟩
    | more h hmore hlater ih =>
        obtain ⟨us, u, t, rfl, hmany, ht⟩ := ih
        exact ⟨() :: us, _, t, (List.append_assoc _ _ _).symm,
          .cons ⟨_, h, hmore⟩ hmany, ht⟩

theorem reads_skipChunks :
    Reads o skipChunks fun w _ => ∃ octets, Chunks o.limits w octets := by
  have hloop :
      Reads o (remainingLength >>= fun budget =>
        skipChunk?.collect (budget + 1)) _ :=
    reads_skipChunk?.loop fun w _ h hnil => by
      obtain ⟨p, h, -⟩ := h
      have := h.length_le
      rw [hnil] at this
      cases this
  have hall := hloop.bind_pure fun _ => ()
  rw [Step.bind_assoc_apply] at hall
  refine hall.congr fun w _ => ?_
  rw [← many_chunks_iff]
  refine ⟨fun hleft => ?_, fun hright => ?_⟩
  · obtain ⟨us, -, h⟩ := hleft
    exact ⟨us, h⟩
  · obtain ⟨us, h⟩ := hright
    exact ⟨us, rfl, h⟩

/-- Words of which it is forgotten what they stand for. -/
theorem many_exists_iff {α : Type} {L : Bytes → α → Prop} {w : Bytes} :
    (∃ us : List Unit, Many (fun w _ => ∃ a, L w a) w us) ↔
      ∃ as, Many L w as := by
  refine ⟨fun hleft => ?_, fun hright => ?_⟩
  · obtain ⟨us, h⟩ := hleft
    induction h with
    | nil => exact ⟨[], .nil⟩
    | cons h hlater ih =>
        obtain ⟨a, ha⟩ := h
        obtain ⟨as, has⟩ := ih
        exact ⟨a :: as, .cons ha has⟩
  · obtain ⟨as, h⟩ := hright
    induction h with
    | nil => exact ⟨[], .nil⟩
    | cons h hlater ih =>
        obtain ⟨us, hus⟩ := ih
        exact ⟨() :: us, .cons ⟨_, h⟩ hus⟩

theorem reads_skipElement? {item : Read Kind} {L : Bytes → Kind → Prop}
    (hitem : Reads o item L) :
    Reads o (skipElement? item) fun w found =>
      (found = none ∧ L w .close) ∨
        ∃ u : Unit, found = some u ∧ ∃ k, L w k ∧ k ≠ .close := by
  refine ((hitem.mapFault _).bind fun k =>
    Reads.ite (Reads.pure none) (Reads.pure (some ()))).congr
    fun w found => ?_
  refine ⟨fun hleft => ?_, fun hright => ?_⟩
  · obtain ⟨t, _, k, rfl, hk, ⟨rfl, rfl, rfl⟩ | ⟨hclose, rfl, rfl⟩⟩ := hleft
    · rw [List.append_nil]
      exact Or.inl ⟨rfl, hk⟩
    · rw [List.append_nil]
      exact Or.inr ⟨(), rfl, k, hk, hclose⟩
  · obtain ⟨rfl, hk⟩ | ⟨u, rfl, k, hk, hclose⟩ := hright
    · exact ⟨w, [], .close, (List.append_nil w).symm, hk,
        Or.inl ⟨rfl, rfl, rfl⟩⟩
    · exact ⟨w, [], k, (List.append_nil w).symm, hk, Or.inr ⟨hclose, rfl, rfl⟩⟩

theorem reads_skipElements (a : Aggregate) {item : Read Kind}
    {L : Bytes → Kind → Prop} (hitem : Reads o item L)
    (hne : ∀ w k, L w k → w ≠ []) (n : Length) :
    Reads o (skipElements a item n) fun w _ =>
      match n with
      | .known n => ∃ ks : List Kind, ks.length = n * a.width ∧ Many L w ks
      | .streamed =>
          ∃ ks u t, w = u ++ t ∧ Many (fun w k => L w k ∧ k ≠ .close) u ks ∧
          L t .close := by
  have hnested : Reads o (nested item) L := hitem.mapFault _
  cases n with
  | known n =>
      refine ((hnested.times (n * a.width)).bind_pure fun _ => ()).congr
        fun w _ => ?_
      refine ⟨fun hleft => ?_, fun hright => ?_⟩
      · obtain ⟨ks, -, h⟩ := hleft
        exact ⟨ks, h⟩
      · obtain ⟨ks, h⟩ := hright
        exact ⟨ks, rfl, h⟩
  | streamed =>
      have hloop := (reads_skipElement? hitem).loop fun w _ h =>
        h.elim fun k hk => hne w k hk.1
      have hall := hloop.bind_pure fun _ => ()
      rw [Step.bind_assoc_apply] at hall
      refine hall.congr fun w _ => ?_
      refine ⟨fun hleft => ?_, fun hright => ?_⟩
      · obtain ⟨us, -, u, t, rfl, hmany, hclose⟩ := hleft
        obtain ⟨ks, hks⟩ := many_exists_iff.mp ⟨us, hmany⟩
        exact ⟨ks, u, t, rfl, hks, hclose⟩
      · obtain ⟨ks, u, t, rfl, hks, hclose⟩ := hright
        obtain ⟨us, hmany⟩ := many_exists_iff.mpr ⟨ks, hks⟩
        exact ⟨us, rfl, u, t, rfl, hmany, hclose⟩

section Branches

variable {inner : Bytes → Kind → Prop}

/-- Words of one kind that a skip passes. -/
def SkipsKind (l : Limits) (inner : Bytes → Kind → Prop) (k : Kind) (w : Bytes)
    (k' : Kind) :
    Prop :=
  SkipsOver l inner w k' ∧ k' = k

theorem reads_skipAggregate (a : Aggregate) {item : Read Kind}
    (hitem : Reads o item inner) (hne : ∀ w k, inner w k → w ≠ []) :
    Reads o (header a >>= fun n => skipElements a item n >>= fun _ =>
      Pure.pure (.aggregate a)) (SkipsKind o.limits inner (.aggregate a)) := by
  refine ((reads_header a).bind fun n =>
    (reads_skipElements a hitem hne n).bind_pure
    fun _ => Kind.aggregate a).congr fun w k => ?_
  refine ⟨fun hleft => ?_, fun hright => ?_⟩
  · obtain ⟨t, u, n, rfl, hheader, _, rfl, hrest⟩ := hleft
    obtain ⟨rfl, rfl⟩ | ⟨num, c, rfl, hcount, rfl⟩ := hheader
    · obtain ⟨ks, u, t, rfl, hmany, hclose⟩ := hrest
      exact ⟨.opened hmany hclose, rfl⟩
    · obtain ⟨ks, hlength, hmany⟩ := hrest
      exact ⟨.counted hcount hlength hmany, rfl⟩
  · obtain ⟨h, rfl⟩ := hright
    cases h with
    | flat h => cases h
    | counted hcount hlength h =>
        exact ⟨_, _, .known _, rfl, Or.inr ⟨_, _, rfl, hcount, rfl⟩, (), rfl, _,
          hlength, h⟩
    | opened h hclose =>
        exact ⟨_, _, .streamed, rfl, Or.inl ⟨rfl, rfl⟩, (), rfl, _, _, _, rfl,
          h, hclose⟩

theorem reads_skipBlob (role : Role) :
    Reads o (takeStreamHeader (.blob role) >>= fun streamed =>
        if streamed = true then skipChunks >>= fun _ => Pure.pure (.blob role)
        else (Gather.counted (.blob role)).dropped >>= fun _ =>
          Pure.pure (.blob role))
      (SkipsKind o.limits inner (.blob role)) := by
  refine (Reads.orForm _ (reads_skipChunks.bind_pure fun _ => Kind.blob role)
    ((Gather.gathers_counted (.blob role)).dropped.bind_pure fun _ =>
      Kind.blob role) ?_).congr
    fun w k => ?_
  · rintro w _ ⟨n, -, p, -, h⟩
    exact h.length_le
  · refine ⟨fun hleft => ?_, fun hright => ?_⟩
    · obtain ⟨t, rfl, _, rfl, octets, h⟩ | ⟨⟨n, rfl, p, -, h⟩, -⟩ := hleft
      · exact ⟨.openBlob h, rfl⟩
      · exact ⟨.flat (.blob h), rfl⟩
    · obtain ⟨h, rfl⟩ := hright
      cases h with
      | flat h =>
          cases h with
          | @blob _ w p h =>
              refine Or.inr ⟨⟨p.length, rfl, p, rfl, h⟩, ?_⟩
              obtain ⟨num, hcount, -, rfl⟩ := h
              exact hcount.1.not_streamHeader _ _
      | openBlob h => exact Or.inl ⟨_, rfl, (), rfl, _, h⟩

/-- A read whose answer is dropped passes the words that it reads. -/
theorem Reads.passes {α : Type} {m : Read α} {L : Bytes → α → Prop} {k : Kind}
    (hm : Reads o m L) (hL : ∀ w, (∃ a, L w a) ↔ SkipsOver o.limits inner w k) :
    Reads o (m >>= fun _ => Pure.pure k) (SkipsKind o.limits inner k) := by
  refine (hm.bind_pure fun _ => k).congr fun w k' => ?_
  refine ⟨fun hleft => ?_, fun hright => ?_⟩
  · obtain ⟨a, rfl, h⟩ := hleft
    exact ⟨(hL w).mp ⟨a, h⟩, rfl⟩
  · obtain ⟨h, rfl⟩ := hright
    obtain ⟨a, h⟩ := (hL w).mpr h
    exact ⟨a, rfl, h⟩

theorem checkedBigNumberLine_eq_ok_iff {text : Bytes} {u : Unit} :
    checkedBigNumberLine text = .ok u ↔ ∃ n, SignedNumeral text n := by
  simp only [← bigNumberLine_eq_ok_iff, checkedBigNumberLine]
  cases bigNumberLine text with
  | ok n => exact ⟨fun _ => ⟨n, rfl⟩, fun _ => rfl⟩
  | error e => exact ⟨nofun, nofun⟩

theorem reads_skipSimple (role : Role) :
    Reads o (expect (.simple role) >>= fun _ =>
        Gather.line.dropped >>= fun _ => Pure.pure (.simple role))
      (SkipsKind o.limits inner (.simple role)) := by
  have hline : Reads o (expect (.simple role) >>= fun _ => Gather.line.dropped)
      fun w _ =>
        ∃ text, w = (Kind.simple role).line text ∧ Bytes.lf ∉ text ∧
          o.limits.Admits text.length := by
    refine ((reads_expect (.simple role)).bind fun _ =>
      Gather.gathers_line.dropped).congr
      fun w _ => ?_
    refine ⟨fun hleft => ?_, fun hright => ?_⟩
    · obtain ⟨_, _, _, rfl, rfl, text, hlf, hsize, rfl⟩ := hleft
      exact ⟨text, rfl, hlf, hsize⟩
    · obtain ⟨text, rfl, hlf, hsize⟩ := hright
      exact ⟨_, _, (), rfl, rfl, text, hlf, hsize, rfl⟩
  rw [← Step.bind_assoc_apply]
  refine hline.passes fun w => ⟨?_, fun h => ?_⟩
  · rintro ⟨_, text, rfl, hlf, hsize⟩
    exact .flat (.simple hlf hsize)
  · cases h with
    | flat h =>
        cases h with | simple hlf hsize => exact ⟨(), _, rfl, hlf, hsize⟩

theorem reads_skipVerbatim :
    Reads o (Gather.verbatim.dropped >>= fun _ => Pure.pure .verbatim)
      (SkipsKind o.limits inner .verbatim) := by
  refine Gather.gathers_verbatim.dropped.passes fun w => ⟨?_, fun h => ?_⟩
  · rintro ⟨format, text, h⟩
    exact .flat (.verbatim h)
  · cases h with
    | flat h => cases h with | verbatim h => exact ⟨_, _, h⟩

theorem reads_skipBigNumber :
    Reads o (lineOf .bigNumber checkedBigNumberLine >>= fun _ =>
      Pure.pure .bigNumber) (SkipsKind o.limits inner .bigNumber) := by
  refine (reads_lineOf .bigNumber checkedBigNumberLine).passes fun w =>
    ⟨?_, fun h => ?_⟩
  · rintro ⟨_, text, rfl, -, hsize, hn⟩
    obtain ⟨n, hn⟩ := checkedBigNumberLine_eq_ok_iff.mp hn
    exact .flat (.bigNumber hn hsize)
  · cases h with
    | flat h =>
        cases h with
        | bigNumber hn hsize =>
            exact ⟨(), _, rfl, hn.lf_notMem, hsize,
              checkedBigNumberLine_eq_ok_iff.mpr ⟨_, hn⟩⟩

theorem reads_skipBoolean :
    Reads o (boolean >>= fun _ => Pure.pure .boolean)
      (SkipsKind o.limits inner .boolean) := by
  refine reads_boolean.passes fun w => ⟨?_, fun h => ?_⟩
  · rintro ⟨b, rfl⟩
    exact .flat (.boolean b)
  · cases h with
    | flat h => cases h with | boolean b => exact ⟨b, rfl⟩

theorem reads_skipDouble :
    Reads o (double >>= fun _ => Pure.pure .double)
      (SkipsKind o.limits inner .double) := by
  refine reads_double.passes fun w => ⟨?_, fun h => ?_⟩
  · rintro ⟨x, text, rfl, hsize, hx⟩
    exact .flat (.double hx hsize)
  · cases h with
    | flat h => cases h with | double hx hsize => exact ⟨_, _, rfl, hsize, hx⟩

theorem reads_skipInteger :
    Reads o (integer >>= fun _ => Pure.pure .integer)
      (SkipsKind o.limits inner .integer) := by
  refine reads_integer.passes fun w => ⟨?_, fun h => ?_⟩
  · rintro ⟨_, num, m, rfl, hn, hfits, rfl⟩
    exact .flat (.integer hn hfits)
  · cases h with
    | flat h =>
        cases h with | integer hn hfits => exact ⟨_, _, _, rfl, hn, hfits, rfl⟩

theorem reads_skipNull :
    Reads o (null >>= fun _ => Pure.pure .null)
      (SkipsKind o.limits inner .null) := by
  refine reads_null.passes fun w => ⟨?_, fun h => ?_⟩
  · rintro ⟨_, rfl | rfl | rfl⟩
    · exact .flat .null
    · exact .flat .nullArray
    · exact .flat .nullBlob
  · cases h with
    | flat h =>
        cases h with
        | null => exact ⟨(), Or.inl rfl⟩
        | nullArray => exact ⟨(), Or.inr (Or.inl rfl)⟩
        | nullBlob => exact ⟨(), Or.inr (Or.inr rfl)⟩

theorem reads_skipChunksKind :
    Reads o (skipChunks >>= fun _ => Pure.pure .chunk)
      (SkipsKind o.limits inner .chunk) := by
  refine reads_skipChunks.passes fun w => ⟨?_, fun h => ?_⟩
  · rintro ⟨_, octets, h⟩
    exact .chunks h
  · cases h with
    | flat h => cases h
    | chunks h => exact ⟨(), _, h⟩

theorem reads_skipClose :
    Reads o (close >>= fun _ => Pure.pure .close)
      (SkipsKind o.limits inner .close) := by
  refine reads_close.passes fun w => ⟨?_, fun h => ?_⟩
  · rintro ⟨_, rfl⟩
    exact .flat .close
  · cases h with
    | flat h => cases h with | close => exact ⟨(), rfl⟩

end Branches

theorem reads_skipWithin (levels : Nat) :
    Reads o (skipWithin true levels) (Skips o.limits levels) := by
  induction levels with
  | zero =>
      exact (Reads.fail (.violation (.tooDeep o.maxDepth))).congr fun w k =>
        Iff.rfl
  | succ levels ih =>
      have hne : ∀ w k, Skips o.limits levels w k → w ≠ [] :=
        fun w k h => h.shows.ne_nil
      rw [skipWithin]
      refine (Reads.select (M := SkipsKind o.limits (Skips o.limits levels))
        peek_eq_ok_iff
        (fun k => ?_) fun k w k' hw => ⟨_, hw.1.shows⟩).congr fun w k => ?_
      · cases k with
        | aggregate a => exact reads_skipAggregate a ih hne
        | blob role => exact reads_skipBlob role
        | simple role => exact reads_skipSimple role
        | verbatim => exact reads_skipVerbatim
        | bigNumber => exact reads_skipBigNumber
        | boolean => exact reads_skipBoolean
        | double => exact reads_skipDouble
        | integer => exact reads_skipInteger
        | null => exact reads_skipNull
        | chunk => exact reads_skipChunksKind
        | close => exact reads_skipClose
      · refine ⟨fun hleft => ?_, fun hw => ?_⟩
        · obtain ⟨k', -, hw, rfl⟩ := hleft
          exact hw
        · exact ⟨k, SkipsOver.shows hw, hw, rfl⟩

theorem reads_skip : Reads o (skip true) (Skips o.limits (o.maxDepth + 1)) :=
  reads_iff.mpr fun s k after =>
    reads_iff.mp (reads_skipWithin (o.maxDepth + 1)) s k after

end Reader

end RespWire

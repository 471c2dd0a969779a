import RespWire.Proofs.Refusing

/-!
# Streams at the greatest depth

A read knows the close of a stream before it asks whether the stream may nest.
A deep skip passes the close as if it were one more element, and an element
takes a level. So the two bounds differ in one place: a stream that stands at
the greatest depth, and is empty because nothing may nest there, is read and is
not skipped.

`DeepestStream` finds such a stream in a word. A word of the grammar without
one is skipped; with one it is refused, for the words in front of the stream
are skipped and the skip arrives there.
-/

namespace RespWire

open Reader

/-- Words of values at a depth with an empty stream in them at the greatest
depth. -/
inductive DeepestStream (l : Limits) : Nat → Bytes → Prop where
  | here {a : Aggregate} :
      DeepestStream l l.depth ((Kind.aggregate a).streamHeader ++ Marker.close)
  | counted {depth n : Nat} {a : Aggregate} {num u : Bytes} {ws : List Bytes}
      (hcount : Count num n) (hlength : ws.length = n * a.width)
      (hws : ∀ w ∈ ws, ∃ v, Nests l (depth + 1) w v) (hu : u ∈ ws)
      (h : DeepestStream l (depth + 1) u) :
      DeepestStream l depth ((Kind.aggregate a).line num ++ ws.flatMap id)
  | opened {depth : Nat} {a : Aggregate} {u : Bytes} {ws : List Bytes}
      (hws : ∀ w ∈ ws, ∃ v, Nests l (depth + 1) w v) (hu : u ∈ ws)
      (h : DeepestStream l (depth + 1) u) :
      DeepestStream l depth
        ((Kind.aggregate a).streamHeader ++ (ws.flatMap id ++ Marker.close))

namespace Reader

variable {α β : Type} {o : Options} {l : Limits} {depth levels : Nat}
  {w : Bytes}

theorem many_flat {L : Bytes → Value → Prop} {pairs : List (Value × Value)}
    (h : Many (Both L) w pairs) : Many L w (Value.flat pairs) := by
  induction h with
  | nil => exact .nil
  | cons h hlater ih =>
      obtain ⟨t, u, rfl, hkey, hvalue⟩ := h
      rw [List.append_assoc]
      exact .cons hkey (.cons hvalue ih)

theorem Many.words {L : Bytes → α → Prop} {as : List α} (h : Many L w as) :
    ∃ ws : List Bytes, ws.flatMap id = w ∧ ws.length = as.length ∧
      ∀ u ∈ ws, ∃ a, L u a := by
  induction h with
  | nil => exact ⟨[], rfl, rfl, nofun⟩
  | @cons u w a as h hlater ih =>
      obtain ⟨ws, rfl, hlength, hws⟩ := ih
      exact ⟨u :: ws, rfl, congrArg Nat.succ hlength,
        List.forall_mem_cons.mpr ⟨⟨a, h⟩, hws⟩⟩

/-- Words of two sorts are all of the one, or some are of the other. -/
theorem Many.split {L M : Bytes → α → Prop} {P : Bytes → Prop} {as : List α}
    (hL : ∀ w a, L w a → M w a ∨ P w) (h : Many L w as) :
    Many M w as ∨ ∃ ws : List Bytes, ws.flatMap id = w ∧ ws.length = as.length ∧
      (∀ u ∈ ws, ∃ a, L u a) ∧ ∃ u ∈ ws, P u := by
  induction h with
  | nil => exact Or.inl .nil
  | @cons u w a as h hlater ih =>
      rcases hL u a h with hM | hP
      · rcases ih with hmany | ⟨ws, rfl, hlength, hws, x, hx, hP⟩
        · exact Or.inl (.cons hM hmany)
        · exact Or.inr ⟨u :: ws, rfl, congrArg Nat.succ hlength,
            List.forall_mem_cons.mpr ⟨⟨a, h⟩, hws⟩, x, .tail _ hx, hP⟩
      · obtain ⟨ws, rfl, hlength, hws⟩ := hlater.words
        exact Or.inr ⟨u :: ws, rfl, congrArg Nat.succ hlength,
          List.forall_mem_cons.mpr ⟨⟨a, h⟩, hws⟩, u, .head _, hP⟩

/-! ## Without such a stream -/

/-- Values nested in an aggregate are skipped with the levels left there, or
have such a stream in them. -/
def SkippedOrDeepest (l : Limits) (levels depth : Nat) : Prop :=
  ∀ w v, Nests l depth w v → Skips l levels w v.kind ∨ DeepestStream l depth w

theorem skipsOver_counted (hinner : SkippedOrDeepest l levels (depth + 1))
    {a : Aggregate} {num : Bytes} {n : Nat} {vs : List Value}
    (hcount : Count num n) (hlength : vs.length = n * a.width)
    (h : Many (Nests l (depth + 1)) w vs) :
    Skips l (levels + 1) ((Kind.aggregate a).line num ++ w) (.aggregate a) ∨
      DeepestStream l depth ((Kind.aggregate a).line num ++ w) := by
  rcases h.split hinner with hmany | ⟨ws, rfl, hws, hnests, u, hu, hdeepest⟩
  · exact Or.inl (.counted hcount (by rwa [List.length_map])
      (hmany.map Value.kind fun _ _ h => h))
  · exact Or.inr (.counted hcount (hws.trans hlength) hnests hu hdeepest)

theorem skipsOver_opened (hinner : SkippedOrDeepest l levels (depth + 1))
    (hlevels : depth + levels = l.depth) {a : Aggregate} {vs : List Value}
    (h : Many (Nests l (depth + 1)) w vs) :
    Skips l (levels + 1)
      ((Kind.aggregate a).streamHeader ++ (w ++ Marker.close)) (.aggregate a) ∨
      DeepestStream l depth
        ((Kind.aggregate a).streamHeader ++ (w ++ Marker.close)) := by
  cases levels with
  | zero =>
      -- nothing nests beyond the greatest depth, so the stream is empty
      cases h with
      | nil =>
          obtain rfl : depth = l.depth := hlevels
          exact Or.inr .here
      | cons h hlater => exact absurd h.1 (by omega)
  | succ levels =>
      rcases h.split hinner with hmany | ⟨ws, rfl, -, hnests, u, hu, hdeepest⟩
      · exact Or.inl
          (.opened (hmany.map Value.kind fun w v h => ⟨h, v.kind_ne_close⟩)
            (.flat .close))
      · exact Or.inr (.opened hnests hu hdeepest)

theorem skips_or_deepestStream_of_inner
    (hinner : SkippedOrDeepest l levels (depth + 1))
    (hlevels : depth + levels = l.depth) {v : Value}
    (hw : Derives l depth w v) :
    Skips l (levels + 1) w v.kind ∨ DeepestStream l depth w := by
  have hflat : (∀ a, v.kind ≠ .aggregate a) → Skips l (levels + 1) w v.kind :=
    hw.skipsOver
  cases hw with
  | sequence hcount hitems =>
      exact skipsOver_counted hinner hcount (Nat.mul_one _).symm
        (many_nests_iff.mpr hitems)
  | openSequence hitems =>
      exact skipsOver_opened hinner hlevels (many_nests_iff.mpr hitems)
  | pairing hcount hpairs =>
      exact skipsOver_counted hinner hcount (Value.length_flat _)
        (many_flat (many_both_iff.mpr hpairs))
  | openPairing hpairs =>
      exact skipsOver_opened hinner hlevels
        (many_flat (many_both_iff.mpr hpairs))
  | _ => exact Or.inl (hflat nofun)

/-- A word of the grammar is skipped, or has such a stream in it. -/
theorem skips_or_deepestStream (levels depth : Nat)
    (hlevels : depth + levels = l.depth) {w : Bytes} {v : Value}
    (hw : Derives l depth w v) :
    Skips l (levels + 1) w v.kind ∨ DeepestStream l depth w := by
  induction levels generalizing depth w v with
  | zero =>
      have hinner : SkippedOrDeepest l 0 (depth + 1) :=
        fun w v h => absurd h.1 (by omega)
      exact skips_or_deepestStream_of_inner hinner hlevels hw
  | succ levels ih =>
      have hinner : SkippedOrDeepest l (levels + 1) (depth + 1) :=
        fun w v h => ih (depth + 1) (by omega) h.2
      exact skips_or_deepestStream_of_inner hinner hlevels hw

/-! ## With such a stream -/

theorem refuses_skipElement? {item : Read Kind} {e : Fault}
    (he : e ≠ .endOfInput) (h : Refuses o item w e) :
    Refuses o (skipElement? item) w e :=
  (h.nested he).bind _

/-- Where the nested words are skipped or refused, and some are refused, the
stream around them is refused. -/
theorem refuses_skipElements_streamed {a : Aggregate} {item : Read Kind}
    {L : Bytes → Kind → Prop} (hitem : Reads o item L) {e : Fault}
    (he : e ≠ .endOfInput) {ws : List Bytes}
    (h : ∀ w ∈ ws, (w ≠ [] ∧ ∃ k, L w k ∧ k ≠ .close) ∨ Refuses o item w e)
    (hsome : ∃ w ∈ ws, Refuses o item w e) (t : Bytes) :
    Refuses o (skipElements a item .streamed) (ws.flatMap id ++ t) e := by
  obtain ⟨u, hu, hrefused⟩ := hsome
  have hword : ∀ w ∈ ws,
      (w ≠ [] ∧ ∃ found : Unit, (some found = none ∧ L w .close) ∨
        ∃ u : Unit, some found = some u ∧ ∃ k, L w k ∧ k ≠ .close) ∨
        Refuses o (skipElement? item) w e :=
    fun w hw =>
      (h w hw).imp (fun ⟨hne, k, hk⟩ => ⟨hne, (), Or.inr ⟨(), rfl, k, hk⟩⟩)
      (refuses_skipElement? he)
  have hloop : LoopRefuses o (skipElement? item) (ws.flatMap id ++ t) e :=
    Refuses.collect (reads_skipElement? hitem) hword
      ⟨u, hu, refuses_skipElement? he hrefused⟩ t
  have hall := hloop.refuses.bind fun _ => (Pure.pure () : Read Unit)
  rwa [Step.bind_assoc_apply] at hall

theorem refuses_skipAggregate {a : Aggregate} {n : Length} {header u : Bytes}
    {e : Fault} (hshows : Kind.Shows (header ++ u) (.aggregate a))
    (hheader : (n = .streamed ∧ header = (Kind.aggregate a).streamHeader) ∨
      ∃ num c,
        n = .known c ∧ Count num c ∧ header = (Kind.aggregate a).line num)
    (h : Refuses o (skipElements a (skipWithin true levels) n) u e) :
    Refuses o (skipWithin true (levels + 1)) (header ++ u) e :=
  .select hshows ((reads_header a).bind_refuses hheader (h.bind _))

/-- The skip comes to the stream and finds no level left for its close. -/
theorem refuses_skip_of_deepestStream (levels depth : Nat)
    (hlevels : depth + levels = o.maxDepth)
    (h : DeepestStream o.limits depth w) :
    Refuses o (skipWithin true (levels + 1)) w
      (.violation (.tooDeep o.maxDepth)) := by
  have he := tooDeep_ne_endOfInput o.maxDepth
  induction levels generalizing depth w with
  | zero =>
      cases h with
      | here =>
          have hclose : Refuses o (skipElement? (skipWithin true 0)) [] _ :=
            refuses_skipElement? he fun rest => rfl
          have hloop := (hclose.loop Marker.close).refuses.bind fun _ =>
            (Pure.pure () : Read Unit)
          rw [Step.bind_assoc_apply] at hloop
          exact refuses_skipAggregate (Kind.shows_streamHeader _ _)
            (Or.inl ⟨rfl, rfl⟩) hloop
      | counted hcount hlength hws hu h =>
          obtain ⟨v, hdepth, -⟩ := hws _ hu
          exact absurd hdepth
            (Nat.not_le.mpr (show o.maxDepth < depth + 1 by omega))
      | opened hws hu h =>
          obtain ⟨v, hdepth, -⟩ := hws _ hu
          exact absurd hdepth
            (Nat.not_le.mpr (show o.maxDepth < depth + 1 by omega))
  | succ levels ih =>
      have hitem := reads_skipWithin (o := o) (levels + 1)
      have hinner : ∀ w, (∃ v, Nests o.limits (depth + 1) w v) →
          (w ≠ [] ∧ ∃ k, Skips o.limits (levels + 1) w k ∧ k ≠ .close) ∨
            Refuses o (skipWithin true (levels + 1)) w
              (.violation (.tooDeep o.maxDepth)) := by
        rintro w ⟨v, -, hw⟩
        refine (skips_or_deepestStream levels (depth + 1)
          (show _ = o.maxDepth by omega) hw).imp
          (fun hskips => ⟨hw.shows.ne_nil, v.kind, hskips, v.kind_ne_close⟩)
            fun h => ?_
        exact ih (depth + 1) (by omega) h
      cases h with
      | here =>
          exact absurd hlevels
            (Nat.ne_of_gt (show o.maxDepth < o.maxDepth + _ by omega))
      | @counted _ _ _ _ u ws hcount hlength hws hu h =>
          have hrefused := ih (depth + 1) (by omega) h
          refine refuses_skipAggregate (hcount.shows _ _)
            (Or.inr ⟨_, _, rfl, hcount, rfl⟩) ?_
          refine refuses_skipElements hitem he hlength.symm (fun w hw => ?_)
            ⟨u, hu, hrefused⟩
          exact (hinner w (hws w hw)).imp_left fun ⟨_, k, hk, _⟩ => ⟨k, hk⟩
      | @opened _ _ u ws hws hu h =>
          have hrefused := ih (depth + 1) (by omega) h
          refine refuses_skipAggregate (Kind.shows_streamHeader _ _)
            (Or.inl ⟨rfl, rfl⟩) ?_
          exact refuses_skipElements_streamed hitem he
            (fun w hw => hinner w (hws w hw)) ⟨u, hu, hrefused⟩ _

/-- After a read a deep skip from the same state passes the same octets and
answers the kind of the value, unless an empty stream stands at the greatest
depth; then it refuses to go deeper. -/
theorem skip_of_value_ok {r after : Reader} {v : Value} (h : r.feed.Calm)
    (hvalue : value r = (.ok v, after)) :
    ∃ w, r.remaining = w ++ after.remaining ∧
      (¬ DeepestStream r.options.limits 0 w →
        ∃ after', skip true r = (.ok v.kind, after') ∧
        after'.remaining = after.remaining) ∧
      (DeepestStream r.options.limits 0 w →
        (skip true r).1 = .error
          (.violation (.tooDeep r.options.maxDepth))) := by
  obtain ⟨w, hr, hw⟩ :=
    (reads_value.accepts_iff steady_value h v after.remaining).mp
    ⟨after, hvalue, rfl⟩
  have hlevels : 0 + r.options.maxDepth = r.options.limits.depth :=
    Nat.zero_add _
  refine ⟨w, hr, fun hnone => ?_, fun hdeepest => ?_⟩
  · have hskips := (skips_or_deepestStream _ 0 hlevels hw).resolve_right hnone
    exact (reads_skip.accepts_iff (steady_skip true) h _ _).mpr ⟨w, hr, hskips⟩
  · have hrefuses : Refuses r.options (skip true) w _ :=
      refuses_skip_of_deepestStream r.options.maxDepth 0 hlevels hdeepest
    exact hrefuses.of_steady (steady_skip true) nofun h hr

/-- An empty stream nested as deep as it may be, in pieces and with more behind
it. -/
theorem skip_of_value_ok_nested :
    let r : Reader :=
      ⟨⟨[.piece (Bytes.ofChars "1\r\n*?".toList),
        .failure ⟨.interrupted, "signal"⟩,
        .piece (Bytes.ofChars "\r\n.\r\n+x".toList)], some 3⟩,
          { maxDepth := 1 },
        Bytes.ofChars ['*']⟩
    r.feed.Calm ∧ (∃ after, value r = (.ok (.array [.array []]), after)) ∧
      (skip true r).1 = .error (.violation (.tooDeep 1)) := by
  intro r
  have hcalm : r.feed.Calm := by decide
  have hone : Count (Bytes.ofChars ['1']) 1 :=
    ⟨.plain (.singleton rfl), by decide⟩
  have hderives : Derives r.options.limits 0 _ (.array [.array []]) :=
    .sequence hone (.cons (by decide) (.openSequence .nil) .nil)
  obtain ⟨after, hvalue, hafter⟩ :=
    (reads_value.accepts_iff steady_value hcalm _
      (Bytes.ofChars "+x".toList)).mpr ⟨_, by decide, hderives⟩
  obtain ⟨w, hr, -, hdeepest⟩ := skip_of_value_ok hcalm hvalue
  let stream := Kind.array.streamHeader ++ Marker.close
  obtain rfl : w = Kind.array.line (Bytes.ofChars ['1']) ++
      [stream].flatMap id := by
    rw [hafter] at hr
    exact List.append_cancel_right (hr.symm.trans (by decide))
  refine ⟨hcalm, ⟨_, hvalue⟩, hdeepest (.counted hone rfl ?_ (.head _) .here)⟩
  rintro u (_ | ⟨_, ⟨⟩⟩)
  exact ⟨.array [], by decide, .openSequence .nil⟩

/-- Where nothing may nest, an empty stream is read and is not skipped. -/
theorem skip_refuses_empty_stream :
    let r : Reader :=
      ⟨.ofBytes (Bytes.ofChars "*?\r\n.\r\n".toList), { maxDepth := 0 }, []⟩
    r.feed.Calm ∧ (∃ after, value r = (.ok (.array []), after)) ∧
      (skip true r).1 = .error (.violation (.tooDeep 0)) := by
  intro r
  have hcalm : r.feed.Calm := by decide
  have hempty : Derives r.options.limits 0 _ (.array []) := .openSequence .nil
  obtain ⟨after, hvalue, -⟩ :=
    (reads_value.accepts_iff steady_value hcalm _ []).mpr ⟨_, by decide, hempty⟩
  exact ⟨hcalm, ⟨after, hvalue⟩, by decide +kernel⟩

end Reader

end RespWire

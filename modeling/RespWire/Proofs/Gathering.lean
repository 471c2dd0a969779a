import RespWire.Proofs.Languages
import RespWire.Proofs.Portions

/-!
# The languages of gathering reads

Lines and bodies, and what is made of them: blobs, their chunks, simple and
verbatim strings. A word of these languages comes with the octets that reading
it gathers, and behind what a destination held before nothing else is added.

On a reader that holds everything a line is one portion and so is a body, and
both are checked for their size before they are taken. So the size that the
grammar asks for is just the one that is checked.
-/

namespace RespWire

namespace Gather

open Reader (Reads holding)

variable {α : Type} {o : Options}

/-- A gathering read succeeds just on the words of `L`. -/
def Gathers (o : Options) (m : Gather α) (L : Bytes → α → Bytes → Prop) :
    Prop :=
  Step.Accepts (fun s g => (⟨holding o s, g⟩ : Draft)) m L

theorem Gathers.ofRead {m : Read α} {L : Bytes → α → Prop} (h : Reads o m L) :
    Gathers o (ofRead m) fun w a p => p = [] ∧ L w a := by
  intro s g a after
  rw [Gather.ofRead]
  cases hm : m (holding o s) with
  | mk result r =>
      simp only [Prod.mk.injEq]
      refine ⟨fun hleft => ?_, fun hright => ?_⟩
      · obtain ⟨rfl, rfl⟩ := hleft
        obtain ⟨w, rest, hs, rfl, hL⟩ := (Reader.reads_iff.mp h s a r).mp hm
        exact ⟨w, rest, [], hs, by rw [List.append_nil], rfl, hL⟩
      · obtain ⟨w, rest, p, hs, rfl, rfl, hL⟩ := hright
        have := (Reader.reads_iff.mp h s a (holding o rest)).mpr
          ⟨w, rest, hs, rfl, hL⟩
        rw [hm] at this
        cases this
        exact ⟨rfl, by rw [List.append_nil]⟩

theorem Gathers.collected {m : Gather α} {L : Bytes → α → Bytes → Prop}
    (h : Gathers o m L) :
    Reads o (collected m) fun w x => L w x.1 x.2 := by
  refine Reader.reads_iff.mpr fun s x after => ?_
  rw [Gather.collected]
  cases hm : m ⟨holding o s, []⟩ with
  | mk result d =>
      cases result with
      | ok a =>
          simp only [Prod.mk.injEq, Except.ok.injEq]
          refine ⟨fun hleft => ?_, fun hright => ?_⟩
          · obtain ⟨rfl, rfl⟩ := hleft
            obtain ⟨w, rest, p, hs, rfl, hL⟩ := (h s [] a d).mp hm
            exact ⟨w, rest, hs, rfl, hL⟩
          · obtain ⟨w, rest, hs, rfl, hL⟩ := hright
            have := (h s [] x.1 _).mpr ⟨w, rest, x.2, hs, rfl, hL⟩
            rw [hm] at this
            cases this
            exact ⟨rfl, rfl⟩
      | error e =>
          refine ⟨fun heq => ?_, fun hright => ?_⟩
          · cases heq
          · obtain ⟨w, rest, hs, rfl, hL⟩ := hright
            have := (h s [] x.1 _).mpr ⟨w, rest, x.2, hs, rfl, hL⟩
            rw [hm] at this
            cases this

theorem Gathers.dropped {m : Gather α} {L : Bytes → α → Bytes → Prop}
    (h : Gathers o m L) :
    Reads o (dropped m) fun w a => ∃ p, L w a p := by
  refine (h.collected.bind_pure Prod.fst).congr fun w a => ?_
  refine ⟨fun hleft => ?_, fun hright => ?_⟩
  · obtain ⟨x, rfl, hL⟩ := hleft
    exact ⟨x.2, hL⟩
  · obtain ⟨p, hL⟩ := hright
    exact ⟨(a, p), rfl, hL⟩

/-- Taking back what a failure has gathered does not matter to success. -/
theorem Gathers.atomically {m : Gather α} {L : Bytes → α → Bytes → Prop}
    (h : Gathers o m L) :
    Gathers o (atomically m) L := by
  intro s g a after
  rw [← h s g a after, Gather.atomically]
  cases m ⟨holding o s, g⟩ with
  | mk result d => cases result <;> simp

theorem takeForm_holding (form s g : Bytes) :
    ofRead (Reader.takeForm form) ⟨holding o s, g⟩ =
      if form <+: s then (.ok true, ⟨holding o (s.drop form.length), g⟩)
      else (.ok false, ⟨holding o s, g⟩) := by
  rw [ofRead, Reader.takeForm_holding]
  by_cases h : form <+: s
  · rw [if_pos h, if_pos h]
  · rw [if_neg h, if_neg h]

theorem Gathers.orForm (form : Bytes) {A B : Gather α}
    {L M : Bytes → α → Bytes → Prop} (hA : Gathers o A L) (hB : Gathers o B M)
    (hlong : ∀ w a p, M w a p → form.length ≤ w.length) :
    Gathers o (Gather.ofRead (Reader.takeForm form) >>= fun found =>
      if found = true then A else B)
      fun w a p => (∃ t, w = form ++ t ∧ L t a p) ∨ (M w a p ∧ ¬ form <+: w) :=
  Step.Accepts.orForm (fun s g => takeForm_holding form s g) hA hB hlong

/-! ## Lines and bodies -/

theorem reads_checkSize (n : Nat) :
    Reads o (Reader.checkSize n) fun w _ => w = [] ∧ o.limits.Admits n := by
  refine Reader.reads_iff.mpr fun s a after => ?_
  simp only [Reader.checkSize, Reader.getOptions, Step.bind_apply]
  cases hfault : Reader.sizeFault? (holding o s).options n with
  | none =>
      show ((.ok (), holding o s) : Except Fault Unit × Reader) = _ ↔ _
      rw [Prod.mk.injEq]
      refine ⟨fun hleft => ?_, fun hright => ?_⟩
      · obtain ⟨-, rfl⟩ := hleft
        exact ⟨[], s, rfl, rfl, rfl, Reader.admits_of_sizeFault? hfault⟩
      · obtain ⟨w, rest, rfl, rfl, rfl, -⟩ := hright
        exact ⟨rfl, rfl⟩
  | some f =>
      refine ⟨fun h => ?_, fun hright => ?_⟩
      · cases h
      · obtain ⟨w, rest, -, -, -, hadmits⟩ := hright
        cases (Reader.sizeFault?_of_admits hadmits).symm.trans hfault

theorem bodyFrom_holding {n : Nat} {s : Bytes} (h : n ≤ s.length) (g : Bytes) :
    bodyFrom n ⟨holding o s, g⟩ =
      (.ok (), ⟨holding o (s.drop n), g ++ s.take n⟩) := by
  rw [bodyFrom]
  split
  · next hzero => rw [hzero, List.drop_zero, List.take_zero, List.append_nil]
  · next hpos =>
      rw [Reader.held_holding]
      cases s with
      | nil => exact absurd (Nat.le_zero.mp h) hpos
      | cons b bs =>
          have hlength : ((b :: bs).take n).length = n := by
            rw [List.length_take, Nat.min_eq_left h]
          simp only
          rw [hlength, Nat.sub_self, bodyFrom, dif_pos rfl]
          rfl

theorem gathers_bodyFrom (n : Nat) :
    Gathers o (bodyFrom n) fun w _ p => w = p ∧ p.length = n := by
  intro s g a after
  by_cases h : n ≤ s.length
  · rw [bodyFrom_holding h, Prod.mk.injEq]
    refine ⟨fun hleft => ?_, fun hright => ?_⟩
    · obtain ⟨-, rfl⟩ := hleft
      exact ⟨s.take n, s.drop n, s.take n, (List.take_append_drop n s).symm,
        rfl, rfl,
        by rw [List.length_take, Nat.min_eq_left h]⟩
    · obtain ⟨w, rest, p, rfl, rfl, rfl, rfl⟩ := hright
      rw [List.drop_left, List.take_left]
      exact ⟨rfl, rfl⟩
  · obtain ⟨r, -, -, -, hbody⟩ :=
      bodyFrom_calm n ⟨holding o s, g⟩ (Reader.calm_holding s)
    rw [Reader.remaining_holding, if_neg h] at hbody
    rw [hbody]
    refine ⟨fun heq => ?_, fun hright => ?_⟩
    · cases heq
    · obtain ⟨w, rest, p, rfl, -, rfl, rfl⟩ := hright
      exact absurd (by rw [List.length_append]; omega) h

theorem gathers_body (n : Nat) :
    Gathers o (body n) fun w _ p =>
      w = p ++ Bytes.crlf ∧ p.length = n ∧ o.limits.Admits n := by
  refine ((Gathers.ofRead (reads_checkSize n)).bind fun _ =>
    (gathers_bodyFrom n).bind fun _ =>
      Gathers.ofRead Reader.reads_lineEnd).congr fun w _ p => ?_
  refine ⟨fun hleft => ?_, fun hright => ?_⟩
  · obtain ⟨_, _, _, _, _, rfl, rfl, ⟨rfl, rfl, hadmits⟩, _, _, _, _, _, rfl,
        rfl, ⟨rfl, hlength⟩, rfl, rfl⟩ := hleft
    exact ⟨by simp, by simpa using hlength, hadmits⟩
  · obtain ⟨rfl, hlength, hadmits⟩ := hright
    exact ⟨[], _, (), [], p, rfl, rfl, ⟨rfl, rfl, hadmits⟩, p, Bytes.crlf, (),
      p, [], rfl, (List.append_nil p).symm, ⟨rfl, hlength⟩, rfl, rfl⟩

theorem gathers_counted (k : Kind) :
    Gathers o (counted k) fun w n p =>
      n = p.length ∧ Counted o.limits k w p := by
  have hbody : ∀ n : Int,
      Gathers o (if n < 0 then Step.violate (.negativeLength n)
        else body n.toNat >>= fun _ => Pure.pure n.toNat) fun w m p =>
          n = (p.length : Int) ∧ m = p.length ∧ w = p ++ Bytes.crlf ∧
            o.limits.Admits p.length := by
    intro n
    by_cases hn : n < 0
    · rw [if_pos hn]
      refine (Step.Accepts.fail _).congr fun w m p => ⟨False.elim, fun h => ?_⟩
      have := h.1
      omega
    · rw [if_neg hn]
      refine ((gathers_body n.toNat).bind_pure fun _ => n.toNat).congr
        fun w m p => ?_
      refine ⟨fun hleft => ?_, fun hright => ?_⟩
      · obtain ⟨_, rfl, rfl, hlength, hadmits⟩ := hleft
        exact ⟨by omega, hlength.symm, rfl, hlength ▸ hadmits⟩
      · obtain ⟨hn', hm, hw, hadmits⟩ := hright
        have hlength : p.length = n.toNat := by omega
        exact ⟨(), hm.trans hlength, hw, hlength, hlength ▸ hadmits⟩
  refine ((Gathers.ofRead (Reader.reads_expect k)).bind fun _ =>
    (Gathers.ofRead Reader.reads_number).bind hbody).congr fun w n p => ?_
  refine ⟨fun hleft => ?_, fun hright => ?_⟩
  · obtain ⟨_, _, _, _, _, rfl, rfl, ⟨rfl, rfl⟩, _, _, m, _, _, rfl, rfl,
      ⟨rfl, num, rfl, hnum, hfits⟩, rfl, hn, rfl, hadmits⟩ := hleft
    exact ⟨hn, num, Reader.count_iff.mpr ⟨hnum, hfits⟩, hadmits, rfl⟩
  · obtain ⟨rfl, num, hcount, hadmits, rfl⟩ := hright
    obtain ⟨hnum, hfits⟩ := Reader.count_iff.mp hcount
    exact ⟨[k.lead], _, (), [], p, rfl, rfl, ⟨rfl, rfl⟩, num ++ Bytes.crlf,
      p ++ Bytes.crlf,
      p.length, [], p, rfl, rfl, ⟨rfl, num, rfl, hnum, hfits⟩, rfl, rfl, rfl,
        hadmits⟩

/-- The line of a reader that holds everything is taken as one portion. -/
theorem line_holding {s : Bytes} (h : Bytes.lf ∈ s) (g : Bytes) :
    line ⟨holding o s, g⟩ =
      match Reader.sizeFault? o ((Reader.throughLineFeed s).length - 2) with
      | some f => (.error f, ⟨holding o s, g⟩)
      | none =>
          settleLine (Reader.throughLineFeed s).length
            ⟨holding o (s.drop (Reader.throughLineFeed s).length),
              g ++ Reader.throughLineFeed s⟩ := by
  obtain ⟨x, t, hs, hx⟩ := List.eq_append_cons_of_mem h
  have hlast : (Reader.throughLineFeed s).getLast? = some Bytes.lf := by
    rw [hs, Reader.throughLineFeed_append_lf hx, List.getLast?_concat]
  rw [line, lineFrom_apply, Reader.held_holding]
  cases s with
  | nil => cases h
  | cons b bs => simp only [if_pos hlast, Nat.zero_add]; rfl

/-- Without a line feed there is no line. -/
theorem line_of_notMem {s : Bytes} (h : Bytes.lf ∉ s) (g : Bytes) :
    ∃ e d, line ⟨holding o s, g⟩ = (.error e, d) := by
  rw [line, lineFrom_apply, Reader.held_holding]
  cases s with
  | nil => exact ⟨_, _, rfl⟩
  | cons b bs =>
      have hlast : (b :: bs).getLast? ≠ some Bytes.lf :=
        fun hl => h (List.mem_of_getLast? hl)
      have hdrop : (b :: bs).drop (b :: bs).length = [] := List.drop_length
      simp only [Reader.throughLineFeed_of_notMem h, if_neg hlast]
      split
      · exact ⟨_, _, rfl⟩
      · rw [Reader.consume_holding, hdrop, lineFrom_apply, Reader.held_holding]
        exact ⟨_, _, rfl⟩

theorem gathers_line :
    Gathers o line fun w _ p => Bytes.lf ∉ p ∧ o.limits.Admits p.length ∧
      w = p ++ Bytes.crlf := by
  intro s g a after
  by_cases h : Bytes.lf ∈ s
  · obtain ⟨x, t, hs, hx⟩ := List.eq_append_cons_of_mem h
    have hline : Reader.throughLineFeed s = x ++ [Bytes.lf] := by
      rw [hs, Reader.throughLineFeed_append_lf hx]
    rw [line_holding h]
    refine ⟨fun hok => ?_, fun hright => ?_⟩
    · split at hok
      · cases hok
      · next hfault =>
          obtain ⟨text, htext, rfl⟩ := settleLine_eq_ok_iff.mp hok
          have hx' : x = text ++ [Bytes.cr] := by
            refine List.append_inj_left' (hline.symm.trans (htext.trans ?_)) rfl
            exact (List.append_assoc text [Bytes.cr] [Bytes.lf]).symm
          refine ⟨text ++ Bytes.crlf, s.drop (Reader.throughLineFeed s).length,
            text, ?_, rfl, ?_, ?_, rfl⟩
          · rw [← htext]
            exact (List.prefix_iff_eq_append.mp
              ⟨t, by rw [hline, hs]; simp⟩).symm
          · exact fun hmem => hx (hx' ▸ List.mem_append_left _ hmem)
          · rw [htext] at hfault
            exact Reader.admits_of_sizeFault? (by simpa using hfault)
    · obtain ⟨w, rest, p, hw, rfl, hp, hadmits, rfl⟩ := hright
      have hthrough : Reader.throughLineFeed s = p ++ Bytes.crlf := by
        have hcr : Bytes.lf ∉ p ++ [Bytes.cr] := by
          rw [List.mem_append, not_or]
          exact ⟨hp, by decide⟩
        have := Reader.throughLineFeed_append_lf hcr rest
        rw [List.append_assoc, List.append_assoc] at this
        rw [hw, List.append_assoc]
        exact this
      rw [hthrough, Reader.sizeFault?_of_admits (by simpa using hadmits)]
      refine settleLine_eq_ok_iff.mpr ⟨p, rfl, ?_⟩
      rw [hw, List.drop_left]
  · obtain ⟨e, d, herror⟩ := line_of_notMem h g
    rw [herror]
    refine ⟨fun hok => ?_, fun hright => ?_⟩
    · cases hok
    · obtain ⟨w, rest, p, rfl, -, -, -, rfl⟩ := hright
      exact absurd (by simp [Bytes.crlf]) h

/-! ## Typed reads of octets -/

theorem gathers_blob (role : Role) :
    Gathers o (blob role) fun w n p =>
      (n = .streamed ∧ w = (Kind.blob role).streamHeader ∧ p = []) ∨
      (n = .known p.length ∧ Counted o.limits (.blob role) w p) := by
  refine (Gathers.atomically (Gathers.orForm _ (Step.Accepts.pure _)
    ((gathers_counted (.blob role)).bind_pure Length.known) ?_)).congr
      fun w n p => ?_
  · rintro w _ p ⟨n, -, -, h⟩
    exact Counted.length_le h
  · refine ⟨fun hleft => ?_, fun hright => ?_⟩
    · obtain ⟨t, rfl, rfl, rfl, rfl⟩ | ⟨⟨n, rfl, rfl, h⟩, -⟩ := hleft
      · exact Or.inl ⟨rfl, List.append_nil _, rfl⟩
      · exact Or.inr ⟨rfl, h⟩
    · obtain ⟨rfl, rfl, rfl⟩ | ⟨rfl, h⟩ := hright
      · exact Or.inl ⟨[], (List.append_nil _).symm, rfl, rfl, rfl⟩
      · refine Or.inr ⟨⟨p.length, rfl, rfl, h⟩, ?_⟩
        obtain ⟨num, hcount, -, rfl⟩ := h
        exact hcount.1.not_streamHeader _ _

theorem gathers_chunk :
    Gathers o chunk fun w isLast p =>
      (isLast = true ∧ w = Marker.lastChunk ∧ p = []) ∨
      (isLast = false ∧ Counted o.limits .chunk w p ∧
        ¬ Marker.lastChunk <+: w) := by
  refine (Gathers.orForm _ (Step.Accepts.pure _)
    ((Gathers.atomically (gathers_counted .chunk)).bind_pure fun _ => false)
      ?_).congr
    fun w n p => ?_
  · rintro w _ p ⟨n, -, -, h⟩
    exact Counted.length_le h
  · refine ⟨fun hleft => ?_, fun hright => ?_⟩
    · obtain ⟨t, rfl, rfl, rfl, rfl⟩ | ⟨⟨n, rfl, rfl, h⟩, hnot⟩ := hleft
      · exact Or.inl ⟨rfl, List.append_nil _, rfl⟩
      · exact Or.inr ⟨rfl, h, hnot⟩
    · obtain ⟨rfl, rfl, rfl⟩ | ⟨rfl, h, hnot⟩ := hright
      · exact Or.inl ⟨[], (List.append_nil _).symm, rfl, rfl, rfl⟩
      · exact Or.inr ⟨⟨p.length, rfl, rfl, h⟩, hnot⟩

theorem gathers_chunk? :
    Gathers o chunk? fun w found p =>
      (found = none ∧ w = Marker.lastChunk ∧ p = []) ∨
      ∃ u, found = some u ∧ Counted o.limits .chunk w p ∧
        ¬ Marker.lastChunk <+: w := by
  have hfound : ∀ isLast : Bool, Gathers o
      (if isLast = true then Pure.pure none else Pure.pure (some ()) : Gather
        (Option Unit))
      fun w found p => w = [] ∧
        found = (if isLast = true then none else some ()) ∧ p = [] := by
    intro isLast
    cases isLast <;> exact Step.Accepts.pure _
  refine (gathers_chunk.bind hfound).congr fun w found p => ?_
  refine ⟨fun hleft => ?_, fun hright => ?_⟩
  · obtain ⟨u, _, _, p, _, rfl, rfl, ⟨rfl, rfl, rfl⟩ |
        ⟨rfl, h, hnot⟩, rfl, rfl, rfl⟩ := hleft
    · exact Or.inl ⟨rfl, List.append_nil _, rfl⟩
    · rw [List.append_nil, List.append_nil]
      exact Or.inr ⟨(), rfl, h, hnot⟩
  · obtain ⟨rfl, rfl, rfl⟩ | ⟨u, rfl, h, hnot⟩ := hright
    · exact ⟨_, [], true, [], [], (List.append_nil _).symm, rfl,
        Or.inl ⟨rfl, rfl, rfl⟩, rfl, rfl, rfl⟩
    · exact ⟨w, [], false, p, [], (List.append_nil _).symm,
        (List.append_nil _).symm, Or.inr ⟨rfl, h, hnot⟩, rfl, rfl, rfl⟩

theorem chunks_iff {l : Limits} {w p : Bytes} :
    Chunks l w p ↔
      ∃ us : List Unit, Step.Repeated (fun w p => w = Marker.lastChunk ∧ p = [])
      (fun w _ p => Counted l .chunk w p ∧ ¬ Marker.lastChunk <+: w) w
        us p := by
  refine ⟨fun h => ?_, fun hright => ?_⟩
  · induction h with
    | last => exact ⟨[], .last ⟨rfl, rfl⟩⟩
    | more h hmore hlater ih =>
        obtain ⟨us, hus⟩ := ih
        exact ⟨() :: us, .more ⟨h, hmore⟩ hus⟩
  · obtain ⟨us, h⟩ := hright
    induction h with
    | last h =>
        obtain ⟨rfl, rfl⟩ := h
        exact .last
    | more h hlater ih => exact .more h.1 h.2 ih

theorem gathers_chunks : Gathers o chunks fun w _ p => Chunks o.limits w p := by
  have hloop : Gathers o (Gather.ofRead Reader.remainingLength >>= fun budget =>
      chunk?.collect (budget + 1)) _ :=
    Step.Accepts.loop
      (fun s _ => ofRead_of_run (Reader.remainingLength_holding s))
      gathers_chunk? fun w _ p h hnil => by
        have := Counted.length_le h.1
        rw [hnil] at this
        cases this
  have hall : Gathers o _ _ := hloop.bind_pure fun _ => ()
  rw [Step.bind_assoc_apply] at hall
  refine (Gathers.atomically hall).congr fun w u p => ?_
  rw [chunks_iff]
  refine ⟨fun hleft => ?_, fun hright => ?_⟩
  · obtain ⟨us, -, h⟩ := hleft
    exact ⟨us, h⟩
  · obtain ⟨us, h⟩ := hright
    exact ⟨us, rfl, h⟩

theorem gathers_simple (role : Role) :
    Gathers o (simple role) fun w _ p =>
      Bytes.lf ∉ p ∧ o.limits.Admits p.length ∧
        w = (Kind.simple role).line p := by
  refine (Gathers.atomically
    ((Gathers.ofRead (Reader.reads_expect _)).bind fun _ =>
      gathers_line)).congr fun w _ p => ?_
  refine ⟨fun hleft => ?_, fun hright => ?_⟩
  · obtain ⟨_, _, _, _, p, rfl, rfl, ⟨rfl, rfl⟩, hlf, hadmits, rfl⟩ := hleft
    exact ⟨hlf, hadmits, rfl⟩
  · obtain ⟨hlf, hadmits, rfl⟩ := hright
    exact ⟨_, _, (), [], p, rfl, rfl, ⟨rfl, rfl⟩, hlf, hadmits, rfl⟩

theorem gathers_verbatim :
    Gathers o verbatim fun w format p =>
      Counted o.limits .verbatim w (format.octets ++ ':'.toUInt8 :: p) := by
  refine Gathers.atomically fun s g format after => ?_
  have hsince : ∀ rest p, since g.length ⟨holding o rest, g ++ p⟩ =
      (.ok p, ⟨holding o rest, g ++ p⟩) :=
        fun rest p => by rw [since, List.drop_left]
  have hcut : ∀ rest p text (f : Format),
      (cutBack g.length >>= fun _ => push text >>= fun _ =>
        (Pure.pure f : Gather Format)) ⟨holding o rest, g ++ p⟩ =
        (.ok f, ⟨holding o rest, g ++ text⟩) := fun rest p text f => by
    show ((.ok f, ⟨holding o rest, (g ++ p).take g.length ++ text⟩) :
      Except Fault Format × Draft) = _
    rw [List.take_left]
  refine Step.bind_eq_ok.trans ?_
  refine ⟨fun h => ?_, fun hright => ?_⟩
  · obtain ⟨start, _, hmark, hlater⟩ := h
    cases hmark
    obtain ⟨n, mid, hcounted, hsettle⟩ := Step.bind_eq_ok.mp hlater
    obtain ⟨w, rest, p, rfl, rfl, -, h⟩ :=
      (gathers_counted .verbatim s g n mid).mp hcounted
    rw [Step.bind_of_ok (hsince rest p)] at hsettle
    split at hsettle
    · next a b c separator text =>
        split at hsettle
        · next hseparator =>
            cases (hcut rest _ text ⟨a, b, c⟩).symm.trans hsettle
            exact ⟨w, rest, text, rfl, rfl, hseparator ▸ h⟩
        · cases hsettle
    · cases hsettle
  · obtain ⟨w, rest, p, rfl, rfl, h⟩ := hright
    refine ⟨g.length, ⟨holding o (w ++ rest), g⟩, rfl,
      Step.bind_eq_ok.mpr ⟨_, _,
        (gathers_counted .verbatim _ g _ _).mpr ⟨w, rest, _, rfl, rfl, rfl, h⟩,
        ?_⟩⟩
    rw [Step.bind_of_ok (hsince rest _)]
    exact hcut rest _ p format

end Gather

end RespWire

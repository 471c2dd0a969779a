import RespWire.Proofs.Counterparts
import RespWire.Proofs.EndOfInput
import RespWire.Proofs.Skipping

/-!
# Followers

Some reads look at more octets than every word has: for a null of the earlier
protocol version, for the header of a stream, for the last chunk. Where such a
look shows too few, the reader takes something else for what comes and goes on.
So more has to be known of a second reader whose look may fall short. It follows
the first: then it holds all it will ever have, and what it goes on to read
fails for want of octets, since no word that the look could have belonged to is
as short as that.

With this, everything that is read is matched, from the look for a kind to whole
values. The second run may start with fewer levels left than the first.
-/

namespace RespWire

/-! ## The shortest words behind a look -/

theorem Kind.reach_of_streamHeader (k : Kind) (rest : Bytes) :
    k.reach (k.streamHeader ++ rest) ≤ (k.streamHeader ++ rest).length := by
  have hlength : k.streamHeader.length = 4 := rfl
  have hmark : (k.streamHeader ++ rest)[1]? ≠ some Decimal.minus := by
    show some '?'.toUInt8 ≠ _
    decide
  unfold Kind.reach
  split
  · exact Nat.zero_le _
  · rw [if_neg hmark, List.length_append]
    omega

theorem Kind.reach_of_line (k : Kind) {num : Bytes} {n : Int}
    (h : Numeral num n) (rest : Bytes) :
    k.reach (k.line num ++ rest) ≤ (k.line num ++ rest).length := by
  have hlength : (k.line num ++ rest).length =
      num.length + 3 + rest.length := by
    simp only [Kind.line, List.length_append, List.length_cons,
      Bytes.length_crlf]
  have hpos := h.length_pos
  unfold Kind.reach
  split
  · exact Nat.zero_le _
  · next form hform =>
      rw [hlength]
      split
      · next hminus =>
          rw [Kind.length_of_earlierNull? hform]
          cases h with
          | plain hds =>
              cases num with
              | nil => exact absurd rfl hds.ne_nil
              | cons d ds =>
                  have hd : d = Decimal.minus := Option.some.inj hminus
                  exact absurd (hds.isDigit d (.head _)) (by rw [hd]; decide)
          | negative hds =>
              have := List.length_pos_iff.mpr hds.ne_nil
              rw [List.length_cons]
              omega
      · omega

namespace Reader

open Step (Matched Matches)

variable {α β : Type} {o : Options} {k : Kind}

/-- A read that answers, behind the look for the kind `k`, only where all that
the look reaches for is there. -/
def Ample (k : Kind) (m : Read α) : Prop :=
  ∀ o w a after, w.head? = some k.lead → m (holding o w) = (.ok a, after) →
    k.reach w ≤ w.length

theorem Ample.bind {m : Read α} (hm : Ample k m) (f : α → Read β) :
    Ample k (m >>= f) := by
  intro o w b after hlead h
  obtain ⟨a, mid, ha, -⟩ := Step.bind_eq_ok.mp h
  exact hm o w a mid hlead ha

theorem Ample.mapFault {m : Read α} (hm : Ample k m) (change : Fault → Fault) :
    Ample k (m.mapFault change) :=
  fun o w a after hlead h => hm o w a after hlead (Step.mapFault_eq_ok.mp h)

theorem Ample.of_none (h : k.earlierNull? = none) (m : Read α) : Ample k m := by
  intro o w a after _ _
  rw [Kind.reach, h]
  exact Nat.zero_le _

/-- A read whose words start with the header of a stream or with a number. -/
theorem Ample.of_reads {m : Read α} {L : Options → Bytes → α → Prop}
    (hm : ∀ o, Reads o m (L o))
    (hL : ∀ o w a, L o w a → (∃ t, w = k.streamHeader ++ t) ∨
      ∃ num n t, Numeral num n ∧ w = k.line num ++ t) : Ample k m := by
  intro o s a after _ h
  obtain ⟨w, rest, rfl, -, hw⟩ := (reads_iff.mp (hm o) s a after).mp h
  rcases hL o w a hw with ⟨t, rfl⟩ | ⟨num, n, t, hnum, rfl⟩
  · rw [List.append_assoc]
    exact k.reach_of_streamHeader _
  · rw [List.append_assoc]
    exact k.reach_of_line hnum _

theorem ample_header (a : Aggregate) : Ample (.aggregate a) (header a) := by
  refine .of_reads (fun o => reads_header a) fun o w n h => ?_
  rcases h with ⟨-, rfl⟩ | ⟨num, c, -, hcount, rfl⟩
  · exact Or.inl ⟨[], (List.append_nil _).symm⟩
  · exact Or.inr ⟨num, c, [], hcount.1, (List.append_nil _).symm⟩

theorem ample_joinedBlob (role : Role) :
    Ample (.blob role) (joinedBlob role) := by
  refine .of_reads (fun o => reads_joinedBlob role) fun o w octets h => ?_
  rcases h with ⟨num, hcount, -, rfl⟩ | ⟨u, rfl, -⟩
  · exact Or.inr ⟨num, _, _, hcount.1, rfl⟩
  · exact Or.inl ⟨u, rfl⟩

theorem ample_skipBlob (role : Role) {A B : Read α}
    (hB : Ample (.blob role) B) :
    Ample (.blob role) (takeStreamHeader (.blob role) >>= fun streamed =>
      if streamed = true then A else B) := by
  intro o w a after hlead h
  rw [Step.bind_apply, takeStreamHeader, takeForm_holding] at h
  by_cases hform : (Kind.blob role).streamHeader <+: w
  · obtain ⟨t, rfl⟩ := hform
    exact Kind.reach_of_streamHeader _ t
  · rw [if_neg hform] at h
    exact hB o w a after hlead h

theorem ample_counted (role : Role) :
    Ample (.blob role) (Gather.counted (.blob role)).dropped := by
  refine .of_reads (fun o => (Gather.gathers_counted (.blob role)).dropped)
    fun o w n h => ?_
  obtain ⟨p, -, num, hcount, -, rfl⟩ := h
  exact Or.inr ⟨num, _, _, hcount.1, rfl⟩

/-! ## Looks that fall short -/

/-- Too little is to come for the look for the kind. -/
def Scant (k : Kind) (r : Reader) : Prop :=
  ∃ o w, r = holding o w ∧ w.head? = some k.lead ∧ w.length < k.reach w

variable {r : Reader}

theorem Scant.earlierNull? (h : Scant k r) :
    ∃ form, k.earlierNull? = some form := by
  obtain ⟨o, w, -, -, hshort⟩ := h
  cases hk : k.earlierNull? with
  | none =>
      rw [Kind.reach, hk] at hshort
      cases hshort
  | some form => exact ⟨form, rfl⟩

/-- Then the look finds no null. -/
theorem Scant.none_found (h : Scant k r) :
    Reader.earlierNull? k r = (.ok none, r) := by
  obtain ⟨form, hform⟩ := h.earlierNull?
  obtain ⟨o, w, rfl, -, hshort⟩ := h
  have hlength := Kind.length_of_earlierNull? hform
  have hfew : w.length < form.length := by
    refine Nat.lt_of_lt_of_le hshort ?_
    rw [Kind.reach, hform]
    simp only
    split <;> omega
  have hnot : ¬ form <+: w := fun hfront => Nat.not_lt.mpr hfront.length_le hfew
  rw [earlierNull?_holding, hform]
  simp [Option.filter, hnot]

theorem Scant.peek (h : Scant k r) : peek r = (.ok k, r) := by
  have hnone := h.none_found
  obtain ⟨o, w, rfl, hlead, -⟩ := h
  cases w with
  | nil => cases hlead
  | cons b rest =>
      have hlook : peekLead (holding o (b :: rest)) =
          (.ok k, holding o (b :: rest)) := by
        rw [peekLead_holding, Option.some.inj hlead]
        simp only [Kind.ofLead?_lead]
      rw [Reader.peek, Step.bind_of_ok hlook, Step.bind_of_ok hnone]
      rfl

theorem Scant.expect_null (h : Scant k r) {u : Unit} {after : Reader} :
    expect .null r ≠ (.ok u, after) := by
  intro hok
  obtain ⟨form, hform⟩ := h.earlierNull?
  obtain ⟨o, w, rfl, hlead, -⟩ := h
  obtain ⟨_, rest, rfl, -, rfl⟩ :=
    (reads_iff.mp (reads_expect .null) w u after).mp hok
  have hkind := Kind.ofLead?_lead Kind.null
  rw [show Kind.null.lead = k.lead from Option.some.inj hlead,
    Kind.ofLead?_lead] at hkind
  rw [Option.some.inj hkind] at hform
  cases hform

theorem Ample.not_ok {m : Read α} (hm : Ample k m) (h : Scant k r) {a : α}
    {after : Reader} :
    m r ≠ (.ok a, after) := by
  obtain ⟨o, w, rfl, hlead, hshort⟩ := h
  exact fun hok => Nat.not_lt.mpr (hm o w a after hlead hok) hshort

/-- What looks for a kind and then reads it answers only where there is enough
for the look, if that is so of what it reads. -/
theorem ample_select {select : Kind → Read α} (h : ∀ k, Ample k (select k))
    (k : Kind) :
    Ample k (Reader.peek >>= select) := by
  intro o w a after hlead hok
  refine Nat.not_lt.mp fun hshort => ?_
  have hscant : Scant k (holding o w) := ⟨o, w, rfl, hlead, hshort⟩
  rw [Step.bind_of_ok hscant.peek] at hok
  exact (h k).not_ok hscant hok

/-! ## Readers that follow -/

/-- Counterparts of which the second, where anything may stop it, holds all that
it will ever have. It may have fewer levels left, and is stopped where it has
none. -/
structure Followers (stops : Fault → Prop) (P : Reader → Reader → Prop) : Prop
    extends Counterparts stops P where
  holds : (∀ f, stops f) → ∀ s t, P s t → ∃ o w, t = holding o w
  tooDeep : ∀ depth, stops (.violation (.tooDeep depth))
  depth : ∀ s t, P s t → t.options.maxDepth ≤ s.options.maxDepth

namespace Followers

variable {stops : Fault → Prop} {P : Reader → Reader → Prop} {s t : Reader}

/-- A look ahead shows the same, or it falls short. -/
theorem look_or_short (h : Followers stops P) (n : Nat) (hst : P s t) :
    (∃ result s' t', Reader.lookAhead n s = (result, s') ∧
      Reader.lookAhead n t = (result, t') ∧
      P s' t') ∨ ((∀ f, stops f) ∧ ∃ o w, t = holding o w ∧ w.length < n) := by
  refine (h.lookAhead n s t hst).imp_right fun hright => ?_
  obtain ⟨hall, hshort⟩ := hright
  obtain ⟨o, w, rfl⟩ := h.holds hall s t hst
  have hfew := hshort _ _ (lookAhead_holding n w)
  rw [List.length_take] at hfew
  exact ⟨hall, o, w, rfl, by omega⟩

/-! ## Forms -/

theorem takeForm_or_short (h : Followers stops P) (form : Bytes) (hst : P s t) :
    Matched stops P (takeForm form s) (takeForm form t) ∨
      (∀ f, stops f) ∧ takeForm form t = (.ok false, t) ∧
        t.remaining.length < form.length := by
  rcases h.look_or_short form.length hst with ⟨result, s', t', hs, ht, hst'⟩ |
    ⟨hall, o, w, rfl, hshort⟩
  · left
    rw [takeForm_eq]
    cases result with
    | error e =>
        rw [Step.bind_of_error hs, Step.bind_of_error ht]
        exact .same hst'
    | ok bs =>
        rw [Step.bind_of_ok hs, Step.bind_of_ok ht]
        split
        · next hform =>
            have hheld := length_le_buffer_of_lookAhead hs
            have hheld' := length_le_buffer_of_lookAhead ht
            rw [eq_of_beq hform] at hheld hheld'
            exact h.consume_pure true hst' hheld hheld'
        · exact .same hst'
  · have hnot : ¬ form <+: w :=
      fun hfront => Nat.not_lt.mpr hfront.length_le hshort
    exact Or.inr
      ⟨hall, by rw [takeForm_holding, if_neg hnot], by rwa [remaining_holding]⟩

theorem orForm (h : Followers stops P) {form : Bytes} {faults : Fault → Prop}
    {A A' B B' : Read α} (hA : Matches stops P A A') (hB : Matches stops P B B')
    (hlong : Takes faults form.length B') :
    Matches stops P (takeForm form >>= fun found =>
      if found = true then A else B)
      (takeForm form >>= fun found => if found = true then A' else B') :=
  Matches.orForm (fun _ _ => h.takeForm_or_short form) hA hB hlong

theorem gatherOrForm (h : Followers stops P) {form : Bytes}
    {faults : Fault → Prop} {A A' B B' : Gather α}
    (hA : Matches stops (Draft.Related P) A A')
    (hB : Matches stops (Draft.Related P) B B')
    (hlong : Gather.Takes faults form.length B') :
    Matches stops (Draft.Related P)
      (Gather.ofRead (takeForm form) >>= fun found =>
        if found = true then A else B)
      (Gather.ofRead (takeForm form) >>= fun found =>
        if found = true then A' else B') := by
  refine Matches.orForm (fun d e hde => ?_) hA hB hlong
  obtain ⟨s, g⟩ := d
  obtain ⟨t, g'⟩ := e
  obtain ⟨hst, rfl⟩ := hde
  refine (h.takeForm_or_short form hst).imp (fun hmatched => ?_) fun hright =>
    ?_
  · exact Gather.matched_ofRead hmatched rfl
  · obtain ⟨hall, hnone, hshort⟩ := hright
    exact ⟨hall, Gather.ofRead_of_run hnone, hshort⟩

theorem badCountInstead_of_isLimit (f : Fault) (hf : f.IsLimit) :
    badCountInstead f = f := by
  unfold badCountInstead
  split
  · exact hf.elim
  · rfl

theorem header (h : Followers stops P) (a : Aggregate) :
    Matches stops P (header a) (header a) := by
  refine h.orForm (.pure _) ((h.expect _).bind fun _ =>
    (h.number.mapFault (h.reworded badCountInstead_of_isLimit)).bind fun n =>
      ?_)
    (takes_countedHeader a)
  split
  · exact .fail _
  · exact .pure _

open Gather
  (matches_ofRead matches_atomically matches_collected matches_dropped)

theorem blob (h : Followers stops P) (role : Role) :
    Matches stops (Draft.Related P) (Gather.blob role) (Gather.blob role) :=
  matches_atomically (h.gatherOrForm (.pure _) ((h.counted _).bind_pure _)
    (((Gather.takes_counted _).le (show 4 ≤ 6 by decide)).bind_pure _))

theorem chunk (h : Followers stops P) :
    Matches stops (Draft.Related P) Gather.chunk Gather.chunk :=
  h.gatherOrForm (.pure _) ((matches_atomically (h.counted _)).bind_pure _)
    (((Gather.takes_atomically (Gather.takes_counted _)).le
      (show 4 ≤ 6 by decide)).bind_pure _)

/-! ## Loops -/

/-- A loop that takes its budget from what is to come. -/
theorem loop {m m' : Read (Option α)} {faults faults' : Fault → Prop} {n : Nat}
    (hm : Matches stops P m m') (htakes : Takes faults (n + 1) m)
    (htakes' : Takes faults' (n + 1) m') :
    Matches stops P (remainingLength >>= fun budget => m.collect (budget + 1))
      (remainingLength >>= fun budget => m'.collect (budget + 1)) :=
  fun s t hst => hm.collect (htakes.le (Nat.le_add_left 1 n))
    (htakes'.le (Nat.le_add_left 1 n))
    _ _ s t (Nat.lt_succ_self _) (Nat.lt_succ_self _) hst

theorem chunks (h : Followers stops P) :
    Matches stops (Draft.Related P) Gather.chunks Gather.chunks := by
  have hchunk? :
      Matches stops (Draft.Related P) Gather.chunk? Gather.chunk? := by
    refine h.chunk.bind fun last => ?_
    split <;> exact .pure _
  have hloop : Matches stops (Draft.Related P)
      (Gather.ofRead remainingLength >>= fun budget =>
        Gather.chunk?.collect (budget + 1))
      (Gather.ofRead remainingLength >>= fun budget =>
        Gather.chunk?.collect (budget + 1)) :=
    fun d e hde => hchunk?.collect (Gather.takes_chunk?.le (by decide))
      (Gather.takes_chunk?.le (by decide)) _ _ d e (Nat.lt_succ_self _)
      (Nat.lt_succ_self _) hde
  refine matches_atomically ?_
  have hall := hloop.bind_pure fun _ => ()
  rwa [Step.bind_assoc_apply] at hall

theorem joinedBlob (h : Followers stops P) (role : Role) :
    Matches stops P (joinedBlob role) (joinedBlob role) := by
  refine (matches_collected ((h.blob role).bind fun n => ?_)).bind_pure _
  cases n with
  | known n => exact .pure ()
  | streamed => exact h.chunks

/-! ## The look for a kind -/

theorem attempt_or_short (h : Followers stops P) (n : Nat) (hst : P s t) :
    (∃ found? s' t', (Reader.lookAhead n).attempt s = (.ok found?, s') ∧
      (Reader.lookAhead n).attempt t = (.ok found?, t') ∧ P s' t') ∨
    ((∀ f, stops f) ∧ ∃ o w, t = holding o w ∧ w.length < n) := by
  refine (h.look_or_short n hst).imp_left fun hsame => ?_
  obtain ⟨result, s', t', hs, ht, hst'⟩ := hsame
  cases result with
  | error e =>
      exact ⟨none, s', t', by rw [Step.attempt, hs], by rw [Step.attempt, ht],
        hst'⟩
  | ok bs =>
      exact ⟨some bs, s', t', by rw [Step.attempt, hs],
        by rw [Step.attempt, ht], hst'⟩

theorem earlierNull?_or_short (h : Followers stops P) (k : Kind) (hst : P s t) :
    Matched stops P (earlierNull? k s) (earlierNull? k t) ∨
      (∀ f, stops f) ∧ ∃ o w, t = holding o w ∧ w.length < k.reach w := by
  cases hform : k.earlierNull? with
  | none =>
      left
      simp only [Reader.earlierNull?, hform]
      exact .same hst
  | some form =>
      have hlength := Kind.length_of_earlierNull? hform
      rcases h.attempt_or_short 2 hst with ⟨first?, s1, t1, hs, ht, hst1⟩ |
        ⟨hall, o, w, rfl, hshort⟩
      · cases first? with
        | none =>
            left
            simp only [Reader.earlierNull?, hform]
            rw [Step.bind_of_ok hs, Step.bind_of_ok ht]
            exact .same hst1
        | some bs =>
            by_cases hminus : ∃ x, bs = [x, Decimal.minus]
            · obtain ⟨x, rfl⟩ := hminus
              rw [earlierNull?_of_minus hform hs,
                earlierNull?_of_minus hform ht]
              rcases h.attempt_or_short form.length
                hst1 with ⟨next?, s2, t2, hs2, ht2, hst2⟩ |
                ⟨hall, o, w, rfl, hshort⟩
              · left
                rw [Step.bind_of_ok hs2, Step.bind_of_ok ht2]
                exact .same hst2
              · -- the second reader has held no more from the start
                right
                obtain ⟨o', w', rfl⟩ := h.holds hall s t hst
                have hlook := Step.attempt_eq_some.mp ht
                rw [lookAhead_holding, Prod.mk.injEq, Except.ok.injEq] at hlook
                obtain ⟨hminus, hsame⟩ := hlook
                exact ⟨hall, o, w, hsame, by
                  cases hsame
                  rw [Kind.reach_of_minus hform hminus]
                  exact hshort⟩
            · have hother : ∀ x, bs ≠ [x, Decimal.minus] := not_exists.mp hminus
              rw [earlierNull?_of_other hform hother hs,
                earlierNull?_of_other hform hother ht]
              exact Or.inl (.same hst1)
      · right
        refine ⟨hall, o, w, rfl, Nat.lt_of_lt_of_le hshort ?_⟩
        rw [Kind.reach, hform]
        simp only
        split <;> omega

theorem scant_of_short (h : Followers stops P) {k : Kind} {t' : Reader}
    (hall : ∀ f, stops f) (hst : P s t)
    (hlead : Reader.peekLead t = (.ok k, t')) {o : Options} {w : Bytes}
    (ht' : t' = holding o w) (hshort : w.length < k.reach w) :
    Scant k t ∧ t' = t := by
  obtain ⟨o', w', rfl⟩ := h.holds hall s t hst
  obtain ⟨rfl, rest, rfl⟩ :=
    (peekLead_eq_ok_iff id w' k t').mp (Step.mapFault_eq_ok.mpr hlead)
  cases ht'
  exact ⟨⟨o, _, rfl, rfl, hshort⟩, rfl⟩

/-- The kind that comes is found by both, or there is too little for the second
to look at. -/
theorem peek_or_scant (h : Followers stops P) (hst : P s t) :
    Matched stops P (peek s) (peek t) ∨ (∀ f, stops f) ∧ ∃ k, Scant k t := by
  refine (h.peekLead s t hst).bind_or fun k s' t' _ hlead hst' => ?_
  refine (h.earlierNull?_or_short k hst').imp (fun hmatched => ?_) fun hright =>
    ?_
  · refine hmatched.bind fun form? s2 t2 _ _ hst2 => ?_
    split <;> exact .same hst2
  · obtain ⟨hall, o, w, ht', hshort⟩ := hright
    exact ⟨hall, k, (h.scant_of_short hall hst hlead ht' hshort).1⟩

/-- What looks for a kind and then reads it, if it fails where there is too
little for the look. -/
theorem select (h : Followers stops P) {f f' : Kind → Read α}
    (hf : ∀ k, Matches stops P (f k) (f' k))
    (hample : ∀ k, Ample k (Reader.peek >>= f')) :
    Matches stops P (Reader.peek >>= f) (Reader.peek >>= f') := by
  intro s t hst
  rcases h.peek_or_scant hst with hmatched | ⟨hall, k, hscant⟩
  · exact hmatched.bind fun k s' t' _ _ => hf k s' t'
  · exact .of_imp hall fun a after hok => absurd hok ((hample k).not_ok hscant)

theorem null (h : Followers stops P) : Matches stops P null null := by
  intro s t hst
  have hlook := (h.peekLead s t hst).mapFault
    (h.reworded (Counterparts.noValueInstead_of_isLimit .null))
  refine hlook.bind fun k s' t' _ hlead hst' => ?_
  rcases h.earlierNull?_or_short k hst' with hmatched |
    ⟨hall, o, w, ht', hshort⟩
  · refine hmatched.bind fun form? s2 t2 hs2 ht2 hst2 => ?_
    cases form? with
    | none => exact ((h.expect .null).bind fun _ => h.lineEnd) s2 t2 hst2
    | some form =>
        exact .same (h.consume _ s2 t2 hst2 (held_of_earlierNull? hs2).2
          (held_of_earlierNull? ht2).2)
  · obtain ⟨hscant, rfl⟩ :=
      h.scant_of_short hall hst (Step.mapFault_eq_ok.mp hlead) ht' hshort
    refine .of_imp hall fun u after hok => ?_
    rw [Step.bind_of_ok hscant.none_found] at hok
    obtain ⟨_, mid, hexpect, -⟩ := Step.bind_eq_ok.mp hok
    exact absurd hexpect hscant.expect_null

/-! ## Values -/

theorem noElementInstead_of_isLimit (c : Cut) (f : Fault) (hf : f.IsLimit) :
    noElementInstead c f = f := by
  cases f with
  | endOfInput => exact hf.elim
  | _ => rfl

theorem nested (h : Followers stops P) {item item' : Read α}
    (hitem : Matches stops P item item') :
    Matches stops P (nested item) (nested item') :=
  hitem.mapFault (h.reworded (noElementInstead_of_isLimit _))

theorem element? (h : Followers stops P) {item item' : Read α}
    (hitem : Matches stops P item item') (hample : ∀ k, Ample k item') :
    Matches stops P (element? item) (element? item') := by
  have hfound : ∀ k, Matches stops P
      (if k = Kind.close then Reader.close >>= fun _ => pure none
        else item >>= fun a => pure (some a))
      (if k = Kind.close then Reader.close >>= fun _ => pure none
        else item' >>= fun a => pure (some a)) := by
    intro k
    split
    · exact h.close.bind_pure _
    · exact hitem.bind_pure _
  intro s t hst
  rcases h.peek_or_scant hst with hmatched | ⟨hall, k, hscant⟩
  · refine (hmatched.mapFault (h.reworded (noElementInstead_of_isLimit _))).bind
      fun k s' t' _ _ => hfound k s' t'
  · -- the second goes on to an element, which is cut short
    refine .of_imp hall fun a after hok => ?_
    obtain ⟨form, hform⟩ := hscant.earlierNull?
    have hclose : k ≠ .close := by
      rintro rfl
      cases hform
    have hlook : (Reader.peek.mapFault (noElementInstead .noElementOrClose)) t =
        (.ok k, t) :=
      Step.mapFault_eq_ok.mpr hscant.peek
    rw [Reader.element?, Step.bind_of_ok hlook, if_neg hclose] at hok
    obtain ⟨b, mid, hb, -⟩ := Step.bind_eq_ok.mp hok
    exact absurd hb ((hample k).not_ok hscant)

theorem elements (h : Followers stops P) (a : Aggregate) {item item' : Read α}
    {streamed streamed' : Read (Option α)} {faults faults' : Fault → Prop}
    (hitem : Matches stops P item item')
    (hstreamed : Matches stops P streamed streamed')
    (htakes : Takes faults 3 streamed) (htakes' : Takes faults' 3 streamed') :
    Matches stops P (elements a item streamed)
      (elements a item' streamed') := by
  refine (h.header a).bind fun n => ?_
  cases n with
  | known n => exact hitem.times n
  | streamed => exact loop hstreamed htakes htakes'

theorem pair (h : Followers stops P) {item item' : Read Value}
    (hitem : Matches stops P item item') :
    Matches stops P (pair item) (pair item') :=
  (h.nested hitem).bind fun _ => (h.nested hitem).bind_pure _

theorem pair? (h : Followers stops P) {item item' : Read Value}
    (hitem : Matches stops P item item') (hample : ∀ k, Ample k item') :
    Matches stops P (pair? item) (pair? item') := by
  refine (h.element? (h.nested hitem) fun k => (hample k).mapFault _).bind
    fun key? => ?_
  cases key? with
  | none => exact .pure none
  | some key => exact (h.nested hitem).bind_pure _

theorem ample_valueWithin (levels : Nat) (k : Kind) :
    Ample k (Reader.valueWithin levels) := by
  cases levels with
  | zero => exact fun o w a after _ hok => nomatch hok
  | succ levels =>
      refine ample_select (fun k => ?_) k
      cases k with
      | aggregate a => cases a <;> exact ((ample_header _).bind _).bind _
      | blob role => exact (ample_joinedBlob role).bind _
      | _ => exact .of_none rfl _

theorem valueWithin (h : Followers stops P) (levels levels' : Nat)
    (hle : levels' ≤ levels) :
    Matches stops P (valueWithin levels) (valueWithin levels') := by
  induction levels' generalizing levels with
  | zero => exact fun s t _ => .stopped (h.tooDeep _)
  | succ levels' ih =>
      obtain ⟨levels, rfl⟩ := Nat.exists_eq_add_one.mpr (Nat.zero_lt_of_lt hle)
      have hitem := ih levels (Nat.le_of_succ_le_succ hle)
      have hample := ample_valueWithin levels'
      have htakes := takes_valueWithin levels
      have htakes' := takes_valueWithin levels'
      refine h.select (fun k => ?_) (ample_valueWithin (levels' + 1))
      cases k with
      | aggregate a =>
          cases a with
          | sequence s =>
              exact (h.elements _ (h.nested hitem)
                (h.element? (h.nested hitem) fun k => (hample k).mapFault _)
                (takes_element? (takes_nested htakes))
                (takes_element? (takes_nested htakes'))).bind_pure _
          | pairing p =>
              exact (h.elements _ (h.pair hitem) (h.pair? hitem hample)
                (takes_pair? htakes) (takes_pair? htakes')).bind_pure _
      | blob role => exact (h.joinedBlob role).bind_pure _
      | simple role => exact (matches_collected (h.simple role)).bind_pure _
      | verbatim => exact (matches_collected h.verbatim).bind_pure _
      | bigNumber => exact (h.lineOf _ _).bind_pure _
      | boolean => exact h.boolean.bind_pure _
      | double => exact (h.lineOf _ _).bind_pure _
      | integer => exact h.integer.bind_pure _
      | null => exact h.null.bind_pure _
      | chunk => exact .fail _
      | close => exact .fail _

/-- What starts from the depth that each reader allows. -/
theorem from_depth (h : Followers stops P) {m : Nat → Read α}
    (hm : ∀ levels levels', levels' ≤ levels → Matches stops P (m levels)
      (m levels')) :
    Matches stops P (getOptions >>= fun o => m (o.maxDepth + 1))
      (getOptions >>= fun o => m (o.maxDepth + 1)) :=
  fun s t hst => hm _ _ (Nat.succ_le_succ (h.depth s t hst)) s t hst

theorem value (h : Followers stops P) : Matches stops P value value :=
  h.from_depth h.valueWithin

/-! ## Skips -/

theorem skipChunk (h : Followers stops P) :
    Matches stops P skipChunk skipChunk :=
  h.orForm (.pure _) ((matches_dropped (h.counted _)).bind_pure _)
    (((Gather.takes_dropped (Gather.takes_counted _)).le
      (show 4 ≤ 6 by decide)).bind_pure _)

theorem skipChunks (h : Followers stops P) :
    Matches stops P skipChunks skipChunks := by
  have hchunk? : Matches stops P skipChunk? skipChunk? := by
    refine h.skipChunk.bind fun last => ?_
    split <;> exact .pure _
  have hall :=
    (loop hchunk? takes_skipChunk? takes_skipChunk?).bind_pure fun _ => ()
  rwa [Step.bind_assoc_apply] at hall

theorem skipElements (h : Followers stops P) (a : Aggregate)
    {item item' : Read Kind} (hitem : Matches stops P item item')
    {faults faults' : Fault → Prop} (htakes : Takes faults 3 item)
    (htakes' : Takes faults' 3 item') (count : Length) :
    Matches stops P (skipElements a item count)
      (skipElements a item' count) := by
  cases count with
  | known n => exact ((h.nested hitem).times _).bind_pure _
  | streamed =>
      have helement? :
          Matches stops P (skipElement? item) (skipElement? item') := by
        refine (h.nested hitem).bind fun k => ?_
        split <;> exact .pure _
      have hall := (loop helement? (takes_skipElement? htakes)
        (takes_skipElement? htakes')).bind_pure fun _ => ()
      rwa [Step.bind_assoc_apply] at hall

theorem ample_skipWithin (deep : Bool) (levels : Nat) (k : Kind) :
    Ample k (Reader.skipWithin deep levels) := by
  cases levels with
  | zero => exact fun o w a after _ hok => nomatch hok
  | succ levels =>
      refine ample_select (fun k => ?_) k
      cases k with
      | aggregate a => exact (ample_header a).bind _
      | blob role => exact ample_skipBlob role ((ample_counted role).bind _)
      | _ => exact .of_none rfl _

theorem skipWithin (h : Followers stops P) (deep : Bool) (levels levels' : Nat)
    (hle : levels' ≤ levels) :
    Matches stops P (skipWithin deep levels) (skipWithin deep levels') := by
  induction levels' generalizing levels with
  | zero => exact fun s t _ => .stopped (h.tooDeep _)
  | succ levels' ih =>
      obtain ⟨levels, rfl⟩ := Nat.exists_eq_add_one.mpr (Nat.zero_lt_of_lt hle)
      have hitem := ih levels (Nat.le_of_succ_le_succ hle)
      refine h.select (fun k => ?_) (ample_skipWithin deep (levels' + 1))
      cases k with
      | aggregate a =>
          refine (h.header a).bind fun n => ?_
          simp only
          split
          · exact (h.skipElements a hitem (takes_skipWithin deep levels)
              (takes_skipWithin deep levels') n).bind_pure _
          · exact .pure _
      | blob role =>
          refine h.orForm ?_ ((matches_dropped (h.counted _)).bind_pure _)
            (((Gather.takes_dropped (Gather.takes_counted _)).le
              (show 4 ≤ 6 by decide)).bind_pure _)
          split
          · exact h.skipChunks.bind_pure _
          · exact .pure _
      | chunk =>
          simp only
          split
          · exact h.skipChunks.bind_pure _
          · exact h.skipChunk.bind_pure _
      | simple role =>
          exact (h.expect _).bind fun _ => (matches_dropped h.line).bind_pure _
      | verbatim => exact (matches_dropped h.verbatim).bind_pure _
      | bigNumber => exact (h.lineOf _ _).bind_pure _
      | boolean => exact h.boolean.bind_pure _
      | double => exact (h.lineOf _ _).bind_pure _
      | integer => exact h.integer.bind_pure _
      | null => exact h.null.bind_pure _
      | close => exact h.close.bind_pure _

theorem skip (h : Followers stops P) (deep : Bool) :
    Matches stops P (skip deep) (skip deep) :=
  h.from_depth (h.skipWithin deep)

/-! ## Calls -/

/-- Every call is matched, but for a look that may fall short and has nothing
behind it. -/
theorem make (h : Followers stops P) {call : Call}
    (hcall : call = .peek → ¬ ∀ f, stops f) :
    Matches stops (Draft.Related P) call.make call.make := by
  cases call with
  | peek =>
      refine (matches_ofRead fun s t hst => ?_).bind_pure _
      exact (h.peek_or_scant hst).resolve_right fun hright => hcall rfl hright.1
  | header a => exact (matches_ofRead (h.header a)).bind_pure _
  | blob role => exact (h.blob role).bind_pure _
  | chunk => exact h.chunk.bind_pure _
  | chunks => exact h.chunks.bind_pure _
  | simple role => exact (h.simple role).bind_pure _
  | verbatim => exact h.verbatim.bind_pure _
  | bigNumber => exact (matches_ofRead (h.lineOf _ _)).bind_pure _
  | boolean => exact (matches_ofRead h.boolean).bind_pure _
  | double => exact (matches_ofRead (h.lineOf _ _)).bind_pure _
  | integer => exact (matches_ofRead h.integer).bind_pure _
  | close => exact (matches_ofRead h.close).bind_pure _
  | null => exact (matches_ofRead h.null).bind_pure _
  | value => exact (matches_ofRead h.value).bind_pure _
  | skip deep => exact (matches_ofRead (h.skip deep)).bind_pure _

end Followers

end Reader

end RespWire

import RespWire.Proofs.Consuming
import RespWire.Proofs.Parsing

/-!
# The end of input, clean or not

A caller that looks for the next value has to tell a connection that was closed
between two values from one that broke off inside a value. A reader reports the
end of input only in the first case: nothing is held and a call on the feed
hands out nothing. Everything behind the first octet of a value is looked for
by reads that make a cut of the end of input.

So a value that breaks off is never taken for a whole one either, since a front
of a word of the grammar is no word: the reader would stop there also if more
were to come.
-/

namespace RespWire

namespace Reader

open Fault (NotEnd)

variable {α : Type} {faults : Fault → Prop} {n : Nat} {r : Reader}

/-! ## Values -/

/-- The end of input may be all that a look for a value finds. -/
theorem takes_peek : Takes (fun _ => True) 0 peek := by
  refine takes_peekLead.bind fun k => ?_
  refine ((takes_earlierNull? k).mono (Nat.le_refl 0) fun _ _ => trivial).bind
    fun form? => ?_
  split <;> exact .pure _

theorem notEnd_noElementInstead (c : Cut) (f : Fault) :
    NotEnd (noElementInstead c f) := by
  cases f <;> exact nofun

theorem takes_nested {item : Read α} (h : Takes faults n item) :
    Takes NotEnd n (nested item) :=
  h.mapFault fun f _ => notEnd_noElementInstead _ f

theorem takes_element? {item : Read α} (h : Takes NotEnd 3 item) :
    Takes NotEnd 3 (element? item) := by
  refine (takes_peek.mapFault fun f _ => notEnd_noElementInstead _ f).bind
    fun k => ?_
  split
  · exact takes_close.bind_pure _
  · exact h.bind_pure _

theorem takes_elements (a : Aggregate) {item : Read α}
    {streamed : Read (Option α)} (h : Takes NotEnd 3 item)
    (hs : Takes NotEnd 3 streamed) :
    Takes NotEnd 3 (elements a item streamed) := by
  refine (takes_header a).bind fun n => ?_
  cases n with
  | known n => exact h.times n
  | streamed =>
      exact takes_remainingLength.bind fun _ =>
        (hs.collect _).le (Nat.zero_le _)

theorem takes_pair {item : Read Value} (h : Takes faults 3 item) :
    Takes NotEnd 3 (pair item) :=
  (takes_nested h).bind fun _ =>
    ((takes_nested h).le (Nat.zero_le _)).bind_pure _

theorem takes_pair? {item : Read Value} (h : Takes faults 3 item) :
    Takes NotEnd 3 (pair? item) := by
  refine (takes_element? (takes_nested h)).bind fun key? => ?_
  cases key? with
  | none => exact .pure none
  | some key => exact ((takes_nested h).le (Nat.zero_le _)).bind_pure _

theorem takes_joinedBlob (role : Role) : Takes NotEnd 4 (joinedBlob role) := by
  refine (Gather.takes_collected
    ((Gather.takes_blob role).bind fun n => ?_)).bind_pure _
  cases n with
  | known n => exact .pure ()
  | streamed => exact Gather.takes_chunks.le (Nat.zero_le _)

theorem takes_tooDeep : Takes NotEnd n (tooDeep : Read α) :=
  takes_getOptions.bind fun _ => .fail nofun

/-- A read that looks for the kind of what comes and then takes it. The end of
input may be all that the look finds; behind the look it is no answer any
more. -/
def Looks (m : Read α) : Prop :=
  ∃ select : Kind → Read α, m = peek >>= select ∧ ∀ k, Takes NotEnd 3 (select k)

theorem Looks.takes {m : Read α} (h : Looks m) : Takes (fun _ => True) 3 m := by
  obtain ⟨select, rfl, hselect⟩ := h
  exact takes_peek.bind fun k => (hselect k).mono (Nat.le_refl _) fun _ _ =>
    trivial

theorem looks_valueWithin_of {levels : Nat}
    (h : Takes (fun _ => True) 3 (valueWithin levels)) :
    Looks (valueWithin (levels + 1)) := by
  refine ⟨_, rfl, fun k => ?_⟩
  cases k with
  | aggregate a =>
      cases a with
      | sequence s =>
          exact (takes_elements _ (takes_nested h)
            (takes_element? (takes_nested h))).bind_pure _
      | pairing p =>
          exact (takes_elements _ (takes_pair h) (takes_pair? h)).bind_pure _
  | blob role => exact ((takes_joinedBlob role).le (by decide)).bind_pure _
  | simple role =>
      exact (Gather.takes_collected (Gather.takes_simple role)).bind_pure _
  | verbatim =>
      exact ((Gather.takes_collected Gather.takes_verbatim).le
        (by decide)).bind_pure _
  | bigNumber => exact takes_bigNumber.bind_pure _
  | boolean => exact (takes_boolean.le (by decide)).bind_pure _
  | double => exact takes_double.bind_pure _
  | integer => exact (takes_integer.le (by decide)).bind_pure _
  | null => exact takes_null.bind_pure _
  | chunk => exact .fail nofun
  | close => exact .fail nofun

theorem takes_valueWithin (levels : Nat) :
    Takes (fun _ => True) 3 (valueWithin levels) := by
  induction levels with
  | zero => exact takes_tooDeep.mono (Nat.le_refl 3) fun _ _ => trivial
  | succ levels ih => exact (looks_valueWithin_of ih).takes

theorem looks_valueWithin (levels : Nat) : Looks (valueWithin (levels + 1)) :=
  looks_valueWithin_of (takes_valueWithin levels)

/-! ## Skips -/

theorem checkedBigNumberLine_notEnd {text : Bytes} {f : Fault}
    (h : checkedBigNumberLine text = .error f) : NotEnd f := by
  unfold checkedBigNumberLine at h
  cases hline : bigNumberLine text with
  | ok n =>
      rw [hline] at h
      cases h
  | error g =>
      rw [hline] at h
      cases h
      exact bigNumberLine_notEnd hline

theorem takes_skipChunk : Takes NotEnd 4 skipChunk :=
  takes_orForm (.pure true)
    ((Gather.takes_dropped (Gather.takes_counted _)).le (by decide) |>.bind_pure
      _) (by decide)

theorem takes_skipChunk? : Takes NotEnd 4 skipChunk? := by
  refine takes_skipChunk.bind fun last => ?_
  split <;> exact .pure _

theorem takes_skipChunks : Takes NotEnd 4 skipChunks :=
  takes_remainingLength.bind fun _ => (takes_skipChunk?.collect _).bind_pure _

theorem takes_skipElement? {item : Read Kind} (h : Takes faults 3 item) :
    Takes NotEnd 3 (skipElement? item) := by
  refine (takes_nested h).bind fun k => ?_
  split <;> exact .pure _

theorem takes_skipElements (a : Aggregate) {item : Read Kind}
    (h : Takes faults 3 item) (count : Length) :
    Takes NotEnd 0 (skipElements a item count) := by
  cases count with
  | known n => exact ((takes_nested h).times _).bind_pure _
  | streamed =>
      exact takes_remainingLength.bind fun _ =>
        (((takes_skipElement? h).collect _).le (Nat.zero_le _)).bind_pure _

theorem looks_skipWithin_of {deep : Bool} {levels : Nat}
    (h : Takes (fun _ => True) 3 (skipWithin deep levels)) :
    Looks (skipWithin deep (levels + 1)) := by
  refine ⟨_, rfl, fun k => ?_⟩
  cases k with
  | aggregate a =>
      refine (takes_header a).bind fun n => ?_
      simp only
      split
      · exact (takes_skipElements a h n).bind_pure _
      · exact .pure _
  | blob role =>
      have hlength : (Kind.blob role).streamHeader.length = 4 := rfl
      refine takes_orForm (k := 0) ?_
        (((Gather.takes_dropped (Gather.takes_counted _)).le
          (by decide)).bind_pure _) (by omega)
      split
      · exact (takes_skipChunks.le (Nat.zero_le _)).bind_pure _
      · exact .pure _
  | chunk =>
      simp only
      split
      · exact (takes_skipChunks.le (by decide)).bind_pure _
      · exact (takes_skipChunk.le (by decide)).bind_pure _
  | simple role =>
      exact (takes_expect _).bind fun _ =>
        (Gather.takes_dropped Gather.takes_line).bind_pure _
  | verbatim =>
      exact ((Gather.takes_dropped Gather.takes_verbatim).le
        (by decide)).bind_pure _
  | bigNumber =>
      exact (takes_lineOf _ fun _ _ => checkedBigNumberLine_notEnd).bind_pure _
  | boolean => exact (takes_boolean.le (by decide)).bind_pure _
  | double => exact takes_double.bind_pure _
  | integer => exact (takes_integer.le (by decide)).bind_pure _
  | null => exact takes_null.bind_pure _
  | close => exact takes_close.bind_pure _

theorem takes_skipWithin (deep : Bool) (levels : Nat) :
    Takes (fun _ => True) 3 (skipWithin deep levels) := by
  induction levels with
  | zero => exact takes_tooDeep.mono (Nat.le_refl 3) fun _ _ => trivial
  | succ levels ih => exact (looks_skipWithin_of ih).takes

theorem looks_skipWithin (deep : Bool) (levels : Nat) :
    Looks (skipWithin deep (levels + 1)) :=
  looks_skipWithin_of (takes_skipWithin deep levels)

/-! ## Where the input ends -/

/-- Nothing is held, and the next call on the feed, interruptions apart, hands
out nothing. -/
def AtEnd (r : Reader) : Prop :=
  r.buffer = [] ∧ (r.feed.afterInterruptions.read r.options.fillSize).1 = .ok []

theorem fill_eq_zero_iff (r : Reader) :
    (fill r).1 = .ok 0 ↔
      (r.feed.afterInterruptions.read r.options.fillSize).1 = .ok [] := by
  unfold fill
  cases r.feed.afterInterruptions.read r.options.fillSize with
  | mk result feed =>
      cases result with
      | ok got => simp
      | error e => simp

/-- A calm feed from which nothing is to come hands out nothing. -/
theorem atEnd_of_calm (h : r.feed.Calm) (hnone : r.remaining = []) :
    r.AtEnd := by
  rw [remaining, List.append_eq_nil_iff] at hnone
  obtain ⟨got, after, hread, -, hunread, -⟩ :=
    Feed.read_of_calm h (Options.fillSize_pos r.options)
  rw [hnone.2, List.append_eq_nil_iff] at hunread
  exact ⟨hnone.1, by rw [hread, hunread.1]⟩

/-- A look for one octet finds none just at the end. -/
theorem lookAhead_one_eq_nil_iff : (lookAhead 1 r).1 = .ok [] ↔ r.AtEnd := by
  rw [AtEnd, ← fill_eq_zero_iff]
  by_cases hempty : r.buffer = []
  · have hlacks : r.buffer.length < 1 := by rw [hempty]; decide
    rw [lookAhead_of_lacks hlacks]
    cases hfill : fill r with
    | mk result after =>
        match result with
        | .error e => simp
        | .ok 0 =>
            have hlength := length_buffer_of_fill hfill
            rw [hempty] at hlength
            simp [hempty, List.eq_nil_of_length_eq_zero hlength]
        | .ok (k + 1) =>
            have hlength := length_buffer_of_fill hfill
            have hsome : after.buffer ≠ [] :=
              fun hnil => by simp [hnil] at hlength
            have hle : 1 ≤ after.buffer.length := List.length_pos_iff.mpr hsome
            simp [lookAhead_of_le hle, hsome]
  · have hle : 1 ≤ r.buffer.length := List.length_pos_iff.mpr hempty
    simp [lookAhead_of_le hle, hempty]

/-- At the end a look ahead leaves the reader that the fill leaves. -/
theorem AtEnd.lookAhead (h : r.AtEnd) :
    lookAhead 1 r = (.ok [], (fill r).2) := by
  have hlacks : r.buffer.length < 1 := by rw [h.1]; decide
  have hnone := lookAhead_one_eq_nil_iff.mpr h
  have hzero := (fill_eq_zero_iff r).mpr h.2
  rw [lookAhead_of_lacks hlacks] at hnone ⊢
  generalize fill r = x at hnone hzero
  obtain ⟨result, after⟩ := x
  cases hzero
  exact Prod.ext hnone rfl

theorem peekLead_endOfInput_iff :
    (peekLead r).1 = .error .endOfInput ↔ r.AtEnd := by
  rw [← lookAhead_one_eq_nil_iff, peekLead, Step.bind_apply]
  cases hlook : lookAhead 1 r with
  | mk result after =>
      cases result with
      | error f => simpa using notEnd_of_lookAhead hlook
      | ok bs =>
          cases bs with
          | nil => simp [Step.fail]
          | cons b bs =>
              cases hk : Kind.ofLead? b <;>
                simp [hk, Step.violate, Step.fail, Step.pure_apply]

theorem AtEnd.peek (h : r.AtEnd) : peek r = (.error .endOfInput, (fill r).2) :=
  Step.bind_of_error (Step.bind_of_ok h.lookAhead)

/-- What is done behind a step that reports no end of input does not show in the
report. -/
theorem bind_endOfInput_iff {β : Type} {m : Read β} {f : β → Read α}
    (hf : ∀ b, Takes NotEnd n (f b)) :
    ((m >>= f) r).1 = .error .endOfInput ↔ (m r).1 = .error .endOfInput := by
  rw [Step.bind_apply]
  cases m r with
  | mk result mid =>
      cases result with
      | error g => simp
      | ok b => simpa using fun hend => (hf b mid).fault _ hend rfl

theorem peek_endOfInput_iff : (peek r).1 = .error .endOfInput ↔ r.AtEnd := by
  rw [← peekLead_endOfInput_iff]
  refine bind_endOfInput_iff (n := 0) fun k =>
    (takes_earlierNull? k).bind fun form? => ?_
  split <;> exact .pure _

/-- Only at the end does a read that looks for a value report the end of
input. -/
theorem Looks.endOfInput_iff {m : Read α} (h : Looks m) :
    (m r).1 = .error .endOfInput ↔ r.AtEnd := by
  obtain ⟨select, rfl, hselect⟩ := h
  rw [bind_endOfInput_iff hselect, peek_endOfInput_iff]

theorem Looks.of_atEnd {m : Read α} (h : Looks m) (hend : r.AtEnd) :
    m r = (.error .endOfInput, (fill r).2) := by
  obtain ⟨select, rfl, -⟩ := h
  exact Step.bind_of_error hend.peek

/-! ## Calls -/

/-- Whether a call takes what comes, of whatever kind, or none at all. -/
def Call.looks : Call → Bool
  | .peek | .value | .skip _ => true
  | _ => false

/-- A typed read that answers has taken three octets, and it never reports the
end of input. -/
theorem takes_make {call : Call} (h : call.looks = false) :
    Gather.Takes NotEnd 3 call.make := by
  cases call with
  | peek => cases h
  | value => cases h
  | skip deep => cases h
  | header a =>
      exact (Gather.takes_ofRead ((takes_header a).le (by decide))).bind_pure _
  | blob role => exact ((Gather.takes_blob role).le (by decide)).bind_pure _
  | chunk => exact (Gather.takes_chunk.le (by decide)).bind_pure _
  | chunks => exact (Gather.takes_chunks.le (by decide)).bind_pure _
  | simple role => exact (Gather.takes_simple role).bind_pure _
  | verbatim => exact (Gather.takes_verbatim.le (by decide)).bind_pure _
  | bigNumber => exact (Gather.takes_ofRead takes_bigNumber).bind_pure _
  | boolean =>
      exact (Gather.takes_ofRead (takes_boolean.le (by decide))).bind_pure _
  | double => exact (Gather.takes_ofRead takes_double).bind_pure _
  | integer =>
      exact (Gather.takes_ofRead (takes_integer.le (by decide))).bind_pure _
  | close => exact (Gather.takes_ofRead takes_close).bind_pure _
  | null => exact (Gather.takes_ofRead takes_null).bind_pure _

/-- A read that is made a call of reports the end of input where it did before,
and leaves the destination alone. -/
theorem ofRead_endOfInput_iff {β : Type} {m : Read α} {f : α → β} {d : Draft}
    (h : ∀ r, (m r).1 = .error .endOfInput ↔ r.AtEnd) :
    ((Gather.ofRead m >>= fun a => pure (f a)) d).1 = .error .endOfInput ↔
      d.reader.AtEnd := by
  rw [← h d.reader, Step.bind_apply, Gather.ofRead]
  cases m d.reader with
  | mk result r => cases result <;> simp [Step.pure_apply]

theorem ofRead_of_atEnd {β : Type} {m : Read α} {f : α → β} {d : Draft}
    (h : m d.reader = (.error .endOfInput, (fill d.reader).2)) :
    (Gather.ofRead m >>= fun a => pure (f a)) d =
      (.error .endOfInput, ⟨(fill d.reader).2, d.gathered⟩) :=
  Step.bind_of_error (Gather.ofRead_of_run h)

theorem looks_value (r : Reader) : ∃ m : Read Value, Looks m ∧ value r = m r :=
  ⟨_, looks_valueWithin r.options.maxDepth, rfl⟩

theorem looks_skip (deep : Bool) (r : Reader) :
    ∃ m : Read Kind, Looks m ∧ skip deep r = m r :=
  ⟨_, looks_skipWithin deep r.options.maxDepth, rfl⟩

theorem make_endOfInput_iff (call : Call) (d : Draft) :
    (call.make d).1 = .error .endOfInput ↔ call.looks = true ∧
      d.reader.AtEnd := by
  cases hlooks : call.looks with
  | false => simpa using fun hend => (takes_make hlooks d).fault _ hend rfl
  | true =>
      rw [eq_self, true_and]
      cases call with
      | peek => exact ofRead_endOfInput_iff fun _ => peek_endOfInput_iff
      | value =>
          refine ofRead_endOfInput_iff (m := value) fun r => ?_
          obtain ⟨m, hm, heq⟩ := looks_value r
          rw [heq, hm.endOfInput_iff]
      | skip deep =>
          refine ofRead_endOfInput_iff (m := skip deep) fun r => ?_
          obtain ⟨m, hm, heq⟩ := looks_skip deep r
          rw [heq, hm.endOfInput_iff]
      | _ => cases hlooks

theorem make_of_atEnd {call : Call} {d : Draft} (h : call.looks = true)
    (hend : d.reader.AtEnd) :
    call.make d = (.error .endOfInput, ⟨(fill d.reader).2, d.gathered⟩) := by
  cases call with
  | peek => exact ofRead_of_atEnd hend.peek
  | value =>
      obtain ⟨m, hm, heq⟩ := looks_value d.reader
      exact ofRead_of_atEnd (heq.trans (hm.of_atEnd hend))
  | skip deep =>
      obtain ⟨m, hm, heq⟩ := looks_skip deep d.reader
      exact ofRead_of_atEnd (heq.trans (hm.of_atEnd hend))
  | _ => cases h

/-- A strict front of a word of the grammar is no word: the reader of the whole
would have stopped there as well. -/
theorem value_fails_on_front {q r after : Reader} {v : Value} (hq : q.feed.Calm)
    (hr : r.feed.Calm) (hlimits : r.options.limits = q.options.limits)
    (hvalue : value q = (.ok v, after)) (hall : after.remaining = [])
    (hfront : r.remaining <+: q.remaining) (hne : r.remaining ≠ q.remaining) :
    ∃ f, (value r).1 = .error f := by
  cases hrun : value r with
  | mk result later =>
      cases result with
      | error f => exact ⟨f, rfl⟩
      | ok u =>
          obtain ⟨w, hw, hderives⟩ :=
            (reads_value.accepts_iff steady_value hr u later.remaining).mp
              ⟨later, hrun, rfl⟩
          obtain ⟨t, ht⟩ := hfront
          -- the whole is answered with the same value, and something stays
          -- behind
          obtain ⟨after', hvalue', hrest⟩ :=
            (reads_value.accepts_iff steady_value hq u
              (later.remaining ++ t)).mpr
              ⟨w, by rw [← ht, hw, List.append_assoc], hlimits ▸ hderives⟩
          rw [hvalue] at hvalue'
          cases hvalue'
          rw [hall] at hrest
          have ht' : t = [] := (List.append_eq_nil_iff.mp hrest.symm).2
          exact absurd (by rw [← ht, ht', List.append_nil]) hne

/-- The end of input is reported where it stands in front of a value and nowhere
else: by the calls that take what comes, just if nothing is held and the first
call on the feed that is not interrupted hands out nothing. Then nothing is
taken. Once a first octet was there to be seen, no call reports the end of
input. And no strict front of a word that is read as a value is read as one,
where both come from calm feeds. -/
theorem endOfInput_iff_atEnd :
    (∀ (call : Call) (d : Draft), (call.make d).1 = .error .endOfInput ↔
      call.looks = true ∧ d.reader.AtEnd) ∧
    (∀ (call : Call) (d after : Draft),
      call.make d = (.error .endOfInput, after) →
      after.reader.remaining = d.reader.remaining ∧
        after.gathered = d.gathered) ∧
    (∀ (call : Call) (d : Draft) (b : UInt8) (seen : Reader),
      lookAhead 1 d.reader = (.ok [b], seen) →
        (call.make d).1 ≠ .error .endOfInput) ∧
    (∀ (q r after : Reader) (v : Value), q.feed.Calm → r.feed.Calm →
      r.options.limits = q.options.limits → value q = (.ok v, after) →
        after.remaining = [] →
      r.remaining <+: q.remaining → r.remaining ≠ q.remaining →
        ∃ f, (value r).1 = .error f) := by
  refine ⟨make_endOfInput_iff, fun call d after h => ?_,
    fun call d b seen hseen h => ?_, ?_⟩
  · obtain ⟨hlooks, hend⟩ := (make_endOfInput_iff call d).mp (by rw [h])
    rw [make_of_atEnd hlooks hend] at h
    cases h
    exact ⟨remaining_fill d.reader, rfl⟩
  · obtain ⟨-, hend⟩ := (make_endOfInput_iff call d).mp h
    rw [hend.lookAhead] at hseen
    cases hseen
  · intro q r after v hq hr hlimits hvalue hall hfront hne
    exact value_fails_on_front hq hr hlimits hvalue hall hfront hne

/-- The input ends for now between two values, in front of a string; and an
array that is streamed breaks off in front of its close. -/
theorem endOfInput_iff_atEnd_stream :
    let closed : Reader := ⟨⟨[.failure ⟨.interrupted, "signal"⟩, .piece [],
      .piece (Bytes.ofChars "+a\r\n".toList)], some 3⟩, {}, []⟩
    let whole : Reader :=
      ⟨.ofBytes (Bytes.ofChars "*?\r\n+a\r\n.\r\n".toList), {}, []⟩
    let broken : Reader :=
      ⟨⟨[.piece (Bytes.ofChars "?\r\n+a\r\n".toList), .piece []], some 1⟩,
        {}, Bytes.ofChars ['*']⟩
    (∃ after, (Call.skip true).make ⟨closed, [7]⟩ =
      (.error .endOfInput, after) ∧
      after.reader.remaining = closed.remaining ∧ after.gathered = [7]) ∧
    (Call.value.make ⟨broken, []⟩).1 ≠ .error .endOfInput ∧
    (∃ after, value whole =
      (.ok (.array [.simple .string (Bytes.ofChars ['a'])]), after)) ∧
    ∃ f, (value broken).1 = .error f := by
  intro closed whole broken
  obtain ⟨hiff, hstays, hseen, hfront⟩ := endOfInput_iff_atEnd
  have hend : closed.AtEnd := ⟨rfl, rfl⟩
  have hclosed := (hiff (.skip true) ⟨closed, [7]⟩).mpr ⟨rfl, hend⟩
  have hcalm : whole.feed.Calm := by decide
  have hderives : Derives whole.options.limits 0 _
      (.array [.simple .string (Bytes.ofChars ['a'])]) :=
    .openSequence (.cons (by decide) (.simple (by decide) (by decide)) .nil)
  obtain ⟨after, hvalue, hall⟩ :=
    (reads_value.accepts_iff steady_value hcalm _ []).mpr
      ⟨_, by decide, hderives⟩
  refine ⟨⟨_, Prod.ext hclosed rfl, hstays _ _ _ (Prod.ext hclosed rfl)⟩, ?_,
    ⟨after, hvalue⟩, ?_⟩
  · exact hseen .value ⟨broken, []⟩ '*'.toUInt8 broken
      (lookAhead_of_le (by decide))
  · exact hfront whole broken after _ hcalm (by decide) rfl hvalue hall
      (by decide) (by decide)

end Reader

end RespWire

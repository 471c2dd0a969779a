import RespWire.Proofs.Lagging

/-!
# Looking for the kind in front of a failure

Looking for the kind of what comes next passes a failure on only where it is met
in front of the first octet. Behind it the look for a null of the earlier
protocol version takes the failure for an answer, and goes on as if there were
no null. The reader has then met the failure already, and holds a part of the
null, or of what starts like one.

`Missed` is that state. What the value turns out to be is decided there by the
octets that come behind the failure: if they are the rest of the null, it has
been overlooked, and if they are not, nothing has been lost but a look ahead.
-/

namespace RespWire

/-- The octets of a form that has come in part; the rest is behind a failure. -/
def Splits (form front back : Bytes) : Prop :=
  ∃ u v, form = u ++ v ∧ u ≠ [] ∧ v ≠ [] ∧ u <:+ front ∧ v <+: back

theorem Kind.array_or_blobString {k : Kind} {form : Bytes}
    (h : k.earlierNull? = some form) :
    k = .array ∨ k = .blobString := by
  unfold Kind.earlierNull? at h
  split at h
  · exact Or.inl rfl
  · exact Or.inr rfl
  · cases h

namespace Reader

open Feed (octetsOf)
open Step (Never Tracked Tracks)

variable {α : Type} {e : IoFailure} {front : Bytes} {later : List Arrival}
  {s t c : Reader} {k : Kind} {form : Bytes}

/-! ## Looking for the kind -/

theorem Before.attempt (h : Before e front later s t) (n : Nat) :
    (∃ bs s' t', (Reader.lookAhead n).attempt s = (.ok (some bs), s') ∧
      (Reader.lookAhead n).attempt t = (.ok (some bs), t') ∧
        Before e front later s' t' ∧
      bs = t'.buffer.take n ∧ t.buffer <+: t'.buffer) ∨
    ∃ c, (Reader.lookAhead n).attempt t = (.ok none, c) ∧
      Reader.lookAhead n s = Reader.lookAhead n c ∧ Resumed front later c ∧
      t.buffer <+: c.buffer ∧ c.buffer.length < n := by
  unfold Step.attempt
  rcases h.lookAhead n with ⟨bs, s', t', hs, ht, h', hbs⟩ | ⟨c, hc, hmissed⟩
  · have hgrows := prefix_buffer_of_lookAhead n t
    rw [ht] at hgrows
    exact Or.inl ⟨bs, s', t', by rw [hs], by rw [ht], h', hbs, hgrows⟩
  · exact Or.inr ⟨c, by rw [hc], hmissed⟩

/-- Readers of data for which some of the look for a null is the same find the
same. -/
theorem earlierNull?_congr (hs : s.feed.DataOnly) (hc : c.feed.DataOnly)
    {n : Nat} (hsame : lookAhead n s = lookAhead n c)
    (hn : n ≤ k.reach s.remaining) :
    earlierNull? k s = earlierNull? k c := by
  have hrem : s.remaining = c.remaining := by
    rw [← remaining_lookAhead n s, hsame, remaining_lookAhead]
  rw [earlierNull?_of_dataOnly hs, earlierNull?_of_dataOnly hc, ← hrem,
    ← lookAhead_lookAhead hs hn, hsame, lookAhead_lookAhead hc hn]

/-- A look for a null of the earlier protocol version in front of a failure
finds the same. Or it meets the failure, finds none, and leaves a reader from
which the look without the failure goes on. -/
inductive SeeksNull (e : IoFailure) (front : Bytes) (later : List Arrival)
    (k : Kind) (s t : Reader) : Prop where
  | same (form? : Option Bytes) (s' t' : Reader)
      (hs : earlierNull? k s = (.ok form?, s'))
      (ht : earlierNull? k t = (.ok form?, t')) (h : Before e front later s' t')
      (hheld : ∀ form,
        form? = some form → k.earlierNull? = some form ∧ form <+: t'.buffer) :
      SeeksNull e front later k s t
  | missed (form : Bytes) (c : Reader) (hform : k.earlierNull? = some form)
      (ht : earlierNull? k t = (.ok none, c))
        (hs : earlierNull? k s = earlierNull? k c)
      (hresumed : Resumed front later c) (hgrows : t.buffer <+: c.buffer)
      (hshort : c.buffer.length < form.length) : SeeksNull e front later k s t

/-- Behind a minus sign there is a second look, as far as the null goes. -/
theorem Before.earlierNull?_of_minus {s1 t1 : Reader} {x : UInt8}
    (h : Before e front later s t) (hform : k.earlierNull? = some form)
    (hs : (Reader.lookAhead 2).attempt s = (.ok (some [x, Decimal.minus]), s1))
    (ht : (Reader.lookAhead 2).attempt t = (.ok (some [x, Decimal.minus]), t1))
    (h1 : Before e front later s1 t1) (hgrows : t.buffer <+: t1.buffer) :
    SeeksNull e front later k s t := by
  have hlength := Kind.length_of_earlierNull? hform
  obtain ⟨hseen, hfirst⟩ :=
    Prod.mk.inj ((attempt_eq h.data.calm 2).symm.trans hs)
  have hbs : s.remaining.take 2 = [x, Decimal.minus] :=
    Option.some.inj (Except.ok.inj hseen)
  have hs := Reader.earlierNull?_of_minus hform hs
  have ht := Reader.earlierNull?_of_minus hform ht
  rcases h1.attempt form.length with
    ⟨bs, s2, t2, hs2, ht2, h2, htake, -⟩ |
      ⟨c, hc, hsame, hresumed, hheld, hshort⟩
  · refine .same (if some bs = some form then some form else none) s2 t2
      (hs.trans (Step.bind_of_ok hs2))
      (ht.trans (Step.bind_of_ok ht2)) h2 fun found hfound => ?_
    split at hfound
    · next heq =>
        cases hfound
        refine ⟨hform, ?_⟩
        rw [← Option.some.inj heq, htake]
        exact List.take_prefix _ _
    · cases hfound
  · -- the two looks without the failure are the one from behind it
    rw [← hfirst, lookAhead_lookAhead h.data (by omega)] at hsame
    have hreach := Nat.le_of_eq (Kind.reach_of_minus hform hbs).symm
    exact .missed form c hform (ht.trans (Step.bind_of_ok hc))
      (earlierNull?_congr h.data hresumed.data hsame hreach) hresumed
        (hgrows.trans hheld) hshort

theorem Before.earlierNull? (h : Before e front later s t) (k : Kind) :
    SeeksNull e front later k s t := by
  cases hform : k.earlierNull? with
  | none =>
      have hnone : ∀ r, Reader.earlierNull? k r = (.ok none, r) := fun r => by
        simp only [Reader.earlierNull?, hform]
        rfl
      exact .same none s t (hnone s) (hnone t) h fun _ hsome => by cases hsome
  | some form =>
      rcases h.attempt 2 with
        ⟨bs, s1, t1, hs, ht, h1, -, hgrows⟩ |
          ⟨c, hc, hsame, hresumed, hheld, hshort⟩
      · by_cases hminus : ∃ x, bs = [x, Decimal.minus]
        · obtain ⟨x, rfl⟩ := hminus
          exact h.earlierNull?_of_minus hform hs ht h1 hgrows
        · have hother : ∀ x, bs ≠ [x, Decimal.minus] := not_exists.mp hminus
          exact .same none s1 t1 (earlierNull?_of_other hform hother hs)
            (earlierNull?_of_other hform hother ht) h1 fun _ hsome => by
              cases hsome
      · have hlength := Kind.length_of_earlierNull? hform
        have hreach : 2 ≤ k.reach s.remaining := by
          simp only [Kind.reach, hform]
          split <;> omega
        have ht : Reader.earlierNull? k t = (.ok none, c) := by
          simp only [Reader.earlierNull?, hform]
          exact Step.bind_of_ok hc
        exact .missed form c hform ht
          (earlierNull?_congr h.data hresumed.data hsame hreach)
          hresumed hheld (by omega)

/-- What is held where a look for the kind has found a null. -/
def HoldsNull (r : Reader) : Prop :=
  ∃ k, Leads k r ∧ ∀ form, k.earlierNull? = some form → form <+: r.buffer

/-- A reader that went on behind the failure with a part of a null, or of what
starts like one. -/
structure Missed (front : Bytes) (later : List Arrival) (k : Kind)
    (form : Bytes) (r : Reader) :
    Prop where
  resumed : Resumed front later r
  earlier : k.earlierNull? = some form
  leads : Leads k r
  short : r.buffer.length < form.length

/-- The kind found is the same, or the failure is met, in front of the value or
in the middle of a null. -/
theorem Before.peek (h : Before e front later s t) :
    Tracked (· = .io e)
      (fun k s' t' => Before e front later s' t' ∧ (k = .null → HoldsNull t'))
        (peek s) (peek t) ∨
      ∃ k form c, peek t = (.ok k, c) ∧ peek s = peek c ∧
        Missed front later k form c := by
  rcases h.peekLead with ⟨k, s1, t1, hs, ht, h1, hlead⟩ | ⟨f, c, ht, hf⟩
  · rcases h1.earlierNull? k with
      ⟨form?, s2, t2, hs2, ht2, h2, hheld⟩ |
        ⟨form, c, hform, hc, hsame, hres, hgrows, hshort⟩
    · left
      have hs :
          Reader.peek s = (.ok (if form?.isSome then .null else k), s2) := by
        rw [Reader.peek, Step.bind_of_ok hs, Step.bind_of_ok hs2]
        split <;> rfl
      have ht :
          Reader.peek t = (.ok (if form?.isSome then .null else k), t2) := by
        rw [Reader.peek, Step.bind_of_ok ht, Step.bind_of_ok ht2]
        split <;> rfl
      rw [hs, ht]
      refine .ok ⟨h2, fun hnull => ?_⟩
      cases form? with
      | none =>
          obtain rfl : k = .null := hnull
          obtain rfl : t1 = t2 := congrArg Prod.snd ht2
          exact ⟨.null, hlead, fun _ hform => by cases hform⟩
      | some form =>
          obtain ⟨hform, more, hmore⟩ := hheld form rfl
          refine ⟨k, ?_, fun form' hform' => ?_⟩
          · rw [Leads, ← hmore, Kind.eq_of_earlierNull? hform]
            rfl
          · obtain rfl := Option.some.inj (hform.symm.trans hform')
            exact ⟨more, hmore⟩
    · right
      have hleads := hlead.of_prefix hgrows
      refine ⟨k, form, c, ?_, ?_, hres, hform, hleads, hshort⟩
      · rw [Reader.peek, Step.bind_of_ok ht, Step.bind_of_ok hc]
        rfl
      · rw [Reader.peek, Step.bind_of_ok hs, Step.bind_of_ok hleads.peekLead,
          Step.bind_apply, Step.bind_apply, hsame]
  · left
    have ht : Reader.peek t = (.error f, c) := Step.bind_of_error ht
    rw [ht]
    rcases hf with rfl | ⟨s', hs⟩
    · exact .stopped rfl
    · have hs : Reader.peek s = (.error f, s') := Step.bind_of_error hs
      rw [hs]
      exact .error

/-! ## Behind a part of a null -/

/-- If the rest of the null is there, the failure has split it. -/
theorem Missed.splits (h : Missed front later k form c)
    (hnull : form <+: c.remaining) :
    Splits form front (later.flatMap octetsOf) := by
  obtain ⟨v, hv⟩ : c.buffer <+: form :=
    List.prefix_of_prefix_length_le (List.prefix_append _ _) hnull
      (Nat.le_of_lt h.short)
  refine ⟨c.buffer, v, hv.symm, fun hnil => ?_, fun hnil => ?_,
    h.resumed.front, ?_⟩
  · have := h.leads.ne_nil
    rw [hnil] at this
    cases this
  · have := h.short
    rw [← hv, hnil, List.append_nil] at this
    exact Nat.lt_irrefl _ this
  · rw [← hv, Reader.remaining, List.prefix_append_right_inj, Feed.unread,
      h.resumed.arrivals] at hnull
    exact hnull

/-- If it is not, the look for it has only gone ahead. -/
theorem Missed.overlooks (h : Missed front later k form c) :
    Overlooks k (Reader.lookAhead (k.reach c.remaining) c).2 c := by
  by_cases hminus : ∃ x, c.remaining.take 2 = [x, Decimal.minus]
  · obtain ⟨x, hx⟩ := hminus
    have hlength := Kind.length_of_earlierNull? h.earlier
    -- five octets have been looked at, more than the header of a stream has
    rw [Kind.reach_of_minus h.earlier hx]
    refine Or.inr ⟨⟨h.resumed.data, 5, Nat.le_refl 5, by rw [hlength]⟩,
      c.remaining.drop 2, ?_⟩
    have hsplit := List.take_append_drop 2 c.remaining
    rw [hx] at hsplit
    have hlead : c.remaining.head? = some k.lead := by
      rw [Reader.remaining, List.head?_append, show c.buffer.head? = some k.lead
        from h.leads]
      rfl
    rw [← hsplit] at hlead
    rw [← hsplit, Option.some.inj hlead]
    rfl
  · rw [Kind.reach_of_other h.earlier (not_exists.mp hminus)]
    exact Or.inl ⟨h.resumed.data, 2, by omega, rfl⟩

theorem Missed.tracked {f : Kind → Read α} {stops : Fault → Prop}
    {R : α → Reader → Reader → Prop} (h : Missed front later k form c)
    (hmeets : Tracks Never (Overlooks k) (f k) fun _ => Eq)
    (hnull : form <+: c.remaining →
      ∃ fault, stops fault ∧ (f k c).1 = .error fault) :
    Tracked stops R ((Reader.peek >>= f) c) (f k c) := by
  by_cases hform : form <+: c.remaining
  · obtain ⟨fault, hstops, herror⟩ := hnull hform
    rw [show f k c = (.error fault, (f k c).2) from Prod.ext herror rfl]
    exact .stopped hstops
  · have hpeek := h.leads.peek h.resumed.data
    rw [h.earlier, Option.filter_some, if_neg (by simpa using hform)] at hpeek
    rw [Step.bind_of_ok hpeek]
    exact (hmeets _ _ h.overlooks).of_met

end Reader

end RespWire

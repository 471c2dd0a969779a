import RespWire.Proofs.Dispatching

/-!
# Asking for the wrong kind

A typed read asks for one kind of value. Where that kind does not come, the
caller is told what came instead, and nothing is lost: the octets to come and
the destination are as they were, and the read that asks for what did come
answers as if nothing had happened. Where the kind does come, no read complains
of kinds any more, and so reads that look for the kind first have nothing to
complain of.

What was looked at for the failed read is held from then on. One thing depends
on what is held: a line that is too large is given up at the end of the portion
that exceeds the limit, so it may be given up at another place.
-/

namespace RespWire

namespace Reader

variable {d : Draft}

/-- A call that is told what came instead of the kind it asked for: only looking
ahead has happened, and whatever kind is asked for next has the outcome that it
would have had, but for the octet at which a line that is too large is left
off. -/
structure TurnedAway (call : Call) (d : Draft) (f : Fault) (after : Reader) :
    Prop where
  run : call.make d = (.error f, ⟨after, d.gathered⟩)
  remaining : after.remaining = d.reader.remaining
  next : ∀ (next : Call) (got : Kind), next.wants = some got →
    SameOutcome got d.reader.remaining (next.make d)
      (next.make ⟨after, d.gathered⟩)

theorem turnedAway_of_refusal {call : Call} {k : Kind}
    (hcall : call.wants = some k) (h : d.reader.feed.Calm) {f : Fault}
    (hf : k.refusal? d.reader.remaining = some f) :
    ∃ after, TurnedAway call d f after := by
  obtain ⟨after, hrun, hseen⟩ := make_of_refusal hcall h hf
  exact ⟨after, hrun, hseen.ahead.remaining,
    fun _ _ hnext => make_of_seen hnext hseen h⟩

theorem chunks_of_kindFault {call : Call} {k : Kind}
    (hcall : call.wants = some k) (h : d.reader.feed.Calm)
    (hk : k.refusal? d.reader.remaining = none) {f : Fault}
    (hf : (call.make d).1 = .error f) (hkind : f.AboutKind) :
    call = .chunks ∧ ∃ mid, Gather.chunk d = (.ok false, mid) := by
  by_cases hchunks : call = .chunks
  · subst hchunks
    cases hcall
    obtain ⟨s, hs⟩ :=
      Kind.mismatch?_eq_none_iff.mp (by simpa [Kind.refusal?] using hk)
    have hrun : (Gather.chunks d).1 = .error f :=
      congrArg Prod.fst (Step.eq_error_of_bind_pure (Prod.ext hf rfl))
    exact ⟨rfl, Gather.chunk_of_chunks h hs hrun hkind⟩
  · exact absurd hkind (kindFits_make hcall hchunks h hk f hf)

theorem make_null_of_nullAhead? (h : d.reader.feed.Calm) {form : Bytes}
    (hform : Kind.nullAhead? d.reader.remaining = some form) :
    ∃ after, Call.null.make d = (.ok .done, ⟨after, d.gathered⟩) ∧
      after.remaining = d.reader.remaining.drop form.length := by
  obtain ⟨after, hrun, -, hrest⟩ := null_of_nullAhead? h hform
  exact ⟨after, Step.bind_of_ok (Gather.ofRead_of_run hrun), hrest⟩

theorem breaksRun_of_make {call : Call}
    (hcall : call = .value ∨ call = .skip true) (h : d.reader.feed.Calm)
    {wanted got : Kind} {after : Draft}
    (hrun : call.make d =
      (.error (.violation (.unexpectedKind wanted got)), after)) :
    BreaksRun d.reader.options.limits d.reader.remaining wanted got
      after.reader.remaining := by
  obtain rfl | rfl := hcall
  · exact breaksRun_of_value h
      (Gather.eq_error_of_ofRead (Step.eq_error_of_bind_pure hrun))
  · exact breaksRun_of_skip h
      (Gather.eq_error_of_ofRead (Step.eq_error_of_bind_pure hrun))

/-- A typed read that asks for a kind which does not come is told what came
(nothing, no first octet of any kind, or another kind) and changes nothing that
matters; the nulls of the earlier protocol version pass for nulls. Where the
kind comes, there is no complaint about kinds, but of all the chunks of a stream
behind one that is not the last. Reading and passing over whole values complain
of an unexpected kind only where a run of chunks breaks off. -/
theorem make_wrongKind (h : d.reader.feed.Calm) :
    (∀ (call : Call) (k : Kind), call.wants = some k →
      (∀ f, k.refusal? d.reader.remaining = some f →
        ∃ after, TurnedAway call d f after) ∧
      (k.refusal? d.reader.remaining = none →
        ∀ f, (call.make d).1 = .error f → f.AboutKind →
        call = .chunks ∧ ∃ mid, Gather.chunk d = (.ok false, mid))) ∧
    (∀ form, Kind.nullAhead? d.reader.remaining = some form →
      ∃ after, Call.null.make d = (.ok .done, ⟨after, d.gathered⟩) ∧
        after.remaining = d.reader.remaining.drop form.length) ∧
    (∀ call : Call, call = .value ∨ call = .skip true → ∀ wanted got after,
      call.make d = (.error (.violation (.unexpectedKind wanted got)), after) →
        BreaksRun d.reader.options.limits d.reader.remaining wanted got
          after.reader.remaining) :=
  ⟨fun _ _ hcall => ⟨fun _ => turnedAway_of_refusal hcall h,
      fun hk _ => chunks_of_kindFault hcall h hk⟩,
    fun _ => make_null_of_nullAhead? h, fun _ hcall _ _ _ =>
      breaksRun_of_make hcall h⟩

/-- An array is asked for where a string is streamed that breaks off behind a
chunk. -/
theorem make_wrongKind_stream :
    let d : Draft := ⟨⟨⟨[.piece (Bytes.ofChars "?\r\n;1\r".toList),
      .piece (Bytes.ofChars "\na\r\n+x\r\n".toList)], some 2⟩, {},
        Bytes.ofChars ['$']⟩, []⟩
    d.reader.feed.Calm ∧
    (∃ after, TurnedAway (.header (.sequence .array)) d
      (.violation (.unexpectedKind (.aggregate (.sequence .array))
        (.blob .string))) after) ∧
    ∃ after, Call.value.make d =
        (.error (.violation (.unexpectedKind .chunk (.simple .string))),
          after) ∧
      BreaksRun d.reader.options.limits d.reader.remaining .chunk
        (.simple .string) after.reader.remaining := by
  intro d
  have hcalm : d.reader.feed.Calm := by decide
  obtain ⟨hkinds, -, hwhole⟩ := make_wrongKind hcalm
  refine ⟨hcalm, (hkinds (.header (.sequence .array)) _ rfl).1 _ (by decide),
    ?_⟩
  have hvalue : ((Call.value.make d).1.map fun _ => ()) =
      .error (.violation (.unexpectedKind .chunk (.simple .string))) := by
        decide +kernel
  cases hrun : Call.value.make d with
  | mk result after =>
      rw [hrun] at hvalue
      cases result with
      | ok a => cases hvalue
      | error f =>
          cases hvalue
          exact ⟨after, rfl, hwhole .value (.inl rfl) _ _ _ hrun⟩

/-- A line that is too large is left off at another octet when an array has been
asked for in front of it: the look for the header of a stream has let the second
piece arrive. -/
theorem line_left_elsewhere :
    let d : Draft := ⟨⟨⟨[.piece (Bytes.ofChars "+x".toList),
      .piece (Bytes.ofChars "yz1234\r\n".toList)], none⟩, { sizeLimit := 1 },
        []⟩, []⟩
    let tried := (Call.header (.sequence .array)).make d
    d.reader.feed.Calm ∧
      (tried.1.map fun _ => ()) =
        .error
          (.violation (.unexpectedKind (.aggregate (.sequence .array))
            (.simple .string))) ∧
      tried.2.reader.remaining = d.reader.remaining ∧
        tried.2.gathered = d.gathered ∧
      ((Call.simple .string).make tried.2).2.reader.remaining ≠
        ((Call.simple .string).make d).2.reader.remaining := by
  decide +kernel

end Reader

end RespWire

import RespWire.Proofs.KindFaults
import RespWire.Proofs.Skipping

/-!
# Reads that look before they ask

Whole values are read and passed over by looking for the kind that comes, and
then asking for that one. So it always comes, and no complaint about an
unexpected kind is left but one: behind the header of a streamed blob, and
behind every chunk that is not the last, a chunk is asked for and nobody has
looked. `BreaksRun` is what is found there.

The proof goes by the levels, as reading does. It is about readers that hold
everything, where a part that is read leaves a reader of the same sort.
-/

namespace RespWire

/-- Octets at the end of which a run of chunks is left open: a header that
streams a blob, or a chunk that is not the last, comes last. -/
def InRun (l : Limits) (u : Bytes) : Prop :=
  ∃ v w, u = v ++ w ∧ ((∃ role, w = (Kind.blob role).streamHeader) ∨
    ∃ octets, Counted l .chunk w octets ∧ ¬ Marker.lastChunk <+: w)

theorem InRun.append {l : Limits} {u : Bytes} (h : InRun l u) (t : Bytes) :
    InRun l (t ++ u) := by
  obtain ⟨v, w, rfl, hlast⟩ := h
  exact ⟨t ++ v, w, (List.append_assoc ..).symm, hlast⟩

theorem inRun_streamHeader (l : Limits) (role : Role) :
    InRun l (Kind.blob role).streamHeader :=
  ⟨[], _, rfl, .inl ⟨role, rfl⟩⟩

/-- Another kind comes where a chunk is wanted. -/
structure OtherThanChunk (wanted got : Kind) (after : Bytes) : Prop where
  wanted : wanted = .chunk
  other : got ≠ .chunk
  comes : ∃ rest, after = got.lead :: rest

/-- In front of `after` a run of chunks is left open, and another kind comes. -/
def BreaksRun (l : Limits) (before : Bytes) (wanted got : Kind)
    (after : Bytes) : Prop :=
  OtherThanChunk wanted got after ∧ ∃ u, before = u ++ after ∧ InRun l u

theorem BreaksRun.append {l : Limits} {before after : Bytes} {wanted got : Kind}
    (h : BreaksRun l before wanted got after) (t : Bytes) :
    BreaksRun l (t ++ before) wanted got after := by
  obtain ⟨hother, u, rfl, hu⟩ := h
  exact ⟨hother, t ++ u, (List.append_assoc ..).symm, hu.append t⟩

/-- A loop over chunks in front of `s` meets another kind, at once or behind a
chunk. -/
def MeetsOther (l : Limits) (s : Bytes) (wanted got : Kind) (after : Bytes) :
    Prop :=
  OtherThanChunk wanted got after ∧ ∃ u, s = u ++ after ∧ (u = [] ∨ InRun l u)

theorem MeetsOther.breaksRun {l : Limits} {s u after : Bytes}
    {wanted got : Kind} (h : MeetsOther l s wanted got after) (hu : InRun l u) :
    BreaksRun l (u ++ s) wanted got after := by
  obtain ⟨hother, v, rfl, rfl | hv⟩ := h
  · exact ⟨hother, u, rfl, hu⟩
  · exact ⟨hother, u ++ v, (List.append_assoc ..).symm, hv.append u⟩

/-- A loop that starts with a chunk gets past it. -/
theorem MeetsOther.breaksRun_of_lead {l : Limits} {s after : Bytes}
    {wanted got : Kind}
    (h : MeetsOther l (Kind.chunk.lead :: s) wanted got after) :
    BreaksRun l (Kind.chunk.lead :: s) wanted got after := by
  obtain ⟨hother, v, hs, rfl | hv⟩ := h
  · obtain ⟨rest, hrest⟩ := hother.comes
    have hlead : Kind.chunk.lead = got.lead :=
      (List.cons.inj (hs.trans hrest)).1
    refine absurd ?_ hother.other
    have hkind := Kind.ofLead?_lead got
    rw [← hlead, Kind.ofLead?_lead] at hkind
    exact (Option.some.inj hkind).symm
  · exact ⟨hother, v, hs, hv⟩

namespace Kind

variable {k wanted got : Kind} {s : Bytes}

theorem mismatch?_eq_unexpectedKind
    (h : k.mismatch? s = some (.violation (.unexpectedKind wanted got))) :
    wanted = k ∧ got ≠ k ∧ ∃ rest, s = got.lead :: rest := by
  cases s with
  | nil => cases h
  | cons b rest =>
      simp only [mismatch?] at h
      cases hlead : ofLead? b with
      | none => simp [hlead] at h
      | some came =>
          simp only [hlead] at h
          split at h
          · cases h
          · next hother =>
              cases h
              exact ⟨rfl, hother, rest, by rw [lead_of_ofLead? hlead]⟩

/-- The kind that is seen in front comes, a null in one of its forms. -/
theorem refusal?_of_ofFront (h : ofFront s = .ok k) : k.refusal? s = none := by
  cases s with
  | nil => cases h
  | cons b rest =>
      rw [ofFront] at h
      cases hlead : ofLead? b with
      | none =>
          rw [hlead] at h
          cases h
      | some came =>
          simp only [hlead] at h
          split at h
          · next hform =>
              cases h
              refine if_pos ⟨rfl, ?_⟩
              cases hkind : came.earlierNull? with
              | none => simp [hkind] at hform
              | some form => simpa [nullAhead?, hlead, hkind] using hform
          · cases h
            rw [refusal?]
            split
            · rfl
            · exact mismatch?_eq_none_iff.mpr
                ⟨rest, by rw [lead_of_ofLead? hlead]⟩

theorem lead_of_ofFront (h : ofFront s = .ok k) (hk : k ≠ .null) :
    ∃ rest, s = k.lead :: rest := by
  refine mismatch?_eq_none_iff.mp ?_
  simpa [refusal?, hk] using refusal?_of_ofFront h

theorem ofFront_ne_unexpectedKind :
    ofFront s ≠ .error (.violation (.unexpectedKind wanted got)) := by
  intro h
  cases s with
  | nil => cases h
  | cons b rest =>
      rw [ofFront] at h
      split at h
      · cases h
      · split at h <;> cases h

end Kind

namespace Step

variable {σ α β : Type} {hold : Bytes → Bytes → σ}

/-- What makes an answer of an answer does not fail. -/
theorem eq_error_of_bind_pure {m : Step σ α} {f : α → β} {s after : σ}
    {e : Fault} (h : (m >>= fun a => pure (f a)) s = (.error e, after)) :
    m s = (.error e, after) := by
  rw [bind_apply] at h
  cases hm : m s with
  | mk result mid =>
      rw [hm] at h
      cases result with
      | error e' =>
          cases h
          rfl
      | ok a => cases h

/-- A loop that fails does so in one of its turns, behind the words of those
before. -/
theorem Accepts.collect_error {m : Step σ (Option α)}
    {Last : Bytes → Bytes → Prop} {L : Bytes → α → Bytes → Prop}
    (hm : Accepts hold m fun w found p =>
      (found = none ∧ Last w p) ∨ ∃ a, found = some a ∧ L w a p)
    (budget : Nat) (s g : Bytes) {e : Fault} {after : σ}
    (h : m.collect budget (hold s g) = (.error e, after)) :
    ∃ u rest g', s = u ++ rest ∧ m (hold rest g') = (.error e, after) ∧
      (u = [] ∨ ∃ v w a p, u = v ++ w ∧ L w a p) := by
  induction budget generalizing s g with
  | zero => cases h
  | succ budget ih =>
      rw [Step.collect] at h
      cases hturn : m (hold s g) with
      | mk result mid =>
          cases result with
          | error f =>
              rw [bind_of_error hturn] at h
              cases h
              exact ⟨[], s, g, rfl, hturn, .inl rfl⟩
          | ok found =>
              rw [bind_of_ok hturn] at h
              obtain ⟨t, s', p, rfl, rfl, ⟨rfl, -⟩ | ⟨a, rfl, hL⟩⟩ :=
                (hm s g found mid).mp hturn
              · cases h
              · obtain ⟨u, rest, g', rfl, hfail, hu⟩ :=
                  ih s' (g ++ p) (eq_error_of_bind_pure h)
                refine ⟨t ++ u, rest, g', (List.append_assoc ..).symm, hfail,
                  .inr ?_⟩
                obtain rfl | ⟨v, w, b, q, rfl, hw⟩ := hu
                · exact ⟨[], t, a, p, List.append_nil t, hL⟩
                · exact ⟨t ++ v, w, b, q, (List.append_assoc ..).symm, hw⟩

end Step

/-! ## Runs of chunks -/

namespace Gather

open Reader (holding calm_holding remaining_holding)

variable {o : Options} {d after : Draft} {wanted got : Kind}

theorem eq_error_of_ofRead {α : Type} {m : Read α} {e : Fault}
    (h : ofRead m d = (.error e, after)) :
    m d.reader = (.error e, after.reader) := by
  cases hm : m d.reader with
  | mk result mid =>
      rw [ofRead_of_run hm] at h
      cases h
      rfl

theorem eq_error_of_atomically {α : Type} {m : Gather α} {e : Fault}
    (h : atomically m d = (.error e, after)) :
    ∃ mid, m d = (.error e, mid) ∧ after.reader = mid.reader := by
  rw [atomically] at h
  cases hm : m d with
  | mk result mid =>
      rw [hm] at h
      cases result with
      | error e' =>
          cases h
          exact ⟨mid, rfl, rfl⟩
      | ok a => cases h

theorem eq_error_of_collected {α : Type} {m : Gather α} {r later : Reader}
    {e : Fault} (h : m.collected r = (.error e, later)) :
    ∃ mid, m ⟨r, []⟩ = (.error e, mid) ∧ later = mid.reader := by
  rw [collected] at h
  cases hm : m ⟨r, []⟩ with
  | mk result mid =>
      rw [hm] at h
      cases result with
      | error e' =>
          cases h
          exact ⟨mid, rfl, rfl⟩
      | ok a => cases h

theorem kindFits_collected {α : Type} {m : Gather α} {r : Reader}
    (h : KindFits (m ⟨r, []⟩).1) :
    KindFits (m.collected r).1 := by
  intro f hf
  obtain ⟨mid, hrun, -⟩ := eq_error_of_collected (Prod.ext hf rfl)
  rw [hrun] at h
  exact h f rfl

theorem kindFits_dropped {α : Type} {m : Gather α} {r : Reader}
    (h : KindFits (m ⟨r, []⟩).1) :
    KindFits (m.dropped r).1 :=
  kindFits_bind_pure (kindFits_collected h) _

theorem otherThanChunk_of_chunk (h : d.reader.feed.Calm)
    (hrun : chunk d =
      (.error (.violation (.unexpectedKind wanted got)), after)) :
    OtherThanChunk wanted got d.reader.remaining ∧
      after.reader.remaining = d.reader.remaining := by
  cases hlead : Kind.chunk.mismatch? d.reader.remaining with
  | none =>
      obtain ⟨s, hs⟩ := Kind.mismatch?_eq_none_iff.mp hlead
      have hfits := kindFits_chunk h hs
      rw [hrun] at hfits
      exact absurd trivial (hfits _ rfl)
  | some f =>
      obtain ⟨later, hdeclined, hseen⟩ := declines_chunk d f h hlead
      cases hrun.symm.trans hdeclined
      obtain ⟨hwanted, hother, hcomes⟩ := Kind.mismatch?_eq_unexpectedKind hlead
      exact ⟨⟨hwanted, hother, hcomes⟩, hseen.ahead.remaining⟩

/-- In a turn that is not the first, something has been read of the run. -/
theorem meetsOther_of_chunk {u rest g : Bytes}
    (hrun : chunk ⟨holding o rest, g⟩ =
      (.error (.violation (.unexpectedKind wanted got)), after))
    (hu : u = [] ∨ InRun o.limits u) :
    MeetsOther o.limits (u ++ rest) wanted got after.reader.remaining := by
  obtain ⟨hother, hafter⟩ := otherThanChunk_of_chunk (calm_holding rest) hrun
  simp only [remaining_holding] at hother hafter
  rw [hafter]
  exact ⟨hother, u, rfl, hu⟩

theorem meetsOther_of_collect {budget : Nat} {s g : Bytes}
    (hrun : chunk?.collect budget ⟨holding o s, g⟩ =
      (.error (.violation (.unexpectedKind wanted got)), after)) :
    MeetsOther o.limits s wanted got after.reader.remaining := by
  obtain ⟨u, rest, g', rfl, hturn, hu⟩ :=
    Step.Accepts.collect_error gathers_chunk? budget s g hrun
  refine meetsOther_of_chunk (g := g') ?_ (hu.imp_right ?_)
  · rw [chunk?, Step.bind_apply] at hturn
    cases hchunk : chunk ⟨holding o rest, g'⟩ with
    | mk result mid =>
        rw [hchunk] at hturn
        cases result with
        | error e =>
            cases hturn
            rfl
        | ok last => cases last <;> cases hturn
  · rintro ⟨v, w, -, octets, rfl, hw⟩
    exact ⟨v, w, rfl, .inr ⟨octets, hw⟩⟩

theorem meetsOther_of_chunks {s g : Bytes}
    (hrun : chunks ⟨holding o s, g⟩ =
      (.error (.violation (.unexpectedKind wanted got)), after)) :
    MeetsOther o.limits s wanted got after.reader.remaining := by
  obtain ⟨mid, hloop, hreader⟩ := eq_error_of_atomically hrun
  have hcount : ofRead Reader.remainingLength ⟨holding o s, g⟩ = _ :=
    ofRead_of_run (Reader.remainingLength_holding s)
  rw [hreader]
  exact meetsOther_of_collect
    (Step.eq_error_of_bind_pure ((Step.bind_of_ok hcount).symm.trans hloop))

end Gather

namespace Reader

variable {o : Options} {α β : Type} {s : Bytes}

/-- A chunk is passed over as it is read. -/
theorem skipChunk_run (r : Reader) :
    skipChunk r =
      ((Gather.chunk ⟨r, []⟩).1, (Gather.chunk ⟨r, []⟩).2.reader) := by
  rw [skipChunk, Gather.chunk, Step.bind_apply, Step.bind_apply]
  cases hform : takeForm Marker.lastChunk r with
  | mk result mid =>
      have hlift : liftM (takeForm Marker.lastChunk) =
          Gather.ofRead (takeForm _) := rfl
      rw [hlift, Gather.ofRead_of_run (d := ⟨r, []⟩) hform]
      cases result with
      | error e => rfl
      | ok found =>
          cases found with
          | true => rfl
          | false =>
              simp only [Bool.false_eq_true, if_false, Step.bind_apply,
                Gather.dropped, Gather.collected, Gather.atomically]
              cases Gather.counted .chunk ⟨mid, []⟩ with
              | mk result after => cases result <;> rfl

theorem meetsOther_of_collect {budget : Nat} {wanted got : Kind}
    {after : Reader} (hrun : skipChunk?.collect budget (holding o s) =
      (.error (.violation (.unexpectedKind wanted got)), after)) :
    MeetsOther o.limits s wanted got after.remaining := by
  obtain ⟨u, rest, -, rfl, hturn, hu⟩ :=
    Step.Accepts.collect_error reads_skipChunk?.turn budget s [] hrun
  rw [skipChunk?, Step.bind_apply, skipChunk_run] at hturn
  cases hchunk : Gather.chunk ⟨holding o rest, []⟩ with
  | mk result later =>
      rw [hchunk] at hturn
      cases result with
      | error e =>
          cases hturn
          refine Gather.meetsOther_of_chunk hchunk (hu.imp_right ?_)
          rintro ⟨v, w, -, -, rfl, -, octets, hw⟩
          exact ⟨v, w, rfl, .inr ⟨octets, hw⟩⟩
      | ok last => cases last <;> cases hturn

theorem meetsOther_of_skipChunks {wanted got : Kind} {after : Reader}
    (hrun : skipChunks (holding o s) =
      (.error (.violation (.unexpectedKind wanted got)), after)) :
    MeetsOther o.limits s wanted got after.remaining := by
  rw [skipChunks, Step.bind_of_ok (remainingLength_holding s)] at hrun
  exact meetsOther_of_collect (Step.eq_error_of_bind_pure hrun)

/-! ## Closure -/

/-- A read whose complaints about an unexpected kind break a run of chunks, in
front of the octets `s`. -/
def Dispatches (o : Options) (m : Read α) (s : Bytes) : Prop :=
  ∀ wanted got after, m (holding o s) =
    (.error (.violation (.unexpectedKind wanted got)), after) →
    BreaksRun o.limits s wanted got after.remaining

theorem Dispatches.of_kindFits {m : Read α} (h : KindFits (m (holding o s)).1) :
    Dispatches o m s := by
  intro wanted got after hrun
  rw [hrun] at h
  exact absurd trivial (h _ rfl)

theorem Dispatches.bind {m : Read α} {f : α → Read β} {L : Bytes → α → Prop}
    (hm : Dispatches o m s) (hL : Reads o m L)
    (hf : ∀ a w rest, s = w ++ rest → L w a → ∀ wanted got after,
      f a (holding o rest) =
        (.error (.violation (.unexpectedKind wanted got)), after) →
      BreaksRun o.limits s wanted got after.remaining) :
    Dispatches o (m >>= f) s := by
  intro wanted got after hrun
  rw [Step.bind_apply] at hrun
  cases hfirst : m (holding o s) with
  | mk result mid =>
      rw [hfirst] at hrun
      cases result with
      | error e =>
          cases hrun
          exact hm _ _ _ hfirst
      | ok a =>
          obtain ⟨w, rest, hs, rfl, hw⟩ := (reads_iff.mp hL s a mid).mp hfirst
          exact hf a w rest hs hw _ _ _ hrun

/-- What comes behind dispatches in front of whatever is left. -/
theorem Dispatches.followed {m : Read α} {f : α → Read β} {L : Bytes → α → Prop}
    (hm : Dispatches o m s) (hL : Reads o m L)
    (hf : ∀ a rest, Dispatches o (f a) rest) :
    Dispatches o (m >>= f) s := by
  refine hm.bind hL fun a w rest hs _ wanted got after hrun => ?_
  rw [hs]
  exact (hf a rest _ _ _ hrun).append w

theorem Dispatches.bind_pure {m : Read α} (hm : Dispatches o m s) (f : α → β) :
    Dispatches o (m >>= fun a => pure (f a)) s :=
  fun _ _ _ hrun => hm _ _ _ (Step.eq_error_of_bind_pure hrun)

theorem Dispatches.noElementInstead {m : Read α} (hm : Dispatches o m s)
    (c : Cut) :
    Dispatches o (m.mapFault (noElementInstead c)) s := by
  intro wanted got after hrun
  rw [Step.mapFault] at hrun
  cases hfirst : m (holding o s) with
  | mk result mid =>
      rw [hfirst] at hrun
      cases result with
      | ok a => cases hrun
      | error e =>
          cases e <;> cases hrun
          exact hm _ _ _ hfirst

theorem Dispatches.nested {m : Read α} (hm : Dispatches o m s) :
    Dispatches o (nested m) s :=
  hm.noElementInstead .noElement

theorem dispatches_peek (s : Bytes) : Dispatches o peek s := by
  intro wanted got after hrun
  rw [peek_holding] at hrun
  exact absurd (congrArg Prod.fst hrun) Kind.ofFront_ne_unexpectedKind

/-- The branch for the kind that is seen. -/
theorem Dispatches.select {look : Read Kind} {f : Kind → Read α}
    (hlook : Dispatches o look s)
    (hsees : ∀ k after, look (holding o s) = (.ok k, after) ↔
      after = holding o s ∧ Kind.ofFront s = .ok k)
    (hf : ∀ k, Kind.ofFront s = .ok k → Dispatches o (f k) s) :
    Dispatches o (look >>= f) s := by
  intro wanted got after hrun
  rw [Step.bind_apply] at hrun
  cases hlooked : look (holding o s) with
  | mk result mid =>
      rw [hlooked] at hrun
      cases result with
      | error e =>
          cases hrun
          exact hlook _ _ _ hlooked
      | ok k =>
          obtain ⟨rfl, hk⟩ := (hsees k mid).mp hlooked
          exact hf k hk _ _ _ hrun

theorem Dispatches.times {m : Read α} {L : Bytes → α → Prop}
    (hm : ∀ s, Dispatches o m s) (hL : Reads o m L) (n : Nat) (s : Bytes) :
    Dispatches o (m.times n) s := by
  induction n generalizing s with
  | zero => exact .of_kindFits (kindFits_ok _)
  | succ n ih => exact (hm s).followed hL fun _ rest => (ih rest).bind_pure _

theorem Dispatches.collect {m : Read (Option α)} {L : Bytes → Option α → Prop}
    (hm : ∀ s, Dispatches o m s) (hL : Reads o m L) (budget : Nat) (s : Bytes) :
    Dispatches o (m.collect budget) s := by
  induction budget generalizing s with
  | zero => exact .of_kindFits (kindFits_ok _)
  | succ budget ih =>
      refine (hm s).followed hL fun found rest => ?_
      cases found with
      | none => exact .of_kindFits (kindFits_ok _)
      | some a => exact (ih rest).bind_pure _

theorem Dispatches.loop {m : Read (Option α)} {L : Bytes → Option α → Prop}
    (hm : ∀ s, Dispatches o m s) (hL : Reads o m L) (s : Bytes) :
    Dispatches o (remainingLength >>= fun budget => m.collect (budget + 1))
      s := by
  intro wanted got after hrun
  rw [Step.bind_of_ok (remainingLength_holding s)] at hrun
  exact Dispatches.collect hm hL _ s _ _ _ hrun

/-! ## Values -/

/-- A read of the kind that is seen, which has no complaint about it. -/
theorem Dispatches.of_lead {m : Read α} {k : Kind} (hk : Kind.ofFront s = .ok k)
    (hnull : k ≠ .null)
    (hfits : ∀ r t,
      r.feed.Calm → r.remaining = k.lead :: t → KindFits (m r).1) :
    Dispatches o m s := by
  obtain ⟨t, rfl⟩ := Kind.lead_of_ofFront hk hnull
  exact .of_kindFits (hfits _ t (calm_holding _) (remaining_holding _))

theorem dispatches_null (hk : Kind.ofFront s = .ok .null) :
    Dispatches o null s := by
  refine .of_kindFits (kindFits_null (calm_holding s) ?_)
  rw [remaining_holding]
  exact Kind.refusal?_of_ofFront hk

theorem dispatches_joinedBlob {role : Role}
    (hs : Kind.ofFront s = .ok (.blob role)) :
    Dispatches o (joinedBlob role) s := by
  intro wanted got after hrun
  obtain ⟨mid, hgather, rfl⟩ :=
    Gather.eq_error_of_collected (Step.eq_error_of_bind_pure hrun)
  obtain ⟨t, rfl⟩ := Kind.lead_of_ofFront hs (by simp)
  have hfits :
      KindFits
        (Gather.blob role ⟨holding o ((Kind.blob role).lead :: t), []⟩).1 :=
    Gather.kindFits_blob (calm_holding _) (remaining_holding _)
  rw [Step.bind_apply] at hgather
  cases hblob :
    Gather.blob role ⟨holding o ((Kind.blob role).lead :: t), []⟩ with
  | mk result later =>
      rw [hblob] at hgather hfits
      cases result with
      | error e =>
          cases hgather
          exact absurd trivial (hfits _ rfl)
      | ok n =>
          obtain ⟨w, rest, p, hw, rfl, ⟨rfl, rfl, rfl⟩ | ⟨rfl, -⟩⟩ :=
            (Gather.gathers_blob role _ [] n later).mp hblob
          · rw [hw]
            exact (Gather.meetsOther_of_chunks hgather).breaksRun
              (inRun_streamHeader _ role)
          · cases hgather

theorem dispatches_element? {item : Read α} (hitem : ∀ s, Dispatches o item s)
    (s : Bytes) :
    Dispatches o (element? item) s := by
  refine ((dispatches_peek s).noElementInstead _).select
    (peek_mapFault_eq_ok_iff _ s)
    fun k hk => ?_
  split
  · next hclose =>
      subst hclose
      exact (Dispatches.of_lead hk (by simp) fun _ _ h ht =>
        kindFits_close h ht).bind_pure _
  · exact (hitem s).bind_pure _

theorem dispatches_pair {item : Read Value} {L : Bytes → Value → Prop}
    (hitem : ∀ s, Dispatches o item s) (hL : Reads o item L) (s : Bytes) :
    Dispatches o (pair item) s :=
  (hitem s).nested.followed (hL.mapFault _) fun _ rest =>
    (hitem rest).nested.bind_pure _

theorem dispatches_pair? {item : Read Value} {L : Bytes → Value → Prop}
    (hitem : ∀ s, Dispatches o item s) (hL : Reads o item L)
    (hshows : ∀ w a, L w a → ∃ k, k ≠ .close ∧ Kind.Shows w k) (s : Bytes) :
    Dispatches o (pair? item) s := by
  refine (dispatches_element? (fun s => (hitem s).nested) s).followed
    (reads_element? (hL.mapFault _) hshows) fun key? rest => ?_
  cases key? with
  | none => exact .of_kindFits (kindFits_ok _)
  | some key => exact (hitem rest).nested.bind_pure _

theorem dispatches_elements {a : Aggregate} {item : Read α}
    {streamed : Read (Option α)} {L : Bytes → α → Prop}
    {M : Bytes → Option α → Prop} (hitem : ∀ s, Dispatches o item s)
    (hL : Reads o item L) (hstreamed : ∀ s, Dispatches o streamed s)
    (hM : Reads o streamed M) (hs : Kind.ofFront s = .ok (.aggregate a)) :
    Dispatches o (elements a item streamed) s := by
  have hheader : Dispatches o (header a) s :=
    .of_lead hs (by simp) fun _ _ h ht => kindFits_header h ht
  refine hheader.followed (reads_header a) fun n rest => ?_
  cases n with
  | known n => exact .times hitem hL n rest
  | streamed => exact .loop hstreamed hM rest

theorem dispatches_valueWithin (levels depth : Nat)
    (h : depth + levels = o.maxDepth + 1) (s : Bytes) :
    Dispatches o (valueWithin levels) s := by
  induction levels generalizing depth s with
  | zero => exact .of_kindFits (kindFits_error id)
  | succ levels ih =>
      have hitem := ih (depth + 1) (by omega)
      have hL := reads_valueWithin levels (depth + 1) (o := o) (by omega)
      have hnested : Reads o (nested (valueWithin levels)) _ := hL.mapFault _
      have hshows : ∀ w v,
          Nests o.limits (depth + 1) w v → ∃ k, k ≠ .close ∧ Kind.Shows w k :=
        fun w v hw => hw.shows
      rw [valueWithin]
      refine (dispatches_peek s).select (peek_eq_ok_iff s) fun k hk => ?_
      cases k with
      | aggregate a =>
          cases a with
          | sequence sq =>
              exact (dispatches_elements (fun s => (hitem s).nested) hnested
                (dispatches_element? fun s => (hitem s).nested)
                (reads_element? hnested hshows) hk).bind_pure _
          | pairing p =>
              exact (dispatches_elements (dispatches_pair hitem hL)
                (reads_pair hL)
                (dispatches_pair? hitem hL hshows)
                (reads_pair? hL hshows) hk).bind_pure _
      | blob role => exact (dispatches_joinedBlob hk).bind_pure _
      | simple role =>
          exact .of_lead hk (by simp) fun _ _ h ht =>
            kindFits_bind_pure
              (Gather.kindFits_collected (Gather.kindFits_simple h ht)) _
      | verbatim =>
          exact .of_lead hk (by simp) fun _ _ h ht =>
            kindFits_bind_pure
              (Gather.kindFits_collected (Gather.kindFits_verbatim h ht)) _
      | bigNumber =>
          exact .of_lead hk (by simp) fun _ _ h ht =>
            kindFits_bind_pure (kindFits_lineOf kindFits_bigNumberLine h ht) _
      | boolean =>
          exact .of_lead hk (by simp) fun _ _ h ht =>
            kindFits_bind_pure (kindFits_boolean h ht) _
      | double =>
          exact .of_lead hk (by simp) fun _ _ h ht =>
            kindFits_bind_pure (kindFits_lineOf kindFits_doubleLine h ht) _
      | integer =>
          exact .of_lead hk (by simp) fun _ _ h ht =>
            kindFits_bind_pure (kindFits_integer h ht) _
      | null => exact (dispatches_null hk).bind_pure _
      | chunk => exact .of_kindFits (kindFits_error id)
      | close => exact .of_kindFits (kindFits_error id)

/-! ## Skips -/

theorem dispatches_skipChunks (hs : Kind.ofFront s = .ok .chunk) :
    Dispatches o skipChunks s := by
  intro wanted got after hrun
  obtain ⟨t, rfl⟩ := Kind.lead_of_ofFront hs (by simp)
  exact (meetsOther_of_skipChunks hrun).breaksRun_of_lead

theorem dispatches_skipBlob {role : Role} {k : Kind}
    (hs : Kind.ofFront s = .ok (.blob role)) :
    Dispatches o (takeStreamHeader (.blob role) >>= fun streamed =>
      if streamed = true then skipChunks >>= fun _ => pure k
      else (Gather.counted (.blob role)).dropped >>= fun _ => pure k) s := by
  intro wanted got after hrun
  have htake : takeStreamHeader (.blob role) (holding o s) = _ :=
    takeForm_holding _ s
  by_cases hform : (Kind.blob role).streamHeader <+: s
  · rw [if_pos hform] at htake
    obtain ⟨rest, rfl⟩ := hform
    rw [Step.bind_of_ok htake, List.drop_left] at hrun
    exact (meetsOther_of_skipChunks (Step.eq_error_of_bind_pure hrun)).breaksRun
      (inRun_streamHeader _ role)
  · rw [if_neg hform] at htake
    rw [Step.bind_of_ok htake] at hrun
    have hcounted : Dispatches o (Gather.counted (.blob role)).dropped s :=
      .of_lead hs (by simp) fun _ _ h ht =>
        Gather.kindFits_dropped (Gather.kindFits_counted h ht)
    exact hcounted _ _ _ (Step.eq_error_of_bind_pure hrun)

theorem dispatches_skipElement? {item : Read Kind} {L : Bytes → Kind → Prop}
    (hitem : ∀ s, Dispatches o item s) (hL : Reads o item L) (s : Bytes) :
    Dispatches o (skipElement? item) s := by
  refine (hitem s).nested.followed (hL.mapFault _) fun k rest => ?_
  split <;> exact .of_kindFits (kindFits_ok _)

theorem dispatches_skipElements (a : Aggregate) {item : Read Kind}
    {L : Bytes → Kind → Prop} (hitem : ∀ s, Dispatches o item s)
    (hL : Reads o item L) (n : Length) (s : Bytes) :
    Dispatches o (skipElements a item n) s := by
  cases n with
  | known n =>
      exact (Dispatches.times (fun s => (hitem s).nested) (hL.mapFault _) _
        s).bind_pure _
  | streamed =>
      have hloop := Dispatches.loop (dispatches_skipElement? hitem hL)
        (reads_skipElement? hL) s
      have hall := hloop.bind_pure fun _ => ()
      rw [Step.bind_assoc_apply] at hall
      exact hall

theorem dispatches_skipWithin (levels : Nat) (s : Bytes) :
    Dispatches o (skipWithin true levels) s := by
  induction levels generalizing s with
  | zero => exact .of_kindFits (kindFits_error id)
  | succ levels ih =>
      rw [skipWithin]
      refine (dispatches_peek s).select (peek_eq_ok_iff s) fun k hk => ?_
      cases k with
      | aggregate a =>
          have hheader : Dispatches o (header a) s :=
            .of_lead hk (by simp) fun _ _ h ht => kindFits_header h ht
          refine hheader.followed (reads_header a) fun n rest => ?_
          exact (dispatches_skipElements a ih (reads_skipWithin levels) n
            rest).bind_pure _
      | blob role => exact dispatches_skipBlob hk
      | simple role =>
          refine .of_lead hk (by simp) fun _ _ h ht =>
            kindFits_expect_bind h ht fun mid hmid => ?_
          exact kindFits_bind_pure
            (Gather.kindFits_dropped (Gather.kindFits_line hmid)) _
      | verbatim =>
          exact .of_lead hk (by simp) fun _ _ h ht =>
            kindFits_bind_pure
              (Gather.kindFits_dropped (Gather.kindFits_verbatim h ht)) _
      | bigNumber =>
          exact .of_lead hk (by simp) fun _ _ h ht => kindFits_bind_pure
            (kindFits_lineOf
              (fun text => (kindFits_bigNumberLine text).map _) h ht) _
      | boolean =>
          exact .of_lead hk (by simp) fun _ _ h ht =>
            kindFits_bind_pure (kindFits_boolean h ht) _
      | double =>
          exact .of_lead hk (by simp) fun _ _ h ht =>
            kindFits_bind_pure (kindFits_lineOf kindFits_doubleLine h ht) _
      | integer =>
          exact .of_lead hk (by simp) fun _ _ h ht =>
            kindFits_bind_pure (kindFits_integer h ht) _
      | null => exact (dispatches_null hk).bind_pure _
      | chunk => exact (dispatches_skipChunks hk).bind_pure _
      | close =>
          exact .of_lead hk (by simp) fun _ _ h ht =>
            kindFits_bind_pure (kindFits_close h ht) _

/-! ## Readers that hold less -/

theorem Dispatches.breaksRun {m : Read α} (hsteady : Step.Steady lockstep m)
    {r after : Reader} (h : r.feed.Calm)
    (hm : Dispatches r.options m r.remaining) {wanted got : Kind}
    (hrun : m r = (.error (.violation (.unexpectedKind wanted got)), after)) :
    BreaksRun r.options.limits r.remaining wanted got after.remaining := by
  obtain ⟨later, hheld, halike⟩ :=
    hsteady.of_run (alike_holding h).symm hrun nofun
  rw [← halike.remaining]
  exact hm _ _ _ hheld

theorem breaksRun_of_value {r after : Reader} (h : r.feed.Calm)
    {wanted got : Kind}
    (hrun : value r =
      (.error (.violation (.unexpectedKind wanted got)), after)) :
    BreaksRun r.options.limits r.remaining wanted got after.remaining :=
  Dispatches.breaksRun steady_value h
    (dispatches_valueWithin (r.options.maxDepth + 1) 0 (Nat.zero_add _)
      r.remaining) hrun

theorem breaksRun_of_skip {r after : Reader} (h : r.feed.Calm)
    {wanted got : Kind}
    (hrun : skip true r =
      (.error (.violation (.unexpectedKind wanted got)), after)) :
    BreaksRun r.options.limits r.remaining wanted got after.remaining :=
  Dispatches.breaksRun (steady_skip true) h
    (dispatches_skipWithin (r.options.maxDepth + 1) r.remaining) hrun

end Reader

end RespWire

import RespWire.Proofs.Portions
import RespWire.Proofs.Tracking
import RespWire.Proofs.Waiting
import RespWire.Reader.Skip

/-!
# Readers in front of a failure

A source fails once between two pieces of data and goes on. A reader of it is
compared with the reader of the same data without the failure. As long as the
failure is not met, both do the same; a fill that meets it hands out nothing, so
that it leaves behind the very reader of the data that comes without it.

All reads but those that look for a null of the earlier protocol version pass
the failure on. They are gone through here in the order of the source, each
tracked by itself in front of a failure.
-/

namespace RespWire

namespace Reader

open Feed (isData octetsOf)

/-- A reader of data, and the reader of the same data with a failure in front
of `later`. The octets to come in front of it, what is held included, are the
last ones of `front`. -/
inductive Before (e : IoFailure) (front : Bytes) (later : List Arrival) :
    Reader → Reader → Prop where
  | mk {before : List Arrival} {portion : Option Nat} {o : Options}
      {buffer : Bytes}
      (hdata : Feed.DataOnly ⟨before ++ later, portion⟩)
      (he : e.kind ≠ .interrupted)
      (hfront : buffer ++ before.flatMap octetsOf <:+ front) :
      Before e front later ⟨⟨before ++ later, portion⟩, o, buffer⟩
        ⟨⟨before ++ .failure e :: later, portion⟩, o, buffer⟩

/-- A reader that has met the failure and goes on with what comes behind it. -/
structure Resumed (front : Bytes) (later : List Arrival) (r : Reader) :
    Prop where
  data : r.feed.DataOnly
  arrivals : r.feed.arrivals = later
  front : r.buffer <:+ front

variable {e : IoFailure} {front : Bytes} {later : List Arrival} {s t : Reader}

theorem Before.data (h : Before e front later s t) : s.feed.DataOnly := by
  cases h with
  | mk hdata => exact hdata

theorem Before.buffer (h : Before e front later s t) : t.buffer = s.buffer := by
  cases h with
  | mk => rfl

theorem Before.options (h : Before e front later s t) :
    t.options = s.options := by
  cases h with
  | mk => rfl

theorem Before.remaining (h : Before e front later s t) :
    t.remaining = s.remaining := by
  cases h with
  | mk => simp [Reader.remaining, Feed.unread, octetsOf]

theorem Before.consume (h : Before e front later s t) (n : Nat) :
    Before e front later (consume n s).2 (consume n t).2 := by
  cases h with
  | @mk before _ _ buffer hdata he hfront =>
      obtain ⟨more, rfl⟩ := hfront
      refine .mk hdata he ⟨more ++ buffer.take n, ?_⟩
      rw [List.append_assoc, ← List.append_assoc (buffer.take n),
        List.take_append_drop]

/-- A fill meets data, or else the failure; and then it leaves the reader that
does not meet it. -/
theorem Before.fill (h : Before e front later s t) :
    (∃ k s' t', fill s = (.ok k, s') ∧ fill t = (.ok k, t') ∧
      Before e front later s' t') ∨
      fill t = (.error (.io e), s) ∧ Resumed front later s := by
  cases h with
  | @mk before portion o buffer hdata he hfront =>
      cases before with
      | nil =>
          refine Or.inr ⟨?_, hdata, rfl, by simpa using hfront⟩
          have hmet : Feed.afterInterruptions ⟨.failure e :: later, portion⟩ =
              ⟨.failure e :: later, portion⟩ := by
            rw [Feed.afterInterruptions, List.dropWhile_cons_of_neg]
            simpa [Feed.isInterruption] using he
          rw [List.nil_append, Reader.fill, hmet]
          rfl
      | cons a before =>
          have hdata' := hdata.arrivals
          rw [List.cons_append, List.all_cons, Bool.and_eq_true] at hdata'
          cases a with
          | failure e => cases hdata'.1
          | piece octets =>
              have hne : octets ≠ [] := by simpa [isData] using hdata'.1
              have hportion : portion ≠ some 0 := hdata.portion
              obtain ⟨got, rest, -, hrest, hsplit, hfill⟩ :=
                fill_piece hne hportion o buffer
              refine Or.inl
                ⟨got.length,
                  ⟨⟨rest ++ (before ++ later), portion⟩, o, buffer ++ got⟩,
                ⟨⟨rest ++ (before ++ .failure e :: later), portion⟩, o,
                  buffer ++ got⟩,
                hfill _, hfill _, ?_⟩
              rw [← List.append_assoc, ← List.append_assoc]
              refine .mk ⟨?_, hportion⟩ he ?_
              · show (rest ++ before ++ later).all isData = true
                rw [List.append_assoc, List.all_append, hrest, hdata'.2]
                rfl
              · rw [List.flatMap_append,
                  List.append_assoc, ← List.append_assoc got, hsplit]
                exact hfront

/-- A look ahead sees data, or else it meets the failure; and then the reader
that does not meet it sees what is seen from there. -/
theorem Before.lookAhead (h : Before e front later s t) (n : Nat) :
    (∃ bs s' t', lookAhead n s = (.ok bs, s') ∧ lookAhead n t = (.ok bs, t') ∧
      Before e front later s' t' ∧ bs = t'.buffer.take n) ∨
    ∃ c, lookAhead n t = (.error (.io e), c) ∧ lookAhead n s = lookAhead n c ∧
      Resumed front later c ∧ t.buffer <+: c.buffer ∧ c.buffer.length < n := by
  induction s using lookAhead_induction (n := n) generalizing t with
  | enough s hn =>
      have hn' : n ≤ t.buffer.length := h.buffer ▸ hn
      exact Or.inl
        ⟨_, s, t, lookAhead_of_le hn, h.buffer ▸ lookAhead_of_le hn', h,
          by rw [h.buffer]⟩
  | lacks s hn ih =>
      have hn' : t.buffer.length < n := h.buffer ▸ hn
      rw [lookAhead_of_lacks hn, lookAhead_of_lacks hn']
      rcases h.fill with ⟨k, s', t', hs, ht, h'⟩ | ⟨ht, hresumed⟩
      · rw [hs, ht]
        cases k with
        | zero =>
            exact Or.inl
              ⟨t'.buffer.take n, s', t', by simp only [h'.buffer], rfl, h', rfl⟩
        | succ k =>
            rcases ih k s' hs h' with hfound |
              ⟨c, hc, hsame, hresumed, hheld, hshort⟩
            · exact Or.inl hfound
            · have hgrows := prefix_buffer_of_lookAhead n t
              rw [lookAhead_of_lacks hn', ht] at hgrows
              simp only [hc] at hgrows
              exact Or.inr ⟨c, hc, hsame, hresumed, hgrows, hshort⟩
      · -- the fill has left behind `s` itself, and the look goes on from there
        rw [ht]
        exact Or.inr ⟨s, rfl, (lookAhead_of_lacks hn).symm, hresumed,
          h.buffer ▸ List.prefix_rfl, hn⟩

/-- A reader that holds the first octet of a value of the kind. -/
def Leads (k : Kind) (r : Reader) : Prop := r.buffer.head? = some k.lead

/-- The kind that the next octet announces is held, or both reads stop. -/
theorem Before.peekLead (h : Before e front later s t) :
    (∃ k s' t', peekLead s = (.ok k, s') ∧ peekLead t = (.ok k, t') ∧
      Before e front later s' t' ∧ Leads k t') ∨
    ∃ f c, peekLead t = (.error f, c) ∧
      (f = .io e ∨ ∃ s', peekLead s = (.error f, s')) := by
  rcases h.lookAhead 1 with ⟨bs, s', t', hs, ht, h', hbs⟩ | ⟨c, hc, -⟩
  · rw [Reader.peekLead, Step.bind_of_ok hs, Step.bind_of_ok ht]
    cases bs with
    | nil => exact Or.inr ⟨_, t', rfl, Or.inr ⟨s', rfl⟩⟩
    | cons b bs =>
        cases hk : Kind.ofLead? b with
        | none =>
            simp only [hk]
            exact Or.inr ⟨_, t', rfl, Or.inr ⟨s', rfl⟩⟩
        | some k =>
            have hlead : Leads k t' := by
              rw [Leads, Kind.lead_of_ofLead? hk]
              cases hb : t'.buffer with
              | nil =>
                  rw [hb] at hbs
                  cases hbs
              | cons b' rest =>
                  rw [hb] at hbs
                  exact congrArg some (List.cons.inj hbs).1.symm
            simp only [hk]
            exact Or.inl ⟨k, s', t', rfl, rfl, h', hlead⟩
  · exact Or.inr ⟨_, c, Step.bind_of_error hc, Or.inl rfl⟩

end Reader

open Step (Tracks)

/-- A step that does the same in front of a failure, or passes it on. -/
abbrev Step.Bears {σ α : Type} (e : IoFailure) (P : σ → σ → Prop)
    (m : Step σ α) : Prop :=
  Tracks (· = .io e) P m fun _ => P

open Step (Bears)

namespace Reader

variable {α : Type} {e : IoFailure} {front : Bytes} {later : List Arrival}

/-! ## Octets -/

theorem bears_lookAhead (n : Nat) :
    Bears e (Before e front later) (lookAhead n) := by
  intro s t h
  rcases h.lookAhead n with ⟨bs, s', t', hs, ht, h', -⟩ | ⟨c, hc, -⟩
  · rw [hs, ht]
    exact .ok h'
  · rw [hc]
    exact .stopped rfl

theorem bears_consume (n : Nat) : Bears e (Before e front later) (consume n) :=
  fun _ _ h => .ok (h.consume n)

theorem bears_held : Bears e (Before e front later) held := by
  intro s t h
  unfold held
  rw [h.buffer]
  by_cases hempty : s.buffer.isEmpty = true
  · rw [if_pos hempty, if_pos hempty]
    rcases h.fill with ⟨k, s', t', hs, ht, h'⟩ | ⟨ht, -⟩
    · rw [hs, ht]
      simp only [h'.buffer]
      exact .ok h'
    · rw [ht]
      exact .stopped rfl
  · rw [if_neg hempty, if_neg hempty]
    exact .ok h

theorem bears_remainingLength :
    Bears e (Before e front later) remainingLength := by
  intro s t h
  rw [remainingLength, remainingLength, h.remaining]
  exact .ok h

theorem bears_getOptions : Bears e (Before e front later) getOptions := by
  intro s t h
  rw [getOptions, getOptions, h.options]
  exact .ok h

theorem bears_checkSize (n : Nat) :
    Bears e (Before e front later) (checkSize n) := by
  refine bears_getOptions.bind fun o => ?_
  cases sizeFault? o n with
  | none => exact .done _
  | some f => exact .fail f

/-! ## Parts of values -/

theorem bears_peekLead : Bears e (Before e front later) peekLead := by
  intro s t h
  rcases h.peekLead with ⟨k, s', t', hs, ht, h', -⟩ | ⟨f, c, ht, rfl | ⟨s', hs⟩⟩
  · rw [hs, ht]
    exact .ok h'
  · rw [ht]
    exact .stopped rfl
  · rw [hs, ht]
    exact .error

theorem bears_takeForm (form : Bytes) :
    Bears e (Before e front later) (takeForm form) := by
  have hstarts : Bears e (Before e front later) (startsWith form) :=
    (bears_lookAhead _).bind fun _ => .done _
  refine hstarts.bind fun found => ?_
  split
  · exact (bears_consume _).bind fun _ => .done _
  · exact .done _

theorem bears_expect (k : Kind) :
    Bears e (Before e front later) (expect k) := by
  refine (bears_peekLead.mapFault ?_).bind fun got => ?_
  · rintro _ rfl
    rfl
  · split
    · exact bears_consume 1
    · exact .fail _

theorem bears_lineEnd : Bears e (Before e front later) lineEnd := by
  refine (bears_lookAhead 2).bind fun next => ?_
  split
  · exact bears_consume 2
  · split <;> exact .fail _

theorem bears_minusSign : Bears e (Before e front later) minusSign := by
  refine (bears_lookAhead 1).bind fun next => ?_
  cases next with
  | nil => exact .fail _
  | cons b rest =>
      simp only
      split
      · exact (bears_consume 1).bind fun _ => .done _
      · exact .done _

theorem bears_digitsFrom (negative : Bool) (before : Option Int) :
    Bears e (Before e front later) (digitsFrom negative before) := by
  intro s
  induction hn : s.remaining.length using Nat.strongRecOn
      generalizing s before with
  | ind n ih =>
      intro t h
      rw [digitsFrom_eq]
      refine (bears_lookAhead 1 s t h).bind fun bs s' t' hs h' => ?_
      cases bs with
      | nil => exact .error
      | cons b bs =>
          simp only
          split
          · split
            · exact ih _ (hn ▸ length_remaining_lt_of_lookAhead hs) _ _ rfl _
                (h'.consume 1)
            · exact .error
          · split
            · exact .ok h'
            · exact .error

theorem bears_number : Bears e (Before e front later) number := by
  refine bears_minusSign.bind fun negative =>
    (bears_digitsFrom negative none).bind fun n? =>
      bears_lineEnd.bind fun _ => ?_
  cases n? with
  | none => exact .fail _
  | some n => exact .done _

theorem bears_header (a : Aggregate) :
    Bears e (Before e front later) (header a) := by
  refine (bears_takeForm _).bind fun streamed => ?_
  split
  · exact .done _
  · refine (bears_expect _).bind fun _ =>
      (bears_number.mapFault ?_).bind fun n => ?_
    · rintro _ rfl
      rfl
    · split
      · exact .fail _
      · exact .done _

end Reader

namespace Gather

open Reader (Before)

variable {α : Type} {e : IoFailure} {front : Bytes} {later : List Arrival}

theorem bears_collected {m : Gather α}
    (h : Bears e (Draft.Related (Before e front later)) m) :
    Bears e (Before e front later) m.collected :=
  tracks_collected (R := fun _ => Before e front later) h

theorem bears_dropped {m : Gather α}
    (h : Bears e (Draft.Related (Before e front later)) m) :
    Bears e (Before e front later) m.dropped :=
  tracks_dropped h

/-! ## Lines and bodies -/

theorem bears_push (octets : Bytes) :
    Bears e (Draft.Related (Before e front later)) (push octets) :=
  fun _ _ h => .ok ⟨h.reader, congrArg (· ++ octets) h.gathered⟩

theorem bears_settleLine (total : Nat) :
    Bears e (Draft.Related (Before e front later)) (settleLine total) := by
  intro d d' h
  rw [settleLine_apply, settleLine_apply, h.gathered]
  split
  · exact .ok ⟨h.reader, rfl⟩
  · exact .error

theorem bears_lineFrom (taken : Nat) :
    Bears e (Draft.Related (Before e front later)) (lineFrom taken) := by
  intro d
  induction hn : d.reader.remaining.length using Nat.strongRecOn
      generalizing d taken with
  | ind n ih =>
      rintro d' h
      have hx := Reader.bears_held d.reader d'.reader h.reader
      rw [lineFrom_apply, lineFrom_apply, ← h.gathered]
      generalize hheld : Reader.held d.reader = x at hx
      generalize Reader.held d'.reader = y at hx
      cases hx with
      | met x => exact .met _
      | error => exact .error
      | stopped hf => exact .stopped hf
      | @ok bs r r' h' =>
          cases bs with
          | nil => exact .error
          | cons b bs =>
              simp only [h'.options]
              split
              · exact .error
              · split
                · exact bears_settleLine _ _ _ ⟨h'.consume _, rfl⟩
                · refine ih _ ?_ _ _ rfl _ ⟨h'.consume _, rfl⟩
                  rw [← hn]
                  exact Reader.length_remaining_lt_of_held
                    (Reader.length_throughLineFeed_cons_pos b bs) hheld

theorem bears_bodyFrom (missing : Nat) :
    Bears e (Draft.Related (Before e front later)) (bodyFrom missing) := by
  induction missing using Nat.strongRecOn with
  | ind missing ih =>
      intro d d' h
      have hx := Reader.bears_held d.reader d'.reader h.reader
      rw [bodyFrom, bodyFrom, ← h.gathered]
      split
      · exact .ok h
      · generalize Reader.held d.reader = x at hx
        generalize Reader.held d'.reader = y at hx
        cases hx with
        | met x => exact .met _
        | error => exact .error
        | stopped hf => exact .stopped hf
        | @ok bs r r' h' =>
            cases bs with
            | nil => exact .error
            | cons b bs =>
                refine ih _ ?_ _ _ ⟨h'.consume _, rfl⟩
                simp only [List.length_take, List.length_cons]
                omega

theorem bears_counted (k : Kind) :
    Bears e (Draft.Related (Before e front later)) (counted k) := by
  refine (tracks_ofRead (Reader.bears_expect k)).bind fun _ => ?_
  refine (tracks_ofRead Reader.bears_number).bind fun n => ?_
  split
  · exact .fail _
  · have hbody :
        Bears e (Draft.Related (Before e front later)) (body n.toNat) :=
      (tracks_ofRead (Reader.bears_checkSize _)).bind fun _ =>
        (bears_bodyFrom _).bind fun _ => tracks_ofRead Reader.bears_lineEnd
    exact hbody.bind fun _ => .done _

/-! ## Octets for a destination -/

theorem bears_blob (role : Role) :
    Bears e (Draft.Related (Before e front later)) (blob role) := by
  refine tracks_atomically
    ((tracks_ofRead (Reader.bears_takeForm _)).bind fun streamed => ?_)
  split
  · exact .done _
  · exact (bears_counted _).bind fun _ => .done _

theorem bears_chunk? :
    Bears e (Draft.Related (Before e front later)) chunk? := by
  have hchunk : Bears e (Draft.Related (Before e front later)) chunk := by
    refine (tracks_ofRead (Reader.bears_takeForm _)).bind fun last => ?_
    split
    · exact .done _
    · exact (tracks_atomically (bears_counted _)).bind fun _ => .done _
  refine hchunk.bind fun last => ?_
  split <;> exact .done _

theorem bears_chunks : Bears e (Draft.Related (Before e front later)) chunks :=
  tracks_atomically ((tracks_ofRead Reader.bears_remainingLength).bind fun _ =>
    (bears_chunk?.collect _).bind fun _ => .done _)

theorem bears_simple (role : Role) :
    Bears e (Draft.Related (Before e front later)) (simple role) :=
  tracks_atomically ((tracks_ofRead (Reader.bears_expect _)).bind fun _ =>
    bears_lineFrom 0)

theorem bears_verbatim :
    Bears e (Draft.Related (Before e front later)) verbatim := by
  have hmark : Bears e (Draft.Related (Before e front later)) mark := by
    intro d d' h
    rw [mark, mark, h.gathered]
    exact .ok h
  have hsince : ∀ start,
      Bears e (Draft.Related (Before e front later)) (since start) := by
    intro start d d' h
    rw [since, since, h.gathered]
    exact .ok h
  have hcutBack : ∀ length,
      Bears e (Draft.Related (Before e front later)) (cutBack length) :=
    fun length d d' h => .ok ⟨h.reader, congrArg (List.take length) h.gathered⟩
  refine tracks_atomically
    (hmark.bind fun start => (bears_counted _).bind fun _ =>
      (hsince start).bind fun octets => ?_)
  match octets with
  | [] | [_] | [_, _] | [_, _, _] => exact .fail _
  | a :: b :: c :: separator :: text =>
      simp only
      split
      · exact (hcutBack start).bind fun _ => (bears_push text).bind fun _ =>
          .done _
      · exact .fail _

end Gather

namespace Reader

variable {α : Type} {e : IoFailure} {front : Bytes} {later : List Arrival}

/-! ## Values without a look ahead for their kind -/

theorem bears_boolean : Bears e (Before e front later) boolean := by
  refine (bears_expect _).bind fun _ => (bears_lookAhead 3).bind fun bs => ?_
  match bs with
  | [] | [_] | [_, _] | _ :: _ :: _ :: _ :: _ => exact .fail _
  | [x, y, z] =>
      simp only
      split
      · split
        · exact (bears_consume 3).bind fun _ => .done _
        · exact .fail _
      · exact .fail _

theorem bears_integer : Bears e (Before e front later) integer :=
  (bears_expect _).bind fun _ => bears_number.bind fun _ => .done _

theorem bears_close : Bears e (Before e front later) close :=
  (bears_expect _).bind fun _ => bears_lineEnd

theorem bears_lineOf (k : Kind) (settle : Bytes → Except Fault α) :
    Bears e (Before e front later) (lineOf k settle) := by
  refine (bears_expect k).bind fun _ =>
    (Gather.bears_collected (Gather.bears_lineFrom 0)).bind fun x s t h => ?_
  obtain ⟨u, text⟩ := x
  show Step.Tracked _ _ (settle text, s) (settle text, t)
  cases settle text with
  | error f => exact .error
  | ok a => exact .ok h

theorem bears_joinedBlob (role : Role) :
    Bears e (Before e front later) (joinedBlob role) := by
  refine (Gather.bears_collected
    ((Gather.bears_blob role).bind fun n => ?_)).bind fun _ => .done _
  cases n with
  | known n => exact .done _
  | streamed => exact Gather.bears_chunks

theorem bears_skipChunk : Bears e (Before e front later) skipChunk := by
  refine (bears_takeForm _).bind fun last => ?_
  split
  · exact .done _
  · exact (Gather.bears_dropped (Gather.bears_counted _)).bind fun _ => .done _

theorem bears_skipChunks : Bears e (Before e front later) skipChunks := by
  have hchunk? : Bears e (Before e front later) skipChunk? := by
    refine bears_skipChunk.bind fun last => ?_
    split <;> exact .done _
  exact bears_remainingLength.bind fun _ => (hchunk?.collect _).bind fun _ =>
    .done _

theorem bears_tooDeep : Bears e (Before e front later) (tooDeep : Read α) :=
  bears_getOptions.bind fun _ => .fail _

end Reader

end RespWire

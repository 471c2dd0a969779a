import RespWire.Proofs.Failing
import RespWire.Proofs.Peek

/-!
# Readers that lag behind

A failure met while a reader looks for a null of the earlier protocol version
counts as none. The reader goes on from there, and has seen less of the input
than the reader that met no failure: it lags behind by one look ahead. If the
null is not there, both take the value for the same kind, and they come
together again in its first line.

As a rule the look for the header of a stream already does that. Behind a minus
sign the look for the null has gone farther, so the number has to be read, and
the two readers meet at the end of its line if there is a digit in it. If there
is none, both are refused.
-/

namespace RespWire

namespace Reader

variable {r : Reader} {k : Kind}

/-! ## How far the look for a null goes -/

theorem lookAhead_eq (h : r.feed.Calm) (n : Nat) :
    lookAhead n r = (.ok (r.remaining.take n), (lookAhead n r).2) := by
  obtain ⟨after, hlook, -⟩ := lookAhead_calm n h
  rw [hlook]

theorem attempt_eq (h : r.feed.Calm) (n : Nat) :
    (lookAhead n).attempt r =
      (.ok (some (r.remaining.take n)), (lookAhead n r).2) := by
  rw [Step.attempt, lookAhead_eq h]

theorem earlierNull?_of_dataOnly (h : r.feed.DataOnly) (k : Kind) :
    earlierNull? k r = (.ok (k.earlierNull?.filter (·.isPrefixOf r.remaining)),
      (lookAhead (k.reach r.remaining) r).2) := by
  have hstate :
      (earlierNull? k r).2 = (lookAhead (k.reach r.remaining) r).2 := by
    cases hform : k.earlierNull? with
    | none =>
        simp only [earlierNull?, Kind.reach, hform]
        exact (congrArg Prod.snd (lookAhead_of_le (Nat.zero_le _))).symm
    | some form =>
        have hlength := Kind.length_of_earlierNull? hform
        by_cases hminus : ∃ x, r.remaining.take 2 = [x, Decimal.minus]
        · obtain ⟨x, hx⟩ := hminus
          have hfirst := attempt_eq h.calm 2
          rw [hx] at hfirst
          rw [Kind.reach_of_minus hform hx, earlierNull?_of_minus hform hfirst,
            Step.bind_of_ok (attempt_eq (dataOnly_lookAhead h 2).calm _)]
          exact congrArg Prod.snd (lookAhead_lookAhead h (by omega))
        · have hother : ∀ x, r.remaining.take 2 ≠ [x, Decimal.minus] :=
            not_exists.mp hminus
          rw [Kind.reach_of_other hform hother,
            earlierNull?_of_other hform hother (attempt_eq h.calm 2)]
  obtain ⟨after, hnull, -⟩ := earlierNull?_calm k h.calm
  rw [hnull] at hstate ⊢
  rw [← hstate]

theorem Leads.ne_nil (h : Leads k r) : 1 ≤ r.buffer.length := by
  unfold Leads at h
  cases hb : r.buffer with
  | nil => rw [hb] at h; cases h
  | cons b rest => simp

theorem Leads.peekLead (h : Leads k r) : peekLead r = (.ok k, r) := by
  have hnext : lookAhead 1 r = (.ok [k.lead], r) := by
    rw [lookAhead_of_le h.ne_nil, List.take_one,
      show r.buffer.head? = some k.lead from h]
    rfl
  rw [Reader.peekLead, Step.bind_of_ok hnext]
  simp only [Kind.ofLead?_lead]
  rfl

theorem Leads.of_prefix {after : Reader} (h : Leads k r)
    (hheld : r.buffer <+: after.buffer) :
    Leads k after := by
  obtain ⟨more, hmore⟩ := hheld
  rw [Leads, ← hmore, List.head?_append, show r.buffer.head? = some k.lead
    from h]
  rfl

theorem Leads.lookAhead (h : Leads k r) (n : Nat) : Leads k (lookAhead n r).2 :=
  h.of_prefix (prefix_buffer_of_lookAhead n r)

theorem Leads.peek (h : Leads k r) (hdata : r.feed.DataOnly) :
    peek r =
      (.ok
        (if (k.earlierNull?.filter (·.isPrefixOf r.remaining)).isSome then
          .null else k), (Reader.lookAhead (k.reach r.remaining) r).2) := by
  rw [Reader.peek, Step.bind_of_ok h.peekLead,
    Step.bind_of_ok (earlierNull?_of_dataOnly hdata k)]
  split <;> rfl

/-- Looking for the kind a second time finds the same and shows nothing more. -/
theorem Leads.peek_peek (h : Leads k r) (hdata : r.feed.DataOnly) :
    Reader.peek (Reader.peek r).2 = Reader.peek r := by
  rw [h.peek hdata]
  rw [(h.lookAhead _).peek (dataOnly_lookAhead hdata _), remaining_lookAhead,
    lookAhead_of_lookAhead hdata (Nat.le_refl _)]

open Step (Never Tracked Tracks)

/-! ## Lagging -/

/-- The second reader lags behind the first by a look ahead of at most `n`. -/
structure Lags (n : Nat) (s t : Reader) : Prop where
  data : t.feed.DataOnly
  ahead : ∃ m ≤ n, s = (lookAhead m t).2

variable {m n : Nat} {s t : Reader}

theorem Lags.refl (h : t.feed.DataOnly) (n : Nat) : Lags n t t :=
  ⟨h, 0, Nat.zero_le n,
    (congrArg Prod.snd (lookAhead_of_le (Nat.zero_le _))).symm⟩

theorem Lags.mono (h : Lags m s t) (hmn : m ≤ n) : Lags n s t := by
  obtain ⟨hdata, i, hi, hs⟩ := h
  exact ⟨hdata, i, Nat.le_trans hi hmn, hs⟩

theorem Lags.eq (h : Lags 0 s t) : s = t := by
  obtain ⟨-, i, hi, rfl⟩ := h
  rw [Nat.le_zero.mp hi, lookAhead_of_le (Nat.zero_le _)]

/-- A look ahead that goes as far as the lag makes it up. -/
theorem Lags.lookAhead_eq (h : Lags n s t) (hn : n ≤ m) :
    lookAhead m s = lookAhead m t := by
  obtain ⟨hdata, i, hi, rfl⟩ := h
  exact lookAhead_lookAhead hdata (Nat.le_trans hi hn)

theorem Lags.lookAhead (h : Lags n s t) (m : Nat) :
    Tracked Never (fun bs s' t' => Lags n s' t' ∧ t'.remaining = t.remaining ∧
        bs = t.remaining.take m ∧ bs.length ≤ t'.buffer.length)
      (Reader.lookAhead m s) (Reader.lookAhead m t) := by
  obtain ⟨hdata, i, hi, rfl⟩ := h
  by_cases him : i ≤ m
  · rw [lookAhead_lookAhead hdata him]
    exact .met _
  · have hmi : m ≤ i := Nat.le_of_not_le him
    have hback := Reader.lookAhead_eq (dataOnly_lookAhead hdata i).calm m
    rw [lookAhead_of_lookAhead hdata hmi, remaining_lookAhead] at hback
    obtain ⟨after, hlook, hahead, htake⟩ := lookAhead_calm m hdata.calm
    have hafter : (Reader.lookAhead m t).2 = after := by rw [hlook]
    rw [hback, hlook]
    refine .ok ⟨⟨hafter ▸ dataOnly_lookAhead hdata m, i, hi, ?_⟩,
      hahead.remaining, rfl, ?_⟩
    · rw [← hafter, lookAhead_lookAhead hdata hmi]
    · rw [← htake, List.length_take]
      exact Nat.min_le_right _ _

theorem Lags.consume (h : Lags n s t) (hm : m ≤ t.buffer.length) :
    Lags (n - m) (consume m s).2 (consume m t).2 := by
  obtain ⟨hdata, i, hi, rfl⟩ := h
  by_cases him : m ≤ i
  · exact ⟨hdata, i - m, by omega, (lookAhead_consume him hm).symm⟩
  · rw [lookAhead_of_le (by omega)]
    exact .refl (show (Reader.consume m t).2.feed.DataOnly from hdata) _

/-! ## Catching up in a line -/

theorem tracks_lineEnd (n : Nat) :
    Tracks Never (Lags n) lineEnd fun _ => Lags (n - 2) := by
  intro s t h
  refine (h.lookAhead 2).bind fun next s' t' _ hnext => ?_
  obtain ⟨hlags, -, -, hheld⟩ := hnext
  split
  · next hcrlf =>
      rw [hcrlf] at hheld
      exact .ok (hlags.consume hheld)
  · split <;> exact .error

/-- A digit seen and taken brings the second reader nearer, and the digits
behind it do not take it farther away. -/
theorem tracks_digitsFrom (negative : Bool) (before : Option Int) (n : Nat) :
    Tracks Never (Lags n) (digitsFrom negative before) fun n? s t =>
      Lags n s t ∧ (before ≠ none → n? ≠ none) := by
  intro s
  -- each digit is one octet less to come, whatever fills have brought in
  induction hs : s.remaining.length using Nat.strongRecOn
      generalizing s before with
  | ind size ih =>
      intro t h
      rw [digitsFrom_eq]
      refine (h.lookAhead 1).bind fun bs s' t' hlook hseen => ?_
      obtain ⟨hlags, -, -, hheld⟩ := hseen
      cases bs with
      | nil => exact .error
      | cons b bs =>
          simp only
          split
          · split
            · have hpos : 1 ≤ t'.buffer.length :=
                Nat.le_trans (Nat.succ_pos _) hheld
              refine (ih _ (hs ▸ length_remaining_lt_of_lookAhead hlook)
                _ _ rfl _
                ((hlags.consume hpos).mono (Nat.sub_le n 1))).mono
                  (fun _ hf => hf) ?_
              exact fun n? _ _ hlater =>
                ⟨hlater.1, fun _ => hlater.2 (Option.some_ne_none _)⟩
            · exact .error
          · split
            · exact .ok ⟨hlags, id⟩
            · exact .error

/-- If there is a digit at all, the first of them is taken. -/
theorem tracks_digits (negative : Bool) (n : Nat) :
    Tracks Never (Lags (n + 1)) (digits negative) fun n? s t =>
      Lags (n + 1) s t ∧ (n? ≠ none → Lags n s t) := by
  intro s t h
  rw [digits, digitsFrom_eq]
  refine (h.lookAhead 1).bind fun bs s' t' _ hseen => ?_
  obtain ⟨hlags, -, -, hheld⟩ := hseen
  cases bs with
  | nil => exact .error
  | cons b bs =>
      simp only
      split
      · split
        · have hpos : 1 ≤ t'.buffer.length :=
            Nat.le_trans (Nat.succ_pos _) hheld
          refine (tracks_digitsFrom _ _ n _ _ (hlags.consume hpos)).mono
            (fun _ hf => hf) ?_
          exact fun n? _ _ hlater =>
            ⟨hlater.1.mono (Nat.le_succ n), fun _ => hlater.1⟩
        · exact .error
      · split
        · exact .ok ⟨hlags, fun hnone => absurd rfl hnone⟩
        · exact .error

/-- The second reader lags behind a minus sign, with the octets `lead` in front
of it. -/
def Signed (lead : Bytes) (s t : Reader) : Prop :=
  Lags (lead.length + 4) s t ∧
    ∃ rest, t.remaining = lead ++ Decimal.minus :: rest

/-- A number behind a minus sign is refused, or its line has made up the lag. -/
theorem tracks_number : Tracks Never (Signed []) number fun _ => Eq := by
  have hsign : Tracks Never (Signed []) minusSign fun negative s t =>
      negative = true ∧ Lags 3 s t := by
    rintro s t ⟨hlags, rest, hrem⟩
    refine (hlags.lookAhead 1).bind fun bs s' t' _ hseen => ?_
    obtain ⟨hlags, -, hbs, hheld⟩ := hseen
    rw [hrem] at hbs
    subst hbs
    exact .ok ⟨rfl, hlags.consume hheld⟩
  refine hsign.bind fun negative => ?_
  refine ((tracks_digits negative 2).mono (fun _ _ h => h.2) fun _ _ _ h =>
    h).bind fun n? => ?_
  cases n? with
  | none =>
      -- an octet of the lag is left behind the line, but there is no number to
      -- go on with
      exact ((tracks_lineEnd 3).mono (fun _ _ h => h.1) fun _ _ _ h => h).bind
        fun _ => .fail _
  | some n =>
      refine ((tracks_lineEnd 2).mono (fun _ _ h => h.2 (Option.some_ne_none n))
        fun _ _ _ h => h).bind fun _ => .pure fun _ _ h => h.eq

theorem tracks_expect (k : Kind) :
    Tracks Never (Signed [k.lead]) (expect k) fun _ => Signed [] := by
  have hlead : Tracks Never (Signed [k.lead]) peekLead fun got s t =>
      got = k ∧ Signed [k.lead] s t ∧ 1 ≤ t.buffer.length := by
    rintro s t ⟨hlags, rest, hrem⟩
    refine (hlags.lookAhead 1).bind fun bs s' t' _ hseen => ?_
    obtain ⟨hlags, hrem', hbs, hheld⟩ := hseen
    rw [hrem] at hrem' hbs
    subst hbs
    simp only [List.cons_append, List.take_succ_cons, List.take_zero,
      Kind.ofLead?_lead]
    exact .ok ⟨rfl, ⟨hlags, rest, hrem'⟩, hheld⟩
  refine (hlead.mapFault nofun).bind fun got => ?_
  rintro s t ⟨rfl, ⟨hlags, rest, hrem⟩, hheld⟩
  rw [if_pos rfl]
  have hrest := remaining_consume hheld
  rw [hrem] at hrest
  exact .ok ⟨hlags.consume hheld, rest, hrest⟩

/-- The second reader lags behind where the value of the kind starts, by no more
than the header of a stream or with a minus sign in its line. -/
def Overlooks (k : Kind) (s t : Reader) : Prop :=
  Lags 4 s t ∨ Signed [k.lead] s t

/-- The look for the header of a stream makes up the lag, or there is none. -/
theorem tracks_takeStreamHeader (k : Kind) :
    Tracks Never (Overlooks k) (takeStreamHeader k) fun found s t =>
      found = false ∧ Signed [k.lead] s t := by
  have hlength : k.streamHeader.length = 4 := rfl
  rintro s t (hlags | ⟨hlags, rest, hrem⟩)
  · have hlook : lookAhead k.streamHeader.length s =
        lookAhead k.streamHeader.length t :=
      hlags.lookAhead_eq (Nat.le_of_eq hlength.symm)
    have hsame : takeStreamHeader k s = takeStreamHeader k t := by
      simp only [takeStreamHeader, takeForm, startsWith, Step.bind_apply, hlook]
    rw [hsame]
    exact .met _
  · have hstarts :
        Tracked Never (fun found s' t' => found = false ∧ Signed [k.lead] s' t')
        (startsWith k.streamHeader s) (startsWith k.streamHeader t) := by
      refine (hlags.lookAhead _).bind fun bs s' t' _ hseen => ?_
      obtain ⟨hlags, hrem', hbs, -⟩ := hseen
      rw [hrem] at hrem' hbs
      refine .ok ⟨?_, hlags, rest, hrem'⟩
      rw [hbs]
      refine beq_false_of_ne fun heq => ?_
      have hmark := (List.cons.inj (List.cons.inj heq).2).1
      exact absurd hmark (by decide)
    refine hstarts.bind fun found s' t' _ h => ?_
    obtain ⟨rfl, hsigned⟩ := h
    exact .ok ⟨rfl, hsigned⟩

theorem tracks_header (a : Aggregate) :
    Tracks Never (Overlooks (.aggregate a)) (header a) fun _ => Eq := by
  refine (tracks_takeStreamHeader _).bind fun streamed => ?_
  rintro s t ⟨rfl, hsigned⟩
  refine ((tracks_expect _).bind fun _ =>
    (tracks_number.mapFault nofun).bind_met) s t hsigned

end Reader

namespace Gather

open Reader (Overlooks Signed)
open Step (Never Tracks)

theorem tracks_counted (k : Kind) :
    Tracks Never (Draft.Related (Signed [k.lead])) (counted k) fun _ => Eq := by
  refine (tracks_ofRead (Reader.tracks_expect k)).bind fun _ => ?_
  exact ((tracks_ofRead Reader.tracks_number).mono (fun _ _ h => h)
    fun _ _ _ h => h.eq).bind_met

theorem tracks_blob (role : Role) :
    Tracks Never (Draft.Related (Overlooks (.blob role))) (blob role) fun _ =>
      Eq := by
  refine tracks_atomically
    ((tracks_ofRead (Reader.tracks_takeStreamHeader _)).bind fun found => ?_)
  rintro d d' ⟨⟨rfl, hsigned⟩, hgathered⟩
  exact (tracks_counted _).bind_met d d' ⟨hsigned, hgathered⟩

end Gather

namespace Reader

open Step (Never Tracks)

theorem tracks_joinedBlob (role : Role) :
    Tracks Never (Overlooks (.blob role)) (joinedBlob role) fun _ => Eq :=
  (Gather.tracks_collected (R := fun _ => Eq)
    (Gather.tracks_blob role).bind_met).bind_met

/-- A blob is passed over as it is read, header first. -/
theorem tracks_skipBlob {α : Type} (role : Role) (streamed : Read α)
    (f : Nat → Read α) :
    Tracks Never (Overlooks (.blob role)) (do
      if ← takeStreamHeader (.blob role) then streamed
      else f (← (Gather.counted (.blob role)).dropped)) fun _ => Eq := by
  refine (tracks_takeStreamHeader _).bind fun found => ?_
  rintro s t ⟨rfl, hsigned⟩
  exact (Gather.tracks_dropped (R := fun _ => Eq)
    ((Gather.tracks_counted _).mono (fun _ _ h => h)
      fun _ _ _ h => h ▸ ⟨rfl, rfl⟩)).bind_met s t hsigned

end Reader

end RespWire

import RespWire.Proofs.Calm
import RespWire.Reader.Typed

/-!
# What comes next

What a look ahead finds is decided by the octets to come alone, also where it
looks for the nulls of the earlier protocol version. `Kind.ofFront` is that
decision, and `peek_calm` says that it is what a calm reader answers.
-/

namespace RespWire

/-- The kind of the value at the front of some octets. -/
def Kind.ofFront : Bytes → Except Fault Kind
  | [] => .error .endOfInput
  | b :: rest =>
      match Kind.ofLead? b with
      | none => .error (.violation (.unknownKind b))
      | some k =>
          if k.earlierNull?.any (·.isPrefixOf (b :: rest)) then .ok .null
          else .ok k

theorem Kind.eq_of_earlierNull? {k : Kind} {form : Bytes}
    (h : k.earlierNull? = some form) :
    form = k.lead :: Decimal.minus :: Bytes.ofChars ['1', '\r', '\n'] := by
  unfold Kind.earlierNull? at h
  split at h
  · exact (Option.some.inj h).symm
  · exact (Option.some.inj h).symm
  · cases h

theorem Kind.length_of_earlierNull? {k : Kind} {form : Bytes}
    (h : k.earlierNull? = some form) :
    form.length = 5 := by
  rw [Kind.eq_of_earlierNull? h]
  rfl

/-- How many octets are looked at for a null of the earlier protocol version. -/
def Kind.reach (k : Kind) (s : Bytes) : Nat :=
  match k.earlierNull? with
  | none => 0
  | some form => if s[1]? = some Decimal.minus then form.length else 2

theorem Kind.reach_of_minus {k : Kind} {form s : Bytes} {x : UInt8}
    (hform : k.earlierNull? = some form) (hs : s.take 2 = [x, Decimal.minus]) :
    k.reach s = form.length := by
  have hmark : s[1]? = some Decimal.minus := by
    rw [← List.getElem?_take_of_lt (show 1 < 2 by omega), hs]
    rfl
  rw [Kind.reach, hform]
  exact if_pos hmark

theorem Kind.reach_of_other {k : Kind} {form s : Bytes}
    (hform : k.earlierNull? = some form)
    (hs : ∀ x, s.take 2 ≠ [x, Decimal.minus]) :
    k.reach s = 2 := by
  rw [Kind.reach, hform]
  refine if_neg fun hmark => ?_
  match s with
  | [] | [_] => cases hmark
  | x :: sign :: rest =>
      refine hs x ?_
      rw [← Option.some.inj hmark]
      rfl

namespace Reader

theorem attempt_calm (n : Nat) {r : Reader} (h : r.feed.Calm) :
    ∃ after,
      (lookAhead n).attempt r = (.ok (some (r.remaining.take n)), after) ∧
      Ahead r after ∧ after.buffer.take n = r.remaining.take n := by
  obtain ⟨after, hlook, hahead, htake⟩ := lookAhead_calm n h
  exact ⟨after, by rw [Step.attempt, hlook], hahead, htake⟩

/-- Behind a minus sign the look goes on to the end of the null. -/
theorem earlierNull?_of_minus {form : Bytes}
    (hform : k.earlierNull? = some form) {x : UInt8} {r after : Reader}
    (h : (lookAhead 2).attempt r = (.ok (some [x, Decimal.minus]), after)) :
    earlierNull? k r = ((lookAhead form.length).attempt >>= fun next? =>
      pure (if next? = some form then some form else none)) after := by
  simp only [earlierNull?, hform]
  exact (Step.bind_of_ok h).trans rfl

theorem earlierNull?_of_other {form : Bytes}
    (hform : k.earlierNull? = some form) {bs : Bytes}
    (hbs : ∀ x, bs ≠ [x, Decimal.minus]) {r after : Reader}
    (h : (lookAhead 2).attempt r = (.ok (some bs), after)) :
    earlierNull? k r = (.ok none, after) := by
  simp only [earlierNull?, hform]
  rw [Step.bind_of_ok h]
  match bs with
  | [] | [_] | _ :: _ :: _ :: _ => rfl
  | [x, sign] =>
      have hne : sign ≠ Decimal.minus :=
        fun heq => hbs x (congrArg (x :: [·]) heq)
      simp only
      rw [if_neg hne]
      rfl

theorem earlierNull?_calm (k : Kind) {r : Reader} (h : r.feed.Calm) :
    ∃ after, earlierNull? k r =
      (.ok (k.earlierNull?.filter (·.isPrefixOf r.remaining)), after) ∧
      Ahead r after ∧
      ∀ form, k.earlierNull? = some form → form <+: r.remaining →
        form <+: after.buffer := by
  unfold earlierNull?
  cases hk : k.earlierNull? with
  | none => exact ⟨r, rfl, .refl h, fun _ hform => nomatch hform⟩
  | some form =>
      have hform := Kind.eq_of_earlierNull? hk
      obtain ⟨a, ha, haahead, -⟩ := attempt_calm 2 h
      simp only [Step.bind_apply, ha, Option.some.injEq, forall_eq']
      have hnone : ¬ form <+: r.remaining →
          (some form).filter (·.isPrefixOf r.remaining) = none :=
        fun hp => by simpa [Option.filter] using hp
      match hs : r.remaining with
      | [] =>
          have hp : ¬ form <+: ([] : Bytes) := fun hp => by simp [hform] at hp
          exact ⟨a, by rw [hs] at hnone; simp [hnone hp, Step.pure_apply],
            haahead,
            fun hpre => absurd hpre hp⟩
      | [x] =>
          have hp : ¬ form <+: [x] := fun hp => by
            have := hp.length_le
            simp [hform, Bytes.ofChars] at this
          exact ⟨a, by rw [hs] at hnone; simp [hnone hp, Step.pure_apply],
            haahead,
            fun hpre => absurd hpre hp⟩
      | x :: sign :: rest =>
          simp only [List.take_succ_cons, List.take_zero]
          by_cases hsign : sign = Decimal.minus
          · obtain ⟨b, hb, hbahead, htake⟩ :=
              attempt_calm form.length haahead.calm
            rw [haahead.remaining, hs] at hb htake
            rw [if_pos hsign, Step.bind_of_ok hb]
            have hiff : form <+: x :: sign :: rest ↔
                (x :: sign :: rest).take form.length = form := by
              rw [List.prefix_iff_eq_take]
              exact eq_comm
            refine ⟨b, ?_, haahead.trans hbahead, fun hp => ?_⟩
            · simp only [Step.pure_apply, Option.some.injEq, Option.filter,
                List.isPrefixOf_iff_prefix, hiff]
            · rw [← hiff.mp hp, ← htake]
              exact List.take_prefix _ _
          · have hp : ¬ form <+: x :: sign :: rest := fun hp => by
              rw [hform, List.cons_prefix_cons, List.cons_prefix_cons] at hp
              exact hsign hp.2.1.symm
            rw [hs] at hnone
            exact ⟨a, by rw [if_neg hsign, hnone hp, Step.pure_apply], haahead,
              fun hpre => absurd hpre hp⟩

theorem peekLead_calm {r : Reader} (h : r.feed.Calm) :
    ∃ after, Ahead r after ∧ peekLead r =
      match r.remaining with
      | [] => (.error .endOfInput, after)
      | b :: _ =>
          match Kind.ofLead? b with
          | none => (.error (.violation (.unknownKind b)), after)
          | some k => (.ok k, after) := by
  obtain ⟨after, hlook, hahead, -⟩ := lookAhead_calm 1 h
  refine ⟨after, hahead, ?_⟩
  rw [peekLead, Step.bind_of_ok hlook]
  cases r.remaining with
  | nil => rfl
  | cons b rest =>
      simp only [List.take_succ_cons, List.take_zero]
      cases Kind.ofLead? b <;> rfl

theorem peek_calm {r : Reader} (h : r.feed.Calm) :
    ∃ after, peek r = (Kind.ofFront r.remaining, after) ∧ Ahead r after := by
  obtain ⟨a, hahead, hlead⟩ := peekLead_calm h
  rw [peek, Step.bind_apply, hlead]
  cases hs : r.remaining with
  | nil => exact ⟨a, rfl, hahead⟩
  | cons b rest =>
      simp only [Kind.ofFront]
      cases hk : Kind.ofLead? b with
      | none => exact ⟨a, rfl, hahead⟩
      | some k =>
          obtain ⟨after, hnull, hahead', -⟩ := earlierNull?_calm k hahead.calm
          refine ⟨after, ?_, hahead.trans hahead'⟩
          simp only [Step.bind_apply, hnull, hahead.remaining, hs]
          cases k.earlierNull? with
          | none => rfl
          | some form => by_cases hp : form.isPrefixOf (b :: rest) <;>
              simp [hp, Step.pure_apply]

end Reader

end RespWire

import RespWire.Proofs.Consuming
import RespWire.Proofs.Steady

/-!
# Asking for a kind that does not come

A typed read asks for one kind. Whether that kind comes is seen from the octets
to come alone (`Kind.mismatch?`), and where it does not, the read takes nothing.
It may have looked ahead before it found out, for the header of a stream, for
the last chunk or for a null of the earlier protocol version, and what it saw is
held from then on. `Filled` says how much more is held: some fills have been
made, each of them for want of a few octets.
-/

namespace RespWire

/-- The fault of a read that asks for the kind `k` in front of these octets, if
another kind comes or none. -/
def Kind.mismatch? (k : Kind) : Bytes → Option Fault
  | [] => some (.cut (.noValue k))
  | b :: _ =>
      match Kind.ofLead? b with
      | none => some (.violation (.unknownKind b))
      | some got =>
          if got = k then none else some (.violation (.unexpectedKind k got))

/-- The null of the earlier protocol version at the front of some octets. -/
def Kind.nullAhead? : Bytes → Option Bytes
  | [] => none
  | b :: rest =>
      match Kind.ofLead? b with
      | none => none
      | some k => k.earlierNull?.filter (·.isPrefixOf (b :: rest))

/-- As `mismatch?`, where a null of the earlier protocol version passes for a
null. -/
def Kind.refusal? (k : Kind) (s : Bytes) : Option Fault :=
  if k = .null ∧ (Kind.nullAhead? s).isSome then none else k.mismatch? s

theorem Kind.mismatch?_eq_none_iff {k : Kind} {s : Bytes} :
    k.mismatch? s = none ↔ ∃ rest, s = k.lead :: rest := by
  cases s with
  | nil => simp [mismatch?]
  | cons b rest =>
      constructor
      · intro h
        simp only [mismatch?] at h
        cases hlead : ofLead? b with
        | none => simp [hlead] at h
        | some got =>
            have hgot : got = k := by simpa [hlead] using h
            exact ⟨rest, by rw [← hgot, lead_of_ofLead? hlead]⟩
      · intro h
        obtain ⟨rest', heq⟩ := h
        cases heq
        simp [mismatch?, ofLead?_lead]

theorem Kind.mismatch?_ne_tooLarge {k : Kind} {s : Bytes} {f : Fault}
    (h : k.mismatch? s = some f) (size limit : Nat) :
    f ≠ .violation (.tooLarge size limit) := by
  intro hf
  subst hf
  cases s with
  | nil => simp [mismatch?] at h
  | cons b rest =>
      simp only [mismatch?] at h
      split at h
      · simp at h
      · split at h <;> simp at h

namespace Reader

variable {α β : Type} {n : Nat} {r mid after : Reader} {k : Kind}

/-! ## Fills -/

/-- After some fills, none of them made with `n` octets held. -/
inductive Filled (n : Nat) : Reader → Reader → Prop where
  | none (r : Reader) : Filled n r r
  | more {r mid after : Reader} {got : Nat} (hlacks : r.buffer.length < n)
      (hfill : fill r = (.ok got, mid)) (hlater : Filled n mid after) :
        Filled n r after

theorem Filled.trans (h : Filled n r mid) (h' : Filled n mid after) :
    Filled n r after := by
  induction h with
  | none => exact h'
  | more hlacks hfill _ ih => exact .more hlacks hfill (ih h')

theorem Filled.mono {m : Nat} (h : Filled m r after) (hmn : m ≤ n) :
    Filled n r after := by
  induction h with
  | none => exact .none _
  | more hlacks hfill _ ih =>
      exact .more (Nat.lt_of_lt_of_le hlacks hmn) hfill ih

theorem filled_lookAhead (h : r.feed.Calm) (n : Nat) :
    Filled n r (lookAhead n r).2 := by
  induction r using lookAhead_induction (n := n) with
  | enough r hn =>
      rw [lookAhead_of_le hn]
      exact .none r
  | lacks r hn ih =>
      obtain ⟨got, mid, hfill, hahead, -⟩ := fill_calm h
      rw [lookAhead_of_lacks hn, hfill]
      cases hgot : got.length with
      | zero => exact .more hn hfill (.none mid)
      | succ count =>
          rw [hgot] at hfill
          exact .more hn hfill (ih count mid hfill hahead.calm)

theorem ahead_lookAhead (h : r.feed.Calm) (n : Nat) :
    Ahead r (lookAhead n r).2 := by
  obtain ⟨after, hlook, hahead, -⟩ := lookAhead_calm n h
  rw [hlook]
  exact hahead

/-- A reader that has looked ahead by no more than `n`. -/
structure Seen (n : Nat) (r after : Reader) : Prop where
  ahead : Ahead r after
  filled : Filled n r after

theorem Seen.lookAhead (h : r.feed.Calm) {m : Nat} (hm : m ≤ n) :
    Seen n r (Reader.lookAhead m r).2 :=
  ⟨ahead_lookAhead h m, (filled_lookAhead h m).mono hm⟩

theorem Seen.trans (h : Seen n r mid) (h' : Seen n mid after) :
    Seen n r after :=
  ⟨h.ahead.trans h'.ahead, h.filled.trans h'.filled⟩

/-! ## The first octet -/

/-- The look for a first octet goes no farther than that. -/
theorem peekLead_eq_of_calm (h : r.feed.Calm) :
    peekLead r = (match r.remaining with
      | [] => .error .endOfInput
      | b :: _ =>
          match Kind.ofLead? b with
          | none => .error (.violation (.unknownKind b))
          | some k => .ok k, (lookAhead 1 r).2) := by
  obtain ⟨after, hlook, -⟩ := lookAhead_calm 1 h
  rw [peekLead, Step.bind_of_ok hlook, hlook]
  cases r.remaining with
  | nil => rfl
  | cons b rest =>
      simp only [List.take_succ_cons, List.take_zero]
      cases Kind.ofLead? b <;> rfl

theorem expect_of_mismatch (h : r.feed.Calm) {f : Fault}
    (hf : k.mismatch? r.remaining = some f) :
    expect k r = (.error f, (lookAhead 1 r).2) := by
  have hlead := peekLead_eq_of_calm h
  have hfails : ∀ e, peekLead r = (.error e, (lookAhead 1 r).2) →
      expect k r = (.error (noValueInstead k e), (lookAhead 1 r).2) := by
    intro e he
    exact Step.bind_of_error (by rw [Step.mapFault, he])
  cases hs : r.remaining with
  | nil =>
      rw [hs] at hlead hf
      cases hf
      exact hfails _ hlead
  | cons b rest =>
      rw [hs] at hlead hf
      simp only [Kind.mismatch?] at hf
      cases hk : Kind.ofLead? b with
      | none =>
          simp only [hk] at hlead hf
          cases hf
          exact hfails _ hlead
      | some got =>
          simp only [hk] at hlead hf
          by_cases hgot : got = k
          · simp [hgot] at hf
          · rw [if_neg hgot] at hf
            cases hf
            rw [expect, Step.bind_of_ok (Step.mapFault_eq_ok.mpr hlead),
              if_neg hgot]
            rfl

theorem expect_of_lead (h : r.feed.Calm) {s : Bytes}
    (hs : r.remaining = k.lead :: s) :
    expect k r = (.ok (), (consume 1 (lookAhead 1 r).2).2) := by
  have hlead := peekLead_eq_of_calm h
  rw [hs] at hlead
  simp only [Kind.ofLead?_lead] at hlead
  rw [expect, Step.bind_of_ok (Step.mapFault_eq_ok.mpr hlead), if_pos rfl]
  rfl

/-- Behind the first octet of the kind that comes. -/
theorem expect_run (h : r.feed.Calm) {s : Bytes}
    (hs : r.remaining = k.lead :: s) :
    ∃ mid,
      expect k r = (.ok (), mid) ∧ mid.feed.Calm ∧ mid.options = r.options ∧
      mid.remaining = s := by
  obtain ⟨seen, hlook, hahead, htake⟩ := lookAhead_calm 1 h
  have hexpect := expect_of_lead h hs
  rw [hlook] at hexpect
  have hheld : 1 ≤ seen.buffer.length := by
    have hlength := congrArg List.length htake
    rw [hs] at hlength
    simp at hlength
    omega
  obtain ⟨hcalm, hoptions, hrest⟩ := consume_calm hahead.calm hheld
  rw [hahead.remaining, hs] at hrest
  exact ⟨_, hexpect, hcalm, hoptions.trans hahead.options, hrest⟩

/-- A form of the kind does not come where the kind does not. -/
theorem takeForm_of_mismatch {form t : Bytes} (h : r.feed.Calm)
    (hform : form = k.lead :: t) {f : Fault}
    (hf : k.mismatch? r.remaining = some f) :
    takeForm form r = (.ok false, (lookAhead form.length r).2) := by
  obtain ⟨after, hlook, -⟩ := lookAhead_calm form.length h
  have hother : r.remaining.take form.length ≠ form := by
    intro heq
    have hfront : form <+: r.remaining := heq ▸ List.take_prefix _ _
    obtain ⟨rest, hrest⟩ := hfront
    have hnone : k.mismatch? r.remaining = none :=
      Kind.mismatch?_eq_none_iff.mpr ⟨t ++ rest, by rw [← hrest, hform]; rfl⟩
    rw [hnone] at hf
    cases hf
  simp [takeForm_eq, Step.bind_apply, hlook, hother, Step.pure_apply]

/-- A read that asks for the kind `k`, and takes nothing of anything else. -/
def Declines (k : Kind) (m : Read α) : Prop :=
  ∀ r f, r.feed.Calm → k.mismatch? r.remaining = some f →
    ∃ after, m r = (.error f, after) ∧ Seen 5 r after

theorem declines_expect (k : Kind) : Declines k (expect k) :=
  fun _ _ h hf => ⟨_, expect_of_mismatch h hf, .lookAhead h (by omega)⟩

theorem Declines.bind {m : Read α} (hm : Declines k m) (f : α → Read β) :
    Declines k (m >>= f) := by
  intro r e h he
  obtain ⟨after, hrun, hseen⟩ := hm r e h he
  exact ⟨after, Step.bind_of_error hrun, hseen⟩

theorem declines_header (a : Aggregate) :
    Declines (.aggregate a) (header a) := by
  intro r f h hf
  have htake : takeForm (Kind.aggregate a).streamHeader r = _ :=
    takeForm_of_mismatch h rfl hf
  have hlook :
      Seen 5 r (lookAhead (Kind.aggregate a).streamHeader.length r).2 :=
    .lookAhead h (Nat.le_succ 4)
  obtain ⟨after, hrun, hseen⟩ :=
    (declines_expect (.aggregate a)) _ f hlook.ahead.calm
      (by rw [hlook.ahead.remaining]; exact hf)
  exact ⟨after, (Step.bind_of_ok htake).trans (Step.bind_of_error hrun),
    hlook.trans hseen⟩

end Reader

namespace Gather

open Reader (Seen)

variable {α β : Type} {k : Kind}

/-- As for reads; the destination is left alone too. -/
def Declines (k : Kind) (m : Gather α) : Prop :=
  ∀ d f, d.reader.feed.Calm → k.mismatch? d.reader.remaining = some f →
    ∃ after, m d = (.error f, ⟨after, d.gathered⟩) ∧ Seen 5 d.reader after

theorem Declines.ofRead {m : Read α} (hm : Reader.Declines k m) :
    Declines k (ofRead m) := by
  intro d f h hf
  obtain ⟨after, hrun, hseen⟩ := hm d.reader f h hf
  exact ⟨after, ofRead_of_run hrun, hseen⟩

theorem Declines.bind {m : Gather α} (hm : Declines k m) (f : α → Gather β) :
    Declines k (m >>= f) := by
  intro d e h he
  obtain ⟨after, hrun, hseen⟩ := hm d e h he
  exact ⟨after, Step.bind_of_error hrun, hseen⟩

theorem Declines.atomically {m : Gather α} (hm : Declines k m) :
    Declines k (atomically m) := by
  intro d f h hf
  obtain ⟨after, hrun, hseen⟩ := hm d f h hf
  refine ⟨after, ?_, hseen⟩
  have hrun' : m d = (.error f, ⟨after, d.gathered ++ []⟩) := by
    rw [hrun, List.append_nil]
  rw [atomically_of_run hrun', kept, List.append_nil]

/-- What only looks at the draft may come first. -/
theorem Declines.behind {m : Gather α} {f : α → Gather β}
    (hm : ∀ d, ∃ a, m d = (.ok a, d)) (hf : ∀ a, Declines k (f a)) :
    Declines k (m >>= f) := by
  intro d e h he
  obtain ⟨a, hrun⟩ := hm d
  rw [Step.bind_of_ok hrun]
  exact hf a d e h he

theorem Declines.orForm {form t : Bytes} {A B : Gather α}
    (hform : form = k.lead :: t) (hlength : form.length ≤ 5)
    (hB : Declines k B) :
    Declines k (Gather.ofRead (Reader.takeForm form) >>= fun found =>
      if found = true then A else B) := by
  intro d f h hf
  have htake := Reader.takeForm_of_mismatch h hform hf
  have hlook := Seen.lookAhead h hlength
  obtain ⟨after, hrun, hseen⟩ := hB ⟨_, d.gathered⟩ f hlook.ahead.calm
    (by rw [hlook.ahead.remaining]; exact hf)
  refine ⟨after, ?_, hlook.trans hseen⟩
  rw [Step.bind_of_ok (ofRead_of_run htake)]
  exact hrun

theorem declines_counted (k : Kind) : Declines k (counted k) :=
  (Declines.ofRead (Reader.declines_expect k)).bind _

theorem declines_blob (role : Role) : Declines (.blob role) (blob role) := by
  refine (Declines.orForm rfl ?_ ((declines_counted _).bind _)).atomically
  exact Nat.le_succ 4

theorem declines_chunk : Declines .chunk chunk :=
  Declines.orForm rfl (by decide) ((declines_counted _).atomically.bind _)

theorem declines_chunks : Declines .chunk chunks := by
  refine (Declines.behind (fun _ => ⟨_, rfl⟩) fun _ => ?_).atomically
  exact Declines.bind (Declines.bind (declines_chunk.bind _) _) _

theorem declines_simple (role : Role) : Declines (.simple role) (simple role) :=
  ((Declines.ofRead (Reader.declines_expect _)).bind _).atomically

theorem declines_verbatim : Declines .verbatim verbatim :=
  (Declines.behind (fun _ => ⟨_, rfl⟩) fun _ =>
    (declines_counted _).bind _).atomically

end Gather

namespace Reader

variable {r : Reader}

/-! ## Nulls -/

theorem Seen.attempt {r : Reader} (h : r.feed.Calm) {n m : Nat} (hm : m ≤ n) :
    (Reader.lookAhead m).attempt r =
      (.ok (some (r.remaining.take m)), (Reader.lookAhead m r).2) ∧
      Seen n r (Reader.lookAhead m r).2 := by
  obtain ⟨after, hlook, -⟩ := lookAhead_calm m h
  exact ⟨by rw [Step.attempt, hlook], .lookAhead h hm⟩

theorem seen_earlierNull? (k : Kind) (h : r.feed.Calm) :
    Seen 5 r (earlierNull? k r).2 := by
  cases hform : k.earlierNull? with
  | none =>
      simp only [earlierNull?, hform]
      exact ⟨.refl h, .none r⟩
  | some form =>
      obtain ⟨htwo, hseen⟩ := Seen.attempt (n := 5) h (show 2 ≤ 5 by omega)
      by_cases hminus : ∃ x, r.remaining.take 2 = [x, Decimal.minus]
      · obtain ⟨x, hx⟩ := hminus
        rw [hx] at htwo
        obtain ⟨hall, hseen'⟩ := Seen.attempt (n := 5) hseen.ahead.calm
          (Nat.le_of_eq (Kind.length_of_earlierNull? hform))
        rw [earlierNull?_of_minus hform htwo, Step.bind_of_ok hall]
        exact hseen.trans hseen'
      · rw [earlierNull?_of_other hform (not_exists.mp hminus) htwo]
        exact hseen

/-- The null that comes is found by looking ahead, and what is found is
taken. -/
theorem null_of_nullAhead? (h : r.feed.Calm) {form : Bytes}
    (hform : Kind.nullAhead? r.remaining = some form) :
    ∃ after, null r = (.ok (), after) ∧ after.feed.Calm ∧
      after.remaining = r.remaining.drop form.length := by
  have hlead := peekLead_eq_of_calm h
  have hlook : Seen 5 r (lookAhead 1 r).2 := .lookAhead h (by omega)
  cases hs : r.remaining with
  | nil =>
      rw [hs] at hform
      cases hform
  | cons b rest =>
      rw [hs] at hform hlead
      simp only [Kind.nullAhead?] at hform
      cases hk : Kind.ofLead? b with
      | none =>
          rw [hk] at hform
          cases hform
      | some k =>
          simp only [hk] at hform hlead
          obtain ⟨after, hnull, hahead, hheld⟩ :=
            earlierNull?_calm k hlook.ahead.calm
          rw [hlook.ahead.remaining, hs] at hnull hheld
          rw [hform] at hnull
          obtain ⟨hkind, hp⟩ := Option.filter_eq_some_iff.mp hform
          have hfront := hheld form hkind (List.isPrefixOf_iff_prefix.mp hp)
          obtain ⟨hcalm, -, hrest⟩ := consume_calm hahead.calm hfront.length_le
          rw [hahead.remaining, hlook.ahead.remaining, hs] at hrest
          exact ⟨_, (Step.bind_of_ok (Step.mapFault_eq_ok.mpr hlead)).trans
            (Step.bind_of_ok hnull), hcalm, hrest⟩

theorem null_of_mismatch (h : r.feed.Calm)
    (hform : Kind.nullAhead? r.remaining = none) {f : Fault}
    (hf : Kind.null.mismatch? r.remaining = some f) :
    ∃ after, null r = (.error f, after) ∧ Seen 5 r after := by
  have hlead := peekLead_eq_of_calm h
  have hlook : Seen 5 r (lookAhead 1 r).2 := .lookAhead h (by omega)
  have hfails : ∀ e, peekLead r = (.error e, (lookAhead 1 r).2) →
      null r = (.error (noValueInstead .null e), (lookAhead 1 r).2) := by
    intro e he
    exact Step.bind_of_error (by rw [Step.mapFault, he])
  cases hs : r.remaining with
  | nil =>
      rw [hs] at hlead hf
      cases hf
      exact ⟨_, hfails _ hlead, hlook⟩
  | cons b rest =>
      rw [hs] at hlead hf hform
      simp only [Kind.nullAhead?] at hform
      cases hk : Kind.ofLead? b with
      | none =>
          simp only [hk, Kind.mismatch?] at hlead hf
          cases hf
          exact ⟨_, hfails _ hlead, hlook⟩
      | some k =>
          simp only [hk] at hlead hform
          obtain ⟨after, hnull, hahead, -⟩ :=
            earlierNull?_calm k hlook.ahead.calm
          have hseen := seen_earlierNull? k hlook.ahead.calm
          rw [hnull] at hseen
          rw [hlook.ahead.remaining, hs, hform] at hnull
          have hexpect : expect .null after = _ :=
            expect_of_mismatch hahead.calm
            (by rw [hahead.remaining, hlook.ahead.remaining, hs]; exact hf)
          refine ⟨(lookAhead 1 after).2, ?_,
            hlook.trans (hseen.trans (.lookAhead hahead.calm ?_))⟩
          · refine (Step.bind_of_ok (Step.mapFault_eq_ok.mpr hlead)).trans ?_
            exact (Step.bind_of_ok hnull).trans (Step.bind_of_error hexpect)
          · omega

/-- The null of this version is the only one that starts like it. -/
theorem null_of_lead (h : r.feed.Calm) {s : Bytes}
    (hs : r.remaining = Kind.null.lead :: s) :
    null r = (expect .null >>= fun _ => lineEnd) (lookAhead 1 r).2 := by
  have hlead := peekLead_eq_of_calm h
  rw [hs] at hlead
  simp only [Kind.ofLead?_lead] at hlead
  exact (Step.bind_of_ok (Step.mapFault_eq_ok.mpr hlead)).trans
    (Step.bind_of_ok rfl)

/-! ## Calls -/

namespace Call

/-- The kind that a call asks for, if it asks for one. -/
def wants : Call → Option Kind
  | header a => some (.aggregate a)
  | blob role => some (.blob role)
  | chunk | chunks => some .chunk
  | simple role => some (.simple role)
  | verbatim => some .verbatim
  | bigNumber => some .bigNumber
  | boolean => some .boolean
  | double => some .double
  | integer => some .integer
  | close => some .close
  | null => some .null
  | peek | value | skip _ => none

end Call

open Gather
  (Declines.ofRead declines_blob declines_chunk declines_chunks declines_simple
    declines_verbatim) in
/-- A call that asks for one kind takes nothing of another. -/
theorem make_of_refusal {call : Call} {k : Kind} (hcall : call.wants = some k)
    {d : Draft} (h : d.reader.feed.Calm) {f : Fault}
    (hf : k.refusal? d.reader.remaining = some f) :
    ∃ after, call.make d = (.error f, ⟨after, d.gathered⟩) ∧
      Seen 5 d.reader after := by
  have hdeclines : k ≠ .null → Gather.Declines k call.make := by
    intro hnull
    cases call with
    | header a =>
        cases hcall; exact (Declines.ofRead (declines_header a)).bind _
    | blob role => cases hcall; exact (declines_blob role).bind _
    | chunk => cases hcall; exact declines_chunk.bind _
    | chunks => cases hcall; exact declines_chunks.bind _
    | simple role => cases hcall; exact (declines_simple role).bind _
    | verbatim => cases hcall; exact declines_verbatim.bind _
    | null => cases hcall; exact absurd rfl hnull
    | peek | value | skip => cases hcall
    | _ =>
        cases hcall; exact (Declines.ofRead ((declines_expect _).bind _)).bind _
  rw [Kind.refusal?] at hf
  split at hf
  · cases hf
  · next hother =>
      by_cases hk : k = .null
      · subst hk
        have hcall : call = .null := by cases call <;> simp_all [Call.wants]
        subst hcall
        have hnone : Kind.nullAhead? d.reader.remaining = none := by
          simpa using hother
        obtain ⟨after, hrun, hseen⟩ := null_of_mismatch h hnone hf
        exact ⟨after, Step.bind_of_error (Gather.ofRead_of_run hrun), hseen⟩
      · exact hdeclines hk d f h hf

end Reader

end RespWire

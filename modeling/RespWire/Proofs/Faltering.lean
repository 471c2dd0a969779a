import RespWire.Proofs.MissedNull
import RespWire.Proofs.Refusing

/-!
# Reading from a source that fails once

A failure of the source reaches whoever reads, but for one place: met in the
middle of a null of the earlier protocol version, it counts as if the null were
not there. The value is then taken for the array or the blob that the null is
written as, and refused for its negative length. Everywhere else a read answers
what it answers without the failure, or the failure.
-/

namespace RespWire

/-- The faults that a failure of the source may cause: the failure, and what is
reported of a null of the earlier protocol version that it splits. -/
inductive Spoilt (report : Kind → Fault) (e : IoFailure) (front back : Bytes) :
    Fault → Prop where
  | failed : Spoilt report e front back (.io e)
  | split {k : Kind} {form : Bytes} (hform : k.earlierNull? = some form)
      (hsplits : Splits form front back) : Spoilt report e front back (report k)

/-- The fault of a negative length in the header of a value. -/
def Kind.lengthFault : Kind → Fault
  | .aggregate _ => .violation .badCount
  | _ => .violation (.negativeLength (-1))

theorem Kind.lengthFault_ne_tooLarge (k : Kind) (size limit : Nat) :
    k.lengthFault ≠ .violation (.tooLarge size limit) := by
  intro h
  unfold Kind.lengthFault at h
  split at h <;> cases h

namespace Reader

/-! ## A null taken for what it is written as -/

section

variable {α : Type} {o : Options} {k : Kind} {form : Bytes}

theorem expect_earlierNull (h : k.earlierNull? = some form) (rest : Bytes) :
    expect k (holding o (form ++ rest)) =
      (.ok (), holding o (form.tail ++ rest)) := by
  obtain ⟨num, -, rfl⟩ := numeral_of_earlierNull? h
  exact (reads_iff.mp (reads_expect k) _ _ _).mpr ⟨[k.lead], _, rfl, rfl, rfl⟩

theorem number_earlierNull (h : k.earlierNull? = some form) (rest : Bytes) :
    number (holding o (form.tail ++ rest)) = (.ok (-1), holding o rest) := by
  obtain ⟨num, hnum, rfl⟩ := numeral_of_earlierNull? h
  exact (reads_iff.mp reads_number _ _ _).mpr
    ⟨num ++ Bytes.crlf, rest, rfl, rfl, num, rfl, hnum, by decide⟩

theorem takeStreamHeader_earlierNull (h : k.earlierNull? = some form)
    (rest : Bytes) :
    takeStreamHeader k (holding o (form ++ rest)) =
      (.ok false, holding o (form ++ rest)) := by
  obtain ⟨num, hnum, rfl⟩ := numeral_of_earlierNull? h
  rw [takeStreamHeader, takeForm_holding, if_neg (hnum.not_streamHeader k rest)]

theorem refuses_header {a : Aggregate}
    (h : (Kind.aggregate a).earlierNull? = some form) :
    Refuses o (header a) form (.violation .badCount) := by
  intro rest
  have hnumber :
      number.mapFault badCountInstead (holding o (form.tail ++ rest)) =
      (.ok (-1), holding o rest) := by
    rw [Step.mapFault, number_earlierNull h]
  rw [header, Step.bind_of_ok (takeStreamHeader_earlierNull h rest),
    if_neg Bool.false_ne_true,
    Step.bind_of_ok (expect_earlierNull h rest), Step.bind_of_ok hnumber]
  rfl

theorem counted_earlierNull (h : k.earlierNull? = some form) (rest g : Bytes) :
    Gather.counted k ⟨holding o (form ++ rest), g⟩ =
      (.error (.violation (.negativeLength (-1))), ⟨holding o rest, g⟩) := by
  have hexpect : Gather.ofRead (expect k) ⟨holding o (form ++ rest), g⟩ =
      (.ok (), ⟨holding o (form.tail ++ rest), g⟩) :=
    Gather.ofRead_of_run (expect_earlierNull h rest)
  have hnumber : Gather.ofRead number ⟨holding o (form.tail ++ rest), g⟩ =
      (.ok (-1), ⟨holding o rest, g⟩) :=
    Gather.ofRead_of_run (number_earlierNull h rest)
  exact (Step.bind_of_ok hexpect).trans ((Step.bind_of_ok hnumber).trans rfl)

theorem collected_of_error {m : Gather α} {r : Reader} {f : Fault}
    {after : Draft} (h : m ⟨r, []⟩ = (.error f, after)) :
    m.collected r = (.error f, after.reader) := by
  rw [Gather.collected, h]

theorem atomically_of_error {m : Gather α} {d : Draft} {f : Fault}
    {after : Draft} (h : m d = (.error f, after)) : Gather.atomically m d =
      (.error f,
        { after with gathered := after.gathered.take d.gathered.length }) := by
  rw [Gather.atomically, h]

theorem refuses_joinedBlob {role : Role}
    (h : (Kind.blob role).earlierNull? = some form) :
    Refuses o (joinedBlob role) form (.violation (.negativeLength (-1))) := by
  intro rest
  have hheader : Gather.ofRead (takeStreamHeader (.blob role))
      ⟨holding o (form ++ rest), []⟩ =
      (.ok false, ⟨holding o (form ++ rest), []⟩) :=
    Gather.ofRead_of_run (takeStreamHeader_earlierNull h rest)
  have hblob : Gather.blob role ⟨holding o (form ++ rest), []⟩ =
      (.error (.violation (.negativeLength (-1))), ⟨holding o rest, []⟩) := by
    have hrun : (do
        if ← takeStreamHeader (.blob role) then return .streamed
        else return .known (← Gather.counted (.blob role)) : Gather Length)
          ⟨holding o (form ++ rest), []⟩ =
        (.error (.violation (.negativeLength (-1))), ⟨holding o rest, []⟩) :=
      (Step.bind_of_ok hheader).trans
        (Step.bind_of_error (counted_earlierNull h rest []))
    exact atomically_of_error hrun
  rw [joinedBlob, Step.bind_of_error
    (collected_of_error (Step.bind_of_error hblob))]

theorem refuses_skipBlob {role : Role}
    (h : (Kind.blob role).earlierNull? = some form) (streamed : Read α)
    (f : Nat → Read α) :
    Refuses o (do
      if ← takeStreamHeader (.blob role) then streamed
      else f (← (Gather.counted (.blob role)).dropped)) form
      (.violation (.negativeLength (-1))) := by
  intro rest
  have hcounted :
      (Gather.counted (.blob role)).dropped (holding o (form ++ rest)) =
      (.error (.violation (.negativeLength (-1))), holding o rest) :=
    Step.bind_of_error (collected_of_error (counted_earlierNull h rest []))
  rw [Step.bind_of_ok (takeStreamHeader_earlierNull h rest),
    if_neg Bool.false_ne_true, Step.bind_of_error hcounted]

end

open Feed (octetsOf)
open Step (Bears Never Tracked Tracks)

variable {α : Type} {e : IoFailure} {front : Bytes} {later : List Arrival}
  {s t c : Reader} {k : Kind} {form : Bytes}

/-! ## Values -/

/-- What is reported of a null of the earlier protocol version that a failure
splits. -/
abbrev Spoils (e : IoFailure) (front : Bytes) (later : List Arrival) :
    Fault → Prop :=
  Spoilt Kind.lengthFault e front (later.flatMap octetsOf)

/-- A read that answers the same in front of a failure as without it, or what
the failure may cause. -/
abbrev Survives (e : IoFailure) (front : Bytes) (later : List Arrival)
    (m : Read α) : Prop :=
  Tracks (Spoils e front later) (Before e front later) m fun _ =>
    Before e front later

theorem survives_of_bears {m : Read α} (h : Bears e (Before e front later) m) :
    Survives e front later m :=
  fun s t hst => (h s t hst).mono (fun _ hf => hf ▸ .failed) fun _ _ _ h => h

/-- A look for the kind, and what is done for the kinds found. -/
theorem survives_select {f : Kind → Read α}
    (hf : ∀ k, k ≠ .null → Survives e front later (f k))
    (hnull : Tracks (Spoils e front later)
      (fun s t => Before e front later s t ∧ HoldsNull t)
      (f .null) fun _ => Before e front later)
 (hmissed : ∀ k form c, Missed front later k form c →
      Tracked (Spoils e front later) (fun _ => Before e front later)
        ((peek >>= f) c) (f k c)) :
    Survives e front later (peek >>= f) := by
  intro s t h
  rcases h.peek with hpeek | ⟨k, form, c, ht, hs, hmiss⟩
  · refine (hpeek.mono (fun _ hf => hf ▸ .failed) fun _ _ _ h => h).bind
      fun k s' t' _ h => ?_
    by_cases hk : k = .null
    · subst hk
      exact hnull s' t' ⟨h.1, h.2 rfl⟩
    · exact hf k hk s' t' h.1
  · rw [Step.bind_of_ok ht, Step.bind_apply, hs, ← Step.bind_apply]
    exact hmissed k form c hmiss

/-- What a read for a null does behind its look for one of the earlier protocol
version. -/
def nullBehind : Option Bytes → Read Unit
  | some form => consume form.length
  | none => do
      expect .null
      lineEnd

theorem null_eq : null =
    (peekLead.mapFault (noValueInstead .null) >>= fun k =>
      earlierNull? k >>= nullBehind) :=
  rfl

theorem bears_nullBehind (form? : Option Bytes) :
    Bears e (Before e front later) (nullBehind form?) := by
  cases form? with
  | none => exact (bears_expect _).bind fun _ => bears_lineEnd
  | some form => exact bears_consume _

/-- A null that a look has found is held, so that no failure is met in it. -/
theorem tracks_null_found : Tracks (Spoils e front later)
    (fun s t => Before e front later s t ∧ HoldsNull t) null fun _ =>
      Before e front later := by
  rintro s t ⟨h, k, hlead, hheld⟩
  have hlead' : Leads k s := hlead.of_prefix (h.buffer ▸ List.prefix_rfl)
  have hs : peekLead.mapFault (noValueInstead .null) s = (.ok k, s) := by
    rw [Step.mapFault, hlead'.peekLead]
  have ht : peekLead.mapFault (noValueInstead .null) t = (.ok k, t) := by
    rw [Step.mapFault, hlead.peekLead]
  rw [null_eq, Step.bind_of_ok hs, Step.bind_of_ok ht]
  rcases h.earlierNull? k with
    ⟨form?, s', t', hs, ht, h', -⟩ | ⟨form, c, hform, -, -, -, hgrows, hshort⟩
  · rw [Step.bind_of_ok hs, Step.bind_of_ok ht]
    exact survives_of_bears (bears_nullBehind form?) s' t' h'
  · have := ((hheld form hform).trans hgrows).length_le
    omega

theorem noElementInstead_of_spoils {f : Fault} (h : Spoils e front later f)
    (c : Cut) :
    noElementInstead c f = f := by
  cases h with
  | failed => rfl
  | @split k form hform =>
      rcases Kind.array_or_blobString hform with rfl | rfl <;> rfl

theorem survives_nested {item : Read α} (h : Survives e front later item) :
    Survives e front later (nested item) := by
  refine Tracks.mapFault h fun f hf => ?_
  rw [noElementInstead_of_spoils hf]
  exact hf

/-- A read that does the same behind a look for the kind as in front of it. -/
def Repeats (item : Read α) : Prop :=
  ∀ k c, Leads k c → c.feed.DataOnly →
    Tracked Never (fun _ => Eq) (item (peek c).2) (item c)

theorem survives_element? {item : Read α} (h : Survives e front later item)
    (hrepeats : Repeats item) : Survives e front later (element? item) := by
  intro s t hst
  rcases hst.peek with hpeek | ⟨k, form, c, ht, hs, hmiss⟩
  · have hkind : Tracked (Spoils e front later) _
        (peek.mapFault (noElementInstead .noElementOrClose) s)
        (peek.mapFault (noElementInstead .noElementOrClose) t) :=
      (hpeek.mono (fun _ hf => hf ▸ .failed) fun _ _ _ h => h).mapFault
        fun f hf => (noElementInstead_of_spoils hf _).symm ▸ hf
    refine hkind.bind fun k s' t' _ hst' => ?_
    split
    · exact (survives_of_bears bears_close s' t' hst'.1).bind fun _ _ _ _ h =>
        .ok h
    · exact (h s' t' hst'.1).bind fun _ _ _ _ h => .ok h
  · -- no null is written as a close, so both go on to the item,
    -- one of them behind its look
    have hopen : k ≠ .close := by
      rcases Kind.array_or_blobString hmiss.earlier with rfl | rfl <;> decide
    have hpeek := hmiss.leads.peek hmiss.resumed.data
    have hs' : peek.mapFault (noElementInstead .noElementOrClose) s =
        (.ok
          (if (k.earlierNull?.filter (·.isPrefixOf c.remaining)).isSome then
            .null else k), (peek c).2) := by
      rw [Step.mapFault, hs, hpeek]
    have ht' : peek.mapFault (noElementInstead .noElementOrClose) t =
        (.ok k, c) := by
      rw [Step.mapFault, ht]
    rw [element?, Step.bind_of_ok hs', Step.bind_of_ok ht',
      if_neg hopen, if_neg]
    · refine ((hrepeats k c hmiss.leads hmiss.resumed.data).of_met
        (R := fun _ => Eq)).bind
        fun _ _ _ _ h => ?_
      exact h ▸ .met _
    · split
      · decide
      · exact hopen

theorem survives_elements (a : Aggregate) {item : Read α}
    {streamed : Read (Option α)} (h : Survives e front later item)
    (hs : Survives e front later streamed) :
    Survives e front later (elements a item streamed) := by
  refine (survives_of_bears (bears_header a)).bind fun n => ?_
  cases n with
  | known n => exact h.times n
  | streamed =>
      exact (survives_of_bears bears_remainingLength).bind fun budget =>
        hs.collect _

theorem survives_pair {item : Read Value} (h : Survives e front later item) :
    Survives e front later (pair item) :=
  (survives_nested h).bind fun _ => (survives_nested h).bind fun _ => .done _

theorem Repeats.nested {item : Read α} (h : Repeats item) :
    Repeats (nested item) :=
  fun k c hlead hdata => (h k c hlead hdata).mapFault nofun

theorem survives_pair? {item : Read Value} (h : Survives e front later item)
    (hrepeats : Repeats item) : Survives e front later (pair? item) := by
  refine (survives_element? (survives_nested h) hrepeats.nested).bind
    fun key? => ?_
  cases key? with
  | none => exact .done _
  | some key => exact (survives_nested h).bind fun _ => .done _

theorem repeats_valueWithin (levels : Nat) : Repeats (valueWithin levels) := by
  intro k c hlead hdata
  cases levels with
  | zero =>
      obtain ⟨after, hpeek, hahead⟩ := peek_calm hdata.calm
      have hoptions : (peek c).2.options = c.options := by
        rw [hpeek]
        exact hahead.options
      simp only [valueWithin, tooDeep, getOptions, Step.bind_apply, hoptions]
      exact .error
  | succ levels =>
      simp only [valueWithin, Step.bind_apply, hlead.peek_peek hdata]
      exact .met _

/-- In front of a part of a null the branch of its kind goes on as the whole
read would, or is refused for the length that the null has for it. -/
theorem Missed.spoilt {f : Kind → Read α} {R : α → Reader → Reader → Prop}
    (h : Missed front later k form c)
    (hmeets : Tracks Never (Overlooks k) (f k) fun _ => Eq)
    (hrefused : form <+: c.remaining → (f k c).1 = .error k.lengthFault) :
    Tracked (Spoils e front later) R ((Reader.peek >>= f) c) (f k c) :=
  h.tracked hmeets fun hnull =>
    ⟨_, .split h.earlier (h.splits hnull), hrefused hnull⟩

theorem error_bind {β : Type} {m : Read α} {r : Reader} {f : Fault}
    (h : (m r).1 = .error f) (g : α → Read β) : ((m >>= g) r).1 = .error f := by
  have hm : m r = (.error f, (m r).2) := Prod.ext h rfl
  rw [Step.bind_of_error hm]

theorem Missed.error_header {a : Aggregate}
    (h : Missed front later (.aggregate a) form c)
    (hnull : form <+: c.remaining) :
    (header a c).1 = .error (.violation .badCount) := by
  obtain ⟨rest, hrest⟩ := hnull
  exact (refuses_header h.earlier).of_steady (steady_header a)
    (Kind.lengthFault_ne_tooLarge (.aggregate a)) h.resumed.data.calm hrest.symm

theorem survives_valueWithin (levels : Nat) :
    Survives e front later (valueWithin levels) := by
  induction levels with
  | zero => exact survives_of_bears bears_tooDeep
  | succ levels ih =>
      rw [valueWithin]
      refine survives_select (fun k hk => ?_) ?_ fun k form c hmiss => ?_
      · cases k with
        | aggregate a =>
            cases a with
            | sequence s =>
                exact (survives_elements _ (survives_nested ih)
                  (survives_element? (survives_nested ih)
                    (repeats_valueWithin levels).nested)).bind fun _ => .done _
            | pairing p =>
                exact (survives_elements _ (survives_pair ih) (survives_pair? ih
                  (repeats_valueWithin levels))).bind fun _ => .done _
        | blob role =>
            exact (survives_of_bears (bears_joinedBlob role)).bind fun _ =>
              .done _
        | simple role =>
            exact (survives_of_bears
              (Gather.bears_collected (Gather.bears_simple role))).bind fun _ =>
                .done _
        | verbatim =>
            exact (survives_of_bears
              (Gather.bears_collected Gather.bears_verbatim)).bind fun _ =>
                .done _
        | bigNumber =>
            exact (survives_of_bears (bears_lineOf _ _)).bind fun _ => .done _
        | boolean =>
            exact (survives_of_bears bears_boolean).bind fun _ => .done _
        | double =>
            exact (survives_of_bears (bears_lineOf _ _)).bind fun _ => .done _
        | integer =>
            exact (survives_of_bears bears_integer).bind fun _ => .done _
        | null => exact absurd rfl hk
        | chunk => exact .fail _
        | close => exact .fail _
      · exact tracks_null_found.bind fun _ => .done _
      · -- the first line settles it: there the two readers meet,
        -- or the length is negative
        rcases Kind.array_or_blobString hmiss.earlier with rfl | rfl
        · refine hmiss.spoilt (tracks_header _).bind_met.bind_met fun hnull =>
            ?_
          exact error_bind (error_bind (hmiss.error_header hnull) _) _
        · refine hmiss.spoilt (tracks_joinedBlob _).bind_met fun hnull => ?_
          obtain ⟨rest, hrest⟩ := hnull
          exact error_bind
            ((refuses_joinedBlob hmiss.earlier).of_steady (steady_joinedBlob _)
              Kind.blobString.lengthFault_ne_tooLarge hmiss.resumed.data.calm
              hrest.symm) _

/-! ## Skips -/

theorem survives_skipElements (a : Aggregate) {item : Read Kind}
    (h : Survives e front later item) (n : Length) :
    Survives e front later (skipElements a item n) := by
  cases n with
  | known n => exact ((survives_nested h).times _).bind fun _ => .done _
  | streamed =>
      have helement? : Survives e front later (skipElement? item) := by
        refine (survives_nested h).bind fun k => ?_
        split <;> exact .done _
      exact (survives_of_bears bears_remainingLength).bind fun _ =>
        (helement?.collect _).bind fun _ => .done _

theorem survives_skipWithin (deep : Bool) (levels : Nat) :
    Survives e front later (skipWithin deep levels) := by
  induction levels with
  | zero => exact survives_of_bears bears_tooDeep
  | succ levels ih =>
      rw [skipWithin]
      refine survives_select (fun k hk => ?_) ?_ fun k form c hmiss => ?_
      · cases k with
        | aggregate a =>
            refine (survives_of_bears (bears_header a)).bind fun n => ?_
            simp only
            split
            · exact (survives_skipElements a ih n).bind fun _ => .done _
            · exact .done _
        | blob role =>
            refine (survives_of_bears (bears_takeForm _)).bind fun streamed =>
              ?_
            simp only
            split
            · split
              · exact (survives_of_bears bears_skipChunks).bind fun _ => .done _
              · exact .done _
            · exact (survives_of_bears
                (Gather.bears_dropped (Gather.bears_counted _))).bind
                fun _ => .done _
        | chunk =>
            simp only
            split
            · exact (survives_of_bears bears_skipChunks).bind fun _ => .done _
            · exact (survives_of_bears bears_skipChunk).bind fun _ => .done _
        | simple role =>
            exact (survives_of_bears (bears_expect _)).bind fun _ =>
              (survives_of_bears
                (Gather.bears_dropped (Gather.bears_lineFrom 0))).bind fun _ =>
                  .done _
        | verbatim =>
            exact (survives_of_bears
              (Gather.bears_dropped Gather.bears_verbatim)).bind fun _ =>
                .done _
        | bigNumber =>
            exact (survives_of_bears (bears_lineOf _ _)).bind fun _ => .done _
        | boolean =>
            exact (survives_of_bears bears_boolean).bind fun _ => .done _
        | double =>
            exact (survives_of_bears (bears_lineOf _ _)).bind fun _ => .done _
        | integer =>
            exact (survives_of_bears bears_integer).bind fun _ => .done _
        | null => exact absurd rfl hk
        | close => exact (survives_of_bears bears_close).bind fun _ => .done _
      · exact tracks_null_found.bind fun _ => .done _
      · rcases Kind.array_or_blobString hmiss.earlier with rfl | rfl
        · refine hmiss.spoilt (tracks_header _).bind_met fun hnull => ?_
          exact error_bind (hmiss.error_header hnull) _
        · refine hmiss.spoilt (tracks_skipBlob _ _ _) fun hnull => ?_
          obtain ⟨rest, hrest⟩ := hnull
          refine (refuses_skipBlob hmiss.earlier _ _).of_steady
            (steady_skipBlob _ ?_ fun _ => .pure _)
            Kind.blobString.lengthFault_ne_tooLarge hmiss.resumed.data.calm
              hrest.symm
          split
          · exact steady_skipChunks.bind fun _ => .pure _
          · exact .pure _

/-! ## A null on its own -/

theorem Leads.expect_null (h : Leads k c) (hk : k ≠ .null) :
    expect .null c = (.error (.violation (.unexpectedKind .null k)), c) := by
  have hlead : Reader.peekLead.mapFault (noValueInstead .null) c =
      (.ok k, c) := by
    rw [Step.mapFault, h.peekLead]
  rw [expect, Step.bind_of_ok hlead, if_neg hk]
  rfl

/-- What is reported of a null that is asked for and that a failure splits. -/
abbrev SpoilsNull (e : IoFailure) (front : Bytes) (later : List Arrival) :
    Fault → Prop :=
  Spoilt (fun k => .violation (.unexpectedKind .null k)) e front
    (later.flatMap octetsOf)

theorem Missed.tracked_nullBehind {R : Unit → Reader → Reader → Prop}
    (h : Missed front later k form c) :
    Tracked (SpoilsNull e front later) R
      ((Reader.earlierNull? k >>= nullBehind) c) (nullBehind none c) := by
  have hk : k ≠ .null := fun heq => by
    have hform := h.earlier
    rw [heq] at hform
    cases hform
  have hrefused : nullBehind none c =
      (.error (.violation (.unexpectedKind .null k)), c) :=
    Step.bind_of_error (h.leads.expect_null hk)
  rw [hrefused]
  by_cases hnull : form <+: c.remaining
  · exact .stopped (.split h.earlier (h.splits hnull))
  · -- no null is there, so both are refused for the kind that leads
    have hnone := earlierNull?_of_dataOnly h.resumed.data k
    rw [h.earlier, Option.filter_some, if_neg (by simpa using hnull)] at hnone
    rw [Step.bind_of_ok hnone, nullBehind,
      Step.bind_of_error ((h.leads.lookAhead _).expect_null hk)]
    exact .error

/-- A null that is asked for is found or not as a value of its kind is; a part
of it is a value of another kind. -/
theorem tracks_null :
    Tracks (SpoilsNull e front later) (Before e front later) null
    fun _ => Before e front later := by
  intro s t h
  rw [null_eq]
  rcases h.peekLead with ⟨k, s1, t1, hs, ht, h1, hlead⟩ | ⟨f, c, ht, hf⟩
  · have hs' : peekLead.mapFault (noValueInstead .null) s = (.ok k, s1) := by
      rw [Step.mapFault, hs]
    have ht' : peekLead.mapFault (noValueInstead .null) t = (.ok k, t1) := by
      rw [Step.mapFault, ht]
    rw [Step.bind_of_ok hs', Step.bind_of_ok ht']
    rcases h1.earlierNull? k with
      ⟨form?, s2, t2, hs2, ht2, h2, -⟩ |
        ⟨form, c, hform, hc, hsame, hresumed, hgrows, hshort⟩
    · rw [Step.bind_of_ok hs2, Step.bind_of_ok ht2]
      exact (bears_nullBehind form? s2 t2 h2).mono (fun _ hf => hf ▸ .failed)
        fun _ _ _ h => h
    · have hmissed : Missed front later k form c :=
        ⟨hresumed, hform, hlead.of_prefix hgrows, hshort⟩
      rw [Step.bind_of_ok hc, Step.bind_apply, hsame, ← Step.bind_apply]
      exact hmissed.tracked_nullBehind
  · have ht' : peekLead.mapFault (noValueInstead .null) t =
        (.error (noValueInstead .null f), c) := by
      rw [Step.mapFault, ht]
    rw [Step.bind_of_error ht']
    rcases hf with rfl | ⟨s', hs⟩
    · exact .stopped .failed
    · have hs' : peekLead.mapFault (noValueInstead .null) s =
          (.error (noValueInstead .null f), s') := by
        rw [Step.mapFault, hs]
      rw [Step.bind_of_error hs']
      exact .error

/-! ## One failure -/

/-- A failure between two pieces of data, seen by reads that start in front of
it. What is answered is what would be answered without the failure, or the
failure; or else the failure splits a null of the earlier protocol version, and
what is reported is the length or the kind of what the null is written as. -/
theorem answer_of_failure {before later : List Arrival} {portion : Option Nat}
    {e : IoFailure} (hdata : Feed.DataOnly ⟨before ++ later, portion⟩)
    (he : e.kind ≠ .interrupted) (o : Options) (buffer : Bytes) :
    let s : Reader := ⟨⟨before ++ later, portion⟩, o, buffer⟩
    let t : Reader := ⟨⟨before ++ .failure e :: later, portion⟩, o, buffer⟩
    let front := buffer ++ before.flatMap octetsOf
    let back := later.flatMap octetsOf
    ((value t).1 = (value s).1 ∨
      ∃ f, Spoilt Kind.lengthFault e front back f ∧ (value t).1 = .error f) ∧
    (∀ deep, (skip deep t).1 = (skip deep s).1 ∨
      ∃ f,
        Spoilt Kind.lengthFault e front back f ∧ (skip deep t).1 = .error f) ∧
    ((null t).1 = (null s).1 ∨
      ∃ f,
        Spoilt (fun k => .violation (.unexpectedKind .null k)) e front back f ∧
        (null t).1 = .error f) := by
  intro s t front back
  have h : Before e front later s t := .mk hdata he List.suffix_rfl
  refine ⟨?_, fun deep => ?_, (tracks_null s t h).result⟩
  · exact (survives_valueWithin (o.maxDepth + 1) s t h).result
  · exact (survives_skipWithin deep (o.maxDepth + 1) s t h).result

/-- A failure behind the first octet of a blob that is nested in an array, with
a null to come. -/
theorem answer_of_failure_nested :
    let before : List Arrival := [.piece (Bytes.ofChars "2\r\n$".toList)]
    let later : List Arrival :=
      [.piece (Bytes.ofChars "2\r\nok\r".toList),
        .piece (Bytes.ofChars "\n*-1\r\n".toList)]
    let e : IoFailure := ⟨.timedOut, "late"⟩
    let s : Reader := ⟨⟨before ++ later, some 3⟩, {}, Bytes.ofChars ['*']⟩
    let t : Reader :=
      ⟨⟨before ++ .failure e :: later, some 3⟩, {}, Bytes.ofChars ['*']⟩
    let answer : Except Fault Value :=
      .ok (.array [.blob .string (Bytes.ofChars ['o', 'k']), .null])
    s.feed.DataOnly ∧ e.kind ≠ .interrupted ∧ (value s).1 = answer ∧
      ((value t).1 = answer ∨
        ∃ f, Spoilt Kind.lengthFault e (Bytes.ofChars "*2\r\n$".toList)
        (Bytes.ofChars "2\r\nok\r\n*-1\r\n".toList) f ∧
          (value t).1 = .error f) := by
  intro before later e s t answer
  have hdata : s.feed.DataOnly := by decide
  have he : e.kind ≠ .interrupted := by decide
  have htwo : Count (Bytes.ofChars ['2']) 2 :=
    ⟨.plain (.singleton rfl), by decide⟩
  have hderives : Derives s.options.limits 0 _
      (.array [.blob .string (Bytes.ofChars ['o', 'k']), .null]) :=
    .sequence htwo (.cons (by decide) (.blob ⟨_, htwo, by decide, rfl⟩)
      (.cons (by decide) .nullArray .nil))
  have hs : (value s).1 = answer := by
    obtain ⟨after, hvalue, -⟩ :=
      (reads_value.accepts_iff steady_value hdata.calm _ []).mpr
        ⟨_, by decide, hderives⟩
    rw [hvalue]
  have hvalue := (answer_of_failure hdata he {} (Bytes.ofChars ['*'])).1
  exact ⟨hdata, he, hs, hvalue.imp_left fun h => h.trans hs⟩

/-- A failure behind the first octet of a null is reported as a wrong length. -/
theorem value_of_split_null :
    let e : IoFailure := ⟨.timedOut, "late"⟩
    let s : Reader :=
      ⟨⟨[.piece (Bytes.ofChars ['*']), .piece (Bytes.ofChars "-1\r\n".toList)],
        none⟩, {}, []⟩
    let t : Reader := ⟨⟨[.piece (Bytes.ofChars ['*']), .failure e,
      .piece (Bytes.ofChars "-1\r\n".toList)], none⟩, {}, []⟩
    (value s).1 = .ok .null ∧ (value t).1 = .error (.violation .badCount) ∧
      (value t).1 ≠ (value s).1 ∧ (value t).1 ≠ .error (.io e) := by
  intro e s t
  have hs : (value s).1 = .ok .null := by with_unfolding_all rfl
  have ht : (value t).1 = .error (.violation .badCount) := by
    with_unfolding_all rfl
  rw [hs, ht]
  refine ⟨rfl, rfl, ?_, ?_⟩
  · intro h
    cases h
  · intro h
    cases h

end Reader

end RespWire

import RespWire.Proofs.LineLimit
import RespWire.Proofs.LookedAhead

/-!
# Faults about the kind of a value

Only the look for a first octet asks of which kind a value is. Once the first
octet of the right kind is there, a read has no more complaints about kinds,
whatever comes behind it. The only reads that ask again are those of all the
chunks of a stream, once for each chunk.
-/

namespace RespWire

/-- Whether a fault complains of the kind that came. -/
def Fault.AboutKind : Fault → Prop
  | .violation (.unknownKind _) | .violation (.unexpectedKind _ _) => True
  | _ => False

/-- A result that is no complaint about a kind. -/
def KindFits {α : Type} (result : Except Fault α) : Prop :=
  ∀ f, result = .error f → ¬ f.AboutKind

section Results

variable {σ α β : Type} {result : Except Fault α}

theorem kindFits_ok (a : α) : KindFits (.ok a : Except Fault α) := nofun

theorem kindFits_error {f : Fault} (h : ¬ f.AboutKind) :
    KindFits (.error f : Except Fault α) := by
  intro e he
  cases he
  exact h

theorem KindFits.map (h : KindFits result) (f : α → β) :
    KindFits (result.map f) := by
  cases result with
  | ok a => exact kindFits_ok _
  | error e => exact kindFits_error (h e rfl)

theorem KindFits.bind (h : KindFits result) {f : α → Except Fault β}
    (hf : ∀ a, KindFits (f a)) :
    KindFits (result.bind f) := by
  cases result with
  | ok a => exact hf a
  | error e => exact kindFits_error (h e rfl)

/-- What is done first, and what is done behind it. -/
theorem kindFits_bind {m : Step σ α} {f : α → Step σ β} {s : σ}
    (hm : KindFits (m s).1)
    (hf : ∀ a s', m s = (.ok a, s') → KindFits (f a s').1) :
    KindFits ((m >>= f) s).1 := by
  rw [Step.bind_apply]
  generalize hx : m s = x at hm
  obtain ⟨result, after⟩ := x
  cases result with
  | ok a => exact hf a after hx
  | error e => exact kindFits_error (hm e rfl)

theorem kindFits_bind_pure {m : Step σ α} {s : σ} (hm : KindFits (m s).1)
    (f : α → β) :
    KindFits ((m >>= fun a => pure (f a)) s).1 :=
  kindFits_bind hm fun _ _ _ => kindFits_ok _

theorem kindFits_of_run {m : Step σ α} {s after : σ} (h : m s = (result, after))
    (hresult : KindFits result) : KindFits (m s).1 := by
  rw [h]
  exact hresult

end Results

/-! ## What lines and bodies answer -/

theorem NumberLine.kindFits_result (l : NumberLine) : KindFits l.result := by
  intro f hf
  unfold result at hf
  split at hf
  · cases hf
    exact id
  · split at hf
    · cases hf
      exact id
    · split at hf
      · cases hf
        exact id
      · split at hf
        · cases hf
          exact id
        · split at hf
          · cases hf
            exact id
          · cases hf

theorem NumberLine.kindFits_lengthResult (l : NumberLine) :
    KindFits l.lengthResult := by
  have h := l.kindFits_result
  intro f hf
  unfold lengthResult at hf
  split at hf
  · split at hf
    · cases hf
      exact id
    · cases hf
  · cases hf
    exact id
  · next e _ hresult =>
      cases hf
      exact h _ hresult

theorem BodyOutcome.kindFits_of (limit? : Option Nat) (n : Int) (s : Bytes) :
    KindFits (of limit? n s).result := by
  unfold of
  split
  · exact kindFits_error id
  · split
    · exact kindFits_error id
    · split
      · exact kindFits_error id
      · split
        · exact kindFits_ok _
        · exact kindFits_error id

theorem LineOutcome.kindFits {limit? : Option Nat} {s x rest : Bytes}
    {result : Except Fault Unit} (h : LineOutcome limit? s result x rest) :
    KindFits result := by
  cases h with
  | tooLarge => exact kindFits_error id
  | cut => exact kindFits_error id
  | ended => exact kindFits_ok _

theorem kindFits_verbatimBody (body : Bytes) :
    KindFits (verbatimBody body) := by
  unfold verbatimBody
  split
  · split
    · exact kindFits_ok _
    · exact kindFits_error id
  · exact kindFits_error id

namespace Reader

theorem kindFits_doubleLine (text : Bytes) : KindFits (doubleLine text) := by
  unfold doubleLine
  split
  · exact kindFits_error id
  · split
    · exact kindFits_ok _
    · exact kindFits_error id

theorem kindFits_bigNumberLine (text : Bytes) :
    KindFits (bigNumberLine text) := by
  unfold bigNumberLine
  split
  · exact kindFits_error id
  · simp only
    split
    · exact kindFits_error id
    · exact kindFits_ok _

variable {r : Reader} {s : Bytes}

theorem kindFits_lineEnd (h : r.feed.Calm) : KindFits (lineEnd r).1 := by
  obtain ⟨after, hrun, -⟩ := lineEnd_run h
  refine kindFits_of_run hrun ?_
  split
  · exact kindFits_ok _
  · exact kindFits_error id

theorem kindFits_number (h : r.feed.Calm) : KindFits (number r).1 := by
  obtain ⟨after, hrun, -⟩ := number_run h
  exact kindFits_of_run hrun (NumberLine.kindFits_result _)

/-- Behind the first octet of the kind that comes. -/
theorem kindFits_expect_bind {α : Type} {k : Kind} {f : Unit → Read α}
    (h : r.feed.Calm) (hs : r.remaining = k.lead :: s)
    (hf : ∀ mid, mid.feed.Calm → KindFits (f () mid).1) :
    KindFits ((expect k >>= f) r).1 := by
  obtain ⟨mid, hmid, hcalm, -⟩ := expect_run h hs
  rw [Step.bind_of_ok hmid]
  exact hf mid hcalm

theorem kindFits_header {a : Aggregate} (h : r.feed.Calm)
    (hs : r.remaining = (Kind.aggregate a).lead :: s) :
    KindFits (header a r).1 := by
  rw [header_run h hs]
  split
  · exact kindFits_ok _
  · exact NumberLine.kindFits_lengthResult _

theorem kindFits_integer (h : r.feed.Calm)
    (hs : r.remaining = Kind.integer.lead :: s) :
    KindFits (integer r).1 := by
  rw [integer_run h hs]
  exact (NumberLine.kindFits_result _).map _

theorem kindFits_close (h : r.feed.Calm)
    (hs : r.remaining = Kind.close.lead :: s) :
    KindFits (close r).1 :=
  kindFits_expect_bind h hs fun _ hmid => kindFits_lineEnd hmid

theorem kindFits_boolean (h : r.feed.Calm)
    (hs : r.remaining = Kind.boolean.lead :: s) :
    KindFits (boolean r).1 := by
  refine kindFits_expect_bind h hs fun mid hmid => ?_
  obtain ⟨after, hlook, -⟩ := lookAhead_calm 3 hmid
  rw [Step.bind_of_ok hlook]
  generalize mid.remaining.take 3 = bs
  match bs with
  | [] | [_] | [_, _] | _ :: _ :: _ :: _ :: _ => exact kindFits_error id
  | [x, y, z] =>
      simp only
      split
      · split
        · exact kindFits_ok _
        · exact kindFits_error id
      · exact kindFits_error id

theorem kindFits_null (h : r.feed.Calm)
    (hs : Kind.null.refusal? r.remaining = none) :
    KindFits (null r).1 := by
  cases hform : Kind.nullAhead? r.remaining with
  | some form =>
      obtain ⟨after, hrun, -⟩ := null_of_nullAhead? h hform
      exact kindFits_of_run hrun (kindFits_ok _)
  | none =>
      have hlead : Kind.null.mismatch? r.remaining = none := by
        simpa [Kind.refusal?, hform] using hs
      obtain ⟨s, hs⟩ := Kind.mismatch?_eq_none_iff.mp hlead
      have hlook := ahead_lookAhead h 1
      rw [null_of_lead h hs]
      exact kindFits_expect_bind hlook.calm (hlook.remaining.trans hs)
        fun _ hmid => kindFits_lineEnd hmid

theorem calm_of_ok {α : Type} {m : Read α} (hm : Step.Steady lockstep m)
    (h : r.feed.Calm) {a : α} {after : Reader} (hrun : m r = (.ok a, after)) :
    after.feed.Calm := by
  obtain ⟨after', -, halike⟩ := hm.of_ok (⟨h, h, rfl, rfl⟩ : Alike r r) hrun
  exact halike.calm_left

end Reader

namespace Gather

open Reader (expect)

variable {α : Type} {k : Kind} {d : Draft} {s : Bytes}

theorem kindFits_atomically {m : Gather α} (h : KindFits (m d).1) :
    KindFits (atomically m d).1 := by
  rw [atomically_result]
  exact h

theorem kindFits_expect_bind {f : Unit → Gather α} (h : d.reader.feed.Calm)
    (hs : d.reader.remaining = k.lead :: s)
    (hf : ∀ mid : Reader, mid.feed.Calm → KindFits (f () ⟨mid, d.gathered⟩).1) :
    KindFits ((ofRead (expect k) >>= f) d).1 := by
  obtain ⟨mid, hmid, hcalm, -⟩ := Reader.expect_run h hs
  rw [Step.bind_of_ok (ofRead_of_run hmid)]
  exact hf mid hcalm

theorem kindFits_line (h : d.reader.feed.Calm) : KindFits (line d).1 := by
  obtain ⟨result, x, after, hrun, houtcome⟩ := line_outcome h
  exact kindFits_of_run hrun houtcome.kindFits

theorem kindFits_body (n : Nat) (h : d.reader.feed.Calm) :
    KindFits ((body n >>= fun _ => pure n) d).1 := by
  obtain ⟨after, hrun, -⟩ := body_run n h rfl
  exact kindFits_of_run hrun (BodyOutcome.kindFits_of _ _ _)

theorem kindFits_counted (h : d.reader.feed.Calm)
    (hs : d.reader.remaining = k.lead :: s) :
    KindFits (counted k d).1 := by
  refine kindFits_expect_bind h hs fun mid hmid => ?_
  have hnumber := Reader.kindFits_number hmid
  refine kindFits_bind (m := ofRead Reader.number) hnumber fun n after hn => ?_
  split
  · exact kindFits_error id
  · refine kindFits_body n.toNat ?_
    cases hrun : Reader.number mid with
    | mk result later =>
        cases (ofRead_of_run (d := ⟨mid, d.gathered⟩) hrun).symm.trans hn
        exact Reader.calm_of_ok Reader.steady_number hmid hrun

theorem kindFits_simple {role : Role} (h : d.reader.feed.Calm)
    (hs : d.reader.remaining = (Kind.simple role).lead :: s) :
    KindFits (simple role d).1 :=
  kindFits_atomically
    (kindFits_expect_bind h hs fun _ hmid => kindFits_line hmid)

/-- A form that may come instead of a value is no complaint. -/
theorem kindFits_orForm {form : Bytes} {A B : Gather α} (h : d.reader.feed.Calm)
    (hA : ∀ e, KindFits (A e).1)
    (hB : ∀ mid : Reader, mid.feed.Calm → mid.remaining = d.reader.remaining →
      KindFits (B ⟨mid, d.gathered⟩).1) :
    KindFits ((ofRead (Reader.takeForm form) >>= fun found =>
      if found = true then A else B) d).1 := by
  by_cases hform : form <+: d.reader.remaining
  · have hheld :=
      Reader.takeForm_holding (o := d.reader.options) form d.reader.remaining
    rw [if_pos hform] at hheld
    obtain ⟨mid, hmid, -⟩ :=
      (Reader.steady_takeForm form).of_run (Reader.alike_holding h) hheld nofun
    rw [Step.bind_of_ok (ofRead_of_run hmid)]
    exact hA _
  · obtain ⟨mid, hmid, hcalm, -, hrest⟩ := Reader.takeForm_run h hform
    rw [Step.bind_of_ok (ofRead_of_run hmid)]
    exact hB mid hcalm hrest

theorem kindFits_blob {role : Role} (h : d.reader.feed.Calm)
    (hs : d.reader.remaining = (Kind.blob role).lead :: s) :
    KindFits (blob role d).1 := by
  refine kindFits_atomically
    (kindFits_orForm h (fun _ => kindFits_ok _) fun mid hmid hrest => ?_)
  exact kindFits_bind_pure (kindFits_counted hmid (hrest.trans hs)) _

theorem kindFits_chunk (h : d.reader.feed.Calm)
    (hs : d.reader.remaining = Kind.chunk.lead :: s) :
    KindFits (chunk d).1 := by
  refine kindFits_orForm h (fun _ => kindFits_ok _) fun mid hmid hrest => ?_
  exact kindFits_bind_pure
    (kindFits_atomically (kindFits_counted hmid (hrest.trans hs))) _

theorem kindFits_verbatim (h : d.reader.feed.Calm)
    (hs : d.reader.remaining = Kind.verbatim.lead :: s) :
    KindFits (verbatim d).1 := by
  have hcounted := kindFits_counted h hs
  obtain ⟨body, hbody⟩ := appends_counted .verbatim d
  cases hrun : counted .verbatim d with
  | mk result after =>
      rw [hrun] at hcounted hbody
      obtain ⟨r, g⟩ := after
      rw [← show d.gathered ++ body = g from hbody] at hrun
      refine kindFits_of_run (verbatim_of_counted hrun)
        (hcounted.bind fun _ => ?_)
      exact (kindFits_verbatimBody body).map _

theorem chunks_result (d : Draft) :
    (chunks d).1 = (chunk?.collect (d.reader.remaining.length + 1) d).1.map
      fun _ => () := by
  rw [chunks, atomically_result]
  exact congrArg Prod.fst (Step.map_of_run (Prod.eta _).symm fun _ => ())

/-- A run of chunks complains of a kind only behind a chunk that is not the
last. -/
theorem chunk_of_chunks {f : Fault} (h : d.reader.feed.Calm)
    (hs : d.reader.remaining = Kind.chunk.lead :: s)
    (hf : (chunks d).1 = .error f) (hkind : f.AboutKind) :
    ∃ mid, chunk d = (.ok false, mid) := by
  have hfirst := kindFits_chunk h hs
  rw [chunks_result, Step.collect] at hf
  cases hrun : chunk d with
  | mk result mid =>
      cases result with
      | error e =>
          have hturn : chunk? d = (.error e, mid) := Step.bind_of_error hrun
          rw [Step.bind_of_error hturn] at hf
          cases hf
          rw [hrun] at hfirst
          exact absurd hkind (hfirst f rfl)
      | ok last =>
          cases last with
          | false => exact ⟨mid, rfl⟩
          | true =>
              have hturn : chunk? d = (.ok none, mid) := Step.bind_of_ok hrun
              rw [Step.bind_of_ok hturn] at hf
              cases hf

end Gather

namespace Reader

theorem kindFits_lineOf {α : Type} {r : Reader} {s : Bytes} {k : Kind}
    {settle : Bytes → Except Fault α} (hsettle : ∀ text, KindFits (settle text))
    (h : r.feed.Calm) (hs : r.remaining = k.lead :: s) :
    KindFits (lineOf k settle r).1 := by
  rw [lineOf_result]
  have hline :
      KindFits
        ((Gather.ofRead (expect k) >>= fun _ => Gather.line) ⟨r, []⟩).1 :=
    Gather.kindFits_expect_bind h hs fun _ hmid => Gather.kindFits_line hmid
  exact hline.bind fun _ => hsettle _

theorem kindFits_ofRead {α : Type} {m : Read α} {d : Draft}
    (h : KindFits (m d.reader).1) :
    KindFits (Gather.ofRead m d).1 := h

/-- A call has no complaint about the kind that it asks for; all chunks of a
stream are not asked for at once. -/
theorem kindFits_make {call : Call} {k : Kind} (hcall : call.wants = some k)
    (hchunks : call ≠ .chunks) {d : Draft} (h : d.reader.feed.Calm)
    (hs : k.refusal? d.reader.remaining = none) : KindFits (call.make d).1 := by
  by_cases hk : k = .null
  · subst hk
    have hnull : call = .null := by cases call <;> simp_all [Call.wants]
    subst hnull
    exact kindFits_bind_pure (kindFits_ofRead (kindFits_null h hs)) _
  · have hlead : k.mismatch? d.reader.remaining = none := by
      simpa [Kind.refusal?, hk] using hs
    obtain ⟨s, hs⟩ := Kind.mismatch?_eq_none_iff.mp hlead
    cases call with
    | header a =>
        cases hcall; exact kindFits_bind_pure
          (kindFits_ofRead (kindFits_header h hs)) _
    | blob role =>
        cases hcall; exact kindFits_bind_pure (Gather.kindFits_blob h hs) _
    | chunk =>
        cases hcall; exact kindFits_bind_pure (Gather.kindFits_chunk h hs) _
    | chunks => exact absurd rfl hchunks
    | simple role =>
        cases hcall; exact kindFits_bind_pure (Gather.kindFits_simple h hs) _
    | verbatim =>
        cases hcall; exact kindFits_bind_pure (Gather.kindFits_verbatim h hs) _
    | bigNumber =>
        cases hcall
        exact kindFits_bind_pure
          (kindFits_ofRead (kindFits_lineOf kindFits_bigNumberLine h hs)) _
    | boolean =>
        cases hcall; exact kindFits_bind_pure
          (kindFits_ofRead (kindFits_boolean h hs)) _
    | double =>
        cases hcall
        exact kindFits_bind_pure
          (kindFits_ofRead (kindFits_lineOf kindFits_doubleLine h hs)) _
    | integer =>
        cases hcall; exact kindFits_bind_pure
          (kindFits_ofRead (kindFits_integer h hs)) _
    | close =>
        cases hcall; exact kindFits_bind_pure
          (kindFits_ofRead (kindFits_close h hs)) _
    | null => cases hcall; exact absurd rfl hk
    | peek | value | skip => cases hcall

end Reader

end RespWire

import RespWire.Proofs.BreakingOff
import RespWire.Proofs.Numerals
import RespWire.Proofs.Scalars

/-!
# Parts that break off

The parts that values are made of, read where the input ends inside them. For
lines and bodies there is nothing to it: what has come is all within the limits,
and then the end of the line or of the body is missed.

A number has to be looked at digit by digit once more, because its digits are in
range only as the front of a number that is. And where a number is due, the
rest of a header of a stream is no number: that is the one place where a cut is
not seen as one.
-/

namespace RespWire

namespace Reader

variable {α β : Type} {o : Options}

/-- A read fails for the end of the input wherever a word of `L` breaks off. -/
def StopsShort (o : Options) (m : Read α) (L : Bytes → α → Prop) : Prop :=
  Step.StopsShort (fun s _ => holding o s) m fun w a p => p = [] ∧ L w a

theorem stopsShort_iff {m : Read α} {L : Bytes → α → Prop} :
    StopsShort o m L ↔ ∀ p t a, t ≠ [] → L (p ++ t) a →
      ∃ f after, m (holding o p) = (.error f, after) ∧ BreaksOff p f :=
  ⟨fun h p t a ht hw => h p t [] a [] ht ⟨rfl, hw⟩,
    fun h p t _ a _ ht hw => h p t a ht hw.2⟩

theorem StopsShort.mono {m : Read α} {L M : Bytes → α → Prop}
    (h : StopsShort o m M) (hL : ∀ w a, L w a → ∃ a', M w a') :
    StopsShort o m L :=
  Step.StopsShort.mono h fun w a _ hw => (hL w a hw.2).imp fun _ hM =>
    ⟨[], rfl, hM⟩

theorem StopsShort.of_nil {m : Read α} {L : Bytes → α → Prop}
    (hL : ∀ w a, L w a → w = []) :
    StopsShort o m L :=
  Step.StopsShort.of_nil fun w a _ hw => hL w a hw.2

theorem StopsShort.bind {m : Read α} {f : α → Read β} {L : Bytes → α → Prop}
    {M : α → Bytes → β → Prop} (hreads : Reads o m L) (hm : StopsShort o m L)
    (hf : ∀ a, StopsShort o (f a) (M a)) :
    StopsShort o (m >>= f) fun w b => ∃ u t a, w = u ++ t ∧ L u a ∧ M a t b :=
  (Step.StopsShort.bind hreads hm hf).mono fun _ b _ ⟨_, u, t, a, hw, hL, hM⟩ =>
    ⟨b, [], u, t, a, [], [], hw, rfl, ⟨rfl, hL⟩, rfl, hM⟩

theorem StopsShort.bind_left {m : Read α} {L : Bytes → α → Prop}
    (hm : StopsShort o m L) (f : α → Read β) {M : Bytes → β → Prop}
    (hM : ∀ w b, M w b → ∃ a, L w a) :
    StopsShort o (m >>= f) M :=
  Step.StopsShort.bind_left hm f fun w b _ hw => (hM w b hw.2).imp fun _ hL =>
    ⟨[], rfl, hL⟩

theorem StopsShort.bind_pure {m : Read α} {L : Bytes → α → Prop}
    (hm : StopsShort o m L) (f : α → β) :
    StopsShort o (m >>= fun a => Pure.pure (f a)) fun w b =>
      ∃ a, b = f a ∧ L w a :=
  hm.bind_left _ fun _ _ hw => hw.imp fun _ h => h.2

/-! ## First octets, ends of lines and numbers -/

theorem stopsShort_expect (k : Kind) :
    StopsShort o (expect k) fun w _ => w = [k.lead] := by
  refine stopsShort_iff.mpr fun p t _ ht hw => ?_
  cases p with
  | nil => exact ⟨_, _, rfl, .cut (.noValue k)⟩
  | cons b p =>
      exact absurd (List.append_eq_nil_iff.mp (List.cons.inj hw).2).2 ht

theorem lineEnd_cut {p t : Bytes} (ht : t ≠ []) (hp : p ++ t = Bytes.crlf) :
    lineEnd (holding o p) = (.error (.cut .noLineEnd), holding o p) := by
  have hshort : p.length < 2 := by
    have hlength := congrArg List.length hp
    have hpos := List.length_pos_iff.mpr ht
    rw [List.length_append, Bytes.length_crlf] at hlength
    omega
  have hcrlf : ¬ Bytes.crlf <+: p :=
    fun hprefix => Nat.not_lt.mpr hprefix.length_le hshort
  rw [lineEnd_holding, if_neg hcrlf, if_pos hshort]

theorem stopsShort_lineEnd : StopsShort o lineEnd fun w _ => w = Bytes.crlf :=
  stopsShort_iff.mpr fun _ _ _ ht hw => ⟨_, _, lineEnd_cut ht hw, .cut _⟩

theorem numberBehind_cut {negative : Bool} {ds p t : Bytes} (hds : Digits ds)
    (hfits : fits (signedBy negative (Decimal.value ds)) = true) (ht : t ≠ [])
    (hp : p ++ t = ds ++ Bytes.crlf) :
    ∃ c after,
      numberBehind negative (holding o p) = (.error (.cut c), after) := by
  have hzero := signedBy_zero negative
  have hmissed : ∀ s, p ++ s = ds →
      digits negative (holding o p) =
        (.error (.cut .noNumber), holding o []) := by
    rintro s rfl
    have hdigits : ∀ d ∈ p, Decimal.isDigit d = true :=
      fun d hd => hds.isDigit d (List.mem_append_left s hd)
    rw [Decimal.value, Decimal.valueFrom_append] at hfits
    have hrun := digitsFrom_append (o := o) hdigits hzero
      (fits_signedBy_of_le (le_valueFrom _ s) hfits) []
    rw [List.append_nil] at hrun
    exact hrun.trans (digitsFrom_holding negative _ [])
  rcases Step.breaksOff_cases hp ht with ⟨s, -, hp⟩ | ⟨s, rfl, hcrlf⟩
  · -- all digits that came are taken, and what should end them is missing
    exact ⟨_, _, Step.bind_of_error (hmissed s hp)⟩
  · cases s with
    | nil => exact ⟨_, _, Step.bind_of_error (hmissed [] (by simp))⟩
    | cons b s =>
        obtain ⟨rfl, -⟩ := List.cons.inj hcrlf
        have hrun : digits negative (holding o (ds ++ Bytes.cr :: s)) =
            (.ok (some (signedBy negative (Decimal.value ds))),
              holding o (Bytes.cr :: s)) :=
          (digitsFrom_eq_ok_iff hzero).mpr
            ⟨ds, Bytes.cr, s, rfl, rfl, Or.inl rfl, hds.isDigit,
              Or.inr ⟨hds.ne_nil, rfl, hfits⟩⟩
        refine ⟨.noLineEnd, holding o (Bytes.cr :: s), ?_⟩
        rw [numberBehind, Step.bind_of_ok hrun]
        exact Step.bind_of_error (lineEnd_cut ht hcrlf)

theorem number_cut {num p t : Bytes} {n : Int} (hnum : Numeral num n)
    (hfits : fits n = true) (ht : t ≠ []) (hp : p ++ t = num ++ Bytes.crlf) :
    ∃ c after, number (holding o p) = (.error (.cut c), after) := by
  have hsign := minusSign_holding (o := o) p
  cases p with
  | nil => exact ⟨_, _, Step.bind_of_error hsign⟩
  | cons b p =>
      simp only at hsign
      cases hnum with
      | plain hds =>
          have hb : b ≠ Decimal.minus := by
            cases num with
            | nil => exact absurd rfl hds.ne_nil
            | cons d ds =>
                rintro rfl
                have hd := hds.isDigit d (.head _)
                rw [← (List.cons.inj hp).1] at hd
                exact absurd hd (by decide)
          rw [if_neg hb] at hsign
          rw [number_eq, Step.bind_of_ok hsign]
          exact numberBehind_cut hds hfits ht hp
      | negative hds =>
          obtain ⟨rfl, htail⟩ := List.cons.inj hp
          rw [if_pos rfl] at hsign
          rw [number_eq, Step.bind_of_ok hsign]
          exact numberBehind_cut hds hfits ht htail

theorem stopsShort_number :
    StopsShort o number fun w n =>
      ∃ num, w = num ++ Bytes.crlf ∧ Numeral num n ∧ fits n = true :=
  stopsShort_iff.mpr fun _ _ _ ht ⟨_, hp, hnum, hfits⟩ => by
    obtain ⟨c, after, hrun⟩ := number_cut hnum hfits ht hp
    exact ⟨_, after, hrun, .cut c⟩

/-! ## Headers

A header with a number is cut in the number, whatever the number is. That covers
the nulls of the earlier protocol version too, since they are not recognised
before they are complete. -/

/-- Where the header of a stream breaks off behind its first octet, what is left
of it is read as a number. -/
theorem number_of_streamHeader {k : Kind} {p t : Bytes} (ht : t ≠ [])
    (hp : k.lead :: p ++ t = k.streamHeader) :
    ∃ f after, number (holding o p) = (.error f, after) ∧
      ((∃ c, f = .cut c) ∨
        f = .violation (.badDigit '?'.toUInt8) ∧
          EndsInHeader (k.lead :: p) k) := by
  have hmark : ∀ s, number (holding o ('?'.toUInt8 :: s)) =
      (.error (.violation (.badDigit '?'.toUInt8)),
        holding o ('?'.toUInt8 :: s)) := by
    intro s
    have hsign := minusSign_holding (o := o) ('?'.toUInt8 :: s)
    have hdigits := digitsFrom_holding (o := o) false none ('?'.toUInt8 :: s)
    rw [number_eq, Step.bind_of_ok hsign]
    exact Step.bind_of_error hdigits
  have htail : p ++ t = ['?'.toUInt8, Bytes.cr, Bytes.lf] :=
    (List.cons.inj hp).2
  rcases p with _ | ⟨a, _ | ⟨b, _ | ⟨c, p⟩⟩⟩
  · exact ⟨_, _, Step.bind_of_error (minusSign_holding []), Or.inl ⟨_, rfl⟩⟩
  · obtain ⟨rfl, -⟩ := List.cons.inj htail
    exact ⟨_, _, hmark [], Or.inr ⟨rfl, Or.inl List.suffix_rfl⟩⟩
  · obtain ⟨rfl, hnext⟩ := List.cons.inj htail
    obtain ⟨rfl, -⟩ := List.cons.inj hnext
    exact ⟨_, _, hmark [Bytes.cr], Or.inr ⟨rfl, Or.inr List.suffix_rfl⟩⟩
  · simp only [List.cons_append, List.cons.injEq] at htail
    exact absurd (List.append_eq_nil_iff.mp htail.2.2.2).2 ht

/-- The words of a header: that of a stream, or a line with any number. -/
def Header (k : Kind) (w : Bytes) : Prop :=
  w = k.streamHeader ∨ ∃ num n, Numeral num n ∧ fits n = true ∧ w = k.line num

theorem StopsShort.orForm (form : Bytes) {A B : Read α} {L M : Bytes → α → Prop}
    (hA : StopsShort o A L) (hB : StopsShort o B M)
    (hform : ∀ p t, t ≠ [] → p ++ t = form →
      ∃ f after, B (holding o p) = (.error f, after) ∧ BreaksOff p f) :
    StopsShort o (takeForm form >>= fun found => if found = true then A else B)
      fun w a =>
        (∃ t, w = form ++ t ∧ L t a) ∨ (M w a ∧ ¬ form <+: w) :=
  (Step.StopsShort.orForm (fun s _ => takeForm_holding form s) hA hB
    fun p t _ ht hp => hform p t ht hp).mono fun _ a _ hw => ⟨a, [], hw.2.imp
      (fun ⟨t, ht, hL⟩ => ⟨t, ht, rfl, hL⟩) fun ⟨hM, hnot⟩ => ⟨⟨rfl, hM⟩, hnot⟩⟩

theorem stopsShort_header (a : Aggregate) :
    StopsShort o (header a) fun w _ => Header (.aggregate a) w := by
  have hexpect : ∀ s,
      expect (.aggregate a) (holding o ((Kind.aggregate a).lead :: s)) =
      (.ok (), holding o s) := fun s =>
    (reads_iff.mp (reads_expect _) _ () _).mpr ⟨[_], s, rfl, rfl, rfl⟩
  have hnumber : StopsShort o (number.mapFault badCountInstead) fun w n =>
      ∃ num, w = num ++ Bytes.crlf ∧ Numeral num n ∧ fits n = true := by
    refine stopsShort_iff.mpr fun p t n ht ⟨num, hp, hnum, hfits⟩ => ?_
    obtain ⟨c, after, hrun⟩ := number_cut (o := o) hnum hfits ht hp
    exact ⟨.cut c, after, by rw [Step.mapFault, hrun]; rfl, .cut c⟩
  refine (StopsShort.orForm _ (L := fun w _ => w = [])
    (M := fun w _ => ∃ num n, Numeral num n ∧ fits n = true ∧
      w = (Kind.aggregate a).line num)
    (.of_nil fun _ _ h => h) ?_ ?_).mono ?_
  · refine (StopsShort.bind (reads_expect _) (stopsShort_expect _) fun _ =>
      hnumber.bind_left _
        (M := fun w _ => ∃ num n, Numeral num n ∧ fits n = true ∧
          w = num ++ Bytes.crlf) ?_).mono ?_
    · rintro w _ ⟨num, n, hnum, hfits, rfl⟩
      exact ⟨n, num, rfl, hnum, hfits⟩
    · rintro w n ⟨num, m, hnum, hfits, rfl⟩
      exact ⟨n, _, _, (), rfl, rfl, num, m, hnum, hfits, rfl⟩
  · -- a part of the header of a stream is not recognised and goes to the number
    intro p t ht hp
    cases p with
    | nil => exact ⟨_, _, rfl, .cut (.noValue _)⟩
    | cons b p =>
        obtain rfl : b = (Kind.aggregate a).lead := (List.cons.inj hp).1
        obtain ⟨f, after, hrun, hf⟩ := number_of_streamHeader (o := o) ht hp
        refine ⟨badCountInstead f, after, ?_, ?_⟩
        · rw [Step.bind_of_ok (hexpect p)]
          exact Step.bind_of_error (by rw [Step.mapFault, hrun])
        · rcases hf with ⟨c, rfl⟩ | ⟨rfl, hends⟩
          · exact .cut c
          · exact .count hends
  · rintro w n (rfl | ⟨num, m, hnum, hfits, rfl⟩)
    · exact ⟨n, Or.inl ⟨[], (List.append_nil _).symm, rfl⟩⟩
    · refine ⟨n, Or.inr ⟨⟨num, m, hnum, hfits, rfl⟩, ?_⟩⟩
      rw [← List.append_nil ((Kind.aggregate a).line num)]
      exact hnum.not_streamHeader _ []

end Reader

namespace Gather

open Reader (holding)

variable {α : Type} {o : Options}

/-- A gathering read fails for the end of the input wherever a word of `L`
breaks off. -/
def StopsShort (o : Options) (m : Gather α) (L : Bytes → α → Bytes → Prop) :
    Prop :=
  Step.StopsShort (fun s g => (⟨holding o s, g⟩ : Draft)) m L

theorem StopsShort.ofRead {m : Read α} {L : Bytes → α → Prop}
    (h : Reader.StopsShort o m L) :
    StopsShort o (ofRead m) fun w a p => p = [] ∧ L w a := by
  intro p t g a q ht hw
  obtain ⟨f, after, hrun, hf⟩ := Reader.stopsShort_iff.mp h p t a ht hw.2
  exact ⟨f, ⟨after, g⟩, ofRead_of_run hrun, hf⟩

theorem StopsShort.collected {m : Gather α} {L : Bytes → α → Bytes → Prop}
    (h : StopsShort o m L) :
    Reader.StopsShort o (collected m) fun w x => L w x.1 x.2 := by
  refine Reader.stopsShort_iff.mpr fun p t x ht hw => ?_
  obtain ⟨f, after, hrun, hf⟩ := h p t [] x.1 x.2 ht hw
  exact ⟨f, after.reader, by rw [Gather.collected, hrun], hf⟩

theorem StopsShort.atomically {m : Gather α} {L : Bytes → α → Bytes → Prop}
    (h : StopsShort o m L) : StopsShort o (atomically m) L := by
  intro p t g a q ht hw
  obtain ⟨f, after, hrun, hf⟩ := h p t g a q ht hw
  exact ⟨f, { after with gathered := after.gathered.take g.length },
    by rw [Gather.atomically, hrun], hf⟩

/-! ## Lines and bodies -/

theorem stopsShort_bodyFrom (n : Nat) :
    StopsShort o (bodyFrom n) fun w _ p => w = p ∧ p.length = n := by
  intro p t g _ q ht hw
  obtain ⟨rfl, hlength⟩ := hw
  have hpos := List.length_pos_iff.mpr ht
  rw [List.length_append] at hlength
  obtain ⟨r, -, -, -, hbody⟩ :=
    bodyFrom_calm n ⟨holding o p, g⟩ (Reader.calm_holding p)
  rw [Reader.remaining_holding, if_neg (by omega)] at hbody
  exact ⟨_, _, hbody, .cut _⟩

theorem stopsShort_body (n : Nat) :
    StopsShort o (body n) fun w _ p =>
      w = p ++ Bytes.crlf ∧ p.length = n ∧ o.limits.Admits n := by
  have hsize : StopsShort o (ofRead (Reader.checkSize n)) fun w _ p =>
      p = [] ∧ w = [] ∧ o.limits.Admits n :=
        Step.StopsShort.of_nil fun _ _ _ h => h.2.1
  have hend : StopsShort o (ofRead Reader.lineEnd) fun w _ p =>
      p = [] ∧ w = Bytes.crlf :=
    .ofRead Reader.stopsShort_lineEnd
  refine (Step.StopsShort.bind (Gathers.ofRead (reads_checkSize n)) hsize
    fun _ =>
      Step.StopsShort.bind (gathers_bodyFrom n) (stopsShort_bodyFrom n) fun _ =>
        hend).mono
      fun w _ p hw => ?_
  obtain ⟨rfl, hlength, hadmits⟩ := hw
  exact ⟨(), p, [], _, (), [], p, rfl, rfl, ⟨rfl, rfl, hadmits⟩, p, Bytes.crlf,
    (), p, [], rfl, (List.append_nil p).symm, ⟨rfl, hlength⟩, rfl, rfl⟩

theorem stopsShort_expect (k : Kind) :
    StopsShort o (ofRead (Reader.expect k)) fun w _ p =>
      p = [] ∧ w = [k.lead] :=
  .ofRead (Reader.stopsShort_expect k)

theorem stopsShort_number :
    StopsShort o (ofRead Reader.number) fun w n p =>
      p = [] ∧ ∃ num, w = num ++ Bytes.crlf ∧ Numeral num n ∧
        Reader.fits n = true :=
  .ofRead Reader.stopsShort_number

theorem stopsShort_counted (k : Kind) :
    StopsShort o (counted k) fun w n p =>
      n = p.length ∧ Counted o.limits k w p := by
  have hbody : ∀ n : Int,
      StopsShort o (if n < 0 then Step.violate (.negativeLength n)
        else body n.toNat >>= fun _ => Pure.pure n.toNat) fun w _ p =>
          n = (p.length : Int) ∧ w = p ++ Bytes.crlf ∧
            o.limits.Admits p.length := by
    intro n
    by_cases hn : n < 0
    · rintro p t g _ q - ⟨hq, -⟩
      omega
    · rw [if_neg hn]
      refine Step.StopsShort.bind_left (stopsShort_body n.toNat) _
        fun w m p hw => ?_
      obtain ⟨hlength, rfl, hadmits⟩ := hw
      have hp : p.length = n.toNat := by omega
      exact ⟨(), p, rfl, hp, hp ▸ hadmits⟩
  refine (Step.StopsShort.bind (Gathers.ofRead (Reader.reads_expect k))
    (stopsShort_expect k)
    fun _ => Step.StopsShort.bind (Gathers.ofRead Reader.reads_number)
      stopsShort_number hbody).mono
    fun w n p hw => ?_
  obtain ⟨rfl, num, hcount, hadmits, rfl⟩ := hw
  obtain ⟨hnum, hfits⟩ := Reader.count_iff.mp hcount
  exact ⟨p.length, p, [k.lead], _, (), [], p, rfl, rfl, ⟨rfl, rfl⟩,
    num ++ Bytes.crlf,
    p ++ Bytes.crlf, p.length, [], p, rfl, rfl, ⟨rfl, num, rfl, hnum, hfits⟩,
      rfl, rfl, hadmits⟩

/-- What announces a body is cut in its number, whatever the number is. -/
theorem stopsShort_counted_line (k : Kind) :
    StopsShort o (counted k) fun w _ _ =>
      ∃ num n, Numeral num n ∧ Reader.fits n = true ∧ w = k.line num := by
  refine (Step.StopsShort.bind (Gathers.ofRead (Reader.reads_expect k))
    (stopsShort_expect k)
    fun _ => Step.StopsShort.bind_left stopsShort_number _ (M := fun w _ _ =>
      ∃ num n, w = num ++ Bytes.crlf ∧ Numeral num n ∧ Reader.fits n = true)
        ?_).mono ?_
  · rintro w _ _ ⟨num, n, hw, hnum, hfits⟩
    exact ⟨n, [], rfl, num, hw, hnum, hfits⟩
  · rintro w n q ⟨num, m, hnum, hfits, rfl⟩
    exact ⟨n, [], [k.lead], _, (), [], [], rfl, rfl, ⟨rfl, rfl⟩, num, m, rfl,
      hnum, hfits⟩

theorem stopsShort_line :
    StopsShort o line fun w _ p =>
      Bytes.lf ∉ p ∧ o.limits.Admits p.length ∧ w = p ++ Bytes.crlf := by
  intro p t g _ q ht hw
  obtain ⟨hlf, hadmits, hsplit⟩ := hw
  have hp : Bytes.lf ∉ p := by
    rcases Step.breaksOff_cases hsplit ht with ⟨s, -, rfl⟩ | ⟨s, rfl, hcrlf⟩
    · exact fun hmem => hlf (List.mem_append_left s hmem)
    · rcases s with _ | ⟨b, _ | ⟨c, s⟩⟩
      · rwa [List.append_nil]
      · obtain ⟨rfl, -⟩ := List.cons.inj hcrlf
        rw [List.mem_append, not_or]
        exact ⟨hlf, by decide⟩
      · simp only [List.cons_append, Bytes.crlf, List.cons.injEq] at hcrlf
        exact absurd (List.append_eq_nil_iff.mp hcrlf.2.2).2 ht
  have hlength : p.length < q.length + 2 := by
    have hpos := List.length_pos_iff.mpr ht
    have := congrArg List.length hsplit
    rw [List.length_append, List.length_append, Bytes.length_crlf] at this
    omega
  obtain ⟨r, -, -, -, hline⟩ :=
    lineFrom_of_admits 0 ⟨holding o p, g⟩ (Reader.calm_holding p) (by
    rw [Reader.remaining_holding, Reader.throughLineFeed_of_notMem hp]
    exact fun limit hl => Nat.le_trans (by omega) (hadmits limit hl))
  rw [Reader.remaining_holding] at hline
  simp only [if_neg hp] at hline
  exact ⟨_, _, hline, .cut _⟩

/-! ## Typed reads of octets -/

theorem StopsShort.orForm (form : Bytes) {A B : Gather α}
    {L M : Bytes → α → Bytes → Prop} (hA : StopsShort o A L)
    (hB : StopsShort o B M) (hform : ∀ p t g, t ≠ [] → p ++ t = form →
      ∃ f after, B ⟨holding o p, g⟩ = (.error f, after) ∧ BreaksOff p f) :
    StopsShort o (Gather.ofRead (Reader.takeForm form) >>= fun found =>
      if found = true then A else B) fun w a p =>
        (∃ t, w = form ++ t ∧ L t a p) ∨ (M w a p ∧ ¬ form <+: w) :=
  Step.StopsShort.orForm (fun s g => takeForm_holding form s g) hA hB hform

theorem counted_of_streamHeader {role : Role} {p t g : Bytes} (ht : t ≠ [])
    (hp : p ++ t = (Kind.blob role).streamHeader) :
    ∃ f after, counted (.blob role) ⟨holding o p, g⟩ = (.error f, after) ∧
      BreaksOff p f := by
  cases p with
  | nil =>
      obtain ⟨f, after, hrun, hf⟩ :=
        stopsShort_expect (.blob role) [] [(Kind.blob role).lead] g ()
        [] (List.cons_ne_nil _ _) ⟨rfl, rfl⟩
      exact ⟨f, after, Step.bind_of_error hrun, hf⟩
  | cons b p =>
      obtain rfl : b = (Kind.blob role).lead := (List.cons.inj hp).1
      have hexpect : ofRead (Reader.expect (.blob role))
          ⟨holding o ((Kind.blob role).lead :: p), g⟩ =
            (.ok (), ⟨holding o p, g ++ []⟩) :=
        (Gathers.ofRead (Reader.reads_expect _) _ g () _).mpr
          ⟨[_], p, [], rfl, rfl, rfl, rfl⟩
      obtain ⟨f, after, hrun, hf⟩ :=
        Reader.number_of_streamHeader (o := o) ht hp
      have hnumber :
          ofRead Reader.number ⟨holding o p, g ++ []⟩ =
            (.error f, ⟨after, g ++ []⟩) :=
        ofRead_of_run hrun
      refine ⟨f, ⟨after, g ++ []⟩, ?_, ?_⟩
      · exact (Step.bind_of_ok hexpect).trans (Step.bind_of_error hnumber)
      · rcases hf with ⟨c, rfl⟩ | ⟨rfl, hends⟩
        · exact .cut c
        · exact .digit hends

theorem stopsShort_blob (role : Role) :
    StopsShort o (blob role) fun w n p =>
      ((n = .streamed ∧ w = (Kind.blob role).streamHeader ∧ p = []) ∨
        (n = .known p.length ∧ Counted o.limits (.blob role) w p)) ∨
      ∃ num m, Numeral num m ∧ Reader.fits m = true ∧
        w = (Kind.blob role).line num := by
  refine StopsShort.atomically (Step.StopsShort.mono (StopsShort.orForm _
    (L := fun w _ _ => w = []) (.of_nil fun _ _ _ h => h)
    (Step.StopsShort.bind_pure ((stopsShort_counted (.blob role)).or
      (stopsShort_counted_line (.blob role))) Length.known)
    fun p t g ht hp => ?_) ?_)
  · obtain ⟨f, after, hrun, hf⟩ :=
      counted_of_streamHeader (o := o) (g := g) ht hp
    exact ⟨f, after, Step.bind_of_error hrun, hf⟩
  · rintro w n p ((⟨rfl, rfl, rfl⟩ | ⟨rfl, h⟩) | ⟨num, m, hnum, hfits, rfl⟩)
    · exact ⟨.streamed, [], Or.inl ⟨[], (List.append_nil _).symm, rfl⟩⟩
    · refine ⟨_, p, Or.inr ⟨⟨p.length, rfl, Or.inl ⟨rfl, h⟩⟩, ?_⟩⟩
      obtain ⟨num, hcount, -, rfl⟩ := h
      exact hcount.1.not_streamHeader _ _
    · refine ⟨.known 0, [],
        Or.inr ⟨⟨0, rfl, Or.inr ⟨num, m, hnum, hfits, rfl⟩⟩, ?_⟩⟩
      rw [← List.append_nil ((Kind.blob role).line num)]
      exact hnum.not_streamHeader _ []

/-- The last chunk is a line with a number, also where it breaks off. -/
theorem lastChunk_eq_line :
    ∃ num n, Numeral num n ∧ Reader.fits n = true ∧
      Marker.lastChunk = Kind.chunk.line num :=
  ⟨['0'.toUInt8], _, .plain (.singleton rfl), by decide, rfl⟩

theorem stopsShort_chunk :
    StopsShort o chunk fun w isLast p =>
      (isLast = true ∧ w = Marker.lastChunk ∧ p = []) ∨
      (isLast = false ∧ Counted o.limits .chunk w p ∧
        ¬ Marker.lastChunk <+: w) := by
  refine Step.StopsShort.mono (StopsShort.orForm _ (L := fun w _ _ => w = [])
    (.of_nil fun _ _ _ h => h) (Step.StopsShort.bind_pure (StopsShort.atomically
      (stopsShort_counted .chunk)) fun _ => false) fun p t g ht hp => ?_) ?_
  · obtain ⟨num, n, hnum, hfits, hlast⟩ := lastChunk_eq_line
    obtain ⟨f, after, hrun, hf⟩ :=
      (stopsShort_counted_line (o := o) .chunk).atomically p t g 0 []
      ht ⟨num, n, hnum, hfits, hp.trans hlast⟩
    exact ⟨f, after, Step.bind_of_error hrun, hf⟩
  · rintro w isLast p (⟨rfl, rfl, rfl⟩ | ⟨rfl, h, hnot⟩)
    · exact ⟨true, [], Or.inl ⟨[], (List.append_nil _).symm, rfl⟩⟩
    · exact ⟨false, p, Or.inr ⟨⟨p.length, rfl, rfl, h⟩, hnot⟩⟩

theorem stopsShort_chunk? :
    StopsShort o chunk? fun w found p =>
      (found = none ∧ w = Marker.lastChunk ∧ p = []) ∨
      ∃ u, found = some u ∧ Counted o.limits .chunk w p ∧
        ¬ Marker.lastChunk <+: w := by
  refine Step.StopsShort.bind_left stopsShort_chunk _ fun w found p hw => ?_
  obtain ⟨-, rfl, rfl⟩ | ⟨u, -, h, hnot⟩ := hw
  · exact ⟨true, [], Or.inl ⟨rfl, rfl, rfl⟩⟩
  · exact ⟨false, p, Or.inr ⟨rfl, h, hnot⟩⟩

theorem stopsShort_chunks :
    StopsShort o chunks fun w _ p => Chunks o.limits w p := by
  have hloop :
      StopsShort o (Gather.ofRead Reader.remainingLength >>= fun budget =>
        chunk?.collect (budget + 1)) _ :=
    Step.StopsShort.loop
      (fun s _ => ofRead_of_run (Reader.remainingLength_holding s))
      gathers_chunk? stopsShort_chunk? fun w _ p h hnil => by
        have := Counted.length_le h.1
        rw [hnil] at this
        cases this
  have hall := Step.StopsShort.bind_pure hloop fun _ => ()
  rw [Step.bind_assoc_apply] at hall
  refine StopsShort.atomically (hall.mono fun w u p hw => ?_)
  obtain ⟨us, hus⟩ := chunks_iff.mp hw
  exact ⟨(), p, us, rfl, hus⟩

theorem stopsShort_simple (role : Role) :
    StopsShort o (simple role) fun w _ p =>
      Bytes.lf ∉ p ∧ o.limits.Admits p.length ∧
        w = (Kind.simple role).line p := by
  refine StopsShort.atomically (Step.StopsShort.mono (Step.StopsShort.bind
    (Gathers.ofRead (Reader.reads_expect _)) (stopsShort_expect _) fun _ =>
      stopsShort_line)
    fun w _ p hw => ?_)
  obtain ⟨hlf, hadmits, rfl⟩ := hw
  exact ⟨(), p, _, _, (), [], p, rfl, rfl, ⟨rfl, rfl⟩, hlf, hadmits, rfl⟩

theorem stopsShort_verbatim :
    StopsShort o verbatim fun w format p =>
      Counted o.limits .verbatim w (format.octets ++ ':'.toUInt8 :: p) := by
  refine StopsShort.atomically fun p t g format q ht hw => ?_
  obtain ⟨f, after, hrun, hf⟩ :=
    stopsShort_counted .verbatim p t g _ _ ht ⟨rfl, hw⟩
  exact ⟨f, after, (Step.bind_of_ok (rfl : mark _ = _)).trans
    (Step.bind_of_error hrun), hf⟩

end Gather

namespace Reader

variable {α : Type} {o : Options}

/-! ## Scalars -/

theorem stopsShort_close : StopsShort o close fun w _ => w = Marker.close := by
  refine (StopsShort.bind (reads_expect .close) (stopsShort_expect .close)
    fun _ => stopsShort_lineEnd).mono fun w _ hw => ?_
  obtain rfl := hw
  exact ⟨(), _, _, (), rfl, rfl, rfl⟩

theorem stopsShort_integer :
    StopsShort o integer fun w _ =>
      ∃ num m, w = Kind.integer.line num ∧ Numeral num m ∧ fits m = true := by
  refine (StopsShort.bind (reads_expect .integer) (stopsShort_expect .integer)
    fun _ => stopsShort_number.bind_pure Int64.ofInt).mono fun w n hw => ?_
  obtain ⟨num, m, rfl, hnum, hfits⟩ := hw
  exact ⟨_, _, _, (), rfl, rfl, m, rfl, num, rfl, hnum, hfits⟩

theorem stopsShort_boolean :
    StopsShort o boolean fun w b =>
      w = if b then Marker.yes else Marker.no := by
  have hletter : ∀ b : Bool, (if b then Marker.yes else Marker.no) =
      Kind.boolean.lead :: (if b then 't'.toUInt8 else 'f'.toUInt8) ::
        Bytes.crlf := by decide
  refine (StopsShort.bind (reads_expect .boolean) (stopsShort_expect .boolean)
    (M := fun _ w b =>
      w = (if b then 't'.toUInt8 else 'f'.toUInt8) :: Bytes.crlf)
    fun _ => ?_).mono fun w b hw =>
      ⟨b, _, _, (), hw.trans (hletter b), rfl, rfl⟩
  refine stopsShort_iff.mpr fun p t b ht hw => ?_
  rw [Step.bind_of_ok (lookAhead_holding 3 p)]
  rcases p with _ | ⟨x, _ | ⟨y, _ | ⟨z, p⟩⟩⟩
  · exact ⟨_, _, rfl, .cut _⟩
  · exact ⟨_, _, rfl, .cut _⟩
  · exact ⟨_, _, rfl, .cut _⟩
  · simp only [List.cons_append, Bytes.crlf, List.cons.injEq] at hw
    exact absurd (List.append_eq_nil_iff.mp hw.2.2.2).2 ht

/-- Where a null breaks off that is not one of the earlier protocol version. -/
theorem stopsShort_null : StopsShort o null fun w _ => w = Marker.null := by
  refine stopsShort_iff.mpr fun p t u ht hw => ?_
  have hplain : StopsShort o (expect .null >>= fun _ => lineEnd) fun w _ =>
      w = Marker.null :=
    (StopsShort.bind (reads_expect .null) (stopsShort_expect .null) fun _ =>
      stopsShort_lineEnd).mono fun w _ hw =>
        ⟨(), [Kind.null.lead], Bytes.crlf, (), hw, rfl, rfl⟩
  obtain ⟨f, after, hrun, hf⟩ := stopsShort_iff.mp hplain p t u ht hw
  cases p with
  | nil => exact ⟨_, _, rfl, .cut (.noValue .null)⟩
  | cons b p =>
      obtain rfl : b = Kind.null.lead := (List.cons.inj hw).1
      have hlead :=
        (peekLead_eq_ok_iff (o := o) (noValueInstead .null)
          (Kind.null.lead :: p) .null _).mpr ⟨rfl, p, rfl⟩
      refine ⟨f, after, ?_, hf⟩
      rw [null, Step.bind_of_ok hlead,
        Step.bind_of_ok (earlierNull?_holding .null _)]
      exact hrun

theorem stopsShort_lineOf (k : Kind) (settle : Bytes → Except Fault α) :
    StopsShort o (lineOf k settle) fun w _ =>
      ∃ text,
        w = k.line text ∧ Bytes.lf ∉ text ∧ o.limits.Admits text.length := by
  refine (StopsShort.bind (reads_expect k) (stopsShort_expect k) fun _ =>
    (Gather.stopsShort_line.collected).bind_left (fun x r => (settle x.2, r))
      (M := fun w _ => ∃ text, w = text ++ Bytes.crlf ∧ Bytes.lf ∉ text ∧
        o.limits.Admits text.length) ?_).mono ?_
  · rintro w _ ⟨text, rfl, hlf, hadmits⟩
    exact ⟨((), text), hlf, hadmits, rfl⟩
  · rintro w a ⟨text, rfl, hlf, hadmits⟩
    exact ⟨a, _, _, (), rfl, rfl, text, rfl, hlf, hadmits⟩

end Reader

end RespWire

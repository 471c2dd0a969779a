import Mathlib.Algebra.Group.Int.Defs
import RespWire.Proofs.Holding

/-!
# The languages of the framing

What the parts of a value look like: first octets, ends of lines, numbers,
lines, bodies and headers. Each has the language that the grammar gives it.

A number is the part that needs an argument. It is built digit by digit and
checked after every digit, while the grammar speaks about the number that all
the digits denote. The two agree because digits only ever take a number away
from zero: if the last number is in range, so were all before.
-/

namespace RespWire

namespace Reader

variable {α β : Type} {o : Options}

/-- A read succeeds just on the words of `L`. -/
def Reads (o : Options) (m : Read α) (L : Bytes → α → Prop) : Prop :=
  Step.Accepts (fun s _ => holding o s) m fun w a p => p = [] ∧ L w a

theorem reads_iff {m : Read α} {L : Bytes → α → Prop} :
    Reads o m L ↔ ∀ s a after, m (holding o s) = (.ok a, after) ↔
      ∃ w rest, s = w ++ rest ∧ after = holding o rest ∧ L w a := by
  constructor
  · intro h s a after
    rw [h s [] a after]
    refine ⟨fun hleft => ?_, fun hright => ?_⟩
    · obtain ⟨w, rest, p, hs, hafter, -, hL⟩ := hleft
      exact ⟨w, rest, hs, hafter, hL⟩
    · obtain ⟨w, rest, hs, hafter, hL⟩ := hright
      exact ⟨w, rest, [], hs, hafter, rfl, hL⟩
  · intro h s g a after
    rw [h s a after]
    refine ⟨fun hleft => ?_, fun hright => ?_⟩
    · obtain ⟨w, rest, hs, hafter, hL⟩ := hleft
      exact ⟨w, rest, [], hs, hafter, rfl, hL⟩
    · obtain ⟨w, rest, p, hs, hafter, -, hL⟩ := hright
      exact ⟨w, rest, hs, hafter, hL⟩

theorem Reads.congr {m : Read α} {L M : Bytes → α → Prop} (h : Reads o m L)
    (hL : ∀ w a, L w a ↔ M w a) : Reads o m M :=
  Step.Accepts.congr h fun w a _ => and_congr_right fun _ => hL w a

theorem Reads.fail (e : Fault) :
    Reads o (Step.fail e : Read α) fun _ _ => False :=
  (Step.Accepts.fail e).congr fun _ _ _ => ⟨False.elim, And.right⟩

theorem Reads.pure (a : α) : Reads o (Pure.pure a) fun w b => w = [] ∧ b = a :=
  (Step.Accepts.pure a).congr fun _ _ _ =>
    ⟨fun ⟨hw, hb, hp⟩ => ⟨hp, hw, hb⟩, fun ⟨hp, hw, hb⟩ => ⟨hw, hb, hp⟩⟩

theorem Reads.bind {m : Read α} {f : α → Read β} {L : Bytes → α → Prop}
    {M : α → Bytes → β → Prop} (hm : Reads o m L)
    (hf : ∀ a, Reads o (f a) (M a)) :
    Reads o (m >>= f) fun w b => ∃ u t a, w = u ++ t ∧ L u a ∧ M a t b := by
  refine (Step.Accepts.bind hm hf).congr fun w b r => ?_
  refine ⟨fun hleft => ?_, fun hright => ?_⟩
  · obtain ⟨u, t, a, p, q, hw, rfl, ⟨rfl, hL⟩, rfl, hM⟩ := hleft
    exact ⟨rfl, u, t, a, hw, hL, hM⟩
  · obtain ⟨rfl, u, t, a, hw, hL, hM⟩ := hright
    exact ⟨u, t, a, [], [], hw, rfl, ⟨rfl, hL⟩, rfl, hM⟩

theorem Reads.bind_pure {m : Read α} {L : Bytes → α → Prop} (hm : Reads o m L)
    (f : α → β) :
    Reads o (m >>= fun a => Pure.pure (f a)) fun w b =>
      ∃ a, b = f a ∧ L w a := by
  refine (Step.Accepts.bind_pure hm f).congr fun w b p => ?_
  refine ⟨fun hleft => ?_, fun hright => ?_⟩
  · obtain ⟨a, hb, hp, hL⟩ := hleft
    exact ⟨hp, a, hb, hL⟩
  · obtain ⟨hp, a, hb, hL⟩ := hright
    exact ⟨a, hb, hp, hL⟩

theorem Reads.ite {c : Prop} [Decidable c] {A B : Read α}
    {L M : Bytes → α → Prop} (hA : Reads o A L) (hB : Reads o B M) :
    Reads o (if c then A else B) fun w a => (c ∧ L w a) ∨ (¬ c ∧ M w a) := by
  by_cases h : c
  · rw [if_pos h]
    exact hA.congr fun w a =>
      ⟨fun hL => Or.inl ⟨h, hL⟩, fun hor => (hor.resolve_right (·.1 h)).2⟩
  · rw [if_neg h]
    exact hB.congr fun w a =>
      ⟨fun hM => Or.inr ⟨h, hM⟩, fun hor => (hor.resolve_left (h ·.1)).2⟩

theorem Reads.mapFault {m : Read α} {L : Bytes → α → Prop} (hm : Reads o m L)
    (change : Fault → Fault) : Reads o (m.mapFault change) L :=
  Step.Accepts.mapFault hm change

theorem Reads.orForm (form : Bytes) {A B : Read α} {L M : Bytes → α → Prop}
    (hA : Reads o A L) (hB : Reads o B M)
    (hlong : ∀ w a, M w a → form.length ≤ w.length) :
    Reads o (takeForm form >>= fun found => if found = true then A else B)
      fun w a =>
        (∃ t, w = form ++ t ∧ L t a) ∨ (M w a ∧ ¬ form <+: w) := by
  refine (Step.Accepts.orForm (fun s _ => takeForm_holding form s) hA hB
    fun w a _ h => hlong w a h.2).congr fun w a p => ?_
  refine ⟨fun hleft => ?_, fun hright => ?_⟩
  · obtain ⟨t, hw, hp, hL⟩ | ⟨⟨hp, hM⟩, hnot⟩ := hleft
    · exact ⟨hp, Or.inl ⟨t, hw, hL⟩⟩
    · exact ⟨hp, Or.inr ⟨hM, hnot⟩⟩
  · obtain ⟨hp, ⟨t, hw, hL⟩ | ⟨hM, hnot⟩⟩ := hright
    · exact Or.inl ⟨t, hw, hp, hL⟩
    · exact Or.inr ⟨⟨hp, hM⟩, hnot⟩

/-! ## First octets and ends of lines -/

/-- The kind that comes next, if any octet for a kind does. -/
theorem peekLead_eq_ok_iff (change : Fault → Fault) (s : Bytes) (k : Kind)
    (after : Reader) :
    peekLead.mapFault change (holding o s) = (.ok k, after) ↔
      after = holding o s ∧ ∃ t, s = k.lead :: t := by
  rw [Step.mapFault, peekLead_holding]
  cases s with
  | nil => simp
  | cons b t =>
      simp only
      cases hb : Kind.ofLead? b with
      | none =>
          refine ⟨fun hleft => ?_, fun hright => ?_⟩
          · cases hleft
          · obtain ⟨-, u, hu⟩ := hright
            obtain ⟨rfl, -⟩ := List.cons.inj hu
            rw [Kind.ofLead?_lead] at hb
            cases hb
      | some got =>
          refine ⟨fun hleft => ?_, fun hright => ?_⟩
          · cases hleft
            exact ⟨rfl, t, by rw [Kind.lead_of_ofLead? hb]⟩
          · obtain ⟨rfl, u, hu⟩ := hright
            obtain ⟨rfl, -⟩ := List.cons.inj hu
            rw [Kind.ofLead?_lead] at hb
            cases hb
            rfl

theorem reads_expect (k : Kind) :
    Reads o (expect k) fun w _ => w = [k.lead] := by
  refine reads_iff.mpr fun s a after => ?_
  rw [expect, Step.bind_eq_ok]
  refine ⟨fun hleft => ?_, fun hright => ?_⟩
  · obtain ⟨got, mid, hgot, hrest⟩ := hleft
    obtain ⟨rfl, t, rfl⟩ := (peekLead_eq_ok_iff _ _ _ _).mp hgot
    split at hrest
    · next heq =>
        cases hrest
        exact ⟨[got.lead], t, rfl, rfl, by rw [heq]⟩
    · cases hrest
  · obtain ⟨w, rest, rfl, rfl, rfl⟩ := hright
    refine ⟨k, _, (peekLead_eq_ok_iff _ _ _ _).mpr ⟨rfl, rest, rfl⟩, ?_⟩
    rw [if_pos rfl]
    rfl

theorem expect_holding (k : Kind) (s : Bytes) :
    expect k (holding o (k.lead :: s)) = (.ok (), holding o s) :=
  (reads_iff.mp (reads_expect k) _ () _).mpr ⟨[k.lead], s, rfl, rfl, rfl⟩

theorem lineEnd_holding (s : Bytes) :
    lineEnd (holding o s) =
      if Bytes.crlf <+: s then (.ok (), holding o (s.drop 2))
      else (.error
        (.cut (if s.length < 2 then .noLineEnd else .wrongLineEnd (s.take 2))),
        holding o s) := by
  have hcrlf : Bytes.crlf <+: s ↔ s.take 2 = Bytes.crlf := by
    rw [List.prefix_iff_eq_take]
    exact eq_comm
  rw [lineEnd, Step.bind_of_ok (lookAhead_holding 2 s)]
  by_cases h : s.take 2 = Bytes.crlf
  · rw [if_pos h, if_pos (hcrlf.mpr h)]
    rfl
  · rw [if_neg h, if_neg fun hprefix => h (hcrlf.mp hprefix), List.length_take]
    by_cases hshort : s.length < 2
    · rw [if_pos hshort, if_pos (by omega)]
      rfl
    · rw [if_neg hshort, if_neg (by omega)]
      rfl

theorem reads_lineEnd : Reads o lineEnd fun w _ => w = Bytes.crlf := by
  refine reads_iff.mpr fun s a after => ?_
  rw [lineEnd_holding]
  refine ⟨fun hleft => ?_, fun hright => ?_⟩
  · split at hleft
    · next hcrlf =>
        obtain ⟨t, rfl⟩ := hcrlf
        cases hleft
        exact ⟨Bytes.crlf, t, rfl, rfl, rfl⟩
    · cases hleft
  · obtain ⟨w, rest, rfl, rfl, rfl⟩ := hright
    rw [if_pos (List.prefix_append _ _)]
    rfl

/-! ## Numbers -/

/-- A magnitude with a sign. -/
def signedBy (negative : Bool) (m : Nat) : Int := if negative then -m else m

/-- No digits at all are a zero, whatever the sign. -/
theorem signedBy_zero (negative : Bool) :
    (none : Option Int).getD 0 = signedBy negative 0 := by
  cases negative <;> rfl

theorem appendDigit_signedBy (negative : Bool) (m : Nat) (b : UInt8) :
    appendDigit negative (signedBy negative m) b =
      signedBy negative (m * 10 + Decimal.digitValue b) := by
  cases negative <;>
    simp only [appendDigit, signedBy, if_true, Bool.false_eq_true, if_false] <;>
    omega

theorem fits_iff {n : Int} : fits n = true ↔ -2 ^ 63 ≤ n ∧ n < 2 ^ 63 := by
  rw [fits, Bool.and_eq_true, decide_eq_true_eq, decide_eq_true_eq]
  show -9223372036854775808 ≤ n ∧ n ≤ 9223372036854775807 ↔ _
  omega

/-- What is in range stays so towards zero. -/
theorem fits_signedBy_of_le {negative : Bool} {m m' : Nat} (h : m ≤ m')
    (hfits : fits (signedBy negative m') = true) :
    fits (signedBy negative m) = true := by
  rw [fits_iff] at *
  cases negative <;>
    simp only [signedBy, if_true, Bool.false_eq_true, if_false] at * <;> omega

theorem le_valueFrom (m : Nat) (ds : Bytes) : m ≤ Decimal.valueFrom m ds := by
  induction ds generalizing m with
  | nil => exact Nat.le_refl m
  | cons b ds ih =>
      exact Nat.le_trans (by omega) (ih (m * 10 + Decimal.digitValue b))

theorem digitsFrom_holding (negative : Bool) (before : Option Int) (s : Bytes) :
    digitsFrom negative before (holding o s) =
      match s with
      | [] => (.error (.cut .noNumber), holding o s)
      | b :: t =>
          if Decimal.isDigit b then
            let n := appendDigit negative (before.getD 0) b
            if fits n then digitsFrom negative (some n) (holding o t)
            else (.error (.violation .overflow), holding o s)
          else if b = Bytes.cr || b = Bytes.lf then (.ok before, holding o s)
          else (.error (.violation (.badDigit b)), holding o s) := by
  rw [digitsFrom_apply, lookAhead_holding]
  cases s <;> rfl

/-- Digits that keep the number in range are all taken. -/
theorem digitsFrom_append {negative : Bool} {ds : Bytes}
    (hds : ∀ d ∈ ds, Decimal.isDigit d = true) {before : Option Int} {m : Nat}
    (hbefore : before.getD 0 = signedBy negative m)
    (hfits : fits (signedBy negative (Decimal.valueFrom m ds)) = true)
    (rest : Bytes) :
    digitsFrom negative before (holding o (ds ++ rest)) =
      digitsFrom negative
        (if ds = [] then before else some
          (signedBy negative (Decimal.valueFrom m ds)))
        (holding o rest) := by
  induction ds generalizing before m with
  | nil => rfl
  | cons d ds ih =>
      rw [digitsFrom_holding]
      simp only [List.cons_append, hbefore, appendDigit_signedBy]
      rw [if_pos (hds d (.head _)),
        if_pos (fits_signedBy_of_le (le_valueFrom _ ds) hfits),
        ih (fun x hx => hds x (.tail _ hx)) rfl hfits]
      cases ds <;> rfl

/-- Digits behind the magnitude `m` run up to the end of a line and keep the
number in range. -/
theorem digitsFrom_eq_ok_iff {negative : Bool} {s : Bytes} {before : Option Int}
    {m : Nat} {n? : Option Int} {after : Reader}
    (hbefore : before.getD 0 = signedBy negative m) :
    digitsFrom negative before (holding o s) = (.ok n?, after) ↔
      ∃ ds b t, s = ds ++ b :: t ∧ after = holding o (b :: t) ∧
        (b = Bytes.cr ∨ b = Bytes.lf) ∧ (∀ d ∈ ds, Decimal.isDigit d = true) ∧
        (ds = [] ∧ n? = before ∨ ds ≠ [] ∧
          n? = some (signedBy negative (Decimal.valueFrom m ds)) ∧
          fits (signedBy negative (Decimal.valueFrom m ds)) = true) := by
  have hend : ∀ (before : Option Int) (b : UInt8) (t : Bytes),
      b = Bytes.cr ∨ b = Bytes.lf →
      digitsFrom negative before (holding o (b :: t)) =
        (.ok before, holding o (b :: t)) := by
    intro before b t hb
    have hdigit : ¬ Decimal.isDigit b = true := by
      rcases hb with rfl | rfl <;> decide
    rw [digitsFrom_holding]
    simp only
    rw [if_neg hdigit, if_pos (by simpa using hb)]
  refine ⟨fun h => ?_, fun hright => ?_⟩
  · induction s generalizing before m with
    | nil =>
        rw [digitsFrom_holding] at h
        cases h
    | cons b t ih =>
        rw [digitsFrom_holding] at h
        simp only [hbefore, appendDigit_signedBy] at h
        split at h
        · next hb =>
            split at h
            · next hfits =>
                obtain ⟨ds, b', t', rfl, rfl, hline, hds, hvalue⟩ := ih rfl h
                refine ⟨b :: ds, b', t', rfl, rfl, hline,
                  List.forall_mem_cons.mpr ⟨hb, hds⟩,
                  Or.inr ⟨List.cons_ne_nil b ds, ?_⟩⟩
                rcases hvalue with ⟨rfl, hn⟩ | ⟨-, hn, hlater⟩
                · exact ⟨hn, hfits⟩
                · exact ⟨hn, hlater⟩
            · cases h
        · split at h
          · next hline =>
              cases h
              exact ⟨[], b, t, rfl, rfl, by simpa using hline, nofun,
                Or.inl ⟨rfl, rfl⟩⟩
          · cases h
  · obtain ⟨ds, b, t, rfl, rfl, hline, hds, hvalue⟩ := hright
    rcases hvalue with ⟨rfl, rfl⟩ | ⟨hne, rfl, hfits⟩
    · exact hend _ b t hline
    · rw [digitsFrom_append hds hbefore hfits, if_neg hne]
      exact hend _ b t hline

/-- What there is of a number behind its sign: digits and the end of their
line. -/
def numberBehind (negative : Bool) : Read Int := do
  let n? ← digits negative
  lineEnd
  match n? with
  | some n => return n
  | none => Step.cut .emptyNumber

theorem number_eq : number = minusSign >>= numberBehind := rfl

theorem reads_numberBehind (negative : Bool) :
    Reads o (numberBehind negative) fun w n =>
      ∃ ds, Digits ds ∧ w = ds ++ Bytes.crlf ∧
        n = signedBy negative (Decimal.value ds) ∧ fits n = true := by
  refine reads_iff.mpr fun s n after => ?_
  have hzero := signedBy_zero negative
  rw [numberBehind, Step.bind_eq_ok]
  refine ⟨fun hleft => ?_, fun hright => ?_⟩
  · obtain ⟨n?, mid, hdigits, hend⟩ := hleft
    obtain ⟨ds, b, t, rfl, rfl, -, hds, hvalue⟩ :=
      (digitsFrom_eq_ok_iff hzero).mp hdigits
    obtain ⟨_, mid, hline, hsettle⟩ := Step.bind_eq_ok.mp hend
    obtain ⟨w, rest, hsplit, rfl, rfl⟩ :=
      (reads_iff.mp reads_lineEnd _ _ _).mp hline
    rcases hvalue with ⟨-, rfl⟩ | ⟨hne, rfl, hfits⟩
    · cases hsettle
    · cases hsettle
      exact ⟨ds ++ Bytes.crlf, rest, by rw [hsplit, List.append_assoc], rfl, ds,
        ⟨hne, hds⟩, rfl, rfl, hfits⟩
  · obtain ⟨w, rest, rfl, rfl, ds, hds, rfl, rfl, hfits⟩ := hright
    refine ⟨some (signedBy negative (Decimal.value ds)),
      holding o (Bytes.crlf ++ rest),
      (digitsFrom_eq_ok_iff hzero).mpr
        ⟨ds, Bytes.cr, Bytes.lf :: rest, ?_, rfl, Or.inl rfl,
          hds.isDigit, Or.inr ⟨hds.ne_nil, rfl, hfits⟩⟩, ?_⟩
    · rw [List.append_assoc]
      rfl
    · exact Step.bind_of_ok ((reads_iff.mp reads_lineEnd _ () _).mpr
        ⟨Bytes.crlf, rest, rfl, rfl, rfl⟩)

theorem minusSign_holding (s : Bytes) :
    minusSign (holding o s) =
      match s with
      | [] => (.error (.cut .noNumber), holding o s)
      | b :: t =>
          if b = Decimal.minus then (.ok true, holding o t)
          else (.ok false, holding o s) := by
  rw [minusSign, Step.bind_of_ok (lookAhead_holding 1 s)]
  cases s with
  | nil => rfl
  | cons b t =>
      simp only [List.take_succ_cons, List.take_zero]
      split <;> rfl

theorem reads_number :
    Reads o number fun w n =>
      ∃ num, w = num ++ Bytes.crlf ∧ Numeral num n ∧ fits n = true := by
  refine reads_iff.mpr fun s n after => ?_
  have hsign := minusSign_holding (o := o) s
  cases s with
  | nil =>
      rw [number_eq, Step.bind_of_error hsign]
      refine ⟨fun h => ?_, fun hright => ?_⟩
      · cases h
      · obtain ⟨w, rest, hs, -, num, rfl, -⟩ := hright
        cases num <;> cases hs
  | cons b t =>
      by_cases hb : b = Decimal.minus
      · simp only [if_pos hb] at hsign
        rw [number_eq, Step.bind_of_ok hsign]
        refine (reads_iff.mp (reads_numberBehind true) t n after).trans ?_
        refine ⟨fun hleft => ?_, fun hright => ?_⟩
        · obtain ⟨w, rest, rfl, rfl, ds, hds, rfl, rfl, hfits⟩ := hleft
          exact ⟨b :: ds ++ Bytes.crlf, rest, rfl, rfl, b :: ds, rfl,
            hb ▸ .negative hds, hfits⟩
        · obtain ⟨w, rest, hs, rfl, num, rfl, hnum, hfits⟩ := hright
          cases hnum with
          | plain hds =>
              cases num with
              | nil => exact absurd rfl hds.ne_nil
              | cons d ds =>
                  obtain ⟨rfl, -⟩ := List.cons.inj hs
                  exact absurd (hds.isDigit b (.head _)) (by rw [hb]; decide)
          | negative hds =>
              obtain ⟨-, rfl⟩ := List.cons.inj hs
              exact ⟨_, rest, rfl, rfl, _, hds, rfl, rfl, hfits⟩
      · simp only [if_neg hb] at hsign
        rw [number_eq, Step.bind_of_ok hsign]
        refine (reads_iff.mp (reads_numberBehind false) (b :: t) n after).trans
          ?_
        refine ⟨fun hleft => ?_, fun hright => ?_⟩
        · obtain ⟨w, rest, hs, rfl, ds, hds, rfl, rfl, hfits⟩ := hleft
          exact ⟨ds ++ Bytes.crlf, rest, hs, rfl, ds, rfl, .plain hds, hfits⟩
        · obtain ⟨w, rest, hs, rfl, num, rfl, hnum, hfits⟩ := hright
          cases hnum with
          | plain hds => exact ⟨_, rest, hs, rfl, _, hds, rfl, rfl, hfits⟩
          | negative hds => exact absurd (List.cons.inj hs).1 hb

/-- A number in range that is not negative counts. -/
theorem count_iff {num : Bytes} {n : Nat} :
    Count num n ↔ Numeral num n ∧ fits n = true := by
  rw [Count, fits_iff]
  refine ⟨fun hleft => ?_, fun hright => ?_⟩
  · obtain ⟨h, hn⟩ := hleft
    exact ⟨h, by omega⟩
  · obtain ⟨h, -, hn⟩ := hright
    exact ⟨h, by omega⟩

/-- The nulls of the earlier protocol version are lines with a number. -/
theorem numeral_of_earlierNull? {k : Kind} {form : Bytes}
    (h : k.earlierNull? = some form) :
    ∃ num, Numeral num (-1) ∧ form = k.line num :=
  ⟨[Decimal.minus, '1'.toUInt8], .negative (.singleton rfl),
    Kind.eq_of_earlierNull? h⟩

/-! ## Headers -/

theorem reads_header (a : Aggregate) :
    Reads o (header a) fun w n =>
      (n = .streamed ∧ w = (Kind.aggregate a).streamHeader) ∨
      ∃ num c,
        n = .known c ∧ Count num c ∧ w = (Kind.aggregate a).line num := by
  have hcounted :
      Reads o (expect (.aggregate a) >>= fun _ =>
        number.mapFault badCountInstead >>=
      fun n => if n < 0 then Step.violate .badCount else Pure.pure
        (Length.known n.toNat))
      fun w n =>
        ∃ num c,
          n = .known c ∧ Count num c ∧ w = (Kind.aggregate a).line num := by
    have hsettle : ∀ n : Int, Reads o (if n < 0 then Step.violate .badCount
        else Pure.pure (Length.known n.toNat)) fun w c =>
          0 ≤ n ∧ w = [] ∧ c = .known n.toNat := by
      intro n
      by_cases hn : n < 0
      · rw [if_pos hn]
        exact (Reads.fail _).congr fun w c =>
          ⟨False.elim, fun h => absurd hn (Int.not_lt.mpr h.1)⟩
      · rw [if_neg hn]
        exact (Reads.pure _).congr fun w c =>
          ⟨fun h => ⟨Int.not_lt.mp hn, h⟩, And.right⟩
    refine ((reads_expect _).bind fun _ =>
      (reads_number.mapFault _).bind hsettle).congr
      fun w n => ?_
    refine ⟨fun hleft => ?_, fun hright => ?_⟩
    · obtain ⟨_, _, _, rfl, rfl, _, _, m, rfl, ⟨num, rfl, hnum, hfits⟩, hpos,
          rfl, rfl⟩ := hleft
      refine ⟨num, m.toNat, rfl, count_iff.mpr ?_, by rw [List.append_nil]; rfl⟩
      rw [Int.toNat_of_nonneg hpos]
      exact ⟨hnum, hfits⟩
    · obtain ⟨num, c, rfl, hcount, rfl⟩ := hright
      obtain ⟨hnum, hfits⟩ := count_iff.mp hcount
      exact ⟨_, _, (), rfl, rfl, num ++ Bytes.crlf, [], c,
        (List.append_nil _).symm,
        ⟨num, rfl, hnum, hfits⟩, Int.natCast_nonneg c, rfl, rfl⟩
  refine (Reads.orForm _ (Reads.pure Length.streamed) hcounted ?_).congr
    fun w n => ?_
  · rintro w _ ⟨num, c, -, hcount, rfl⟩
    have := hcount.1.length_pos
    simp only [Kind.streamHeader, Kind.line, Marker.streamed, Bytes.ofChars,
      List.length_append,
      List.length_cons, List.map_cons, List.map_nil, List.length_nil,
        Bytes.length_crlf]
    omega
  · refine ⟨fun hleft => ?_, fun hright => ?_⟩
    · obtain ⟨t, rfl, rfl, rfl⟩ | ⟨h, -⟩ := hleft
      · exact Or.inl ⟨rfl, List.append_nil _⟩
      · exact Or.inr h
    · obtain ⟨rfl, rfl⟩ | ⟨num, c, rfl, hcount, rfl⟩ := hright
      · exact Or.inl ⟨[], (List.append_nil _).symm, rfl, rfl⟩
      · refine Or.inr ⟨⟨num, c, rfl, hcount, rfl⟩, ?_⟩
        rw [← List.append_nil ((Kind.aggregate a).line num)]
        exact hcount.1.not_streamHeader _ []

end Reader

end RespWire

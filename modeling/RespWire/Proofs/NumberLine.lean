import RespWire.Proofs.Written

/-!
# What a line with a number answers

A number is read digit by digit, and each digit is checked before it is taken:
the reader never holds a number that does not fit. That this amounts to a check
of the whole number comes from two facts. More digits lead further away from
zero, so a number that fits has only fitting numbers in front of it; and a
number that does not fit is noticed at a digit of its own, before anything
behind its digits is looked at.

A `NumberLine` is what octets fall apart into, and `NumberLine.result` is what a
line answers, told from the whole number and from what stands behind it.
-/

namespace RespWire

/-- Octets taken apart where a number is to come. -/
structure NumberLine where
  /-- Whether a minus sign comes first. -/
  negative : Bool
  /-- The digits that come next, as many as there are. -/
  digits : Bytes
  /-- What comes behind the digits. -/
  behind : Bytes
  isDigit : ∀ d ∈ digits, Decimal.isDigit d = true
  notDigit : ∀ b ∈ behind.head?, Decimal.isDigit b = false

namespace NumberLine

/-- Octets taken apart behind a sign. -/
def ofUnsigned (negative : Bool) (s : Bytes) : NumberLine where
  negative := negative
  digits := s.takeWhile Decimal.isDigit
  behind := s.dropWhile Decimal.isDigit
  isDigit _ hd := (List.all_eq_true.mp List.all_takeWhile) _ hd
  notDigit b hb := by
    have hhead := List.head?_dropWhile_not Decimal.isDigit s
    rwa [Option.mem_def.mp hb] at hhead

def ofBytes : Bytes → NumberLine
  | [] => ofUnsigned false []
  | b :: s =>
      if b = Decimal.minus then ofUnsigned true s else ofUnsigned false (b :: s)

/-- The sign and the digits. -/
def front (l : NumberLine) : Bytes :=
  (if l.negative then [Decimal.minus] else []) ++ l.digits

/-- The number that the digits denote, however great. -/
def value (l : NumberLine) : Int :=
  Reader.signedBy l.negative (Decimal.value l.digits)

/-- The digits denote a number outside of 64 bits with a sign. -/
def Overflows (l : NumberLine) : Prop :=
  l.digits ≠ [] ∧ ¬ (-2 ^ 63 ≤ l.value ∧ l.value < 2 ^ 63)

instance (l : NumberLine) : Decidable l.Overflows :=
  inferInstanceAs (Decidable (_ ∧ _))

/-- What is reported where no line ends. -/
def wrongEnd (s : Bytes) : Cut :=
  if s.length < 2 then .noLineEnd else .wrongLineEnd (s.take 2)

/-- What the line answers. The number comes first: what follows does not excuse
digits that are too many. -/
def result (l : NumberLine) : Except Fault Int :=
  if l.Overflows then .error (.violation .overflow)
  else
    match l.behind with
    | [] => .error (.cut .noNumber)
    | next :: later =>
        if next ≠ Bytes.cr ∧ next ≠ Bytes.lf then
          .error (.violation (.badDigit next))
        else if ¬ Bytes.crlf <+: next :: later then
          .error (.cut (wrongEnd (next :: later)))
        else if l.digits = [] then .error (.cut .emptyNumber)
        else .ok l.value

/-- What is still to come behind the line, if it does not overflow: the end of
the line is taken where it is there, and nothing is taken in its place. -/
def rest (l : NumberLine) : Bytes :=
  if Bytes.crlf <+: l.behind then l.behind.drop 2 else l.behind

/-- What the header of an aggregate answers by its line. -/
def lengthResult (l : NumberLine) : Except Fault Length :=
  match l.result with
  | .ok n =>
      if n < 0 then .error (.violation .badCount) else .ok (.known n.toNat)
  | .error (.violation (.badDigit _)) => .error (.violation .badCount)
  | .error f => .error f

theorem digits_append_behind (negative : Bool) (s : Bytes) :
    (ofUnsigned negative s).digits ++ (ofUnsigned negative s).behind = s :=
  List.takeWhile_append_dropWhile

theorem front_append_behind (s : Bytes) :
    (ofBytes s).front ++ (ofBytes s).behind = s := by
  cases s with
  | nil => rfl
  | cons b s =>
      rw [ofBytes]
      split
      · next hb =>
          rw [hb]
          exact congrArg (Decimal.minus :: ·) (digits_append_behind true s)
      · exact digits_append_behind false (b :: s)

/-- A line that does not overflow has a number that fits. -/
theorem fits_value {l : NumberLine} (h : ¬ l.Overflows) :
    Reader.fits l.value = true := by
  rw [Reader.fits_iff]
  by_cases hnone : l.digits = []
  · rw [value, hnone]
    cases l.negative <;> decide
  · exact Decidable.not_not.mp fun hout => h ⟨hnone, hout⟩

theorem result_ne_tooLarge (l : NumberLine) (size limit : Nat) :
    l.result ≠ .error (.violation (.tooLarge size limit)) := by
  intro h
  unfold result at h
  split at h
  · cases h
  · split at h
    · cases h
    · split at h
      · cases h
      · split at h
        · cases h
        · split at h <;> cases h

theorem map_result_ne_tooLarge {α : Type} (l : NumberLine) (f : Int → α)
    (size limit : Nat) :
    l.result.map f ≠ .error (.violation (.tooLarge size limit)) := by
  have h := l.result_ne_tooLarge size limit
  cases hresult : l.result with
  | ok n => exact nofun
  | error e =>
      rw [hresult] at h
      exact fun heq => h (congrArg Except.error (Except.error.inj heq))

theorem lengthResult_ne_tooLarge (l : NumberLine) (size limit : Nat) :
    l.lengthResult ≠ .error (.violation (.tooLarge size limit)) := by
  have h := l.result_ne_tooLarge size limit
  unfold lengthResult
  split
  · split <;> exact nofun
  · exact nofun
  · next e hresult =>
      rw [hresult] at h
      exact fun heq => h (congrArg Except.error (Except.error.inj heq))

/-- What is there where a number is answered. -/
theorem of_result_ok {l : NumberLine} {n : Int} (h : l.result = .ok n) :
    ¬ l.Overflows ∧ Bytes.crlf <+: l.behind ∧ l.value = n := by
  unfold result at h
  split at h
  · cases h
  · next hover =>
      split at h
      · cases h
      · next next later hbehind =>
          split at h
          · cases h
          · split at h
            · cases h
            · next hcrlf =>
                split at h
                · cases h
                · exact ⟨hover, hbehind ▸ Decidable.not_not.mp hcrlf,
                    Except.ok.inj h⟩

theorem crlf_append_rest {l : NumberLine} (h : Bytes.crlf <+: l.behind) :
    Bytes.crlf ++ l.rest = l.behind := by
  obtain ⟨t, ht⟩ := h
  rw [rest, ← ht, if_pos (List.prefix_append _ _)]
  rfl

end NumberLine

namespace Reader

variable {o : Options}

/-- Digits that lead out of range are noticed, whatever follows them. -/
theorem digitsFrom_of_unfit {negative : Bool} {ds : Bytes}
    (hds : ∀ d ∈ ds, Decimal.isDigit d = true) {before : Option Int} {m : Nat}
    (hbefore : before.getD 0 = signedBy negative m)
    (hm : fits (signedBy negative m) = true)
    (hunfit : ¬ fits (signedBy negative (Decimal.valueFrom m ds)) = true)
    (rest : Bytes) :
    ∃ after, digitsFrom negative before (holding o (ds ++ rest)) =
      (.error (.violation .overflow), after) := by
  induction ds generalizing before m with
  | nil => exact absurd hm hunfit
  | cons d ds ih =>
      rw [digitsFrom_holding]
      simp only [List.cons_append, hbefore, appendDigit_signedBy]
      rw [if_pos (hds d (.head _))]
      split
      · next hfits => exact ih (fun x hx => hds x (.tail _ hx)) rfl hfits hunfit
      · exact ⟨_, rfl⟩

/-- The digits of a line that does not overflow are all taken, and what stands
behind them has to end the line. -/
theorem digits_of_not_overflows {l : NumberLine} (h : ¬ l.Overflows) :
    digits l.negative (holding o (l.digits ++ l.behind)) =
      match l.behind with
      | [] => (.error (.cut .noNumber), holding o l.behind)
      | next :: _ =>
          if next ≠ Bytes.cr ∧ next ≠ Bytes.lf then
            (.error (.violation (.badDigit next)), holding o l.behind)
          else (.ok (if l.digits = [] then none else some l.value),
            holding o l.behind) := by
  have hfits := NumberLine.fits_value h
  rw [digits, digitsFrom_append l.isDigit (signedBy_zero _) hfits,
    digitsFrom_holding]
  cases hbehind : l.behind with
  | nil => rfl
  | cons next later =>
      have hnext : ¬ Decimal.isDigit next = true := by
        rw [l.notDigit next (by rw [hbehind]; rfl)]
        exact Bool.false_ne_true
      simp only
      rw [if_neg hnext]
      by_cases hend : next ≠ Bytes.cr ∧ next ≠ Bytes.lf
      · rw [if_pos hend, if_neg (by simpa using hend)]
      · rw [if_neg hend,
          if_pos (by simpa [Decidable.or_iff_not_imp_left] using hend)]
        rfl

theorem numberBehind_holding (l : NumberLine) :
    ∃ after, numberBehind l.negative (holding o (l.digits ++ l.behind)) =
      (l.result, after) ∧ (¬ l.Overflows → after = holding o l.rest) := by
  by_cases hover : l.Overflows
  · have hunfit : ¬ fits l.value = true :=
      fun hfits => hover.2 (fits_iff.mp hfits)
    obtain ⟨after, hrun⟩ :=
      digitsFrom_of_unfit (o := o) l.isDigit (signedBy_zero _)
      (by cases l.negative <;> decide) hunfit l.behind
    rw [NumberLine.result, if_pos hover]
    exact ⟨after, Step.bind_of_error hrun, fun hnot => absurd hover hnot⟩
  · have hrun := digits_of_not_overflows (o := o) hover
    rw [NumberLine.result, if_neg hover, NumberLine.rest]
    cases hbehind : l.behind with
    | nil =>
        rw [hbehind] at hrun
        exact ⟨_, Step.bind_of_error hrun, fun _ => rfl⟩
    | cons next later =>
        rw [hbehind] at hrun
        simp only at hrun ⊢
        by_cases hend : next ≠ Bytes.cr ∧ next ≠ Bytes.lf
        · have hcrlf : ¬ Bytes.crlf <+: next :: later := by
            rintro ⟨t, ht⟩
            exact hend.1 (List.cons.inj ht).1.symm
          rw [if_pos hend] at hrun
          rw [if_pos hend, if_neg hcrlf]
          exact ⟨_, Step.bind_of_error hrun, fun _ => rfl⟩
        · rw [if_neg hend] at hrun
          have hline := lineEnd_holding (o := o) (next :: later)
          rw [if_neg hend]
          by_cases hcrlf : Bytes.crlf <+: next :: later
          · rw [if_pos hcrlf] at hline
            rw [if_neg (not_not_intro hcrlf), if_pos hcrlf]
            refine ⟨_, (Step.bind_of_ok hrun).trans
              ((Step.bind_of_ok hline).trans ?_),
              fun _ => rfl⟩
            split <;> rfl
          · rw [if_neg hcrlf] at hline
            rw [if_pos hcrlf, if_neg hcrlf]
            exact ⟨_, (Step.bind_of_ok hrun).trans (Step.bind_of_error hline),
              fun _ => rfl⟩

theorem number_holding (s : Bytes) :
    ∃ after, number (holding o s) = ((NumberLine.ofBytes s).result, after) ∧
      (¬ (NumberLine.ofBytes s).Overflows →
        after = holding o (NumberLine.ofBytes s).rest) := by
  have hsign := minusSign_holding (o := o) s
  cases s with
  | nil => exact ⟨_, Step.bind_of_error hsign, fun _ => rfl⟩
  | cons b t =>
      simp only [NumberLine.ofBytes] at hsign ⊢
      split at hsign
      · next hb =>
          rw [if_pos hb]
          obtain ⟨after, hrun, hafter⟩ :=
            numberBehind_holding (o := o) (.ofUnsigned true t)
          rw [NumberLine.digits_append_behind] at hrun
          exact ⟨after, (Step.bind_of_ok hsign).trans hrun, hafter⟩
      · next hb =>
          rw [if_neg hb]
          obtain ⟨after, hrun, hafter⟩ :=
            numberBehind_holding (o := o) (.ofUnsigned false (b :: t))
          rw [NumberLine.digits_append_behind] at hrun
          exact ⟨after, (Step.bind_of_ok hsign).trans hrun, hafter⟩

theorem integer_holding (s : Bytes) :
    (integer (holding o (Kind.integer.lead :: s))).1 =
      (NumberLine.ofBytes s).result.map Int64.ofInt := by
  obtain ⟨after, hrun, -⟩ := number_holding (o := o) s
  rw [integer, Step.bind_of_ok (expect_holding .integer s),
    Step.bind_apply, hrun]
  cases (NumberLine.ofBytes s).result <;> rfl

/-- A header is that of a stream where it can be, and any other is a line with a
number. -/
theorem header_holding (a : Aggregate) (s : Bytes) :
    (header a (holding o ((Kind.aggregate a).lead :: s))).1 =
      if Marker.streamed ++ Bytes.crlf <+: s then .ok .streamed
      else (NumberLine.ofBytes s).lengthResult := by
  have hform : (Kind.aggregate a).streamHeader <+:
      (Kind.aggregate a).lead :: s ↔ Marker.streamed ++ Bytes.crlf <+: s := by
    rw [Kind.streamHeader, List.cons_append, List.prefix_cons_inj]
  have htake := takeForm_holding (o := o) (Kind.aggregate a).streamHeader
    ((Kind.aggregate a).lead :: s)
  by_cases hstream : Marker.streamed ++ Bytes.crlf <+: s
  · rw [if_pos (hform.mpr hstream)] at htake
    rw [if_pos hstream, header, takeStreamHeader, Step.bind_of_ok htake]
    rfl
  · rw [if_neg fun h => hstream (hform.mp h)] at htake
    rw [if_neg hstream, header, takeStreamHeader, Step.bind_of_ok htake]
    obtain ⟨after, hrun, -⟩ := number_holding (o := o) s
    rw [if_neg Bool.false_ne_true,
      Step.bind_of_ok (expect_holding (.aggregate a) s),
      Step.bind_apply, Step.mapFault, hrun, NumberLine.lengthResult]
    cases (NumberLine.ofBytes s).result with
    | ok n =>
        simp only
        split <;> rfl
    | error f =>
        cases f with
        | violation v => cases v <;> rfl
        | _ => rfl

/-! ## Leading zeros -/

/-- A number in decimal digits behind so many zeros. -/
def padded (zeros : Nat) (n : Int) : Bytes :=
  (if n < 0 then [Decimal.minus] else []) ++
    (List.replicate zeros (Decimal.digit 0) ++ Decimal.ofNat n.natAbs)

theorem numeral_padded (zeros : Nat) (n : Int) :
    Numeral (padded zeros n) n := by
  have hdigits :
      Digits
        (List.replicate zeros (Decimal.digit 0) ++ Decimal.ofNat n.natAbs) := by
    refine ⟨fun hnil =>
      (Decimal.digits_ofNat _).ne_nil (List.append_eq_nil_iff.mp hnil).2, ?_⟩
    intro d hd
    rcases List.mem_append.mp hd with hd | hd
    · exact Decimal.isDigit_of_mem_zeros d hd
    · exact (Decimal.digits_ofNat _).isDigit d hd
  have hvalue : Decimal.value (List.replicate zeros (Decimal.digit 0) ++
      Decimal.ofNat n.natAbs) = n.natAbs := by
    have hzeros : Decimal.value (List.replicate zeros (Decimal.digit 0)) = 0 :=
      (Decimal.valueFrom_zeros 0 zeros).trans (Nat.zero_mul _)
    rw [Decimal.value_append, hzeros]
    exact Decimal.value_ofNat _
  unfold padded
  by_cases hn : n < 0
  · have hnumeral := Numeral.negative hdigits
    rw [hvalue, show -(n.natAbs : Int) = n by omega] at hnumeral
    rw [if_pos hn]
    exact hnumeral
  · have hnumeral := Numeral.plain hdigits
    rw [hvalue, show (n.natAbs : Int) = n by omega] at hnumeral
    rw [if_neg hn]
    exact hnumeral

/-! ## Numbers on readers -/

theorem number_run {r : Reader} (h : r.feed.Calm) :
    ∃ after, number r = ((NumberLine.ofBytes r.remaining).result, after) ∧
      (¬ (NumberLine.ofBytes r.remaining).Overflows →
        after.remaining = (NumberLine.ofBytes r.remaining).rest) := by
  obtain ⟨held, hrun, hheld⟩ := number_holding (o := r.options) r.remaining
  obtain ⟨after, hafter, hrest⟩ := run_of_holding steady_number h hrun
    (NumberLine.result_ne_tooLarge _)
  refine ⟨after, hafter, fun hover => ?_⟩
  rw [hrest, hheld hover, remaining_holding]

theorem integer_run {r : Reader} (h : r.feed.Calm) {s : Bytes}
    (hs : r.remaining = Kind.integer.lead :: s) :
    (integer r).1 = (NumberLine.ofBytes s).result.map Int64.ofInt :=
  result_of_holding steady_integer h (hs ▸ integer_holding s)
    (NumberLine.map_result_ne_tooLarge _ _)

theorem header_run {r : Reader} (h : r.feed.Calm) {a : Aggregate} {s : Bytes}
    (hs : r.remaining = (Kind.aggregate a).lead :: s) :
    (header a r).1 = if Marker.streamed ++ Bytes.crlf <+: s then .ok .streamed
      else (NumberLine.ofBytes s).lengthResult := by
  refine result_of_holding (steady_header a) h (hs ▸ header_holding a s)
    fun size limit => ?_
  split
  · exact nofun
  · exact NumberLine.lengthResult_ne_tooLarge _ size limit

/-- A number is exact up to the edge of 64 bits with a sign. What its line
answers depends on the digits that stand there, all of them, on the number they
denote and on what stands behind them, in this order; a number that is answered
leaves what comes behind its sign, its digits and the end of its line. An
integer is that number, and the header of an aggregate, unless it is that of a
stream, is its length if it is not negative. So every number that fits is read,
the least as the greatest, behind any number of zeros. -/
theorem number_exact {r : Reader} (h : r.feed.Calm) :
    (∃ after, number r = ((NumberLine.ofBytes r.remaining).result, after) ∧
      (¬ (NumberLine.ofBytes r.remaining).Overflows →
        after.remaining = (NumberLine.ofBytes r.remaining).rest) ∧
      ∀ n, number r = (.ok n, after) →
        r.remaining = (NumberLine.ofBytes r.remaining).front ++ Bytes.crlf ++
          after.remaining) ∧
    (∀ s, r.remaining = Kind.integer.lead :: s →
      (integer r).1 = (NumberLine.ofBytes s).result.map Int64.ofInt ∧
        ∀ n, (NumberLine.ofBytes s).result = .ok n →
          (Int64.ofInt n).toInt = n) ∧
    (∀ a s, r.remaining = (Kind.aggregate a).lead :: s →
      (header a r).1 = if Marker.streamed ++ Bytes.crlf <+: s then .ok .streamed
        else (NumberLine.ofBytes s).lengthResult) ∧
    (∀ (zeros : Nat) (n : Int64) (rest : Bytes),
      r.remaining = padded zeros n.toInt ++ Bytes.crlf ++ rest →
        ∃ after, number r = (.ok n.toInt, after) ∧ after.remaining = rest) := by
  refine ⟨?_, fun s hs => ⟨integer_run h hs, fun n hn => ?_⟩,
    fun a s hs => header_run h hs,
    fun zeros n rest hrest => ?_⟩
  · obtain ⟨after, hrun, hrest⟩ := number_run h
    refine ⟨after, hrun, hrest, fun n hn => ?_⟩
    obtain ⟨hover, hcrlf, -⟩ :=
      NumberLine.of_result_ok (congrArg Prod.fst (hrun.symm.trans hn))
    rw [hrest hover, List.append_assoc, NumberLine.crlf_append_rest hcrlf,
      NumberLine.front_append_behind]
  · obtain ⟨hover, -, rfl⟩ := NumberLine.of_result_ok hn
    obtain ⟨hleast, hgreatest⟩ := fits_iff.mp (NumberLine.fits_value hover)
    exact Int64.toInt_ofInt_of_le hleast hgreatest
  · exact (reads_number.accepts_iff steady_number h _ _).mpr
      ⟨_, hrest, _, rfl, numeral_padded zeros n.toInt, Value.fits_toInt n⟩

/-- The least number behind two zeros, one octet at a time; the number below it,
at which the input ends; and an array of as many elements as are less than
none. -/
theorem number_exact_least :
    let r (held coming : String) : Reader :=
      ⟨⟨[.piece (Bytes.ofChars coming.toList)], some 1⟩, {},
        Bytes.ofChars held.toList⟩
    let least := r "-00922337203685477580" "8\r\n"
    let below := r "-9223372036854775" "809"
    let array := r "*" "-1\r\n"
    (least.feed.Calm ∧
      ∃ after, number least = (.ok Int64.minValue.toInt, after) ∧
      after.remaining = []) ∧
    (below.feed.Calm ∧
      ∃ after, number below = (.error (.violation .overflow), after)) ∧
    (array.feed.Calm ∧
      (header (.sequence .array) array).1 = .error (.violation .badCount)) := by
  intro r least below array
  have hleast : least.feed.Calm := by decide
  have hbelow : below.feed.Calm := by decide
  have harray : array.feed.Calm := by decide
  obtain ⟨-, -, -, hzeros⟩ := number_exact hleast
  obtain ⟨⟨after, hrun, -⟩, -⟩ := number_exact hbelow
  obtain ⟨-, -, hheader, -⟩ := number_exact harray
  refine ⟨⟨hleast, hzeros 2 Int64.minValue [] (by decide +kernel)⟩,
    ⟨hbelow, after, ?_⟩, harray, ?_⟩
  · rw [hrun]
    exact congrArg (·, after) (by decide +kernel)
  · exact (hheader (.sequence .array) _ rfl).trans (by decide +kernel)

end Reader

end RespWire

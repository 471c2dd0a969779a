import RespWire.Proofs.Parsing
import RespWire.Proofs.Skipping

/-!
# Content is judged when its frame is taken

Some values come in a frame that says where they end, whatever is in it: a line,
or a body behind its length. Doubles, big numbers and verbatim strings are such
values, and not every text in the frame is one. What is in the frame is looked
at when all of the frame has been taken. So a text that is rejected costs the
value and not the stream: what is left to come is what stands behind the frame,
and a caller can read on there.

A big number is checked before it is converted, and a skip checks it only. The
check leaves nothing for the conversion to reject.
-/

namespace RespWire

/-- What the body of a verbatim string holds: a format, and the text behind
it. -/
def verbatimBody : Bytes → Except Fault (Format × Bytes)
  | a :: b :: c :: separator :: text =>
      if separator = ':'.toUInt8 then .ok (⟨a, b, c⟩, text)
      else .error
        (.violation (.badVerbatim ((a :: b :: c :: separator :: text).take 10)))
  | octets => .error (.violation (.badVerbatim octets))

/-- What it adds to a destination: its text, if it holds one. -/
def verbatimText (body : Bytes) : Bytes :=
  match verbatimBody body with
  | .ok x => x.2
  | .error _ => []

theorem verbatimBody_eq_ok_iff {body : Bytes} :
    (∃ x, verbatimBody body = .ok x) ↔ 4 ≤ body.length ∧
      body[3]? = some ':'.toUInt8 := by
  match body with
  | [] | [_] | [_, _] | [_, _, _] => exact ⟨nofun, fun h => nomatch h.2⟩
  | a :: b :: c :: separator :: text =>
      have hseparator : (a :: b :: c :: separator :: text)[3]? =
          some separator := rfl
      rw [hseparator, Option.some.injEq, verbatimBody]
      refine ⟨fun hleft => ?_, fun hright => ?_⟩
      · obtain ⟨x, hx⟩ := hleft
        split at hx
        · next heq => exact ⟨Nat.le_add_left 4 text.length, heq⟩
        · cases hx
      · exact ⟨_, if_pos hright.2⟩

theorem Kind.shows_line {k : Kind} (h : k.earlierNull? = none) (text : Bytes) :
    Kind.Shows (k.line text) k := Kind.shows_of_lead h _

/-! ## No judgement is about a size -/

theorem doubleLine_ne_tooLarge (text : Bytes) (size limit : Nat) :
    Reader.doubleLine text ≠ .error (.violation (.tooLarge size limit)) := by
  intro h
  unfold Reader.doubleLine at h
  split at h
  · cases h
  · split at h <;> cases h

theorem bigNumberLine_ne_tooLarge (text : Bytes) (size limit : Nat) :
    Reader.bigNumberLine text ≠ .error (.violation (.tooLarge size limit)) := by
  intro h
  unfold Reader.bigNumberLine at h
  split at h
  · cases h
  · simp only at h
    split at h <;> cases h

theorem verbatimBody_ne_tooLarge (body : Bytes) (size limit : Nat) :
    verbatimBody body ≠ .error (.violation (.tooLarge size limit)) := by
  intro h
  unfold verbatimBody at h
  split at h
  · split at h <;> cases h
  · cases h

/-- Answering otherwise makes no size of another fault. -/
theorem map_ne_tooLarge {α β : Type} {result : Except Fault α}
    (h : ∀ size limit, result ≠ .error (.violation (.tooLarge size limit)))
    (f : α → β) (size limit : Nat) :
    result.map f ≠ .error (.violation (.tooLarge size limit)) := by
  cases result with
  | ok a => exact nofun
  | error e =>
      exact fun heq =>
        h size limit (congrArg Except.error (Except.error.inj heq))

namespace Gather

open Reader (holding)

variable {o : Options}

/-- The body of a verbatim string is judged when it has been gathered. -/
theorem verbatim_of_counted {d : Draft} {after : Reader}
    {result : Except Fault Nat} {body : Bytes}
    (h : counted .verbatim d = (result, ⟨after, d.gathered ++ body⟩)) :
    verbatim d = (result.bind fun _ => (verbatimBody body).map Prod.fst,
      ⟨after, d.gathered ++ kept result (verbatimText body)⟩) := by
  have hback : (d.gathered ++ body).take d.gathered.length = d.gathered :=
    List.take_left
  cases result with
  | error e =>
      rw [verbatim, atomically, Step.bind_of_ok (m := mark) rfl,
        Step.bind_of_error h]
      simp only [hback, kept, List.append_nil]
      rfl
  | ok n =>
      have hsince : since d.gathered.length ⟨after, d.gathered ++ body⟩ =
          (.ok body, ⟨after, d.gathered ++ body⟩) := by
            rw [since, List.drop_left]
      rw [verbatim, atomically, Step.bind_of_ok (m := mark) rfl,
        Step.bind_of_ok h, Step.bind_of_ok hsince]
      rcases body with _ | ⟨a, _ | ⟨b, _ | ⟨c, _ | ⟨separator, text⟩⟩⟩⟩
      -- four bodies are too short for a format and a separator
      iterate 4
        · simp [verbatimBody, verbatimText, kept, Step.violate, Step.fail,
            Except.bind, Except.map]
      · simp only [verbatimBody, verbatimText, kept]
        by_cases hseparator : separator = ':'.toUInt8
        · simp only [if_pos hseparator]
          show ((.ok ⟨a, b, c⟩,
            ⟨after, (d.gathered ++ _).take d.gathered.length ++ text⟩) :
            Except Fault Format × Draft) = _
          rw [hback]
          rfl
        · simp only [if_neg hseparator, Step.violate, Step.fail, hback,
            List.append_nil]
          rfl

/-- A verbatim string in its frame is taken, and then its body is judged. -/
theorem verbatim_holding {w body : Bytes}
    (h : Counted o.limits .verbatim w body) (rest g : Bytes) :
    verbatim ⟨holding o (w ++ rest), g⟩ =
      ((verbatimBody body).map Prod.fst,
        ⟨holding o rest, g ++ verbatimText body⟩) := by
  have hcounted : counted .verbatim ⟨holding o (w ++ rest), g⟩ =
      (.ok body.length, ⟨holding o rest, g ++ body⟩) :=
    (gathers_counted .verbatim _ g _ _).mpr ⟨w, rest, body, rfl, rfl, rfl, h⟩
  exact verbatim_of_counted hcounted

end Gather

namespace Reader

variable {α : Type} {o : Options}

/-- A line in its frame is taken, and then its text is judged. -/
theorem lineOf_holding (k : Kind) (settle : Bytes → Except Fault α)
    {text : Bytes} (hlf : Bytes.lf ∉ text) (hfits : o.limits.Admits text.length)
    (rest : Bytes) :
    lineOf k settle (holding o (k.line text ++ rest)) =
      (settle text, holding o rest) := by
  have hline : Gather.line.collected (holding o (text ++ Bytes.crlf ++ rest)) =
      (.ok ((), text), holding o rest) :=
    (reads_iff.mp Gather.gathers_line.collected _ _ _).mpr
      ⟨text ++ Bytes.crlf, rest, rfl, rfl, hlf, hfits, rfl⟩
  exact (Step.bind_of_ok (expect_holding k _)).trans (Step.bind_of_ok hline)

theorem peek_of_shows {w : Bytes} {k : Kind} (h : Kind.Shows w k)
    (rest : Bytes) :
    peek (holding o (w ++ rest)) = (.ok k, holding o (w ++ rest)) := by
  rw [peek_holding, h rest]

theorem value_holding (s : Bytes) :
    value (holding o s) = valueWithin (o.maxDepth + 1) (holding o s) := rfl

theorem skip_holding (deep : Bool) (s : Bytes) :
    skip deep (holding o s) = skipWithin deep (o.maxDepth + 1) (holding o s) :=
      rfl

section Lines

variable {text : Bytes} (hlf : Bytes.lf ∉ text)
  (hfits : o.limits.Admits text.length) (rest : Bytes)

include hlf hfits

theorem value_double :
    value (holding o (Kind.double.line text ++ rest)) =
      ((doubleLine text).map Value.double, holding o rest) := by
  rw [value_holding, valueWithin,
    Step.bind_of_ok (peek_of_shows (Kind.shows_line rfl text) rest)]
  exact Step.map_of_run (lineOf_holding .double doubleLine hlf hfits rest)
    Value.double

theorem skip_double (deep : Bool) :
    skip deep (holding o (Kind.double.line text ++ rest)) =
      ((doubleLine text).map fun _ => Kind.double, holding o rest) := by
  rw [skip_holding, skipWithin,
    Step.bind_of_ok (peek_of_shows (Kind.shows_line rfl text) rest)]
  exact Step.map_of_run (lineOf_holding .double doubleLine hlf hfits rest)
    fun _ => Kind.double

theorem value_bigNumber :
    value (holding o (Kind.bigNumber.line text ++ rest)) =
      ((bigNumberLine text).map Value.bigNumber, holding o rest) := by
  rw [value_holding, valueWithin,
    Step.bind_of_ok (peek_of_shows (Kind.shows_line rfl text) rest)]
  exact Step.map_of_run (lineOf_holding .bigNumber bigNumberLine hlf hfits rest)
    Value.bigNumber

theorem skip_bigNumber (deep : Bool) :
    skip deep (holding o (Kind.bigNumber.line text ++ rest)) =
      ((checkedBigNumberLine text).map fun _ => Kind.bigNumber,
        holding o rest) := by
  rw [skip_holding, skipWithin,
    Step.bind_of_ok (peek_of_shows (Kind.shows_line rfl text) rest)]
  exact Step.map_of_run
    (lineOf_holding .bigNumber checkedBigNumberLine hlf hfits rest)
    fun _ => Kind.bigNumber

end Lines

section Bodies

variable {w body : Bytes} (h : Counted o.limits .verbatim w body) (rest : Bytes)

include h

theorem collected_verbatim :
    Gather.verbatim.collected (holding o (w ++ rest)) =
      (verbatimBody body, holding o rest) := by
  rw [Gather.collected, Gather.verbatim_holding h rest [], verbatimText]
  cases verbatimBody body <;> rfl

theorem value_verbatim :
    value (holding o (w ++ rest)) =
      ((verbatimBody body).map fun x => Value.verbatim x.1 x.2,
        holding o rest) := by
  rw [value_holding, valueWithin, Step.bind_of_ok (peek_of_shows h.shows rest)]
  exact Step.map_of_run (collected_verbatim h rest) fun x =>
    Value.verbatim x.1 x.2

theorem skip_verbatim (deep : Bool) :
    skip deep (holding o (w ++ rest)) =
      ((verbatimBody body).map fun _ => Kind.verbatim, holding o rest) := by
  rw [skip_holding, skipWithin, Step.bind_of_ok (peek_of_shows h.shows rest)]
  have hdropped := Step.map_of_run (collected_verbatim h rest) Prod.fst
  refine (Step.map_of_run hdropped fun _ => Kind.verbatim).trans ?_
  cases verbatimBody body <;> rfl

end Bodies

/-! ## Readers -/

/-- A read answers this and leaves that to come. -/
def Settles (m : Read α) (r : Reader) (result : Except Fault α) (rest : Bytes) :
    Prop :=
  ∃ after, m r = (result, after) ∧ after.remaining = rest

theorem settles_of_holding {m : Read α} (hsteady : Step.Steady lockstep m)
    {r : Reader} (h : r.feed.Calm) {s rest : Bytes} (hs : r.remaining = s)
    {result : Except Fault α}
    (hm : m (holding r.options s) = (result, holding r.options rest))
    (hresult : ∀ size limit,
      result ≠ .error (.violation (.tooLarge size limit))) :
    Settles m r result rest := by
  obtain ⟨after, hrun, hrest⟩ := run_of_holding hsteady h (hs ▸ hm) hresult
  exact ⟨after, hrun, hrest.trans (remaining_holding rest)⟩

/-- A parser of decimal numbers that reads what numerals denote. -/
def ReadsNumerals (parse : Bytes → Option Int) : Prop :=
  ∀ text n, SignedNumeral text n → parse text = some n

theorem settles_bigNumber {r : Reader} (h : r.feed.Calm) {text rest : Bytes}
    (hlf : Bytes.lf ∉ text) (hfits : r.options.limits.Admits text.length)
    (hs : r.remaining = Kind.bigNumber.line text ++ rest) :
    Settles bigNumber r (bigNumberLine text) rest ∧
      Settles value r ((bigNumberLine text).map Value.bigNumber) rest ∧
      ∀ deep, Settles (skip deep) r
        ((checkedBigNumberLine text).map fun _ => Kind.bigNumber) rest :=
  ⟨settles_of_holding steady_bigNumber h hs (lineOf_holding _ _ hlf hfits rest)
      (bigNumberLine_ne_tooLarge text),
    settles_of_holding steady_value h hs (value_bigNumber hlf hfits rest)
      (map_ne_tooLarge (bigNumberLine_ne_tooLarge text) _),
    fun deep => settles_of_holding (steady_skip deep) h hs
      (skip_bigNumber hlf hfits rest deep)
      (map_ne_tooLarge (map_ne_tooLarge (bigNumberLine_ne_tooLarge text) _) _)⟩

theorem settles_double {r : Reader} (h : r.feed.Calm) {text rest : Bytes}
    (hlf : Bytes.lf ∉ text) (hfits : r.options.limits.Admits text.length)
    (hs : r.remaining = Kind.double.line text ++ rest) :
    Settles double r (doubleLine text) rest ∧
      Settles value r ((doubleLine text).map Value.double) rest ∧
      ∀ deep, Settles (skip deep) r ((doubleLine text).map fun _ => Kind.double)
        rest :=
  ⟨settles_of_holding steady_double h hs (lineOf_holding _ _ hlf hfits rest)
      (doubleLine_ne_tooLarge text),
    settles_of_holding steady_value h hs (value_double hlf hfits rest)
      (map_ne_tooLarge (doubleLine_ne_tooLarge text) _),
    fun deep => settles_of_holding (steady_skip deep) h hs
      (skip_double hlf hfits rest deep)
      (map_ne_tooLarge (doubleLine_ne_tooLarge text) _)⟩

theorem settles_verbatim {r : Reader} (h : r.feed.Calm) {w body rest : Bytes}
    (hw : Counted r.options.limits .verbatim w body)
    (hs : r.remaining = w ++ rest) :
    (∀ g, ∃ after, after.remaining = rest ∧ Gather.verbatim ⟨r, g⟩ =
        ((verbatimBody body).map Prod.fst, ⟨after, g ++ verbatimText body⟩)) ∧
      Settles value r
        ((verbatimBody body).map fun x => Value.verbatim x.1 x.2) rest ∧
      ∀ deep, Settles (skip deep) r
        ((verbatimBody body).map fun _ => Kind.verbatim) rest := by
  have hsize := verbatimBody_ne_tooLarge body
  refine ⟨fun g => ?_,
    settles_of_holding steady_value h hs (value_verbatim hw rest)
      (map_ne_tooLarge hsize _),
    fun deep => settles_of_holding (steady_skip deep) h hs
      (skip_verbatim hw rest deep) (map_ne_tooLarge hsize _)⟩
  have halike : Draft.lockstep.same ⟨r, g⟩ ⟨holding r.options (w ++ rest), g⟩ :=
    ⟨hs ▸ alike_holding h, rfl⟩
  obtain ⟨⟨after, g'⟩, hrun, hsame⟩ := Gather.steady_verbatim.of_run halike
    (Gather.verbatim_holding hw rest g) (map_ne_tooLarge hsize _)
  obtain ⟨hreader, hgathered⟩ := hsame
  refine ⟨after, hreader.remaining.trans (remaining_holding rest), ?_⟩
  rw [hrun]
  exact congrArg (fun g => (_, Draft.mk after g)) hgathered

/-- A value in a frame is taken as a whole, whatever the frame holds. A line
behind the first octet of a double or a big number, and a body behind its length
in a verbatim string, are judged when they have been taken: the read of that
kind, a value and a skip, be it deep or not, leave what stands behind the frame,
whether they accept what is in it or not. A big number is accepted just if its
line is a numeral that may have a sign, and then it is the number that the
numeral denotes; a skip accepts the same lines, so no parser that reads numerals
rejects a line that the check lets through. The body of a verbatim string is
accepted just if a colon is its fourth octet. -/
theorem frames_taken_whole {r : Reader} (h : r.feed.Calm) :
    (∀ text rest, Bytes.lf ∉ text → r.options.limits.Admits text.length →
      r.remaining = Kind.double.line text ++ rest →
        Settles double r (doubleLine text) rest ∧
        Settles value r ((doubleLine text).map Value.double) rest ∧
        ∀ deep, Settles (skip deep) r
          ((doubleLine text).map fun _ => Kind.double) rest) ∧
    (∀ text rest, Bytes.lf ∉ text → r.options.limits.Admits text.length →
      r.remaining = Kind.bigNumber.line text ++ rest →
        (Settles bigNumber r (bigNumberLine text) rest ∧
          Settles value r ((bigNumberLine text).map Value.bigNumber) rest ∧
          ∀ deep, Settles (skip deep) r
            ((checkedBigNumberLine text).map fun _ => Kind.bigNumber) rest) ∧
        (∀ n, (bigNumber r).1 = .ok n ↔ SignedNumeral text n) ∧
        (∀ n, (value r).1 = .ok (.bigNumber n) ↔ SignedNumeral text n) ∧
        (∀ deep, (skip deep r).1 = .ok .bigNumber ↔ ∃ n, SignedNumeral text n) ∧
        ∀ parse, ReadsNumerals parse → ∀ u, checkedBigNumberLine text = .ok u →
          ∃ n, parse text = some n ∧ (bigNumber r).1 = .ok n) ∧
    (∀ num body rest, Count num body.length →
      r.options.limits.Admits body.length →
      r.remaining = Kind.verbatim.line num ++ (body ++ Bytes.crlf) ++ rest →
        ((∀ g, ∃ after, after.remaining = rest ∧ Gather.verbatim ⟨r, g⟩ =
            ((verbatimBody body).map Prod.fst,
              ⟨after, g ++ verbatimText body⟩)) ∧
          Settles value r ((verbatimBody body).map fun x =>
            Value.verbatim x.1 x.2) rest ∧
          ∀ deep, Settles (skip deep) r
            ((verbatimBody body).map fun _ => Kind.verbatim) rest) ∧
        ∀ g, (∃ format, (Gather.verbatim ⟨r, g⟩).1 = .ok format) ↔
          4 ≤ body.length ∧ body[3]? = some ':'.toUInt8) := by
  refine ⟨fun text rest hlf hfits hs => settles_double h hlf hfits hs,
    fun text rest hlf hfits hs => ?_, fun num body rest hcount hfits hs => ?_⟩
  · have hsettles := settles_bigNumber h hlf hfits hs
    refine ⟨hsettles, ?_⟩
    obtain ⟨⟨_, hread, -⟩, ⟨_, hvalue, -⟩, hskip⟩ := hsettles
    rw [hread, hvalue]
    refine ⟨fun n => bigNumberLine_eq_ok_iff, fun n => ?_, fun deep => ?_, ?_⟩
    · rw [← bigNumberLine_eq_ok_iff]
      cases bigNumberLine text <;> simp [Except.map]
    · obtain ⟨_, hrun, -⟩ := hskip deep
      rw [hrun, ← checkedBigNumberLine_eq_ok_iff (u := ())]
      cases checkedBigNumberLine text <;> simp [Except.map]
    · intro parse hparse u hcheck
      obtain ⟨n, hn⟩ := checkedBigNumberLine_eq_ok_iff.mp hcheck
      exact ⟨n, hparse text n hn, bigNumberLine_eq_ok_iff.mpr hn⟩
  · have hsettles := settles_verbatim h ⟨num, hcount, hfits, rfl⟩ hs
    refine ⟨hsettles, fun g => ?_⟩
    obtain ⟨_, -, hrun⟩ := hsettles.1 g
    rw [hrun, ← verbatimBody_eq_ok_iff]
    cases verbatimBody body <;> simp [Except.map]

/-- A big number with a sign in its midst and one with a sign in front, and a
verbatim string without a colon, each with something behind it that is left. -/
theorem frames_taken_whole_rejected :
    let r (held coming : String) : Reader :=
      ⟨⟨[.piece (Bytes.ofChars coming.toList)], some 1⟩, { sizeLimit := 6 },
        Bytes.ofChars held.toList⟩
    let parse (text : Bytes) : Option Int :=
      let (negative, ds) := Decimal.signed text
      if ds.isEmpty || !ds.all Decimal.isDigit then none
      else some (if negative then -Decimal.value ds else Decimal.value ds)
    let bad := r "(1-" "2\r\n+x"
    let good := r "(" "+07\r\n+x"
    let double := r ",1" "e\r\n+x"
    let verbatim := r "=06\r\ntxt" "\r\n:\r\n+x"
    let rest := Bytes.ofChars "+x".toList
    (bad.feed.Calm ∧ Settles bigNumber bad
      (.error (.violation (.badBigNumber (Bytes.ofChars "1-2".toList)))) rest) ∧
    (good.feed.Calm ∧ (value good).1 = .ok (.bigNumber 7) ∧
      ∃ n, parse (Bytes.ofChars "+07".toList) = some n ∧
        (bigNumber good).1 = .ok n) ∧
    (double.feed.Calm ∧ Settles (skip true) double
      (.error (.violation (.badDouble (Bytes.ofChars "1e".toList)))) rest) ∧
    (verbatim.feed.Calm ∧
      ∃ after, after.remaining = rest ∧ Gather.verbatim ⟨verbatim, [7]⟩ =
      (.error (.violation (.badVerbatim (Bytes.ofChars "txt\r\n:".toList))),
        ⟨after, [7]⟩)) := by
  intro r parse bad good double verbatim rest
  have hbad : bad.feed.Calm := by decide
  have hgood : good.feed.Calm := by decide
  have hdouble : double.feed.Calm := by decide
  have hverbatim : verbatim.feed.Calm := by decide
  have hparse : ReadsNumerals parse := by
    intro text n hn
    have hline := bigNumberLine_eq_ok_iff.mpr hn
    unfold bigNumberLine at hline
    split at hline
    · cases hline
    · simp only at hline
      split at hline
      · cases hline
      · next hdigits =>
          exact (if_neg hdigits).trans (congrArg some (Except.ok.inj hline))
  have hdigits : Digits (Bytes.ofChars "07".toList) :=
    ⟨by decide, by decide +kernel⟩
  have hseven : SignedNumeral (Bytes.ofChars "+07".toList) 7 :=
    .positive hdigits
  have hsix : Count (Bytes.ofChars "06".toList)
      (Bytes.ofChars "txt\r\n:".toList).length :=
    ⟨.plain ⟨by decide, by decide +kernel⟩, by decide⟩
  obtain ⟨-, hbigs, -⟩ := frames_taken_whole hbad
  obtain ⟨⟨hrejected, -⟩, -⟩ :=
    hbigs (Bytes.ofChars "1-2".toList) rest (by decide) (by decide) (by decide)
  obtain ⟨-, hbigs, -⟩ := frames_taken_whole hgood
  obtain ⟨-, -, hvalue, -, hconverted⟩ :=
    hbigs (Bytes.ofChars "+07".toList) rest (by decide) (by decide) (by decide)
  obtain ⟨hdoubles, -, -⟩ := frames_taken_whole hdouble
  obtain ⟨-, -, hskipped⟩ :=
    hdoubles (Bytes.ofChars "1e".toList) rest (by decide) (by decide)
      (by decide)
  obtain ⟨-, -, hverbatims⟩ := frames_taken_whole hverbatim
  obtain ⟨⟨hgathered, -⟩, -⟩ := hverbatims _ _ rest hsix (by decide) (by decide)
  exact ⟨⟨hbad, hrejected⟩,
    ⟨hgood, (hvalue 7).mpr hseven, hconverted parse hparse () rfl⟩,
    ⟨hdouble, hskipped true⟩, hverbatim, hgathered [7]⟩

end Reader

end RespWire

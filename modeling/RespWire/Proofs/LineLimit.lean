import RespWire.Proofs.Portions

/-!
# What becomes of a line

A line arrives in portions and is checked portion by portion. Two things could
depend on where it is cut: the limit counts what has come so far, and the end of
the line may come in two halves. Neither does. A line is refused for its size
just if it is too long as a whole, and its end is looked for in the whole line.

`LineOutcome` says what may come of a line, from its octets and the limit alone.
Only of a line that is too long it leaves something open: how much of it was
seen, which is never more than the limit and the end of a line.
-/

namespace RespWire

open Reader (throughLineFeed)

/-- What may come of the line at the front of the octets `s` under a limit: what
is answered, what is appended, and what is then to come. -/
inductive LineOutcome (limit? : Option Nat) (s : Bytes) :
    Except Fault Unit → Bytes → Bytes → Prop
  /-- It is refused for its size when a front of it has been taken. -/
  | tooLarge {limit size count : Nat} (hlimit : limit? = some limit)
      (hlong : limit < (throughLineFeed s).length - 2) (hsize : limit < size)
      (hcount : count ≤ limit + 2) :
      LineOutcome limit? s (.error (.violation (.tooLarge size limit)))
        (s.take count) (s.drop count)
  /-- All of it is taken, and it does not end as a line does. -/
  | cut (hfits : ∀ limit ∈ limit?, (throughLineFeed s).length - 2 ≤ limit)
      (hend : ¬ Bytes.crlf <:+ throughLineFeed s) :
      LineOutcome limit? s
        (.error (.cut (if Bytes.lf ∈ s then .bareLineFeed else .noLineEnd)))
        (throughLineFeed s) (s.drop (throughLineFeed s).length)
  /-- All of it is taken, and what stands in front of its end is appended. -/
  | ended {text : Bytes}
      (hfits : ∀ limit ∈ limit?, (throughLineFeed s).length - 2 ≤ limit)
      (hend : throughLineFeed s = text ++ Bytes.crlf) :
      LineOutcome limit? s (.ok ()) text (s.drop (throughLineFeed s).length)

namespace LineOutcome

variable {limit? : Option Nat} {s x y rest rest' : Bytes}
  {result result' : Except Fault Unit}

theorem tooLarge_iff (h : LineOutcome limit? s result x rest) :
    (∃ size limit, result = .error (.violation (.tooLarge size limit))) ↔
      ∃ limit,
        limit? = some limit ∧ limit < (throughLineFeed s).length - 2 := by
  have hnone
      (hfits : ∀ limit ∈ limit?, (throughLineFeed s).length - 2 ≤ limit) :
      ¬ ∃ limit, limit? = some limit ∧
        limit < (throughLineFeed s).length - 2 := by
    rintro ⟨limit, hlimit, hlong⟩
    exact Nat.not_lt.mpr (hfits limit hlimit) hlong
  cases h with
  | @tooLarge limit size _ hlimit hlong =>
      exact iff_of_true ⟨size, limit, rfl⟩ ⟨limit, hlimit, hlong⟩
  | cut hfits =>
      refine iff_of_false ?_ (hnone hfits)
      rintro ⟨size, limit, hcut⟩
      cases hcut
  | ended hfits =>
      refine iff_of_false ?_ (hnone hfits)
      rintro ⟨size, limit, hok⟩
      cases hok

/-- What comes of a line is decided, but for how much of a line that is too long
was seen. -/
theorem unique (h : LineOutcome limit? s result x rest)
    (h' : LineOutcome limit? s result' y rest') :
    (result = result' ∧ x = y ∧ rest = rest') ∨
      ∃ size size' limit, result = .error (.violation (.tooLarge size limit)) ∧
        result' = .error (.violation (.tooLarge size' limit)) := by
  have hsame :
      (∃ size limit, result = .error (.violation (.tooLarge size limit))) ↔
      ∃ size limit, result' = .error (.violation (.tooLarge size limit)) :=
    h.tooLarge_iff.trans h'.tooLarge_iff.symm
  cases h with
  | @tooLarge limit size _ hlimit hlong =>
      cases h' with
      | @tooLarge limit' size' _ hlimit' hlong' =>
          obtain rfl := Option.some.inj (hlimit.symm.trans hlimit')
          exact Or.inr ⟨size, size', limit, rfl, rfl⟩
      | _ =>
          obtain ⟨size', limit', hother⟩ := hsame.mp ⟨size, limit, rfl⟩
          cases hother
  | cut hfits hend =>
      cases h' with
      | @tooLarge limit size =>
          obtain ⟨size', limit', hother⟩ := hsame.mpr ⟨size, limit, rfl⟩
          cases hother
      | cut => exact Or.inl ⟨rfl, rfl, rfl⟩
      | ended _ hend' => exact absurd ⟨_, hend'.symm⟩ hend
  | ended hfits hend =>
      cases h' with
      | @tooLarge limit size =>
          obtain ⟨size', limit', hother⟩ := hsame.mpr ⟨size, limit, rfl⟩
          cases hother
      | cut _ hend' => exact absurd ⟨_, hend.symm⟩ hend'
      | ended _ hend' =>
          exact Or.inl
            ⟨rfl, List.append_cancel_right (hend.symm.trans hend'), rfl⟩

end LineOutcome

namespace Gather

/-- A line without a carriage return in front of its line feed is kept, and
refused. -/
theorem settleLine_of_not_suffix {line before : Bytes} {r : Reader}
    (h : ¬ Bytes.crlf <:+ line) :
    settleLine line.length ⟨r, before ++ line⟩ =
      (.error (.cut .bareLineFeed), ⟨r, before ++ line⟩) := by
  rw [settleLine_apply]
  by_cases hend : 2 ≤ line.length ∧
      (before ++ line).drop ((before ++ line).length - 2) = Bytes.crlf
  · have hok := settleLine_apply line.length ⟨r, before ++ line⟩
    rw [if_pos hend] at hok
    obtain ⟨text, htext, -⟩ := settleLine_eq_ok_iff.mp hok
    exact absurd ⟨text, htext.symm⟩ h
  · rw [if_neg hend]

theorem line_outcome {d : Draft} (h : d.reader.feed.Calm) :
    ∃ result x after, line d = (result, ⟨after, d.gathered ++ x⟩) ∧
      LineOutcome d.reader.options.effectiveLimit? d.reader.remaining result x
        after.remaining := by
  by_cases hfits : d.reader.options.limits.Admits
      ((throughLineFeed d.reader.remaining).length - 2)
  · obtain ⟨r, -, -, hsplit, hline⟩ :=
      lineFrom_of_admits 0 d h (by rwa [Nat.zero_add])
    have hrest : r.remaining =
        d.reader.remaining.drop
          (throughLineFeed d.reader.remaining).length := by
      have hdrop :=
        congrArg (List.drop (throughLineFeed d.reader.remaining).length) hsplit
      exact (hdrop.trans List.drop_left).symm
    rw [line, hline, Nat.zero_add]
    simp only
    by_cases hlf : Bytes.lf ∈ d.reader.remaining
    · rw [if_pos hlf]
      by_cases hend : Bytes.crlf <:+ throughLineFeed d.reader.remaining
      · obtain ⟨text, htext⟩ := hend
        refine ⟨.ok (), text, r,
          settleLine_eq_ok_iff.mpr ⟨text, htext.symm, rfl⟩, ?_⟩
        rw [hrest]
        exact .ended hfits htext.symm
      · refine ⟨_, _, r, settleLine_of_not_suffix hend, ?_⟩
        have hcut := LineOutcome.cut hfits hend
        rwa [if_pos hlf, ← hrest] at hcut
    · rw [if_neg hlf]
      have hend : ¬ Bytes.crlf <:+ throughLineFeed d.reader.remaining := by
        intro hend
        exact hlf
          ((Reader.throughLineFeed_prefix _).subset (hend.subset (by decide)))
      refine ⟨_, _, r, rfl, ?_⟩
      have hcut := LineOutcome.cut hfits hend
      rwa [if_neg hlf, ← hrest] at hcut
  · simp only [Limits.Admits, Classical.not_forall] at hfits
    obtain ⟨limit, hlimit, hlong⟩ := hfits
    obtain ⟨size, count, r, -, -, hrem, hcount, hsize, -, hline⟩ :=
      lineFrom_of_exceeds 0 d h hlimit (by omega) (by omega)
    refine ⟨_, _, r, hline, ?_⟩
    rw [hrem]
    exact .tooLarge hlimit (by omega) hsize (by omega)

theorem dropped_outcome {r : Reader} (h : r.feed.Calm) :
    ∃ result x after, line.dropped r = (result, after) ∧
      LineOutcome r.options.effectiveLimit? r.remaining result x
        after.remaining := by
  obtain ⟨result, x, after, hline, houtcome⟩ := line_outcome (d := ⟨r, []⟩) h
  exact ⟨result, x, after, dropped_of_run hline, houtcome⟩

/-- Two answers to the same line: they are the same, unless both refuse it for
its size, when one may have seen more of it than the other. -/
def SameDecision (result result' : Except Fault Unit) : Prop :=
  result = result' ∨
    ∃ size size' limit, result = .error (.violation (.tooLarge size limit)) ∧
    result' = .error (.violation (.tooLarge size' limit))

/-- What becomes of a line is decided by the octets to come and the limit alone,
whether the line is appended to a destination or passed over. It is refused for
its size just if the whole of it, up to its line feed or the end of the input,
is longer than the limit and the end of a line; then no more of it than that was
taken or appended. Every other line is taken as a whole, and it is answered if
it ends as a line does. The same octets in other portions are decided alike. -/
theorem line_decided {r : Reader} (h : r.feed.Calm) (g : Bytes) :
    (∃ result x after, line ⟨r, g⟩ = (result, ⟨after, g ++ x⟩) ∧
      LineOutcome r.options.effectiveLimit? r.remaining result x
        after.remaining) ∧
    (∃ result x after, line.dropped r = (result, after) ∧
      LineOutcome r.options.effectiveLimit? r.remaining result x
        after.remaining) ∧
    ((∃ size limit, (line ⟨r, g⟩).1 =
      .error (.violation (.tooLarge size limit))) ↔
      ∃ limit, r.options.effectiveLimit? = some limit ∧
        limit < (throughLineFeed r.remaining).length - 2) ∧
    (∀ (q : Reader) (g' : Bytes), q.feed.Calm → q.remaining = r.remaining →
      q.options.effectiveLimit? = r.options.effectiveLimit? →
        SameDecision (line ⟨r, g⟩).1 (line ⟨q, g'⟩).1 ∧
          SameDecision (line ⟨r, g⟩).1 (line.dropped q).1) := by
  obtain ⟨result, x, after, hline, houtcome⟩ := line_outcome (d := ⟨r, g⟩) h
  refine ⟨⟨result, x, after, hline, houtcome⟩, dropped_outcome h, ?_, ?_⟩
  · rw [hline]
    exact houtcome.tooLarge_iff
  · intro q g' hq hremaining hlimit
    obtain ⟨result', y, after', hline', houtcome'⟩ :=
      line_outcome (d := ⟨q, g'⟩) hq
    obtain ⟨result'', z, after'', hdropped, houtcome''⟩ := dropped_outcome hq
    simp only [hremaining, hlimit] at houtcome' houtcome''
    rw [hline, hline', hdropped]
    exact ⟨(houtcome.unique houtcome').imp_left And.left,
      (houtcome.unique houtcome'').imp_left And.left⟩

/-- The end of a line in two portions, behind a carriage return that belongs to
the line. With the last octet the line is too long, and one octet more is
enough. -/
theorem line_decided_apart :
    let r (limit : Int) : Reader :=
      ⟨⟨[.piece (Bytes.ofChars ['b', '\r', '\r']),
        .piece (Bytes.ofChars ['\n', 'c'])], none⟩,
        { sizeLimit := limit }, Bytes.ofChars ['a']⟩
    let whole : Reader :=
      ⟨⟨[], none⟩, { sizeLimit := 3 }, Bytes.ofChars "ab\r\r\nc".toList⟩
    ((r 3).feed.Calm ∧ (line ⟨r 3, [7]⟩).1 = .ok () ∧
      (line ⟨r 3, [7]⟩).2.gathered = 7 :: Bytes.ofChars ['a', 'b', '\r'] ∧
      SameDecision (line ⟨r 3, [7]⟩).1 (line.dropped whole).1) ∧
    ((r 2).feed.Calm ∧ ∃ size limit,
      (line ⟨r 2, [7]⟩).1 = .error (.violation (.tooLarge size limit))) := by
  intro r whole
  have hcalm : ∀ limit, (r limit).feed.Calm := fun _ => ⟨rfl, nofun⟩
  obtain ⟨-, -, -, hsame⟩ := line_decided (hcalm 3) [7]
  obtain ⟨-, -, hlarge, -⟩ := line_decided (hcalm 2) [7]
  exact ⟨⟨hcalm 3, by with_unfolding_all rfl, by decide +kernel,
    (hsame whole [] ⟨rfl, nofun⟩ rfl rfl).2⟩, hcalm 2,
      hlarge.mpr ⟨2, rfl, by decide⟩⟩

end Gather

end RespWire

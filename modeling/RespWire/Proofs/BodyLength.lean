import RespWire.Proofs.Contents
import RespWire.Proofs.NumberLine

/-!
# What becomes of a counted body

A length in front of a body is a promise, and there are as many ways to break it
as there are checks. The length may be negative, or above the limit, and then
the body is not looked at. The body may be shorter than announced, and then it
is taken to its last octet. Or it may not end where it has to, and then it is
taken and what stands in the place of its end is not.

`BodyOutcome.of` tells all this from the length, the limit and the octets behind
the header. Nothing else matters: not the portions in which the octets arrive,
and not whether the body is gathered or passed over.
-/

namespace RespWire

/-- What becomes of a body: what is answered, what is appended, and what is then
to come. -/
structure BodyOutcome where
  result : Except Fault Nat
  body : Bytes
  rest : Bytes

namespace BodyOutcome

/-- A body of which `n` octets are announced, where `s` is behind its header. -/
def of (limit? : Option Nat) (n : Int) (s : Bytes) : BodyOutcome :=
  if n < 0 then ⟨.error (.violation (.negativeLength n)), [], s⟩
  else
    match limit?.filter (· < n.toNat) with
    | some limit => ⟨.error (.violation (.tooLarge n.toNat limit)), [], s⟩
    | none =>
        if s.length < n.toNat then
          ⟨.error (.cut (.shortBody (n.toNat - s.length))), s, []⟩
        else if Bytes.crlf <+: s.drop n.toNat then
          ⟨.ok n.toNat, s.take n.toNat, s.drop (n.toNat + 2)⟩
        else
          ⟨.error (.cut (NumberLine.wrongEnd (s.drop n.toNat))), s.take n.toNat,
            s.drop n.toNat⟩

end BodyOutcome

namespace Reader

theorem sizeFault?_eq (o : Options) (size : Nat) :
    sizeFault? o size =
      (o.effectiveLimit?.filter (· < size)).map fun limit =>
        .violation (.tooLarge size limit) := by
  rw [sizeFault?]
  cases o.effectiveLimit? with
  | none => rfl
  | some limit => by_cases hlt : limit < size <;> simp [Option.filter, hlt]

theorem lineEnd_run {r : Reader} (h : r.feed.Calm) :
    ∃ after, lineEnd r =
        (if Bytes.crlf <+: r.remaining then .ok ()
          else .error (.cut (NumberLine.wrongEnd r.remaining)), after) ∧
      after.remaining = if Bytes.crlf <+: r.remaining then r.remaining.drop
        2 else r.remaining := by
  have hheld := lineEnd_holding (o := r.options) r.remaining
  by_cases hcrlf : Bytes.crlf <+: r.remaining
  · simp only [if_pos hcrlf] at hheld ⊢
    obtain ⟨after, hrun, hrest⟩ := run_of_holding steady_lineEnd h hheld nofun
    exact ⟨after, hrun, hrest.trans (remaining_holding _)⟩
  · simp only [if_neg hcrlf] at hheld ⊢
    obtain ⟨after, hrun, hrest⟩ := run_of_holding steady_lineEnd h hheld nofun
    exact ⟨after, hrun, hrest.trans (remaining_holding _)⟩

end Reader

namespace Gather

theorem ofRead_bind_ofRead {α β : Type} {m : Read α} {f : α → Read β}
    {d : Draft} {result : Except Fault β} {after : Reader}
    (h : (m >>= f) d.reader = (result, after)) :
    (ofRead m >>= fun a => ofRead (f a)) d = (result, ⟨after, d.gathered⟩) := by
  rw [Step.bind_apply] at h ⊢
  rw [ofRead]
  cases hm : m d.reader with
  | mk first mid =>
      rw [hm] at h
      cases first with
      | ok a => exact ofRead_of_run h
      | error e =>
          cases h
          rfl

/-- A body of a length that is not negative. -/
theorem body_run (n : Nat) {d : Draft} (h : d.reader.feed.Calm)
    {x : BodyOutcome}
    (hx : BodyOutcome.of d.reader.options.effectiveLimit? n
      d.reader.remaining = x) :
    ∃ after, (body n >>= fun _ => pure n) d =
      (x.result, ⟨after, d.gathered ++ x.body⟩) ∧ after.remaining = x.rest := by
  subst hx
  have hcheck := Reader.checkSize_apply n d.reader
  rw [Reader.sizeFault?_eq] at hcheck
  rw [BodyOutcome.of, if_neg (by omega), Int.toNat_natCast]
  cases hlimit : d.reader.options.effectiveLimit?.filter (· < n) with
  | some limit =>
      rw [hlimit] at hcheck
      refine ⟨d.reader, ?_, rfl⟩
      rw [List.append_nil]
      exact Step.bind_of_error (Step.bind_of_error (ofRead_of_run hcheck))
  | none =>
      rw [hlimit] at hcheck
      have hcheck := ofRead_of_run hcheck
      obtain ⟨mid, hcalm, -, hmid, hbody⟩ := bodyFrom_calm n d h
      by_cases hshort : d.reader.remaining.length < n
      · rw [if_neg (by omega), List.take_of_length_le (by omega)] at hbody
        simp only [if_pos hshort]
        refine ⟨mid, ?_, ?_⟩
        · exact Step.bind_of_error
            ((Step.bind_of_ok hcheck).trans (Step.bind_of_error hbody))
        · rw [hmid, List.drop_of_length_le (by omega)]
      · rw [if_pos (by omega)] at hbody
        simp only [if_neg hshort]
        obtain ⟨after, hline, hafter⟩ := Reader.lineEnd_run hcalm
        rw [hmid] at hline hafter
        have hrun : body n d = _ := (Step.bind_of_ok hcheck).trans
          ((Step.bind_of_ok hbody).trans (ofRead_of_run hline))
        by_cases hcrlf : Bytes.crlf <+: d.reader.remaining.drop n
        · rw [if_pos hcrlf] at hrun hafter
          simp only [if_pos hcrlf]
          exact ⟨after, Step.bind_of_ok hrun, hafter.trans (List.drop_drop ..)⟩
        · rw [if_neg hcrlf] at hrun hafter
          simp only [if_neg hcrlf]
          exact ⟨after, Step.bind_of_error hrun, hafter⟩

end Gather

namespace Reader

/-- Behind the header that announces a length there is the body. -/
theorem announced_run {k : Kind} {num s : Bytes} {n : Int} {r : Reader}
    (h : r.feed.Calm) (hnum : Numeral num n) (hfits : fits n = true)
    (hs : r.remaining = k.line num ++ s) :
    ∃ mid, (expect k >>= fun _ => number) r = (.ok n, mid) ∧
      Alike mid (holding r.options s) := by
  have hheld : (expect k >>= fun _ => number) (holding r.options r.remaining) =
      (.ok n, holding r.options s) := by
    have hnumber : number (holding r.options (num ++ Bytes.crlf ++ s)) =
        (.ok n, holding r.options s) :=
      (reads_iff.mp reads_number _ _ _).mpr
        ⟨num ++ Bytes.crlf, s, rfl, rfl, num, rfl, hnum, hfits⟩
    rw [hs]
    exact (Step.bind_of_ok (expect_holding k _)).trans hnumber
  exact ((steady_expect k).bind fun _ => steady_number).of_run (alike_holding h)
    hheld nofun

/-- A form that does not come next is not taken. -/
theorem takeForm_run {form : Bytes} {r : Reader} (h : r.feed.Calm)
    (hform : ¬ form <+: r.remaining) :
    ∃ mid, takeForm form r = (.ok false, mid) ∧ mid.feed.Calm ∧
      mid.options.effectiveLimit? = r.options.effectiveLimit? ∧
        mid.remaining = r.remaining := by
  have hheld := takeForm_holding (o := r.options) form r.remaining
  rw [if_neg hform] at hheld
  obtain ⟨mid, hmid, halike⟩ :=
    (steady_takeForm form).of_run (alike_holding h) hheld nofun
  exact ⟨mid, hmid, halike.calm_left, congrArg Limits.size? halike.limits,
    halike.remaining.trans (remaining_holding _)⟩

end Reader

/-! ## The reads of counted bodies -/

section Outcomes

variable {num s : Bytes} {n : Int} {r : Reader} {x : BodyOutcome}
  (h : r.feed.Calm) (hnum : Numeral num n) (hfits : Reader.fits n = true)
  (hx : BodyOutcome.of r.options.effectiveLimit? n s = x)

include h hnum hfits hx

namespace Gather

theorem counted_run {k : Kind} (hs : r.remaining = k.line num ++ s)
    (g : Bytes) :
    ∃ after, counted k ⟨r, g⟩ = (x.result, ⟨after, g ++ x.body⟩) ∧
      after.remaining = x.rest := by
  obtain ⟨mid, hmid, halike⟩ := Reader.announced_run h hnum hfits hs
  have hrest : mid.remaining = s :=
    halike.remaining.trans (Reader.remaining_holding s)
  have hlimit : mid.options.effectiveLimit? = r.options.effectiveLimit? :=
    congrArg Limits.size? halike.limits
  have hheader : (ofRead (Reader.expect k) >>= fun _ => ofRead Reader.number)
      ⟨r, g⟩ = (.ok n, ⟨mid, g⟩) := ofRead_bind_ofRead hmid
  have hcounted :
      counted k ⟨r, g⟩ = (if n < 0 then Step.violate (.negativeLength n)
        else body n.toNat >>= fun _ => pure n.toNat : Gather Nat) ⟨mid, g⟩ := by
    rw [counted, ← bind_assoc]
    exact Step.bind_of_ok hheader
  rw [hcounted]
  by_cases hneg : n < 0
  · rw [BodyOutcome.of, if_pos hneg] at hx
    subst hx
    exact ⟨mid, by rw [if_pos hneg, List.append_nil]; rfl, hrest⟩
  · rw [if_neg hneg]
    refine body_run n.toNat (d := ⟨mid, g⟩) halike.calm_left ?_
    rw [hlimit, hrest, Int.toNat_of_nonneg (Int.not_lt.mp hneg), hx]

theorem dropped_counted_run {k : Kind} (hs : r.remaining = k.line num ++ s) :
    Reader.Settles (counted k).dropped r x.result x.rest := by
  obtain ⟨after, hrun, hrest⟩ := counted_run h hnum hfits hx hs []
  exact ⟨after, dropped_of_run hrun, hrest⟩

theorem blob_run {role : Role}
    (hs : r.remaining = (Kind.blob role).line num ++ s) (g : Bytes) :
    ∃ after, blob role ⟨r, g⟩ =
      (x.result.map .known, ⟨after, g ++ kept x.result x.body⟩) ∧
      after.remaining = x.rest := by
  have hform : ¬ (Kind.blob role).streamHeader <+: r.remaining :=
    hs ▸ hnum.not_streamHeader _ s
  obtain ⟨mid, hmid, hcalm, hlimit, hrest⟩ := Reader.takeForm_run h hform
  obtain ⟨after, hrun, hafter⟩ :=
    counted_run hcalm hnum hfits (hlimit ▸ hx) (hrest.trans hs) g
  have hread : (do
      if ← Reader.takeStreamHeader (.blob role) then return .streamed
      else return .known (← counted (.blob role)) : Gather Length) ⟨r, g⟩ =
        (x.result.map .known, ⟨after, g ++ x.body⟩) := by
    refine (Step.bind_of_ok (ofRead_of_run hmid)).trans ?_
    exact Step.map_of_run hrun Length.known
  refine ⟨after, (atomically_of_run hread).trans ?_, hafter⟩
  rw [kept_map]

theorem chunk_run (hs : r.remaining = Kind.chunk.line num ++ s)
    (hlast : ¬ Marker.lastChunk <+: r.remaining) (g : Bytes) :
    ∃ after, chunk ⟨r, g⟩ =
        (x.result.map fun _ => false, ⟨after, g ++ kept x.result x.body⟩) ∧
      after.remaining = x.rest := by
  obtain ⟨mid, hmid, hcalm, hlimit, hrest⟩ := Reader.takeForm_run h hlast
  obtain ⟨after, hrun, hafter⟩ :=
    counted_run hcalm hnum hfits (hlimit ▸ hx) (hrest.trans hs) g
  refine ⟨after, ?_, hafter⟩
  refine (Step.bind_of_ok (ofRead_of_run hmid)).trans ?_
  exact Step.map_of_run (atomically_of_run hrun) fun _ => false

theorem verbatim_run (hs : r.remaining = Kind.verbatim.line num ++ s)
    (g : Bytes) :
    ∃ after, verbatim ⟨r, g⟩ =
        (x.result.bind fun _ => (verbatimBody x.body).map Prod.fst,
          ⟨after, g ++ kept x.result (verbatimText x.body)⟩) ∧
      after.remaining = x.rest := by
  obtain ⟨after, hrun, hafter⟩ := counted_run h hnum hfits hx hs g
  exact ⟨after, verbatim_of_counted hrun, hafter⟩

end Gather

namespace Reader

theorem skip_blob_run {role : Role}
    (hs : r.remaining = (Kind.blob role).line num ++ s)
    (hkind : Kind.ofFront r.remaining = .ok (.blob role)) (deep : Bool) :
    Settles (skip deep) r (x.result.map fun _ => .blob role) x.rest := by
  obtain ⟨seen, hpeek, hseen⟩ := peek_calm h
  rw [hkind] at hpeek
  have hseenRest := hseen.remaining.trans hs
  have hform : ¬ (Kind.blob role).streamHeader <+: seen.remaining :=
    hseenRest ▸ hnum.not_streamHeader _ s
  obtain ⟨mid, hmid, hcalm, hlimit, hrest⟩ := takeForm_run hseen.calm hform
  rw [hseen.options] at hlimit
  obtain ⟨after, hrun, hafter⟩ :=
    Gather.dropped_counted_run hcalm hnum hfits (hlimit ▸ hx)
    (hrest.trans hseenRest)
  refine ⟨after, ?_, hafter⟩
  have hskip : skip deep r = skipWithin deep (r.options.maxDepth + 1) r := rfl
  rw [hskip, skipWithin, Step.bind_of_ok hpeek]
  exact (Step.bind_of_ok hmid).trans
    (Step.map_of_run hrun fun _ => Kind.blob role)

theorem skip_chunk_run (hs : r.remaining = Kind.chunk.line num ++ s)
    (hlast : ¬ Marker.lastChunk <+: r.remaining) :
    Settles (skip false) r (x.result.map fun _ => .chunk) x.rest := by
  obtain ⟨seen, hpeek, hseen⟩ := peek_calm h
  rw [hs, Kind.shows_line rfl num s] at hpeek
  obtain ⟨mid, hmid, hcalm, hlimit, hrest⟩ :=
    takeForm_run hseen.calm (hseen.remaining ▸ hlast)
  rw [hseen.options] at hlimit
  obtain ⟨after, hrun, hafter⟩ :=
    Gather.dropped_counted_run hcalm hnum hfits (hlimit ▸ hx)
    (hrest.trans (hseen.remaining.trans hs))
  refine ⟨after, ?_, hafter⟩
  have hskip : skip false r = skipWithin false (r.options.maxDepth + 1) r := rfl
  have hchunk : skipChunk seen = (x.result.map fun _ => false, after) := by
    refine (Step.bind_of_ok hmid).trans ?_
    exact Step.map_of_run hrun fun _ => false
  rw [hskip, skipWithin, Step.bind_of_ok hpeek]
  refine (Step.map_of_run hchunk fun _ => Kind.chunk).trans ?_
  cases x.result <;> rfl

theorem skip_verbatim_run (hs : r.remaining = Kind.verbatim.line num ++ s)
    (deep : Bool) :
    Settles (skip deep) r
      ((x.result.bind fun _ => verbatimBody x.body).map fun _ => .verbatim)
      x.rest := by
  obtain ⟨seen, hpeek, hseen⟩ := peek_calm h
  rw [hs, Kind.shows_line rfl num s] at hpeek
  have hlimit := congrArg Options.effectiveLimit? hseen.options
  obtain ⟨after, hrun, hafter⟩ :=
    Gather.verbatim_run hseen.calm hnum hfits (hlimit ▸ hx)
    (hseen.remaining.trans hs) []
  refine ⟨after, ?_, hafter⟩
  have hskip : skip deep r = skipWithin deep (r.options.maxDepth + 1) r := rfl
  rw [hskip, skipWithin, Step.bind_of_ok hpeek]
  refine (Step.map_of_run (Gather.dropped_of_run hrun) fun _ =>
    Kind.verbatim).trans ?_
  cases x.result with
  | error e => rfl
  | ok m => cases verbatimBody x.body <;> simp [Except.bind, Except.map]

end Reader

end Outcomes

namespace Gather

/-- A counted body has one outcome for every length that can be announced, told
from the length, the limit and the octets behind the header alone. The length is
checked first: one below zero or above the limit is refused, and nothing behind
the header is taken. A body that breaks off is taken to its end; one that does
not end as it has to is taken and nothing more; and any other is taken with its
end, whatever octets are in it. This is so whether the body is gathered or
dropped. The typed reads and the skips of blobs, chunks and verbatim strings
come out in the same way. -/
theorem counted_exact {k : Kind} {num s : Bytes} {n : Int} {r : Reader}
    (h : r.feed.Calm) (hnum : Numeral num n) (hfits : Reader.fits n = true)
    (hs : r.remaining = k.line num ++ s) :
    let x := BodyOutcome.of r.options.effectiveLimit? n s
    (∀ g, ∃ after, counted k ⟨r, g⟩ = (x.result, ⟨after, g ++ x.body⟩) ∧
      after.remaining = x.rest) ∧
    Reader.Settles (counted k).dropped r x.result x.rest ∧
    (∀ role, k = .blob role →
      (∀ g, ∃ after, blob role ⟨r, g⟩ =
        (x.result.map .known, ⟨after, g ++ kept x.result x.body⟩) ∧
          after.remaining = x.rest) ∧
      (Kind.ofFront r.remaining = .ok (.blob role) → ∀ deep,
        Reader.Settles (Reader.skip deep) r (x.result.map fun _ => .blob role)
          x.rest)) ∧
    (k = .chunk → ¬ Marker.lastChunk <+: r.remaining →
      (∀ g, ∃ after, chunk ⟨r, g⟩ =
        (x.result.map fun _ => false, ⟨after, g ++ kept x.result x.body⟩) ∧
          after.remaining = x.rest) ∧
      Reader.Settles (Reader.skip false) r (x.result.map fun _ => .chunk)
        x.rest) ∧
    (k = .verbatim →
      (∀ g, ∃ after, verbatim ⟨r, g⟩ =
        (x.result.bind fun _ => (verbatimBody x.body).map Prod.fst,
          ⟨after, g ++ kept x.result (verbatimText x.body)⟩) ∧
            after.remaining = x.rest) ∧
      ∀ deep, Reader.Settles (Reader.skip deep) r
        ((x.result.bind fun _ => verbatimBody x.body).map fun _ => .verbatim)
          x.rest) := by
  intro x
  refine ⟨counted_run h hnum hfits rfl hs,
    dropped_counted_run h hnum hfits rfl hs, ?_, ?_, ?_⟩
  · rintro role rfl
    exact ⟨blob_run h hnum hfits rfl hs,
      Reader.skip_blob_run h hnum hfits rfl hs⟩
  · rintro rfl hlast
    exact ⟨chunk_run h hnum hfits rfl hs hlast,
      Reader.skip_chunk_run h hnum hfits rfl hs hlast⟩
  · rintro rfl
    exact ⟨verbatim_run h hnum hfits rfl hs,
      Reader.skip_verbatim_run h hnum hfits rfl hs⟩

/-- The five outcomes, each behind the header of a blob string that comes one
octet at a time: less than none, one more than the limit, a body that lacks an
octet, one that goes on where it has to end, and one that holds the end of a
line. -/
theorem counted_exact_five :
    let r (s : String) : Reader :=
      ⟨⟨[.piece (Bytes.ofChars s.toList)], some 1⟩, { sizeLimit := 4 }, []⟩
    let text (s : String) : Bytes := Bytes.ofChars s.toList
    let passed := (counted .blobString).dropped
    Reader.Settles passed (r "$-2\r\nab")
      (.error (.violation (.negativeLength (-2)))) (text "ab") ∧
    Reader.Settles passed (r "$5\r\nab") (.error (.violation (.tooLarge 5 4)))
      (text "ab") ∧
    Reader.Settles passed (r "$3\r\nab") (.error (.cut (.shortBody 1))) [] ∧
    Reader.Settles passed (r "$2\r\nabc\r\n")
      (.error (.cut (.wrongLineEnd (text "c\r")))) (text "c\r\n") ∧
    ∃ after, blob .string ⟨r "$04\r\na\r\nb\r\n+x", [7]⟩ =
      (.ok (.known 4), ⟨after, 7 :: text "a\r\nb"⟩) ∧
        after.remaining = text "+x" := by
  intro r text passed
  have hminus : Numeral (text "-2") (-2) := .negative (.singleton rfl)
  have hfive : Numeral (text "5") 5 := .plain (.singleton rfl)
  have hthree : Numeral (text "3") 3 := .plain (.singleton rfl)
  have htwo : Numeral (text "2") 2 := .plain (.singleton rfl)
  have hfour : Numeral (text "04") 4 := .plain ⟨by decide, by decide +kernel⟩
  obtain ⟨-, hnegative, -⟩ := counted_exact (k := .blobString) (s := text "ab")
    (r := r "$-2\r\nab") (by decide) hminus rfl (by decide)
  obtain ⟨-, hlarge, -⟩ := counted_exact (k := .blobString) (s := text "ab")
    (r := r "$5\r\nab") (by decide) hfive rfl (by decide)
  obtain ⟨-, hshort, -⟩ := counted_exact (k := .blobString) (s := text "ab")
    (r := r "$3\r\nab") (by decide) hthree rfl (by decide)
  obtain ⟨-, hlonger, -⟩ :=
    counted_exact (k := .blobString) (s := text "abc\r\n")
    (r := r "$2\r\nabc\r\n") (by decide) htwo rfl (by decide)
  obtain ⟨-, -, hblob, -⟩ :=
    counted_exact (k := .blobString) (s := text "a\r\nb\r\n+x")
    (r := r "$04\r\na\r\nb\r\n+x") (by decide) hfour rfl (by decide)
  exact ⟨hnegative, hlarge, hshort, hlonger, (hblob .string rfl).1 [7]⟩

end Gather

end RespWire

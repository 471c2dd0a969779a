import RespWire.Proofs.Alike
import RespWire.Proofs.Peek
import RespWire.Proofs.Portions
import RespWire.Reader.Call

/-!
# Every call is steady

Steadiness is carried from the parts to the calls. Bodies need nothing but
`bodyFrom_calm`. A line on its own is not steady, since two refusals for its
size are told apart; together with the first octet of its value it is, and all
lines are read like that (`steady_line`). From there on every read is put
together from steady steps, and the proofs follow how.
-/

namespace RespWire

open Step (Agree Steady)

namespace Gather

/-! ## Bodies and lines -/

theorem steady_bodyFrom (n : Nat) : Steady Draft.lockstep (bodyFrom n) := by
  intro d e h
  obtain ⟨r, hcalm, hoptions, hrem, hbody⟩ :=
    bodyFrom_calm n d h.reader.calm_left
  obtain ⟨r', hcalm', hoptions', hrem', hbody'⟩ :=
    bodyFrom_calm n e h.reader.calm_right
  rw [← h.reader.remaining] at hrem' hbody'
  rw [hbody, hbody', h.gathered]
  refine Agree.same (l := Draft.lockstep)
    ⟨⟨hcalm, hcalm', ?_, hrem.trans hrem'.symm⟩, rfl⟩ ⟨?_, ?_⟩
  · rw [hoptions, hoptions', h.reader.limits]
  · show r.remaining <:+ d.reader.remaining
    rw [hrem]
    exact List.drop_suffix n _
  · exact h.gathered ▸ List.prefix_append _ _

theorem steady_body (n : Nat) : Steady Draft.lockstep (body n) :=
  (steady_ofRead (Reader.steady_checkSize n)).bind fun _ =>
    (steady_bodyFrom n).bind fun _ => steady_ofRead Reader.steady_lineEnd

theorem steady_counted (k : Kind) : Steady Draft.lockstep (counted k) := by
  refine (steady_ofRead (Reader.steady_expect k)).bind fun _ => ?_
  refine (steady_ofRead Reader.steady_number).bind fun n => ?_
  split
  · exact .fail _
  · exact (steady_body _).bind fun _ => .pure _

/-- Settling a line is decided by what is gathered, and touches nothing else
than the line. -/
theorem settleLine_alike (before line : Bytes) :
    ∃ result gathered, before <+: gathered ∧ ∀ r : Reader,
      settleLine (0 + line.length) ⟨r, before ++ line⟩ =
        (result, ⟨r, gathered⟩) := by
  simp only [settleLine_apply]
  by_cases hend : 2 ≤ 0 + line.length ∧
      (before ++ line).drop ((before ++ line).length - 2) = Bytes.crlf
  · refine ⟨.ok (), (before ++ line).take ((before ++ line).length - 2), ?_,
      fun r => by rw [if_pos hend]⟩
    rw [List.prefix_take_iff, List.length_append]
    exact ⟨List.prefix_append _ _, by omega⟩
  · exact ⟨.error (.cut .bareLineFeed), before ++ line, List.prefix_append _ _,
      fun r => by rw [if_neg hend]⟩

theorem line_alike {d e : Draft} (h : d.Alike e) :
    (∃ result d' e', line d = (result, d') ∧ line e = (result, e') ∧
      d'.Alike e' ∧
      d'.reader.remaining <:+ d.reader.remaining ∧ d.gathered <+: d'.gathered) ∨
    (∃ limit f d' f' e', line d = (.error f, d') ∧ line e = (.error f', e') ∧
      Reader.StopsInLine d.reader.remaining limit f d'.reader.remaining ∧
      Reader.StopsInLine d.reader.remaining limit f' e'.reader.remaining ∧
      d.gathered <+: d'.gathered ∧ d.gathered <+: e'.gathered) := by
  have hlimits : e.reader.options.effectiveLimit? =
      d.reader.options.effectiveLimit? :=
    congrArg Limits.size? h.reader.limits.symm
  by_cases hadmits : d.reader.options.limits.Admits
      (0 + (Reader.throughLineFeed d.reader.remaining).length - 2)
  · obtain ⟨r, hcalm, hoptions, hsplit, hline⟩ :=
      lineFrom_of_admits 0 d h.reader.calm_left hadmits
    obtain ⟨r', hcalm', hoptions', hsplit', hline'⟩ :=
      lineFrom_of_admits 0 e h.reader.calm_right
        (by rw [← h.reader.limits, ← h.reader.remaining]; exact hadmits)
    rw [← h.reader.remaining] at hsplit' hline'
    rw [← h.gathered] at hline'
    have halike : Reader.Alike r r' :=
      ⟨hcalm, hcalm', by rw [hoptions, hoptions', h.reader.limits],
        List.append_cancel_left (hsplit.symm.trans hsplit')⟩
    have hsuffix : r.remaining <:+ d.reader.remaining := ⟨_, hsplit.symm⟩
    left
    rw [line, hline, hline']
    simp only
    split
    · obtain ⟨result, gathered, hprefix, hsettle⟩ :=
        settleLine_alike d.gathered (Reader.throughLineFeed d.reader.remaining)
      exact ⟨result, ⟨r, gathered⟩, ⟨r', gathered⟩, hsettle r, hsettle r',
        ⟨halike, rfl⟩, hsuffix, hprefix⟩
    · exact ⟨_, _, _, rfl, rfl, ⟨halike, rfl⟩, hsuffix, List.prefix_append _ _⟩
  · simp only [Limits.Admits, Classical.not_forall] at hadmits
    obtain ⟨limit, hlimit, hlong⟩ := hadmits
    obtain ⟨size, count, r, hcalm, hoptions, hrem, hcount, hsize, hbound,
        hline⟩ :=
      lineFrom_of_exceeds 0 d h.reader.calm_left hlimit (by omega) (by omega)
    obtain ⟨size', count', r', hcalm', hoptions', hrem', hcount', hsize',
        hbound', hline'⟩ :=
      lineFrom_of_exceeds 0 e h.reader.calm_right (hlimits.trans hlimit)
        (by omega) (by rw [← h.reader.remaining]; omega)
    rw [← h.reader.remaining] at hrem' hbound'
    exact Or.inr ⟨limit, _, _, _, _, hline, hline',
      ⟨⟨size, rfl, hsize, by omega⟩, count, hrem, by omega⟩,
      ⟨⟨size', rfl, hsize', by omega⟩, count', hrem', by omega⟩,
        List.prefix_append _ _,
      h.gathered ▸ List.prefix_append _ _⟩

/-- A line behind the first octet of its value. -/
theorem steady_line {k : Kind} (hk : k.onLine = true) :
    Steady Draft.lockstep (ofRead (Reader.expect k) >>= fun _ => line) := by
  intro d e h
  rcases Reader.expect_alike k h.reader with
    ⟨a, b, ha, hb, halike, hlead⟩ | ⟨f, a, b, ha, hb, halike, hrem⟩
  · have hd := ofRead_of_run (d := d) ha
    have he := ofRead_of_run (d := e) hb
    rw [Step.bind_of_ok hd, Step.bind_of_ok he]
    have hsuffix : a.remaining <:+ d.reader.remaining :=
      hlead ▸ List.suffix_cons _ _
    rcases line_alike (d := ⟨a, d.gathered⟩) (e := ⟨b, e.gathered⟩)
      ⟨halike, h.gathered⟩ with
      ⟨result, d', e', hd', he', halike', hrem, hprefix⟩ |
      ⟨limit, f, d', f', e', hd', he', hstop, hstop', hprefix, hprefix'⟩
    · rw [hd', he']
      exact Agree.same (l := Draft.lockstep) halike'
        ⟨hrem.trans hsuffix, hprefix⟩
    · rw [hd', he']
      exact Agree.apart (l := Draft.lockstep)
        ⟨⟨k, a.remaining, limit, hk, hlead ▸ List.suffix_rfl, hstop, hstop'⟩,
          hprefix, hprefix'⟩
  · have hd := ofRead_of_run (d := d) ha
    have he := ofRead_of_run (d := e) hb
    rw [Step.bind_of_error hd, Step.bind_of_error he]
    exact Agree.same (l := Draft.lockstep) ⟨halike, h.gathered⟩
      ⟨show a.remaining <:+ _ from hrem ▸ List.suffix_rfl, List.prefix_rfl⟩

end Gather

namespace Reader

/-! ## Typed reads -/

theorem steady_peekLead : Steady lockstep peekLead := by
  refine steady_lookAhead_bind fun bs a b h => ?_
  cases bs with
  | nil => exact agree_fail _ h.alike
  | cons c bs =>
      simp only
      cases Kind.ofLead? c with
      | none => exact agree_fail _ h.alike
      | some k => exact agree_pure k h.alike

theorem steady_peek : Steady lockstep peek := by
  intro a b h
  obtain ⟨a', ha, haahead⟩ := peek_calm h.calm_left
  obtain ⟨b', hb, hbahead⟩ := peek_calm h.calm_right
  rw [ha, hb, h.remaining]
  exact Agree.same (l := lockstep) (h.ahead haahead hbahead)
    (show a'.remaining <:+ a.remaining from haahead.remaining ▸ List.suffix_rfl)

theorem steady_boolean : Steady lockstep boolean := by
  refine (steady_expect _).bind fun _ => steady_lookAhead_bind fun bs a b h =>
    ?_
  match bs with
  | [] | [_] | [_, _] | _ :: _ :: _ :: _ :: _ => exact agree_fail _ h.alike
  | [x, y, z] =>
      simp only
      split
      · split
        · exact (agree_consume h (Nat.le_refl 3)).bind fun _ _ _ hsame _ =>
            agree_pure _ hsame
        · exact agree_fail _ h.alike
      · exact agree_fail _ h.alike

theorem steady_integer : Steady lockstep integer :=
  (steady_expect _).bind fun _ => steady_number.bind fun _ => .pure _

theorem steady_close : Steady lockstep close :=
  (steady_expect _).bind fun _ => steady_lineEnd

theorem steady_null : Steady lockstep null := by
  refine (steady_peekLead.mapFault fun _ _ => rfl).bind fun k => ?_
  intro a b h
  obtain ⟨a', ha, haahead, hatake⟩ := earlierNull?_calm k h.calm_left
  obtain ⟨b', hb, hbahead, hbtake⟩ := earlierNull?_calm k h.calm_right
  rw [← h.remaining] at hb hbtake
  have halike := h.ahead haahead hbahead
  have hfollows : lockstep.follows a a' :=
    show a'.remaining <:+ a.remaining from haahead.remaining ▸ List.suffix_rfl
  rw [Step.bind_of_ok ha, Step.bind_of_ok hb]
  refine .of_follows hfollows ?_
  cases hfound : k.earlierNull?.filter (·.isPrefixOf a.remaining) with
  | none => exact ((steady_expect _).bind fun _ => steady_lineEnd) a' b' halike
  | some form =>
      obtain ⟨hform, hp⟩ := Option.filter_eq_some_iff.mp hfound
      have hprefix := List.isPrefixOf_iff_prefix.mp hp
      exact agree_consume
        ⟨halike, hatake form hform hprefix, hbtake form hform hprefix⟩
        (Nat.le_refl _)

theorem steady_answer {α : Type} (x : Except Fault α) :
    Steady lockstep (fun r => (x, r) : Read α) :=
  fun _ _ h => .same h List.suffix_rfl

theorem collected_bind_ofRead {α β : Type} (m : Read α) (f : α → Gather β) :
    (Gather.ofRead m >>= f).collected = m >>= fun a => (f a).collected := by
  funext r
  simp only [Gather.collected, Step.bind_apply, Gather.ofRead]
  cases m r with
  | mk result after => cases result <;> rfl

theorem steady_line_bind {α : Type} {k : Kind} (hk : k.onLine = true)
    {f : Unit × Bytes → Read α} (hf : ∀ x, Steady lockstep (f x)) :
    Steady lockstep (expect k >>= fun _ => Gather.line.collected >>= f) := by
  rw [← bind_assoc, ← collected_bind_ofRead]
  exact (Gather.steady_collected (Gather.steady_line hk)).bind hf

theorem steady_lineOf {α : Type} {k : Kind} (hk : k.onLine = true)
    (settle : Bytes → Except Fault α) : Steady lockstep (lineOf k settle) :=
  steady_line_bind hk fun _ => steady_answer _

theorem steady_double : Steady lockstep double := steady_lineOf rfl _

theorem steady_bigNumber : Steady lockstep bigNumber := steady_lineOf rfl _

end Reader

namespace Gather

theorem steady_blob (role : Role) : Steady Draft.lockstep (blob role) := by
  refine steady_atomically
    ((steady_ofRead (Reader.steady_takeForm _)).bind fun streamed => ?_)
  split
  · exact .pure _
  · exact (steady_counted _).bind fun _ => .pure _

theorem steady_chunk : Steady Draft.lockstep chunk := by
  refine (steady_ofRead (Reader.steady_takeForm _)).bind fun last => ?_
  split
  · exact .pure _
  · exact (steady_atomically (steady_counted _)).bind fun _ => .pure _

theorem steady_chunks : Steady Draft.lockstep chunks := by
  refine steady_atomically
    ((steady_ofRead Reader.steady_remainingLength).bind fun budget => ?_)
  refine Steady.bind (Steady.collect (steady_chunk.bind fun last => ?_) _)
    fun _ => .pure _
  split
  · exact .pure _
  · exact .pure _

theorem steady_simple (role : Role) : Steady Draft.lockstep (simple role) :=
  steady_atomically (steady_line (k := .simple role) rfl)

/-- The text of a verbatim string moves to the front of what was gathered for
it, which steadiness has no rule for: both runs are followed to the end. -/
theorem steady_verbatim : Steady Draft.lockstep verbatim := by
  refine steady_atomically fun d e h => ?_
  have hx := steady_counted .verbatim d e h
  simp only [Step.bind_apply, mark, since, h.gathered]
  generalize counted .verbatim d = x at hx
  generalize counted .verbatim e = y at hx
  cases hx with
  | apart hapart => exact .apart hapart
  | @same result d' e' hsame hfollows =>
      cases result with
      | error f => exact .same hsame hfollows
      | ok n =>
          have hfail : ∀ f,
              Agree Draft.lockstep d ((Step.fail f : Gather Format) d')
              ((Step.fail f : Gather Format) e') :=
                fun f => .same hsame hfollows
          simp only [hsame.gathered]
          generalize e'.gathered.drop e.gathered.length = octets
          match octets with
          | [] | [_] | [_, _] | [_, _, _] => exact hfail _
          | a :: b :: c :: separator :: text =>
              simp only
              split
              · refine Agree.same (l := Draft.lockstep) ⟨hsame.reader, ?_⟩
                  ⟨hfollows.1, ?_⟩
                · show d'.gathered.take _ ++ text = e'.gathered.take _ ++ text
                  rw [hsame.gathered]
                · show d.gathered <+: d'.gathered.take _ ++ text
                  rw [← h.gathered, ← List.prefix_iff_eq_take.mp hfollows.2]
                  exact List.prefix_append _ _
              · exact hfail _

end Gather

namespace Reader

/-! ## Values -/

theorem steady_tooDeep {α : Type} : Steady lockstep (tooDeep : Read α) := by
  intro a b h
  have hdepth : a.options.maxDepth = b.options.maxDepth :=
    congrArg Limits.depth h.limits
  simp only [tooDeep, getOptions, Step.bind_apply, hdepth]
  exact agree_fail _ h

theorem steady_nested {α : Type} {item : Read α} (h : Steady lockstep item) :
    Steady lockstep (nested item) := h.mapFault fun _ _ => rfl

theorem steady_element? {α : Type} {item : Read α} (h : Steady lockstep item) :
    Steady lockstep (element? item) := by
  refine (steady_peek.mapFault fun _ _ => rfl).bind fun k => ?_
  split
  · exact steady_close.bind fun _ => .pure _
  · exact h.bind fun _ => .pure _

theorem steady_elements {α : Type} (a : Aggregate) {item : Read α}
    {streamed : Read (Option α)} (h : Steady lockstep item)
    (hs : Steady lockstep streamed) :
    Steady lockstep (elements a item streamed) := by
  refine (steady_header a).bind fun n => ?_
  cases n with
  | known n => exact h.times n
  | streamed => exact steady_remainingLength.bind fun budget => hs.collect _

theorem steady_pair {item : Read Value} (h : Steady lockstep item) :
    Steady lockstep (pair item) :=
  (steady_nested h).bind fun _ => (steady_nested h).bind fun _ => .pure _

theorem steady_pair? {item : Read Value} (h : Steady lockstep item) :
    Steady lockstep (pair? item) := by
  refine (steady_element? (steady_nested h)).bind fun key? => ?_
  cases key? with
  | none => exact .pure _
  | some key => exact (steady_nested h).bind fun _ => .pure _

theorem steady_joinedBlob (role : Role) :
    Steady lockstep (joinedBlob role) := by
  refine (Gather.steady_collected
    ((Gather.steady_blob role).bind fun n => ?_)).bind
    fun _ => .pure _
  cases n with
  | known n => exact .pure _
  | streamed => exact Gather.steady_chunks

theorem steady_valueWithin (levels : Nat) :
    Steady lockstep (valueWithin levels) := by
  induction levels with
  | zero => exact steady_tooDeep
  | succ levels ih =>
      refine steady_peek.bind fun k => ?_
      cases k with
      | aggregate a =>
          cases a with
          | sequence s =>
              exact (steady_elements _ (steady_nested ih)
                (steady_element? (steady_nested ih))).bind
                fun _ => .pure _
          | pairing p =>
              exact (steady_elements _ (steady_pair ih) (steady_pair? ih)).bind
                fun _ => .pure _
      | blob role => exact (steady_joinedBlob role).bind fun _ => .pure _
      | simple role =>
          exact (Gather.steady_collected (Gather.steady_simple role)).bind
            fun _ => .pure _
      | verbatim =>
          exact (Gather.steady_collected Gather.steady_verbatim).bind fun _ =>
            .pure _
      | bigNumber => exact steady_bigNumber.bind fun _ => .pure _
      | boolean => exact steady_boolean.bind fun _ => .pure _
      | double => exact steady_double.bind fun _ => .pure _
      | integer => exact steady_integer.bind fun _ => .pure _
      | null => exact steady_null.bind fun _ => .pure _
      | chunk => exact .fail _
      | close => exact .fail _

/-- A read that starts from the depth allowed. -/
theorem steady_bind_maxDepth {α : Type} {m : Nat → Read α}
    (h : ∀ levels, Steady lockstep (m levels)) :
    Steady lockstep (getOptions >>= fun o => m (o.maxDepth + 1)) := by
  intro a b hab
  have hdepth : a.options.maxDepth = b.options.maxDepth :=
    congrArg Limits.depth hab.limits
  simp only [getOptions, Step.bind_apply, hdepth]
  exact h _ a b hab

theorem steady_value : Steady lockstep value :=
  steady_bind_maxDepth steady_valueWithin

/-! ## Skips -/

theorem steady_skipChunk : Steady lockstep skipChunk := by
  refine (steady_takeForm _).bind fun last => ?_
  split
  · exact .pure _
  · exact (Gather.steady_dropped (Gather.steady_counted _)).bind fun _ =>
      .pure _

theorem steady_skipChunks : Steady lockstep skipChunks := by
  refine steady_remainingLength.bind fun budget => ?_
  refine Steady.bind (Steady.collect (steady_skipChunk.bind fun last => ?_) _)
    fun _ => .pure _
  split
  · exact .pure _
  · exact .pure _

theorem steady_skipBlob {α : Type} (role : Role) {streamed : Read α}
    {f : Nat → Read α} (hstreamed : Steady lockstep streamed)
    (hf : ∀ n, Steady lockstep (f n)) :
    Steady lockstep (do
      if ← takeStreamHeader (.blob role) then streamed
      else f (← (Gather.counted (.blob role)).dropped)) := by
  refine (steady_takeForm _).bind fun found => ?_
  split
  · exact hstreamed
  · exact (Gather.steady_dropped (Gather.steady_counted _)).bind hf

theorem steady_skipElements (a : Aggregate) {item : Read Kind}
    (h : Steady lockstep item) (n : Length) :
    Steady lockstep (skipElements a item n) := by
  cases n with
  | known n => exact ((steady_nested h).times _).bind fun _ => .pure _
  | streamed =>
      refine steady_remainingLength.bind fun budget => ?_
      refine Steady.bind (Steady.collect ((steady_nested h).bind fun k => ?_) _)
        fun _ => .pure _
      split
      · exact .pure _
      · exact .pure _

theorem steady_skipWithin (deep : Bool) (levels : Nat) :
    Steady lockstep (skipWithin deep levels) := by
  induction levels with
  | zero => exact steady_tooDeep
  | succ levels ih =>
      refine steady_peek.bind fun k => ?_
      cases k with
      | aggregate a =>
          refine (steady_header a).bind fun n => ?_
          simp only
          split
          · exact (steady_skipElements a ih n).bind fun _ => .pure _
          · exact .pure _
      | blob role =>
          refine steady_skipBlob role ?_ fun _ => .pure _
          split
          · exact steady_skipChunks.bind fun _ => .pure _
          · exact .pure _
      | chunk =>
          simp only
          split
          · exact steady_skipChunks.bind fun _ => .pure _
          · exact steady_skipChunk.bind fun _ => .pure _
      | simple role =>
          simp only [Gather.dropped, bind_assoc]
          exact steady_line_bind rfl fun _ => .pure _
      | verbatim =>
          exact (Gather.steady_dropped Gather.steady_verbatim).bind fun _ =>
            .pure _
      | bigNumber => exact (steady_lineOf rfl _).bind fun _ => .pure _
      | boolean => exact steady_boolean.bind fun _ => .pure _
      | double => exact steady_double.bind fun _ => .pure _
      | integer => exact steady_integer.bind fun _ => .pure _
      | null => exact steady_null.bind fun _ => .pure _
      | close => exact steady_close.bind fun _ => .pure _

theorem steady_skip (deep : Bool) : Steady lockstep (skip deep) :=
  steady_bind_maxDepth (steady_skipWithin deep)

/-- No call can tell alike readers apart. -/
theorem steady_make (call : Call) : Steady Draft.lockstep call.make := by
  cases call with
  | peek => exact (Gather.steady_ofRead steady_peek).bind fun _ => .pure _
  | header a =>
      exact (Gather.steady_ofRead (steady_header a)).bind fun _ => .pure _
  | blob role => exact (Gather.steady_blob role).bind fun _ => .pure _
  | chunk => exact Gather.steady_chunk.bind fun _ => .pure _
  | chunks => exact Gather.steady_chunks.bind fun _ => .pure _
  | simple role => exact (Gather.steady_simple role).bind fun _ => .pure _
  | verbatim => exact Gather.steady_verbatim.bind fun _ => .pure _
  | bigNumber =>
      exact (Gather.steady_ofRead steady_bigNumber).bind fun _ => .pure _
  | boolean => exact (Gather.steady_ofRead steady_boolean).bind fun _ => .pure _
  | double => exact (Gather.steady_ofRead steady_double).bind fun _ => .pure _
  | integer => exact (Gather.steady_ofRead steady_integer).bind fun _ => .pure _
  | close => exact (Gather.steady_ofRead steady_close).bind fun _ => .pure _
  | null => exact (Gather.steady_ofRead steady_null).bind fun _ => .pure _
  | value => exact (Gather.steady_ofRead steady_value).bind fun _ => .pure _
  | skip deep =>
      exact (Gather.steady_ofRead (steady_skip deep)).bind fun _ => .pure _

end Reader

end RespWire

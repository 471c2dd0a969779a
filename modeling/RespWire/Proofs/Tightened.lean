import RespWire.Proofs.Followers

/-!
# Limits only refuse

The same reader with two sets of options, of which one allows no more than the
other. Limits are only ever compared with, and a comparison that turns out
against the tighter limit ends the run. Until then the two runs are in the same
state, whatever the feed does: they look at the same, take the same and meet the
same failures.

So a caller who raises a limit keeps every answer, and one who lowers it loses
answers to refusals and to nothing else.
-/

namespace RespWire

/-- Options that allow no more than others, and ask the feed for as much. Where
there is no size limit, any limit is tighter. -/
structure Options.Tighter (tight loose : Options) : Prop where
  size : ∀ limit ∈ loose.effectiveLimit?, ∃ smaller ∈ tight.effectiveLimit?,
    smaller ≤ limit
  depth : tight.maxDepth ≤ loose.maxDepth
  bufferSize : tight.bufferSize = loose.bufferSize

theorem Options.Tighter.fillSize {tight loose : Options}
    (h : tight.Tighter loose) :
    tight.fillSize = loose.fillSize := by
  rw [Options.fillSize, Options.fillSize, h.bufferSize]

namespace Reader

open Step (Matched Matches)

variable {tight loose o : Options} {r s t : Reader} {n : Nat}

/-- The second reader is the first with the tighter options. -/
structure Tightened (loose tight : Options) (s t : Reader) : Prop where
  options : s.options = loose
  eq : t = s.setOptions tight

/-- A size that the tighter limit does not refuse, the other does not refuse
either. -/
theorem sizeFault?_of_tighter (h : tight.Tighter loose) (size : Nat) :
    (∃ f, f.IsLimit ∧ sizeFault? tight size = some f) ∨
      sizeFault? tight size = none ∧ sizeFault? loose size = none := by
  cases hfault : sizeFault? tight size with
  | some f =>
      refine Or.inl ⟨f, ?_, rfl⟩
      unfold sizeFault? at hfault
      split at hfault
      · split at hfault
        · cases hfault
          trivial
        · cases hfault
      · cases hfault
  | none =>
      refine Or.inr ⟨rfl, sizeFault?_of_admits fun limit hlimit => ?_⟩
      obtain ⟨smaller, hsmaller, hle⟩ := h.size limit hlimit
      exact Nat.le_trans (admits_of_sizeFault? hfault smaller hsmaller) hle

theorem fill_setOptions (h : o.fillSize = r.options.fillSize) :
    fill (r.setOptions o) = ((fill r).1, (fill r).2.setOptions o) := by
  unfold fill setOptions
  simp only [h]
  cases r.feed.afterInterruptions.read r.options.fillSize with
  | mk result feed => cases result <;> rfl

theorem lookAhead_setOptions (h : o.fillSize = r.options.fillSize) :
    lookAhead n (r.setOptions o) =
      ((lookAhead n r).1, (lookAhead n r).2.setOptions o) := by
  induction r using lookAhead_induction (n := n) with
  | enough r hn =>
      have hn' : n ≤ (r.setOptions o).buffer.length := hn
      rw [lookAhead_of_le hn, lookAhead_of_le hn']
      rfl
  | lacks r hn ih =>
      have hn' : (r.setOptions o).buffer.length < n := hn
      have hoptions := options_of_fill r
      rw [lookAhead_of_lacks hn, lookAhead_of_lacks hn', fill_setOptions h]
      generalize hx : fill r = x at hoptions
      obtain ⟨result, after⟩ := x
      have hafter : after.options = r.options := hoptions
      match result with
      | .error e => rfl
      | .ok 0 => rfl
      | .ok (k + 1) => exact ih k after hx (by rw [h, hafter])

theorem held_setOptions (h : o.fillSize = r.options.fillSize) :
    held (r.setOptions o) = ((held r).1, (held r).2.setOptions o) := by
  unfold held
  rw [fill_setOptions h, show (r.setOptions o).buffer = r.buffer from rfl]
  split
  · generalize fill r = x
    obtain ⟨result, after⟩ := x
    cases result <;> rfl
  · rfl

/-! ## Parts of values -/

theorem matches_consume (n : Nat) :
    Matches Fault.IsLimit (Tightened loose tight) (consume n) (consume n) := by
  rintro s _ ⟨hs, rfl⟩
  exact .same ⟨hs, rfl⟩

theorem matches_held (h : tight.Tighter loose) :
    Matches Fault.IsLimit (Tightened loose tight) held held := by
  rintro s _ ⟨rfl, rfl⟩
  rw [held_setOptions h.fillSize]
  exact .same ⟨options_of_held s, rfl⟩

/-- The one place where the size limits make a difference. -/
theorem matches_checkSize (h : tight.Tighter loose) (size : Nat) :
    Matches Fault.IsLimit (Tightened loose tight) (checkSize size)
      (checkSize size) := by
  rintro s _ ⟨hs, rfl⟩
  rw [checkSize_apply, checkSize_apply, hs, show (s.setOptions tight).options =
    tight from rfl]
  rcases sizeFault?_of_tighter h size with ⟨f, hf, htight⟩ | ⟨htight, hloose⟩
  · rw [htight]
    exact .stopped hf
  · rw [htight, hloose]
    exact .same ⟨hs, rfl⟩

/-! ## Calls -/

theorem followers_tightened (h : tight.Tighter loose) :
    Followers Fault.IsLimit (Tightened loose tight) where
  lookAhead n s t hst := by
    obtain ⟨rfl, rfl⟩ := hst
    exact Or.inl ⟨_, _, _, rfl, lookAhead_setOptions h.fillSize,
      options_of_lookAhead n s, rfl⟩
  consume n s t hst _ _ := by
    obtain ⟨rfl, rfl⟩ := hst
    exact ⟨rfl, rfl⟩
  checkSize := matches_checkSize h
  bodyFrom := Gather.matches_bodyFrom (matches_held h) matches_consume
  line := Gather.matches_lineFrom (matches_held h) matches_consume
    (matches_checkSize h) 0
  stops_cases := Or.inr fun _ hf => hf
  holds hall := (hall .endOfInput).elim
  tooDeep _ := trivial
  depth s t hst := by
    obtain ⟨rfl, rfl⟩ := hst
    exact h.depth

/-- Under tighter limits a call refuses what exceeds one of them, or it gives
the same answer or the same fault, gathers the same and leaves the same behind,
the options apart. This is so of every feed, wherever it falters. In particular
a call that gives an answer gives the same under looser limits. -/
theorem make_tightened (h : tight.Tighter loose) (call : Call) (r : Reader)
    (g : Bytes) :
    let strict := call.make ⟨r.setOptions tight, g⟩
    let generous := call.make ⟨r.setOptions loose, g⟩
    ((∃ f, f.IsLimit ∧ strict.1 = .error f) ∨
      strict =
        (generous.1,
          ⟨generous.2.reader.setOptions tight, generous.2.gathered⟩)) ∧
    ∀ a after, strict = (.ok a, after) →
      generous = (.ok a, ⟨after.reader.setOptions loose, after.gathered⟩) := by
  intro strict generous
  have hmatched : Matched Fault.IsLimit (Draft.Related (Tightened loose tight))
      generous strict :=
    (followers_tightened h).make (fun _ hall => (hall .endOfInput).elim) _ _
      ⟨⟨rfl, rfl⟩, rfl⟩
  have hdraft : ∀ {d e : Draft}, Draft.Related (Tightened loose tight) d e →
      e = ⟨d.reader.setOptions tight, d.gathered⟩ ∧
        d = ⟨e.reader.setOptions loose, e.gathered⟩ := by
    rintro ⟨⟨feed, _, buffer⟩, g⟩ ⟨_, _⟩ ⟨⟨rfl, rfl⟩, rfl⟩
    exact ⟨rfl, rfl⟩
  constructor
  · generalize generous = x at hmatched
    generalize strict = y at hmatched
    cases hmatched with
    | stopped hf => exact Or.inl ⟨_, hf, rfl⟩
    | same hde => exact Or.inr (by rw [← (hdraft hde).1])
  · intro a after hstrict
    obtain ⟨d, hgenerous, hde⟩ := (hstrict ▸ hmatched).of_ok
    rw [hgenerous, (hdraft hde).2]

/-- A stream read under limits that it just keeps, and so under none on its
size. -/
theorem make_tightened_stream :
    let tight : Options := { sizeLimit := 1, maxDepth := 1 }
    let loose : Options := { sizeLimit := -1 }
    let r : Reader :=
      ⟨⟨[.piece (Bytes.ofChars "*?\r\n+a\r\n.\r\n".toList)], some 3⟩, {}, []⟩
    tight.Tighter loose ∧ ∃ after,
      Call.value.make ⟨r.setOptions loose, [7]⟩ =
        (.ok (.value (.array [.simple .string (Bytes.ofChars ['a'])])),
          after) := by
  intro tight loose r
  have htighter : tight.Tighter loose := ⟨nofun, by decide, rfl⟩
  have hderives :
      Derives tight.limits 0 _
        (.array [.simple .string (Bytes.ofChars ['a'])]) :=
    .openSequence (.cons (by decide) (.simple (by decide) (by decide)) .nil)
  have hcalm : (r.setOptions tight).feed.Calm := by decide
  obtain ⟨after, hvalue, -⟩ :=
    (reads_value.accepts_iff steady_value hcalm _ []).mpr
      ⟨_, by decide, hderives⟩
  have hstrict : Call.value.make ⟨r.setOptions tight, [7]⟩ =
      (.ok (.value (.array [.simple .string (Bytes.ofChars ['a'])])),
        ⟨after, [7]⟩) := by
    refine Step.bind_of_ok ?_
    show Gather.ofRead value _ = _
    rw [Gather.ofRead, hvalue]
  exact ⟨htighter, _, (make_tightened htighter .value r [7]).2 _ _ hstrict⟩

end Reader

end RespWire

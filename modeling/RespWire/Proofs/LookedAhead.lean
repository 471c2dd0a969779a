import RespWire.Proofs.InStep

/-!
# What has been seen of a line

How much of a line is held when its read starts shows, where the line is too
long: a line is checked portion by portion. But the few octets that a look ahead
asks for are within every limit. Whether they were held before the read or come
in with its first fill, the portion in which the limit is exceeded ends in the
same place. So a line is refused with the same size, and only what is left of it
differs.
-/

namespace RespWire

namespace Reader

variable {r mid : Reader}

theorem held_of_ne_nil (h : r.buffer ≠ []) : held r = (.ok r.buffer, r) := by
  rw [held, if_neg (by simpa using h)]

theorem held_of_nil (h : r.buffer = []) {got : Nat}
    (hfill : fill r = (.ok got, mid)) :
    held r = (.ok mid.buffer, mid) := by
  rw [held, if_pos (by simpa using h), hfill]

end Reader

namespace Gather

open Reader (throughLineFeed sizeFault? consume fill)

variable {r mid : Reader} {taken : Nat} {x y : Bytes}

/-- A line goes on with what is held. -/
theorem lineFrom_of_ne_nil {portion : Bytes} (h : r.buffer ≠ [])
    (hportion : throughLineFeed r.buffer = portion) (g : Bytes) :
    lineFrom taken ⟨r, g⟩ =
      match sizeFault? r.options (taken + portion.length - 2) with
      | some f => (.error f, ⟨r, g⟩)
      | none =>
          if portion.getLast? = some Bytes.lf then
            settleLine (taken + portion.length)
              ⟨(consume portion.length r).2, g ++ portion⟩
          else lineFrom (taken + portion.length)
            ⟨(consume portion.length r).2, g ++ portion⟩ := by
  subst hportion
  rw [lineFrom_apply, Reader.held_of_ne_nil h]
  cases hb : r.buffer with
  | nil => exact absurd hb h
  | cons b bs => rfl

/-- A portion may be taken in two, the first of which is within the limit. -/
theorem lineFrom_split (hx : x ≠ []) (hlf : Bytes.lf ∉ x)
    (hbuffer : r.buffer = x ++ y)
    (hsize : sizeFault? r.options (taken + x.length - 2) = none) (g : Bytes) :
    (lineFrom taken ⟨r, g⟩).1 =
      (lineFrom (taken + x.length) ⟨(consume x.length r).2, g ++ x⟩).1 := by
  have hne : r.buffer ≠ [] := by simp [hbuffer, hx]
  have hthrough : throughLineFeed r.buffer = x ++ throughLineFeed y := by
    rw [hbuffer, Reader.throughLineFeed_append hlf]
  have hrest : (consume x.length r).2.buffer = y := by
    show r.buffer.drop x.length = y
    rw [hbuffer, List.drop_left]
  rw [lineFrom_of_ne_nil hne hthrough]
  cases y with
  | nil =>
      have hlast : x.getLast? ≠ some Bytes.lf :=
        fun hlast => hlf (List.mem_of_getLast? hlast)
      simp [throughLineFeed, hsize, hlast]
  | cons b bs =>
      have hlast : (x ++ throughLineFeed (b :: bs)).getLast? =
          (throughLineFeed (b :: bs)).getLast? := by
        have hpos := Reader.length_throughLineFeed_cons_pos b bs
        rw [List.getLast?_append, Option.or_of_isSome]
        simpa using List.ne_nil_of_length_pos hpos
      have htaken :
          (consume (throughLineFeed (b :: bs)).length
            (consume x.length r).2).2 =
          (consume (x.length + (throughLineFeed (b :: bs)).length) r).2 := by
        simp only [consume, List.drop_drop]
      have hoptions : (consume x.length r).2.options = r.options := rfl
      rw [lineFrom_of_ne_nil (r := (consume x.length r).2) (by simp [hrest])
        (by rw [hrest]),
        hlast, htaken, hoptions, List.length_append, ← Nat.add_assoc,
          List.append_assoc]
      cases sizeFault? r.options
        (taken + x.length + (throughLineFeed (b :: bs)).length - 2) <;> rfl

theorem lineFrom_fill_of_nil (h : r.feed.Calm) {got : Nat}
    (hfill : fill r = (.ok got, mid)) (hempty : r.buffer = []) (g : Bytes) :
    (lineFrom taken ⟨mid, g⟩).1 = (lineFrom taken ⟨r, g⟩).1 := by
  obtain ⟨octets, mid', hfill', hahead, hbuffer, hnone⟩ := Reader.fill_calm h
  cases hfill.symm.trans hfill'
  cases hmid : mid.buffer with
  | nil =>
      have hnothing : r.remaining = [] := by
        rw [hmid, hempty] at hbuffer
        rw [Reader.remaining, hempty, hnone hbuffer.symm]
        rfl
      obtain ⟨s, -, hs⟩ := lineFrom_at_end taken (d := ⟨r, g⟩) h hnothing
      obtain ⟨t, -, ht⟩ := lineFrom_at_end taken (d := ⟨mid, g⟩) hahead.calm
        (hahead.remaining.trans hnothing)
      rw [hs, ht]
  | cons b bs =>
      have hheld : Reader.held mid = Reader.held r := by
        rw [Reader.held_of_nil hempty hfill,
          Reader.held_of_ne_nil (by simp [hmid])]
      rw [lineFrom_apply, lineFrom_apply, hheld,
        Reader.held_of_nil hempty hfill, hmid]

/-- A fill in front of a line does not show in what is answered, if what was
held before is within the limit. -/
theorem lineFrom_fill (h : r.feed.Calm) {got : Nat}
    (hfill : fill r = (.ok got, mid))
    (hsize : sizeFault? r.options (taken + r.buffer.length - 2) = none)
    (g : Bytes) :
    (lineFrom taken ⟨mid, g⟩).1 = (lineFrom taken ⟨r, g⟩).1 := by
  by_cases hempty : r.buffer = []
  · exact lineFrom_fill_of_nil h hfill hempty g
  obtain ⟨octets, mid', hfill', hahead, hbuffer, -⟩ := Reader.fill_calm h
  cases hfill.symm.trans hfill'
  by_cases hlf : Bytes.lf ∈ r.buffer
  · -- the line ends in what was held
    obtain ⟨x, y, hxy, hx⟩ := List.eq_append_cons_of_mem hlf
    have hr : throughLineFeed r.buffer = x ++ [Bytes.lf] := by
      rw [hxy, Reader.throughLineFeed_append_lf hx]
    have hmid : throughLineFeed mid.buffer = x ++ [Bytes.lf] := by
      rw [hbuffer, hxy, List.append_assoc, List.cons_append,
        Reader.throughLineFeed_append_lf hx]
    have hne : mid.buffer ≠ [] := by simp [hbuffer, hempty]
    rw [lineFrom_of_ne_nil hempty hr, lineFrom_of_ne_nil hne hmid,
      hahead.options]
    cases sizeFault? r.options (taken + (x ++ [Bytes.lf]).length - 2) with
    | some f => rfl
    | none =>
        simp only [List.getLast?_concat, if_true, settleLine_apply]
        split <;> rfl
  · have hrest : fill (consume r.buffer.length r).2 =
        (.ok octets.length, (consume r.buffer.length mid).2) := by
      rw [Reader.fill_consume (Nat.le_refl _), hfill]
    have hnil : (consume r.buffer.length r).2.buffer = [] := List.drop_length
    calc (lineFrom taken ⟨mid, g⟩).1
        = (lineFrom (taken + r.buffer.length)
            ⟨(consume r.buffer.length mid).2, g ++ r.buffer⟩).1 :=
          lineFrom_split hempty hlf hbuffer (hahead.options ▸ hsize) g
      _ = (lineFrom (taken + r.buffer.length)
            ⟨(consume r.buffer.length r).2, g ++ r.buffer⟩).1 :=
          lineFrom_fill_of_nil (r := (consume r.buffer.length r).2) h
            hrest hnil _
      _ = (lineFrom taken ⟨r, g⟩).1 :=
          (lineFrom_split hempty hlf (List.append_nil _).symm hsize g).symm

end Gather

/-- No limit is as low as to refuse one octet. -/
theorem Reader.sizeFault?_of_le_one (o : Options) {size : Nat} (h : size ≤ 1) :
    sizeFault? o size = none := by
  refine sizeFault?_of_admits fun limit hlimit => ?_
  have hsome : o.effectiveLimit? = some limit := hlimit
  unfold Options.effectiveLimit? at hsome
  split at hsome
  · cases hsome
    exact Nat.le_trans h (by decide)
  · split at hsome
    · cases hsome
    · have hvalue := Option.some.inj hsome
      omega

namespace Reader

variable {r after : Reader} {n : Nat}

theorem Filled.length_le (h : Filled n r after) :
    r.buffer.length ≤ after.buffer.length := by
  induction h with
  | none => exact Nat.le_refl _
  | more _ hfill _ ih =>
      have hlength := length_buffer_of_fill hfill
      omega

theorem Filled.consume (h : Filled (n + 1) r after)
    (hheld : 1 ≤ r.buffer.length) :
    Filled n (Reader.consume 1 r).2 (Reader.consume 1 after).2 := by
  induction h with
  | none => exact .none _
  | @more r mid after got hlacks hfill _ ih =>
      have hlength := length_buffer_of_fill hfill
      refine .more ?_ (by rw [fill_consume hheld, hfill]) (ih (by omega))
      simp only [Reader.consume, List.length_drop]
      omega

/-- Where something comes, a look for one octet fills once if nothing is
held. -/
theorem lookAhead_one (h : r.feed.Calm) (hne : r.remaining ≠ []) :
    1 ≤ (lookAhead 1 r).2.buffer.length ∧
      (r.buffer = [] → ∃ got, fill r = (.ok got, (lookAhead 1 r).2)) := by
  by_cases hheld : 1 ≤ r.buffer.length
  · rw [lookAhead_of_le hheld]
    refine ⟨hheld, fun hnil => ?_⟩
    rw [hnil] at hheld
    exact absurd hheld (by decide)
  · obtain ⟨octets, mid, hfill, -, hbuffer, hnone⟩ := fill_calm h
    have hnil : r.buffer = [] := List.length_eq_zero_iff.mp (by omega)
    have hoctets : octets ≠ [] := by
      intro hoctets
      exact hne (by rw [remaining, hnil, hnone hoctets]; rfl)
    have hmid : 1 ≤ mid.buffer.length := by
      rw [hbuffer, hnil]
      exact List.length_pos_iff.mpr hoctets
    obtain ⟨count, hcount⟩ :=
      Nat.exists_eq_add_one.mpr (List.length_pos_iff.mpr hoctets)
    have hlook : lookAhead 1 r = lookAhead 1 mid := by
      rw [hcount] at hfill
      rw [lookAhead_of_lacks (by omega), hfill]
    rw [hlook, lookAhead_of_le hmid]
    exact ⟨hmid, fun _ => ⟨_, hfill⟩⟩

theorem Filled.lookAhead_one (h : Filled n r after) (hcalm : r.feed.Calm)
    (hne : r.remaining ≠ []) :
    Filled n (lookAhead 1 r).2 (lookAhead 1 after).2 := by
  obtain ⟨hheld, hfirst⟩ := Reader.lookAhead_one hcalm hne
  by_cases hbuffer : r.buffer = []
  · obtain ⟨got, hfill⟩ := hfirst hbuffer
    cases h with
    | none => exact .none _
    | more _ hfill' hlater =>
        cases hfill.symm.trans hfill'
        rw [lookAhead_of_le (Nat.le_trans hheld hlater.length_le)]
        exact hlater
  · have hr : 1 ≤ r.buffer.length := List.length_pos_iff.mpr hbuffer
    rw [lookAhead_of_le hr, lookAhead_of_le (Nat.le_trans hr h.length_le)]
    exact h

end Reader

namespace Gather

open Reader (Filled Seen expect)

variable {r after : Reader}

theorem line_of_filled (h : Filled 4 r after) (hcalm : r.feed.Calm)
    (g : Bytes) :
    (line ⟨after, g⟩).1 = (line ⟨r, g⟩).1 := by
  induction h with
  | none => rfl
  | more hlacks hfill _ ih =>
      obtain ⟨octets, mid, hfill', hahead, -⟩ := Reader.fill_calm hcalm
      cases hfill.symm.trans hfill'
      rw [ih hahead.calm]
      exact lineFrom_fill hcalm hfill
        (Reader.sizeFault?_of_le_one _ (by omega)) g

/-- What was seen of a line before its read does not show in what is
answered. -/
theorem expect_line_of_seen {d : Draft} (h : Seen 5 d.reader after)
    (hcalm : d.reader.feed.Calm) (k : Kind) :
    ((ofRead (expect k) >>= fun _ => line) ⟨after, d.gathered⟩).1 =
      ((ofRead (expect k) >>= fun _ => line) d).1 := by
  cases hf : k.mismatch? d.reader.remaining with
  | some f =>
      have hd := Reader.expect_of_mismatch hcalm hf
      have ha := Reader.expect_of_mismatch (r := after) h.ahead.calm
        (h.ahead.remaining ▸ hf)
      rw [Step.bind_of_error (ofRead_of_run hd),
        Step.bind_of_error (ofRead_of_run (d := ⟨after, d.gathered⟩) ha)]
  | none =>
      obtain ⟨s, hs⟩ := Kind.mismatch?_eq_none_iff.mp hf
      have hne : d.reader.remaining ≠ [] := by simp [hs]
      have hd := Reader.expect_of_lead hcalm hs
      have ha := Reader.expect_of_lead h.ahead.calm (h.ahead.remaining.trans hs)
      obtain ⟨hheld, -⟩ := Reader.lookAhead_one hcalm hne
      have hlater : Filled 4 _ _ :=
        (h.filled.lookAhead_one hcalm hne).consume hheld
      rw [Step.bind_of_ok (ofRead_of_run hd),
        Step.bind_of_ok (ofRead_of_run (d := ⟨after, d.gathered⟩) ha)]
      exact line_of_filled hlater (Reader.ahead_lookAhead hcalm 1).calm
        d.gathered

end Gather

/-! ## Calls -/

theorem Gather.atomically_result {α : Type} (m : Gather α) (d : Draft) :
    (Gather.atomically m d).1 = (m d).1 := by
  rw [Gather.atomically]
  cases m d with
  | mk result after => cases result <;> rfl

namespace Reader

variable {r after : Reader} {k : Kind}

theorem lineOf_result {α : Type} (k : Kind) (settle : Bytes → Except Fault α)
    (r : Reader) :
    (lineOf k settle r).1 =
      ((Gather.ofRead (expect k) >>= fun _ => Gather.line) ⟨r, []⟩).1.bind
        fun _ =>
          settle
            ((Gather.ofRead (expect k) >>= fun _ => Gather.line)
              ⟨r, []⟩).2.gathered := by
  simp only [lineOf, Step.bind_apply, Gather.ofRead]
  cases expect k r with
  | mk result mid =>
      cases result with
      | error e => rfl
      | ok u =>
          simp only
          cases hrun : Gather.line ⟨mid, []⟩ with
          | mk result after =>
              cases result with
              | error e =>
                  have hline : Gather.line.collected mid =
                      (.error e, after.reader) := by
                    rw [Gather.collected, hrun]
                  exact congrArg Prod.fst (Step.bind_of_error hline)
              | ok v =>
                  have hline : Gather.line.collected mid =
                      (.ok (v, after.gathered), after.reader) := by
                    rw [Gather.collected, hrun]
                  exact congrArg Prod.fst (Step.bind_of_ok hline)

theorem lineOf_of_seen {α : Type} (h : Seen 5 r after) (hcalm : r.feed.Calm)
    (hk : k.onLine = true) (settle : Bytes → Except Fault α) :
    (lineOf k settle after).1 = (lineOf k settle r).1 := by
  have hline := Gather.expect_line_of_seen (d := ⟨r, []⟩) h hcalm k
  have halike : Draft.Alike ⟨r, []⟩ ⟨after, []⟩ :=
    ⟨⟨hcalm, h.ahead.calm, by rw [h.ahead.options], h.ahead.remaining.symm⟩,
      rfl⟩
  have hagree := Gather.steady_line hk _ _ halike
  rw [lineOf_result, lineOf_result]
  generalize (Gather.ofRead (expect k) >>= fun _ => Gather.line) ⟨r, []⟩ =
    x at hline hagree
  generalize (Gather.ofRead (expect k) >>= fun _ => Gather.line) ⟨after, []⟩ =
    y at hline hagree
  cases hagree with
  | same hsame => rw [hsame.gathered]
  | apart =>
      cases hline
      rfl

theorem map_result_congr {σ α β : Type} {m : Step σ α} {s t : σ}
    (h : (m s).1 = (m t).1) (f : α → β) :
    ((m >>= fun a => pure (f a)) s).1 = ((m >>= fun a => pure (f a)) t).1 := by
  rw [Step.map_of_run (Prod.eta (m s)).symm,
    Step.map_of_run (Prod.eta (m t)).symm, h]

/-- A call that takes a line answers what it would have answered. -/
theorem line_make_of_seen {call : Call} (hcall : call.wants = some k)
    (hline : k.onLine = true) {d : Draft} (h : Seen 5 d.reader after)
    (hcalm : d.reader.feed.Calm) :
    (call.make ⟨after, d.gathered⟩).1 = (call.make d).1 := by
  cases call with
  | simple role =>
      have hread : (Gather.simple role ⟨after, d.gathered⟩).1 =
          (Gather.simple role d).1 := by
        rw [Gather.simple, Gather.atomically_result, Gather.atomically_result]
        exact Gather.expect_line_of_seen h hcalm (.simple role)
      refine map_result_congr ?_ _
      exact hread
  | bigNumber =>
      have hread : (bigNumber after).1 = (bigNumber d.reader).1 :=
        lineOf_of_seen h hcalm rfl _
      refine map_result_congr ?_ _
      exact hread
  | double =>
      have hread : (double after).1 = (double d.reader).1 :=
        lineOf_of_seen h hcalm rfl _
      refine map_result_congr ?_ _
      exact hread
  | peek | value | skip => cases hcall
  | _ => cases hcall; cases hline

/-- What comes of a read of the kind and what comes of it in another run are the
same, but that two refusals of one line may leave different amounts of it. -/
structure SameOutcome (k : Kind) (before : Bytes)
    (x y : Except Fault Answer × Draft) : Prop where
  result : x.1 = y.1
  gathered : x.2.gathered = y.2.gathered
  remaining : x.2.reader.remaining = y.2.reader.remaining ∨
    k.onLine = true ∧ ∃ f, x.1 = .error f ∧
      ApartInLine before f x.2.reader.remaining f y.2.reader.remaining

/-- A call does the same whether some octets had been looked at before it or
not. -/
theorem make_of_seen {call : Call} (hcall : call.wants = some k) {d : Draft}
    (h : Seen 5 d.reader after) (hcalm : d.reader.feed.Calm) :
    SameOutcome k d.reader.remaining (call.make d)
      (call.make ⟨after, d.gathered⟩) := by
  have halike : Draft.Alike d ⟨after, d.gathered⟩ :=
    ⟨⟨hcalm, h.ahead.calm, by rw [h.ahead.options], h.ahead.remaining.symm⟩,
      rfl⟩
  cases hline : k.onLine with
  | false =>
      have hagree := strict_make hcall hline _ _ halike
      generalize call.make d = x at hagree
      generalize call.make ⟨after, d.gathered⟩ = y at hagree
      cases hagree with
      | apart hapart => exact hapart.elim
      | same hsame => exact ⟨rfl, hsame.gathered, Or.inl hsame.reader.remaining⟩
  | true =>
      have hresult := line_make_of_seen hcall hline h hcalm
      have hagree := steady_make call _ _ halike
      have hleft := restores_make call d
      have hright := restores_make call ⟨after, d.gathered⟩
      generalize call.make d = x at hresult hagree hleft
      generalize call.make ⟨after, d.gathered⟩ = y at hresult hagree hright
      cases hagree with
      | same hsame => exact ⟨rfl, hsame.gathered, Or.inl hsame.reader.remaining⟩
      | apart hapart =>
          cases hresult
          exact ⟨rfl, (hleft _ _ rfl).trans (hright _ _ rfl).symm,
            Or.inr ⟨hline, _, rfl, hapart.1⟩⟩

end Reader

end RespWire

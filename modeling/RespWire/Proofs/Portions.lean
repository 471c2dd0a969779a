import RespWire.Proofs.Calm
import RespWire.Reader.Framing

/-!
# Bodies and lines, whatever the portions

Bodies and lines are taken portion by portion, each portion being what a calm
feed happened to hand out. What a run of portions does is computed here from
the octets to come alone: for a body by `bodyFrom_calm`, and for a line within
the limit by `lineFrom_of_admits`. A line that exceeds the limit is where the
portions show; `lineFrom_of_exceeds` says how far they can.
-/

namespace RespWire

namespace Reader

/-! ## The octets up to a line feed -/

theorem throughLineFeed_of_notMem {x : Bytes} (h : Bytes.lf ∉ x) :
    throughLineFeed x = x := by
  induction x with
  | nil => rfl
  | cons b bs ih =>
      rw [List.mem_cons, not_or] at h
      rw [throughLineFeed, if_neg (Ne.symm h.1), ih h.2]

theorem throughLineFeed_append_lf {x : Bytes} (h : Bytes.lf ∉ x)
    (rest : Bytes) :
    throughLineFeed (x ++ Bytes.lf :: rest) = x ++ [Bytes.lf] := by
  induction x with
  | nil => rw [List.nil_append, throughLineFeed, if_pos rfl]; rfl
  | cons b bs ih =>
      rw [List.mem_cons, not_or] at h
      rw [List.cons_append, throughLineFeed, if_neg (Ne.symm h.1), ih h.2]
      rfl

theorem throughLineFeed_append {x : Bytes} (h : Bytes.lf ∉ x) (y : Bytes) :
    throughLineFeed (x ++ y) = x ++ throughLineFeed y := by
  induction x with
  | nil => rfl
  | cons b bs ih =>
      rw [List.mem_cons, not_or] at h
      rw [List.cons_append, throughLineFeed, if_neg (Ne.symm h.1), ih h.2]
      rfl

theorem throughLineFeed_prefix (x : Bytes) : throughLineFeed x <+: x := by
  induction x with
  | nil => exact List.prefix_rfl
  | cons b bs ih =>
      rw [throughLineFeed]
      split
      · exact List.cons_prefix_cons.mpr ⟨rfl, List.nil_prefix⟩
      · exact List.cons_prefix_cons.mpr ⟨rfl, ih⟩

/-- The front of a line and of what is behind it: it ends within the line, or it
holds all of it. -/
theorem throughLineFeed_of_front {p rest front : Bytes} (hp : Bytes.lf ∉ p)
    (h : front <+: p ++ Bytes.lf :: rest) :
    (∃ q, p = front ++ q ∧ Bytes.lf ∉ front) ∨
      throughLineFeed front = p ++ [Bytes.lf] := by
  by_cases hle : front.length ≤ p.length
  · obtain ⟨q, rfl⟩ :=
      List.prefix_of_prefix_length_le h (List.prefix_append p _) hle
    exact Or.inl ⟨q, rfl, fun hmem => hp (List.mem_append_left _ hmem)⟩
  · have hline : p ++ [Bytes.lf] <+: p ++ Bytes.lf :: rest := ⟨rest, by simp⟩
    have hlength : (p ++ [Bytes.lf]).length ≤ front.length := by
      rw [List.length_append, List.length_singleton]
      omega
    obtain ⟨t, rfl⟩ := List.prefix_of_prefix_length_le hline h hlength
    rw [List.append_assoc]
    exact Or.inr (throughLineFeed_append_lf hp t)

theorem sizeFault?_of_admits {o : Options} {size : Nat}
    (h : o.limits.Admits size) :
    sizeFault? o size = none := by
  rw [sizeFault?]
  cases hl : o.effectiveLimit? with
  | none => rfl
  | some limit => exact if_neg (Nat.not_lt.mpr (h limit hl))

theorem admits_of_sizeFault? {o : Options} {size : Nat}
    (h : sizeFault? o size = none) :
    o.limits.Admits size := by
  intro limit hl
  rw [sizeFault?, show o.effectiveLimit? = some limit from hl] at h
  refine Nat.not_lt.mp fun hlt => ?_
  simp only [if_pos hlt] at h
  cases h

theorem sizeFault?_of_lt {o : Options} {size limit : Nat}
    (hl : o.effectiveLimit? = some limit) (h : limit < size) :
    sizeFault? o size = some (.violation (.tooLarge size limit)) := by
  rw [sizeFault?, hl]
  exact if_pos h

theorem checkSize_apply (size : Nat) (r : Reader) :
    checkSize size r = match sizeFault? r.options size with
      | some f => (.error f, r)
      | none => (.ok (), r) := by
  rw [checkSize, Step.bind_apply, getOptions]
  simp only
  cases sizeFault? r.options size <;> rfl

theorem admits_of_checkSize {size : Nat} {u : Unit} {r after : Reader}
    (h : checkSize size r = (.ok u, after)) : r.options.limits.Admits size := by
  rw [checkSize_apply] at h
  refine admits_of_sizeFault? ?_
  cases hfault : sizeFault? r.options size with
  | none => rfl
  | some f =>
      rw [hfault] at h
      cases h

end Reader

namespace Gather

theorem bodyFrom_calm : ∀ (missing : Nat) (d : Draft), d.reader.feed.Calm →
    ∃ r : Reader, r.feed.Calm ∧ r.options = d.reader.options ∧
      r.remaining = d.reader.remaining.drop missing ∧
      bodyFrom missing d =
        (if missing ≤ d.reader.remaining.length then .ok ()
          else .error (.cut (.shortBody (missing - d.reader.remaining.length))),
          ⟨r, d.gathered ++ d.reader.remaining.take missing⟩) := by
  intro missing
  induction missing using Nat.strongRecOn with
  | _ missing ih =>
      intro d h
      rw [bodyFrom]
      split
      · next hzero =>
          subst hzero
          exact ⟨d.reader, h, rfl, rfl, by simp⟩
      · next hpos =>
          obtain ⟨r, hheld, hahead, hnone⟩ := Reader.held_calm h
          rw [hheld]
          cases hbuffer : r.buffer with
          | nil =>
              have hs := hnone hbuffer
              refine ⟨r, hahead.calm, hahead.options,
                by rw [hahead.remaining, hs, List.drop_nil], ?_⟩
              have hlacks : ¬ missing ≤ ([] : Bytes).length := by
                simpa using hpos
              rw [hs, if_neg hlacks]
              simp
          | cons b bs =>
              simp only
              generalize hn : ((b :: bs).take missing).length = n
              have hlen : n = min missing r.buffer.length := by
                rw [← hn, hbuffer, List.length_take]
              have hpos' : 0 < n := by
                rw [hlen, hbuffer, List.length_cons]; omega
              have hportion : (b :: bs).take missing =
                  d.reader.remaining.take n := by
                rw [← hahead.remaining, ← Reader.take_buffer_of_le (by omega),
                  hbuffer, hlen, hbuffer, List.take_eq_take_min]
              have hle : n ≤ d.reader.remaining.length := by
                rw [← hahead.remaining, Reader.remaining, List.length_append]
                omega
              obtain ⟨hcalm, hoptions, hrem⟩ :=
                Reader.consume_calm hahead.calm (show n ≤ _ by omega)
              obtain ⟨r', hcalm', hoptions', hrem', hbody⟩ :=
                ih (missing - n) (by omega) ⟨(Reader.consume n r).2,
                  d.gathered ++ (b :: bs).take missing⟩ hcalm
              simp only [hrem, hahead.remaining, List.drop_drop,
                List.length_drop] at hrem' hbody
              refine ⟨r', hcalm',
                hoptions'.trans (hoptions.trans hahead.options), ?_, ?_⟩
              · rw [hrem', Nat.add_sub_cancel' (by omega)]
              · rw [hbody, hportion, List.append_assoc, ← List.take_add,
                  Nat.add_sub_cancel' (by omega),
                    Nat.sub_sub_sub_cancel_right hle]
                simp only [Nat.sub_le_sub_iff_right hle]

/-! ## Lines -/

theorem settleLine_apply (total : Nat) (d : Draft) :
    settleLine total d =
      if 2 ≤ total ∧ d.gathered.drop (d.gathered.length - 2) = Bytes.crlf then
        (.ok (), { d with gathered := d.gathered.take (d.gathered.length - 2) })
      else (.error (.cut .bareLineFeed), d) := by
  unfold settleLine
  simp only [Bool.and_eq_true, decide_eq_true_eq, beq_iff_eq]

/-- A line is settled if a carriage return stands before its line feed. -/
theorem settleLine_eq_ok_iff {line before : Bytes} {r : Reader} {u : Unit}
    {after : Draft} :
    settleLine line.length ⟨r, before ++ line⟩ = (.ok u, after) ↔
      ∃ text, line = text ++ Bytes.crlf ∧ after = ⟨r, before ++ text⟩ := by
  rw [settleLine_apply]
  refine ⟨fun h => ?_, fun hright => ?_⟩
  · split at h
    · next hend =>
        obtain ⟨hlong, hcrlf⟩ := hend
        cases h
        have hlength : (before ++ line).length - 2 =
            before.length + (line.length - 2) := by
          rw [List.length_append]
          omega
        rw [hlength, List.drop_length_add_append] at hcrlf
        refine ⟨line.take (line.length - 2), ?_, ?_⟩
        · rw [← hcrlf, List.take_append_drop]
        · rw [hlength, List.take_length_add_append]
    · cases h
  · obtain ⟨text, rfl, rfl⟩ := hright
    have hlength : (before ++ (text ++ Bytes.crlf)).length - 2 =
        (before ++ text).length := by
      simp
      omega
    rw [hlength, ← List.append_assoc, List.drop_left, List.take_left,
      if_pos ⟨by simp, rfl⟩]

theorem lineFrom_at_end (taken : Nat) {d : Draft} (h : d.reader.feed.Calm)
    (hs : d.reader.remaining = []) :
    ∃ r, Reader.Ahead d.reader r ∧
      lineFrom taken d = (.error (.cut .noLineEnd), ⟨r, d.gathered⟩) := by
  obtain ⟨r, hheld, hahead, -⟩ := Reader.held_calm h
  have hbuffer : r.buffer = [] := by
    have := hahead.remaining.trans hs
    rw [Reader.remaining, List.append_eq_nil_iff] at this
    exact this.1
  refine ⟨r, hahead, ?_⟩
  rw [lineFrom_apply, hheld, hbuffer]

/-- One portion of a line: it is checked, taken, and settles the line if it
ends in a line feed. -/
theorem lineFrom_portion (taken : Nat) {d : Draft} (h : d.reader.feed.Calm)
    (hs : d.reader.remaining ≠ []) :
    ∃ (portion : Bytes) (r after : Reader),
      portion ≠ [] ∧ Reader.Ahead d.reader r ∧
      after.feed.Calm ∧ after.options = d.reader.options ∧
      d.reader.remaining = portion ++ after.remaining ∧
      Reader.throughLineFeed d.reader.remaining =
        portion ++ (if portion.getLast? = some Bytes.lf then []
          else Reader.throughLineFeed after.remaining) ∧
      (Bytes.lf ∈ d.reader.remaining ↔
        portion.getLast? = some Bytes.lf ∨ Bytes.lf ∈ after.remaining) ∧
      lineFrom taken d =
        match Reader.sizeFault? d.reader.options
          (taken + portion.length - 2) with
        | some f => (.error f, ⟨r, d.gathered⟩)
        | none =>
            if portion.getLast? = some Bytes.lf then
              settleLine (taken + portion.length) ⟨after, d.gathered ++ portion⟩
            else lineFrom (taken + portion.length)
              ⟨after, d.gathered ++ portion⟩ := by
  obtain ⟨r, hheld, hahead, hnone⟩ := Reader.held_calm h
  cases hbuffer : r.buffer with
  | nil => exact absurd (hnone hbuffer) hs
  | cons b bs =>
      rw [lineFrom_apply, hheld, hbuffer]
      simp only [hahead.options]
      have hsplit : d.reader.remaining = (b :: bs) ++ r.feed.unread := by
        rw [← hahead.remaining, Reader.remaining, hbuffer]
      by_cases hlf : Bytes.lf ∈ b :: bs
      · obtain ⟨p, x, hx, hp⟩ := List.eq_append_cons_of_mem hlf
        have hportion : Reader.throughLineFeed (b :: bs) = p ++ [Bytes.lf] := by
          rw [hx, Reader.throughLineFeed_append_lf hp]
        rw [hportion]
        have hlength : (p ++ [Bytes.lf]).length ≤ r.buffer.length := by
          rw [hbuffer, hx, List.length_append, List.length_append,
            List.length_cons]
          simp
        obtain ⟨hcalm, hoptions, hrem⟩ :=
          Reader.consume_calm hahead.calm hlength
        refine ⟨p ++ [Bytes.lf], r,
          (Reader.consume (p ++ [Bytes.lf]).length r).2, by simp, hahead,
          hcalm, hoptions.trans hahead.options, ?_, ?_, ?_, ?_⟩
        · rw [hrem, hahead.remaining, hsplit, hx]
          simp
        · rw [hsplit, hx, List.append_assoc, List.cons_append,
            Reader.throughLineFeed_append_lf hp]
          simp
        · rw [hsplit, hx]
          simp
        · rfl
      · have hportion : Reader.throughLineFeed (b :: bs) = b :: bs :=
          Reader.throughLineFeed_of_notMem hlf
        rw [hportion]
        have hlast : (b :: bs).getLast? ≠ some Bytes.lf :=
          fun hl => hlf (List.mem_of_getLast? hl)
        have hlength : (b :: bs).length ≤ r.buffer.length :=
          hbuffer ▸ Nat.le_refl _
        obtain ⟨hcalm, hoptions, hrem⟩ :=
          Reader.consume_calm hahead.calm hlength
        have hafter : (Reader.consume (b :: bs).length r).2.remaining =
            r.feed.unread := by
          rw [hrem, hahead.remaining, hsplit, List.drop_left]
        refine ⟨b :: bs, r, (Reader.consume (b :: bs).length r).2,
          List.cons_ne_nil _ _, hahead,
          hcalm, hoptions.trans hahead.options, ?_, ?_, ?_, ?_⟩
        · rw [hafter, hsplit]
        · rw [hafter, hsplit, if_neg hlast, Reader.throughLineFeed_append hlf]
        · rw [hafter, hsplit, List.mem_append]
          exact ⟨fun hm => Or.inr (hm.resolve_left hlf),
            fun hm => Or.inr (hm.resolve_left hlast)⟩
        · rfl

/-- Less is to come behind a portion than in front of it. -/
theorem length_lt_of_portion {s portion t : Bytes} (hne : portion ≠ [])
    (hs : s = portion ++ t) :
    t.length < s.length := by
  rw [hs, List.length_append]
  exact Nat.lt_add_of_pos_left (List.length_pos_iff.mpr hne)

theorem lineFrom_of_admits (taken : Nat) (d : Draft) (h : d.reader.feed.Calm)
    (hadmits : d.reader.options.limits.Admits
      (taken + (Reader.throughLineFeed d.reader.remaining).length - 2)) :
    ∃ r : Reader, r.feed.Calm ∧ r.options = d.reader.options ∧
      d.reader.remaining = Reader.throughLineFeed d.reader.remaining ++
        r.remaining ∧
      lineFrom taken d =
        let after : Draft :=
          ⟨r, d.gathered ++ Reader.throughLineFeed d.reader.remaining⟩
        if Bytes.lf ∈ d.reader.remaining then
          settleLine
            (taken + (Reader.throughLineFeed d.reader.remaining).length) after
        else (.error (.cut .noLineEnd), after) := by
  generalize hn : d.reader.remaining.length = n
  induction n using Nat.strongRecOn generalizing taken d with
  | _ n ih =>
      by_cases hs : d.reader.remaining = []
      · obtain ⟨r, hahead, hline⟩ := lineFrom_at_end taken h hs
        refine ⟨r, hahead.calm, hahead.options,
          by rw [hahead.remaining, hs]; rfl, ?_⟩
        rw [hline, hs]
        simp [Reader.throughLineFeed]
      · obtain ⟨portion, r, after, hne, hahead, hcalm, hoptions, hsplit,
            hthrough, hmem, hline⟩ :=
          lineFrom_portion taken h hs
        have hlength := congrArg List.length hthrough
        rw [List.length_append] at hlength
        have hfault : Reader.sizeFault? d.reader.options
            (taken + portion.length - 2) = none :=
          Reader.sizeFault?_of_admits fun limit hl =>
            Nat.le_trans (by omega) (hadmits limit hl)
        rw [hline, hfault]
        simp only
        by_cases hlast : portion.getLast? = some Bytes.lf
        · rw [if_pos hlast, List.append_nil] at hthrough
          refine ⟨after, hcalm, hoptions, by rw [hthrough]; exact hsplit, ?_⟩
          rw [if_pos hlast, if_pos (hmem.mpr (Or.inl hlast)), hthrough]
        · rw [if_neg hlast] at hthrough hlength
          rw [hlength, ← Nat.add_assoc] at hadmits
          obtain ⟨r', hcalm', hoptions', hsplit', hline'⟩ :=
            ih _ (hn ▸ length_lt_of_portion hne hsplit) (taken + portion.length)
              ⟨after, d.gathered ++ portion⟩ hcalm
                (by rw [hoptions]; exact hadmits) rfl
          refine ⟨r', hcalm', hoptions'.trans hoptions, ?_, ?_⟩
          · rw [hthrough, List.append_assoc, ← hsplit', ← hsplit]
          · rw [if_neg hlast, hline', hthrough]
            simp only [hmem, hlast, false_or, List.append_assoc,
              List.length_append, Nat.add_assoc]

theorem lineFrom_of_exceeds {limit : Nat} (taken : Nat) (d : Draft)
    (h : d.reader.feed.Calm)
    (hlimit : d.reader.options.effectiveLimit? = some limit)
    (htaken : taken ≤ limit + 2)
    (hlong : limit + 2 <
      taken + (Reader.throughLineFeed d.reader.remaining).length) :
    ∃ (size count : Nat) (r : Reader),
      r.feed.Calm ∧ r.options = d.reader.options ∧
      r.remaining = d.reader.remaining.drop count ∧ taken + count ≤ limit + 2 ∧
        limit < size ∧
      size + 2 ≤ taken + (Reader.throughLineFeed d.reader.remaining).length ∧
      lineFrom taken d = (.error (.violation (.tooLarge size limit)),
        ⟨r, d.gathered ++ d.reader.remaining.take count⟩) := by
  generalize hn : d.reader.remaining.length = n
  induction n using Nat.strongRecOn generalizing taken d with
  | _ n ih =>
      have hs : d.reader.remaining ≠ [] := fun hnil => by
        rw [hnil] at hlong
        exact absurd hlong (by simpa [Reader.throughLineFeed] using htaken)
      obtain ⟨portion, r, after, hne, hahead, hcalm, hoptions, hsplit, hthrough,
          -, hline⟩ :=
        lineFrom_portion taken h hs
      have hlength := congrArg List.length hthrough
      rw [List.length_append] at hlength
      by_cases hover : limit < taken + portion.length - 2
      · refine ⟨taken + portion.length - 2, 0, r, hahead.calm, hahead.options,
          hahead.remaining, htaken, hover, by omega, ?_⟩
        rw [hline, Reader.sizeFault?_of_lt hlimit hover]
        simp
      · have hfault : Reader.sizeFault? d.reader.options
            (taken + portion.length - 2) = none :=
          Reader.sizeFault?_of_admits fun l hl => by
            rw [show l = limit
              from Option.some.inj (Eq.trans (Eq.symm hl) hlimit)]
            omega
        by_cases hlast : portion.getLast? = some Bytes.lf
        · rw [if_pos hlast] at hlength
          simp only [List.length_nil] at hlength
          omega
        · rw [if_neg hlast] at hlength
          have hlater : limit + 2 < taken + portion.length +
              (Reader.throughLineFeed after.remaining).length := by omega
          obtain ⟨size, count, r', hcalm', hoptions', hrem', hcount, hsize,
              hbound, hline'⟩ :=
            ih _ (hn ▸ length_lt_of_portion hne hsplit) (taken + portion.length)
              ⟨after, d.gathered ++ portion⟩ hcalm (by rw [hoptions, hlimit])
                (by omega) hlater rfl
          simp only at hrem' hbound
          refine ⟨size, portion.length + count, r', hcalm',
            hoptions'.trans hoptions, ?_, by omega, hsize, by omega, ?_⟩
          · rw [hrem', hsplit, List.drop_length_add_append]
          · rw [hline, hfault]
            simp only
            rw [if_neg hlast, hline', hsplit, List.take_length_add_append,
              List.append_assoc]

end Gather

end RespWire

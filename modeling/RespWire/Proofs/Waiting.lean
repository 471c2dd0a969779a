import RespWire.Proofs.Calm

/-!
# Waiting for octets

A look ahead asks for more until enough is held. How often it may try does not
show in what it answers, so it is one loop over fills, `lookAhead_of_lacks`, and
what is true of a reader after a fill and of a reader that holds enough is true
of a look ahead.

Where nothing but data is to come, a reader is moved by looking ahead along one
line, from fill to fill. Two looks ahead behind one another are the longer of
the two, and what is taken in between makes no difference.
-/

namespace RespWire

namespace Feed

/-- Whether an arrival is a piece of data. -/
def isData : Arrival → Bool
  | .piece octets => !octets.isEmpty
  | .failure _ => false

/-- A feed of data and nothing else, which hands out some of it at every
call. -/
structure DataOnly (f : Feed) : Prop where
  arrivals : f.arrivals.all isData = true
  portion : f.portion ≠ some 0

instance (f : Feed) : Decidable f.DataOnly :=
  decidable_of_iff (f.arrivals.all isData = true ∧ f.portion ≠ some 0)
    ⟨fun h => ⟨h.1, h.2⟩, fun h => ⟨h.1, h.2⟩⟩

theorem DataOnly.calm {f : Feed} (h : f.DataOnly) : f.Calm := by
  obtain ⟨arrivals, portion⟩ := f
  refine ⟨?_, h.portion⟩
  have hdata : arrivals.all isData = true := h.arrivals
  show calmArrivals arrivals = true
  clear h
  induction arrivals with
  | nil => rfl
  | cons a later ih =>
      rw [List.all_cons, Bool.and_eq_true] at hdata
      cases a with
      | failure e => cases hdata.1
      | piece octets =>
          have hne : (!octets.isEmpty) = true := hdata.1
          rw [calmArrivals, hne, ih hdata.2]
          rfl

end Feed

namespace Reader

open Feed (isData octetsOf DataOnly)

/-! ## Fills -/

/-- A fill hands out the front of a piece, whatever arrives behind it. -/
theorem fill_piece {octets : Bytes} {portion : Option Nat} (hne : octets ≠ [])
    (hportion : portion ≠ some 0) (o : Options) (buffer : Bytes) :
    ∃ got rest, got ≠ [] ∧ rest.all isData = true ∧
      got ++ rest.flatMap octetsOf = octets ∧
      ∀ later, fill ⟨⟨.piece octets :: later, portion⟩, o, buffer⟩ =
        (.ok got.length, ⟨⟨rest ++ later, portion⟩, o, buffer ++ got⟩) := by
  have hpos : 0 < min o.fillSize (portion.getD o.fillSize) :=
    Feed.given_pos (f := ⟨[], portion⟩) ⟨rfl, hportion⟩ (Options.fillSize_pos o)
  generalize hgiven : min o.fillSize (portion.getD o.fillSize) = given at hpos
  have hread : ∀ later, fill ⟨⟨.piece octets :: later, portion⟩, o, buffer⟩ =
      (.ok (octets.take given).length,
        ⟨⟨if (octets.drop given).isEmpty then later
          else .piece (octets.drop given) :: later, portion⟩, o,
          buffer ++ octets.take given⟩) := by
    intro later
    rw [← hgiven]
    rfl
  have hgot : octets.take given ≠ [] := fun hnil =>
    (List.take_eq_nil_iff.mp hnil).elim (fun hz => by omega) hne
  by_cases hrest : (octets.drop given).isEmpty = true
  · refine ⟨octets.take given, [], hgot, rfl, ?_,
      fun later => by rw [hread, if_pos hrest]; rfl⟩
    have hsplit := List.take_append_drop given octets
    rw [List.isEmpty_iff.mp hrest] at hsplit
    exact hsplit
  · refine ⟨octets.take given, [.piece (octets.drop given)], hgot, ?_, ?_,
      fun later => by rw [hread, if_neg hrest]; rfl⟩
    · simpa [isData] using hrest
    · simp [octetsOf]

theorem fill_dataOnly {r : Reader} (h : r.feed.DataOnly) :
    fill r = (.ok 0, r) ∨ ∃ k after, fill r = (.ok (k + 1), after) ∧
      after.feed.DataOnly := by
  obtain ⟨⟨arrivals, portion⟩, o, buffer⟩ := r
  cases arrivals with
  | nil =>
      left
      show ((.ok 0, ⟨⟨[], portion⟩, o, buffer ++ []⟩) :
        Except Fault Nat × Reader) = _
      rw [List.append_nil]
  | cons a later =>
      right
      have hdata := h.arrivals
      rw [List.all_cons, Bool.and_eq_true] at hdata
      cases a with
      | failure e => cases hdata.1
      | piece octets =>
          have hne : octets ≠ [] := by simpa [isData] using hdata.1
          obtain ⟨got, rest, hgot, hrest, -, hfill⟩ :=
            fill_piece hne h.portion o buffer
          obtain ⟨k, hk⟩ :=
            Nat.exists_eq_add_one.mpr (List.length_pos_iff.mpr hgot)
          refine ⟨k, ⟨⟨rest ++ later, portion⟩, o, buffer ++ got⟩, ?_,
            ⟨?_, h.portion⟩⟩
          · rw [← hk]
            exact hfill later
          · show (rest ++ later).all isData = true
            rw [List.all_append, hrest, hdata.2]
            rfl

theorem length_buffer_of_fill {r after : Reader} {k : Nat}
    (h : fill r = (.ok k, after)) :
    after.buffer.length = r.buffer.length + k := by
  unfold fill at h
  split at h
  · cases h
    exact List.length_append
  · cases h

theorem options_of_fill (r : Reader) : (fill r).2.options = r.options := by
  unfold fill
  split <;> rfl

theorem prefix_buffer_of_fill (r : Reader) :
    r.buffer <+: (fill r).2.buffer := by
  unfold fill
  split
  · exact List.prefix_append _ _
  · exact List.prefix_rfl

/-- Taking octets that are held and asking for more do not meet. -/
theorem fill_consume {n : Nat} {r : Reader} (h : n ≤ r.buffer.length) :
    fill (consume n r).2 = ((fill r).1, (consume n (fill r).2).2) := by
  unfold fill consume
  simp only
  cases r.feed.afterInterruptions.read r.options.fillSize with
  | mk result feed =>
      cases result with
      | ok got => simp only [List.drop_append_of_le_length h]
      | error e => rfl

/-! ## Looks ahead -/

theorem lacks_iff {r : Reader} {n : Nat} :
    r.lacks n = true ↔ r.buffer.length < n := by
  simp only [lacks, List.length_take, decide_eq_true_eq]
  omega

theorem await_of_le {n : Nat} {r : Reader} (h : n ≤ r.buffer.length)
    (tries : Nat) :
    await n tries r = (.ok (), r) := by
  cases tries with
  | zero => rfl
  | succ tries =>
      exact if_neg fun hlacks => Nat.not_lt.mpr h (lacks_iff.mp hlacks)

theorem await_of_lacks {n : Nat} {r : Reader} (h : r.buffer.length < n)
    (tries : Nat) :
    await n (tries + 1) r = match fill r with
      | (.ok 0, after) => (.ok (), after)
      | (.ok (_ + 1), after) => await n tries after
      | (.error e, after) => (.error e, after) := by
  show (if r.lacks n then _ else _) = _
  rw [if_pos (lacks_iff.mpr h)]
  cases fill r with
  | mk result after =>
      match result with
      | .error e => rfl
      | .ok 0 => rfl
      | .ok (k + 1) => rfl

/-- More tries than are needed change nothing. -/
theorem await_add {n tries : Nat} {r : Reader} (h : n ≤ r.buffer.length + tries)
    (more : Nat) :
    await n (tries + more) r = await n tries r := by
  induction tries generalizing r with
  | zero => rw [await_of_le h, await_of_le h]
  | succ tries ih =>
      rw [Nat.add_right_comm]
      by_cases hlacks : r.buffer.length < n
      · rw [await_of_lacks hlacks, await_of_lacks hlacks]
        cases hfill : fill r with
        | mk result after =>
            match result with
            | .error e => rfl
            | .ok 0 => rfl
            | .ok (k + 1) =>
                have := length_buffer_of_fill hfill
                exact ih (by omega)
      · rw [await_of_le (Nat.not_lt.mp hlacks),
          await_of_le (Nat.not_lt.mp hlacks)]

theorem lookAhead_of_le {n : Nat} {r : Reader} (h : n ≤ r.buffer.length) :
    lookAhead n r = (.ok (r.buffer.take n), r) := by
  rw [lookAhead_apply, await_of_le h]

/-- A look ahead that lacks octets fills once and looks ahead again. -/
theorem lookAhead_of_lacks {n : Nat} {r : Reader} (h : r.buffer.length < n) :
    lookAhead n r = match fill r with
      | (.ok 0, after) => (.ok (after.buffer.take n), after)
      | (.ok (_ + 1), after) => lookAhead n after
      | (.error e, after) => (.error e, after) := by
  obtain ⟨tries, rfl⟩ := Nat.exists_eq_add_one.mpr (Nat.zero_lt_of_lt h)
  rw [lookAhead_apply, await_of_lacks h]
  cases hfill : fill r with
  | mk result after =>
      match result with
      | .error e => rfl
      | .ok 0 => rfl
      | .ok (k + 1) =>
          have hlength := length_buffer_of_fill hfill
          simp only
          rw [lookAhead_apply, await_add (by omega) 1]

/-- What is true of readers that hold enough, and of a reader if it is true
after a fill, is true of every reader. -/
theorem lookAhead_induction {n : Nat} {P : Reader → Prop}
    (enough : ∀ r, n ≤ r.buffer.length → P r)
    (lacks : ∀ r, r.buffer.length < n →
      (∀ k after, fill r = (.ok (k + 1), after) → P after) → P r)
    (r : Reader) : P r := by
  by_cases h : n ≤ r.buffer.length
  · exact enough r h
  · refine lacks r (Nat.lt_of_not_le h) fun k after hfill => ?_
    have := length_buffer_of_fill hfill
    exact lookAhead_induction enough lacks after
termination_by n - r.buffer.length

theorem options_of_lookAhead (n : Nat) (r : Reader) :
    (lookAhead n r).2.options = r.options := by
  induction r using lookAhead_induction (n := n) with
  | enough r h => rw [lookAhead_of_le h]
  | lacks r h ih =>
      have hfilled := options_of_fill r
      rw [lookAhead_of_lacks h]
      cases hfill : fill r with
      | mk result after =>
          rw [hfill] at hfilled
          match result with
          | .ok 0 => exact hfilled
          | .ok (k + 1) => exact (ih k after hfill).trans hfilled
          | .error e => exact hfilled

/-- A look ahead that is not cut short shows the front of what is to come. -/
theorem take_remaining_of_lookAhead {n : Nat} {r after : Reader} {bs : Bytes}
    (h : lookAhead n r = (.ok bs, after)) (hn : n ≤ bs.length) :
    bs = r.remaining.take n ∧ n ≤ after.buffer.length := by
  have hrem := remaining_lookAhead n r
  have htake := eq_take_of_lookAhead h
  have hheld : n ≤ after.buffer.length := by
    rw [htake, List.length_take] at hn
    omega
  rw [h] at hrem
  exact ⟨by rw [htake, take_buffer_of_le hheld, ← hrem], hheld⟩

theorem options_of_held (r : Reader) : (held r).2.options = r.options := by
  have hfilled := options_of_fill r
  unfold held
  split
  · generalize fill r = x at hfilled
    obtain ⟨result, after⟩ := x
    cases result <;> exact hfilled
  · rfl

theorem prefix_buffer_of_lookAhead (n : Nat) (r : Reader) :
    r.buffer <+: (lookAhead n r).2.buffer := by
  induction r using lookAhead_induction (n := n) with
  | enough r h =>
      have hsame : (lookAhead n r).2 = r :=
        congrArg Prod.snd (lookAhead_of_le h)
      exact hsame.symm ▸ List.prefix_rfl
  | lacks r h ih =>
      have hfilled := prefix_buffer_of_fill r
      rw [lookAhead_of_lacks h]
      cases hfill : fill r with
      | mk result after =>
          rw [hfill] at hfilled
          match result with
          | .ok 0 => exact hfilled
          | .ok (k + 1) => exact hfilled.trans (ih k after hfill)
          | .error e => exact hfilled

section

variable {r : Reader}

theorem dataOnly_lookAhead (h : r.feed.DataOnly) (n : Nat) :
    (lookAhead n r).2.feed.DataOnly := by
  induction r using lookAhead_induction (n := n) with
  | enough r hn =>
      rw [lookAhead_of_le hn]
      exact h
  | lacks r hn ih =>
      rw [lookAhead_of_lacks hn]
      rcases fill_dataOnly h with hfill | ⟨k, after, hfill, hafter⟩
      · rw [hfill]
        exact h
      · rw [hfill]
        exact ih k after hfill hafter

/-- A shorter look ahead does not show in a longer one behind it. -/
theorem lookAhead_lookAhead (h : r.feed.DataOnly) {m n : Nat} (hmn : m ≤ n) :
    lookAhead n (lookAhead m r).2 = lookAhead n r := by
  induction r using lookAhead_induction (n := m) with
  | enough r hm => rw [lookAhead_of_le hm]
  | lacks r hm ih =>
      rw [lookAhead_of_lacks hm, lookAhead_of_lacks (Nat.lt_of_lt_of_le hm hmn)]
      rcases fill_dataOnly h with hfill | ⟨k, after, hfill, hafter⟩
      · simp only [hfill]
        rw [lookAhead_of_lacks (Nat.lt_of_lt_of_le hm hmn), hfill]
      · rw [hfill]
        exact ih k after hfill hafter

/-- A shorter look ahead behind a longer one leaves the reader as it is. -/
theorem lookAhead_of_lookAhead (h : r.feed.DataOnly) {m n : Nat} (hmn : m ≤ n) :
    (lookAhead m (lookAhead n r).2).2 = (lookAhead n r).2 := by
  induction r using lookAhead_induction (n := n) with
  | enough r hn =>
      rw [lookAhead_of_le hn, lookAhead_of_le (Nat.le_trans hmn hn)]
  | lacks r hn ih =>
      rw [lookAhead_of_lacks hn]
      rcases fill_dataOnly h with hfill | ⟨k, after, hfill, hafter⟩
      · simp only [hfill]
        by_cases hm : m ≤ r.buffer.length
        · rw [lookAhead_of_le hm]
        · rw [lookAhead_of_lacks (Nat.lt_of_not_le hm), hfill]
      · rw [hfill]
        exact ih k after hfill hafter

/-- A look ahead of what stays, behind taking octets that are held. -/
theorem lookAhead_consume {m n : Nat} (hm : m ≤ n)
    (hheld : m ≤ r.buffer.length) :
    (lookAhead (n - m) (consume m r).2).2 =
      (consume m (lookAhead n r).2).2 := by
  induction r using lookAhead_induction (n := n) with
  | enough r hn =>
      have hrest : n - m ≤ (consume m r).2.buffer.length := by
        simp only [consume, List.length_drop]
        omega
      rw [lookAhead_of_le hn, lookAhead_of_le hrest]
  | lacks r hn ih =>
      have hrest : (consume m r).2.buffer.length < n - m := by
        simp only [consume, List.length_drop]
        omega
      rw [lookAhead_of_lacks hn, lookAhead_of_lacks hrest, fill_consume hheld]
      cases hfill : fill r with
      | mk result after =>
          cases result with
          | error e => rfl
          | ok k =>
              cases k with
              | zero => rfl
              | succ k =>
                  have := length_buffer_of_fill hfill
                  exact ih k after hfill (by omega)

end

end Reader

end RespWire

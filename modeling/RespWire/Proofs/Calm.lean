import RespWire.Reader.Lookahead

/-!
# Calm feeds show all that is to come

A feed is calm when it falters only by interruptions and its input ends only
behind its last octet. How it cuts the octets into pieces is left open, and so
is how many of them it hands out at a time, as long as it hands out some.

On a calm feed looking ahead cannot fail, and what it shows is the front of
what is still to come, whatever was held before. That is the one fact through
which everything else about calm readers is proved: `lookAhead_calm` and
`held_calm` speak about `Reader.remaining` and no longer about pieces.
-/

namespace RespWire

namespace Feed

/-- Whether arrivals falter only by interruptions, and no octets follow where
the input ends. -/
def calmArrivals : List Arrival → Bool
  | [] => true
  | .failure e :: later => e.kind == .interrupted && calmArrivals later
  | .piece octets :: later =>
      (!octets.isEmpty || (later.flatMap octetsOf).isEmpty) &&
        calmArrivals later

/-- A feed without failures but interruptions, whose input ends only at its
end. -/
structure Calm (f : Feed) : Prop where
  arrivals : calmArrivals f.arrivals = true
  portion : f.portion ≠ some 0

instance (f : Feed) : Decidable f.Calm :=
  decidable_of_iff (calmArrivals f.arrivals = true ∧ f.portion ≠ some 0)
    ⟨fun h => ⟨h.1, h.2⟩, fun h => ⟨h.1, h.2⟩⟩

theorem calmArrivals_dropWhile {arrivals : List Arrival}
    (h : calmArrivals arrivals = true) :
    calmArrivals (arrivals.dropWhile isInterruption) = true := by
  induction arrivals with
  | nil => rfl
  | cons a later ih =>
      cases a with
      | piece octets => exact h
      | failure e =>
          rw [calmArrivals, Bool.and_eq_true] at h
          rw [List.dropWhile_cons_of_pos
            (show isInterruption (.failure e) = true from h.1)]
          exact ih h.2

/-- In front of a calm feed there is nothing but data once the interruptions are
over. -/
theorem afterInterruptions_of_calm {f : Feed} (h : f.Calm) :
    f.afterInterruptions.Calm ∧
      (f.afterInterruptions.arrivals = [] ∨
        ∃ octets later,
          f.afterInterruptions.arrivals = .piece octets :: later) := by
  have hcalm := calmArrivals_dropWhile h.arrivals
  refine ⟨⟨hcalm, h.portion⟩, ?_⟩
  show f.arrivals.dropWhile isInterruption = [] ∨ _
  cases hfront : f.arrivals.dropWhile isInterruption with
  | nil => exact Or.inl rfl
  | cons a later =>
      cases a with
      | piece octets => exact Or.inr ⟨octets, later, hfront⟩
      | failure e =>
          rw [hfront, calmArrivals, Bool.and_eq_true] at hcalm
          have := List.head?_dropWhile_not isInterruption f.arrivals
          rw [hfront] at this
          exact absurd hcalm.1 (by simpa [isInterruption] using this)

theorem given_pos {f : Feed} (h : f.Calm) {n : Nat} (hn : 0 < n) :
    0 < min n (f.portion.getD n) := by
  have hp := h.portion
  cases hportion : f.portion with
  | none => simpa using hn
  | some p =>
      have : p ≠ 0 := fun hz => hp (by rw [hportion, hz])
      simp only [Option.getD_some]
      omega

/-- A call on a calm feed hands out some of what is to come, or there is
nothing. -/
theorem read_of_calm {f : Feed} (h : f.Calm) {n : Nat} (hn : 0 < n) :
    ∃ got after, f.afterInterruptions.read n = (.ok got, after) ∧ after.Calm ∧
      got ++ after.unread = f.unread ∧ (got = [] → f.unread = []) := by
  obtain ⟨hcalm, hfront⟩ := afterInterruptions_of_calm h
  have hpos := given_pos hcalm hn
  have hread : ∃ got after, f.afterInterruptions.read n = (.ok got, after) ∧
      after.Calm ∧ (got = [] → f.afterInterruptions.unread = []) := by
    rcases hfront with hnil | ⟨octets, later, hcons⟩
    · refine ⟨[], f.afterInterruptions, ?_, hcalm, fun _ => ?_⟩
      · rw [read, hnil]
      · rw [unread, hnil, List.flatMap_nil]
    · have harr := hcalm.arrivals
      rw [hcons, calmArrivals, Bool.and_eq_true] at harr
      generalize hgiven :
        min n (f.afterInterruptions.portion.getD n) = given at hpos
      refine ⟨octets.take given,
        ({ f.afterInterruptions with
            arrivals := if (octets.drop given).isEmpty then later
              else .piece (octets.drop given) :: later } : Feed), ?_,
                ⟨?_, hcalm.portion⟩, ?_⟩
      · rw [read, hcons]
        simp only [hgiven]
      · simp only
        split
        · exact harr.2
        · next hrest => simp [calmArrivals, hrest, harr.2]
      · intro htake
        have hocts : octets = [] := by
          rcases List.take_eq_nil_iff.mp htake with hz | hnil
          · omega
          · exact hnil
        rw [hocts] at harr
        have hlater : later.flatMap octetsOf = [] := by simpa using harr.1
        rw [unread, hcons, List.flatMap_cons, hocts, hlater]
        rfl
  obtain ⟨got, after, hr, hafter, hnone⟩ := hread
  have hunread := unread_of_read_ok hr
  rw [unread_afterInterruptions] at hunread hnone
  exact ⟨got, after, hr, hafter, hunread, hnone⟩

end Feed

namespace Reader

/-- What looking ahead leaves of a reader: calm, with the same options and the
same octets to come. Only the octets held may be others. -/
structure Ahead (r after : Reader) : Prop where
  calm : after.feed.Calm
  options : after.options = r.options
  remaining : after.remaining = r.remaining

theorem Ahead.refl {r : Reader} (h : r.feed.Calm) : Ahead r r := ⟨h, rfl, rfl⟩

theorem Ahead.trans {a b c : Reader} (h : Ahead a b) (h' : Ahead b c) :
    Ahead a c :=
  ⟨h'.calm, h'.options.trans h.options, h'.remaining.trans h.remaining⟩

theorem fill_calm {r : Reader} (h : r.feed.Calm) :
    ∃ (got : Bytes) (after : Reader), fill r = (.ok got.length, after) ∧
      Ahead r after ∧
      after.buffer = r.buffer ++ got ∧ (got = [] → r.feed.unread = []) := by
  obtain ⟨got, feed, hread, hcalm, hunread, hnone⟩ :=
    Feed.read_of_calm h (Options.fillSize_pos r.options)
  refine ⟨got, { r with feed := feed, buffer := r.buffer ++ got }, ?_,
    ⟨hcalm, rfl, ?_⟩, rfl, hnone⟩
  · rw [fill, hread]
  · simp only [remaining]
    rw [List.append_assoc, hunread]

theorem take_buffer_of_le {r : Reader} {n : Nat} (h : n ≤ r.buffer.length) :
    r.buffer.take n = r.remaining.take n := by
  rw [remaining, List.take_append_of_le_length h]

theorem await_calm (n tries : Nat) {r : Reader} (h : r.feed.Calm)
    (htries : n ≤ r.buffer.length + tries) :
    ∃ after, await n tries r = (.ok (), after) ∧ Ahead r after ∧
      after.buffer.take n = r.remaining.take n := by
  induction tries generalizing r with
  | zero => exact ⟨r, rfl, .refl h, take_buffer_of_le (by omega)⟩
  | succ tries ih =>
      unfold await
      split
      · obtain ⟨got, after, hfill, hahead, hbuffer, hnone⟩ := fill_calm h
        cases got with
        | nil =>
            refine ⟨after, by rw [hfill]; rfl, hahead, ?_⟩
            rw [hbuffer, remaining, hnone rfl]
        | cons b bs =>
            obtain ⟨later, hawait, hlater, htake⟩ := ih hahead.calm (by
              rw [hbuffer, List.length_append, List.length_cons]; omega)
            refine ⟨later, ?_, hahead.trans hlater,
              htake.trans (by rw [hahead.remaining])⟩
            rw [hfill]
            exact hawait
      · next hlacks =>
          simp only [lacks, List.length_take, decide_eq_true_eq] at hlacks
          exact ⟨r, rfl, .refl h, take_buffer_of_le (by omega)⟩

/-- Looking ahead shows the front of what is to come. -/
theorem lookAhead_calm (n : Nat) {r : Reader} (h : r.feed.Calm) :
    ∃ after, lookAhead n r = (.ok (r.remaining.take n), after) ∧ Ahead r after ∧
      after.buffer.take n = r.remaining.take n := by
  obtain ⟨after, hawait, hahead, htake⟩ := await_calm n n h (Nat.le_add_left ..)
  refine ⟨after, ?_, hahead, htake⟩
  rw [lookAhead_apply, hawait, ← htake]

/-- What is held after asking for octets is the front of what is to come, and
nothing only if nothing is. -/
theorem held_calm {r : Reader} (h : r.feed.Calm) :
    ∃ after, held r = (.ok after.buffer, after) ∧ Ahead r after ∧
      (after.buffer = [] → r.remaining = []) := by
  rw [held]
  split
  · next hempty =>
      obtain ⟨got, after, hfill, hahead, hbuffer, hnone⟩ := fill_calm h
      rw [List.isEmpty_iff.mp hempty, List.nil_append] at hbuffer
      refine ⟨after, by rw [hfill], hahead, fun hnil => ?_⟩
      rw [remaining, List.isEmpty_iff.mp hempty,
        hnone (hbuffer.symm.trans hnil)]
      rfl
  · next hsome =>
      exact ⟨r, rfl, .refl h,
        fun hnil => absurd (List.isEmpty_iff.mpr hnil) hsome⟩

/-- Taking octets that are held takes them off the front of what is to come. -/
theorem consume_calm {n : Nat} {r : Reader} (h : r.feed.Calm)
    (hn : n ≤ r.buffer.length) :
    (consume n r).2.feed.Calm ∧ (consume n r).2.options = r.options ∧
      (consume n r).2.remaining = r.remaining.drop n :=
  ⟨h, rfl, remaining_consume hn⟩

end Reader

end RespWire

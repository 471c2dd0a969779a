import RespWire.Reader.Basic

/-!
# Looking ahead takes nothing

However a feed portions its octets, and wherever it falters, a call on it
hands out the front of what it has not handed out, and an interruption hands
out nothing. So filling, waiting and looking ahead leave the octets still to
come as they were, whether they succeed or fail, and taking octets that are
held removes just those from the front.
-/

namespace RespWire

namespace Feed

theorem unread_afterInterruptions (f : Feed) :
    f.afterInterruptions.unread = f.unread := by
  obtain ⟨arrivals, portion⟩ := f
  simp only [unread, afterInterruptions]
  induction arrivals with
  | nil => rfl
  | cons a later ih =>
      cases a with
      | piece octets => rfl
      | failure e =>
          rw [List.dropWhile_cons]
          split
          · simpa [octetsOf] using ih
          · rfl

/-- A call that succeeds hands out the front of what was not handed out. -/
theorem unread_of_read_ok {f after : Feed} {n : Nat} {got : Bytes}
    (h : f.read n = (.ok got, after)) : got ++ after.unread = f.unread := by
  obtain ⟨arrivals, portion⟩ := f
  unfold read at h
  split at h
  · cases h; rfl
  · cases h
  · next octets later heq =>
      cases heq
      cases h
      simp only [unread]
      split
      · next hrest =>
          have hsplit := List.take_append_drop (min n (portion.getD n)) octets
          rw [List.isEmpty_iff.mp hrest, List.append_nil] at hsplit
          rw [hsplit, List.flatMap_cons, octetsOf]
      · rw [List.flatMap_cons, List.flatMap_cons, octetsOf,
          octetsOf, ← List.append_assoc, List.take_append_drop]

theorem unread_of_read_error {f after : Feed} {n : Nat} {e : IoFailure}
    (h : f.read n = (.error e, after)) : after.unread = f.unread := by
  obtain ⟨arrivals, portion⟩ := f
  unfold read at h
  split at h
  · cases h
  · next heq => cases heq; cases h; rfl
  · cases h

end Feed

namespace Reader

theorem remaining_fill (r : Reader) : (fill r).2.remaining = r.remaining := by
  unfold fill
  split
  · next h =>
      have := Feed.unread_of_read_ok h
      rw [Feed.unread_afterInterruptions] at this
      simp only [remaining]
      rw [List.append_assoc, this]
  · next h =>
      have := Feed.unread_of_read_error h
      rw [Feed.unread_afterInterruptions] at this
      simp only [remaining]
      rw [this]

theorem remaining_await (n tries : Nat) (r : Reader) :
    (await n tries r).2.remaining = r.remaining := by
  induction tries generalizing r with
  | zero => rfl
  | succ tries ih =>
      have hfill := remaining_fill r
      unfold await
      split
      · split
        · next h => rw [h] at hfill; exact hfill
        · next h => rw [h] at hfill; rw [ih]; exact hfill
        · next h => rw [h] at hfill; exact hfill
      · rfl

/-- A look ahead answers the front of what the reader then holds. -/
theorem lookAhead_apply (n : Nat) (r : Reader) :
    lookAhead n r =
      match await n n r with
      | (.ok _, after) => (.ok (after.buffer.take n), after)
      | (.error e, after) => (.error e, after) := by
  cases h : await n n r with
  | mk result after =>
      cases result with
      | ok _ => exact Step.bind_of_ok h
      | error _ => exact Step.bind_of_error h

theorem remaining_lookAhead (n : Nat) (r : Reader) :
    (lookAhead n r).2.remaining = r.remaining := by
  have h := remaining_await n n r
  rw [lookAhead_apply]
  split
  · next heq => rw [heq] at h; exact h
  · next heq => rw [heq] at h; exact h

theorem eq_take_of_lookAhead {n : Nat} {r after : Reader} {bs : Bytes}
    (h : lookAhead n r = (.ok bs, after)) : bs = after.buffer.take n := by
  rw [lookAhead_apply] at h
  split at h
  · cases h; rfl
  · cases h

theorem remaining_held (r : Reader) : (held r).2.remaining = r.remaining := by
  have hfill := remaining_fill r
  unfold held
  split
  · split
    · next h => rw [h] at hfill; exact hfill
    · next h => rw [h] at hfill; exact hfill
  · rfl

theorem eq_buffer_of_held {r after : Reader} {bs : Bytes}
    (h : held r = (.ok bs, after)) : bs = after.buffer := by
  unfold held at h
  split at h
  · split at h
    · cases h; rfl
    · cases h
  · cases h; rfl

/-- Taking octets that are held removes them from the front of what is to
come. -/
theorem remaining_consume {n : Nat} {r : Reader} (h : n ≤ r.buffer.length) :
    (consume n r).2.remaining = r.remaining.drop n := by
  simp only [consume, remaining]
  rw [List.drop_append_of_le_length h]

/-- Taking some of the octets held leaves fewer to come. -/
theorem length_remaining_consume_lt {n : Nat} {r : Reader} (hn : 0 < n)
    (hb : r.buffer ≠ []) :
    (consume n r).2.remaining.length < r.remaining.length := by
  have := List.length_pos_iff.mpr hb
  simp only [consume, remaining, List.length_append, List.length_drop]
  omega

/-- After a look ahead that saw an octet, taking it leaves fewer to come. -/
theorem length_remaining_lt_of_lookAhead {n : Nat} {r after : Reader}
    {b : UInt8} {bs : Bytes}
    (h : lookAhead (n + 1) r = (.ok (b :: bs), after)) :
    (consume 1 after).2.remaining.length < r.remaining.length := by
  have hrem := remaining_lookAhead (n + 1) r
  have htake := eq_take_of_lookAhead h
  rw [h] at hrem
  rw [← hrem]
  refine length_remaining_consume_lt Nat.one_pos fun hnil => ?_
  rw [show after.buffer = [] from hnil] at htake
  simp at htake

/-- After some octets turned out to be held, taking any of them leaves fewer to
come. -/
theorem length_remaining_lt_of_held {n : Nat} {r after : Reader} {b : UInt8}
    {bs : Bytes} (hn : 0 < n) (h : held r = (.ok (b :: bs), after)) :
    (consume n after).2.remaining.length < r.remaining.length := by
  have hrem := remaining_held r
  have heq := eq_buffer_of_held h
  rw [h] at hrem
  rw [← hrem]
  refine length_remaining_consume_lt hn fun hnil => ?_
  rw [show after.buffer = [] from hnil] at heq
  cases heq

end Reader

end RespWire

import RespWire.Proofs.Followers

/-!
# What lasts through every call

A read does two things to a reader: it asks the feed for more, and it takes
octets that are held. So what is true of a reader and survives both is still
true after a call that has answered, whatever the call was. The call itself is
not looked into again: a reader of which something lasting is true follows
itself, in the sense in which readers follow one another.
-/

namespace RespWire

namespace Reader

open Step (Matched Matches)

/-- What neither a fill nor taking octets can make untrue of a reader. -/
structure Lasting (K : Reader → Prop) : Prop where
  fill : ∀ r, K r → K (fill r).2
  consume : ∀ n r, K r → K (consume n r).2

/-- One and the same reader, of which something is true. -/
def SameWith (K : Reader → Prop) (s t : Reader) : Prop := s = t ∧ K t

namespace Lasting

variable {K : Reader → Prop}

theorem lookAhead (h : Lasting K) (n : Nat) {r : Reader} (hr : K r) :
    K (lookAhead n r).2 := by
  induction r using lookAhead_induction (n := n) with
  | enough r hn =>
      rw [lookAhead_of_le hn]
      exact hr
  | lacks r hn ih =>
      have hfilled := h.fill r hr
      rw [lookAhead_of_lacks hn]
      cases hfill : Reader.fill r with
      | mk result after =>
          rw [hfill] at hfilled
          match result with
          | .error e => exact hfilled
          | .ok 0 => exact hfilled
          | .ok (k + 1) => exact ih k after hfill hfilled

theorem held (h : Lasting K) {r : Reader} (hr : K r) : K (held r).2 := by
  have hfilled := h.fill r hr
  unfold Reader.held
  split
  · generalize Reader.fill r = x at hfilled
    obtain ⟨result, after⟩ := x
    cases result <;> exact hfilled
  · exact hr

theorem matches_held (h : Lasting K) :
    Matches Fault.IsLimit (SameWith K) Reader.held Reader.held := by
  intro s t hst
  obtain ⟨rfl, hs⟩ := hst
  exact .same ⟨rfl, h.held hs⟩

theorem matches_consume (h : Lasting K) (n : Nat) :
    Matches Fault.IsLimit (SameWith K) (Reader.consume n)
      (Reader.consume n) := by
  intro s t hst
  obtain ⟨rfl, hs⟩ := hst
  exact .same ⟨rfl, h.consume n s hs⟩

theorem matches_checkSize (size : Nat) :
    Matches Fault.IsLimit (SameWith K) (checkSize size) (checkSize size) := by
  intro s t hst
  obtain ⟨rfl, hs⟩ := hst
  rw [checkSize_apply]
  cases sizeFault? s.options size <;> exact .same ⟨rfl, hs⟩

theorem followers (h : Lasting K) : Followers Fault.IsLimit (SameWith K) where
  lookAhead n s t hst := by
    obtain ⟨rfl, hs⟩ := hst
    exact Or.inl ⟨_, _, _, rfl, rfl, rfl, h.lookAhead n hs⟩
  consume n s t hst _ _ := by
    obtain ⟨rfl, hs⟩ := hst
    exact ⟨rfl, h.consume n s hs⟩
  checkSize := matches_checkSize
  bodyFrom := Gather.matches_bodyFrom h.matches_held h.matches_consume
  line :=
    Gather.matches_lineFrom h.matches_held h.matches_consume matches_checkSize 0
  stops_cases := Or.inr fun _ hf => hf
  holds hall := (hall .endOfInput).elim
  tooDeep _ := trivial
  depth s t hst := by
    obtain ⟨rfl, hs⟩ := hst
    exact Nat.le_refl _

/-- What is lasting is true of the reader that a call leaves with its answer. -/
theorem of_make_ok (h : Lasting K) {call : Call} {d after : Draft} {a : Answer}
    (hd : K d.reader) (hmake : call.make d = (.ok a, after)) :
    K after.reader := by
  have hmatches : Matches Fault.IsLimit (Draft.Related (SameWith K)) call.make
      call.make :=
    h.followers.make fun _ hall => (hall .endOfInput).elim
  have hmatched := hmatches d d ⟨⟨rfl, hd⟩, rfl⟩
  rw [hmake] at hmatched
  obtain ⟨s, -, hsame⟩ := hmatched.of_ok
  exact hsame.reader.2

end Lasting

end Reader

end RespWire

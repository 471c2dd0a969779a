import RespWire.Proofs.Accepts
import RespWire.Proofs.Grammar
import RespWire.Proofs.Peek

/-!
# Readers that hold everything

The state in which languages are computed: all octets to come are held, and
the feed is done. There looking ahead changes nothing at all, so what a read
does can be computed from the octets alone.

`Reads` is the language of a read on such readers, `Gathers` that of a read
which appends to a destination. Both are instances of `Step.Accepts`, and the
rules for sequences, alternatives and loops come from there.
-/

namespace RespWire

namespace Step

variable {σ α β : Type}

/-- A step that leaves a state as it is. -/
def Still (s : σ) (m : Step σ α) : Prop := (m s).2 = s

theorem Still.bind {s : σ} {m : Step σ α} {f : α → Step σ β} (hm : Still s m)
    (hf : ∀ a, Still s (f a)) : Still s (m >>= f) := by
  unfold Still at hm ⊢
  rw [bind_apply]
  generalize m s = x at hm
  obtain ⟨result, after⟩ := x
  cases hm
  cases result with
  | ok a => exact hf a
  | error e => rfl

theorem Still.attempt {s : σ} {m : Step σ α} (hm : Still s m) :
    Still s m.attempt := by
  unfold Still Step.attempt at *
  generalize m s = x at hm
  obtain ⟨result, after⟩ := x
  cases result <;> exact hm

end Step

namespace Reader

/-- A reader that holds these octets and has nothing left to arrive. -/
def holding (o : Options) (octets : Bytes) : Reader := ⟨⟨[], none⟩, o, octets⟩

variable {o : Options}

theorem calm_holding (s : Bytes) : (holding o s).feed.Calm := ⟨rfl, nofun⟩

theorem remaining_holding (s : Bytes) : (holding o s).remaining = s :=
  List.append_nil s

theorem fill_holding (s : Bytes) :
    fill (holding o s) = (.ok 0, holding o s) := by
  show ((.ok 0, holding o (s ++ [])) : Except Fault Nat × Reader) = _
  rw [List.append_nil]

theorem await_holding (n tries : Nat) (s : Bytes) :
    await n tries (holding o s) = (.ok (), holding o s) := by
  cases tries with
  | zero => rfl
  | succ tries =>
      unfold await
      split
      · rw [fill_holding]
        rfl
      · rfl

theorem lookAhead_holding (n : Nat) (s : Bytes) :
    lookAhead n (holding o s) = (.ok (s.take n), holding o s) := by
  rw [lookAhead_apply, await_holding]
  rfl

theorem held_holding (s : Bytes) :
    held (holding o s) = (.ok s, holding o s) := by
  rw [held, fill_holding]
  split <;> rfl

theorem consume_holding (n : Nat) (s : Bytes) :
    consume n (holding o s) = (.ok (), holding o (s.drop n)) := rfl

theorem remainingLength_holding (s : Bytes) :
    remainingLength (holding o s) = (.ok s.length, holding o s) := by
  rw [remainingLength, remaining_holding]

theorem still_lookAhead (n : Nat) (s : Bytes) :
    Step.Still (holding o s) (lookAhead n) := by
  rw [Step.Still, lookAhead_holding]

theorem still_earlierNull? (k : Kind) (s : Bytes) :
    Step.Still (holding o s) (earlierNull? k) := by
  unfold earlierNull?
  split
  · rfl
  · refine .bind (still_lookAhead 2 s).attempt fun first? => ?_
    split
    · split
      · exact .bind (still_lookAhead _ s).attempt fun _ => rfl
      · rfl
    · rfl

theorem still_peekLead (s : Bytes) : Step.Still (holding o s) peekLead := by
  refine .bind (still_lookAhead 1 s) fun next => ?_
  split
  · rfl
  · split <;> rfl

theorem still_peek (s : Bytes) : Step.Still (holding o s) peek := by
  refine .bind (still_peekLead s) fun k =>
    .bind (still_earlierNull? k s) fun form? => ?_
  split <;> rfl

theorem peekLead_holding (s : Bytes) :
    peekLead (holding o s) =
      match s with
      | [] => (.error .endOfInput, holding o s)
      | b :: _ =>
          match Kind.ofLead? b with
          | none => (.error (.violation (.unknownKind b)), holding o s)
          | some k => (.ok k, holding o s) := by
  rw [peekLead, Step.bind_of_ok (lookAhead_holding 1 s)]
  cases s with
  | nil => rfl
  | cons b rest =>
      simp only [List.take_succ_cons, List.take_zero]
      cases Kind.ofLead? b <;> rfl

theorem earlierNull?_holding (k : Kind) (s : Bytes) :
    earlierNull? k (holding o s) =
      (.ok (k.earlierNull?.filter (·.isPrefixOf s)), holding o s) := by
  obtain ⟨after, hnull, -, -⟩ := earlierNull?_calm k (calm_holding (o := o) s)
  have hstill := still_earlierNull? (o := o) k s
  rw [Step.Still, hnull] at hstill
  rw [hnull, remaining_holding, ← hstill]

theorem peek_holding (s : Bytes) :
    peek (holding o s) = (Kind.ofFront s, holding o s) := by
  obtain ⟨after, hpeek, -⟩ := peek_calm (calm_holding (o := o) s)
  have hstill := still_peek (o := o) s
  rw [Step.Still, hpeek] at hstill
  rw [hpeek, remaining_holding, ← hstill]

theorem takeForm_holding (form s : Bytes) :
    takeForm form (holding o s) =
      if form <+: s then (.ok true, holding o (s.drop form.length))
      else (.ok false, holding o s) := by
  have hstarts : startsWith form (holding o s) =
      (.ok (decide (form <+: s)), holding o s) := by
    have hiff : (s.take form.length == form) = decide (form <+: s) := by
      rw [Bool.eq_iff_iff, beq_iff_eq, decide_eq_true_eq,
        List.prefix_iff_eq_take]
      exact eq_comm
    rw [← hiff]
    exact Step.bind_of_ok (lookAhead_holding form.length s)
  rw [takeForm, Step.bind_of_ok hstarts]
  by_cases h : form <+: s
  · rw [if_pos h, if_pos (decide_eq_true h)]
    rfl
  · rw [if_neg h, if_neg (by simpa using h)]
    rfl

end Reader

end RespWire

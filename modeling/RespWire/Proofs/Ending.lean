import RespWire.Proofs.EndOfInput

/-!
# Every call comes to an end

A count in front of an aggregate is a promise of whoever sent it, and a stream
promises nothing at all. What ends a loop over elements or chunks is that a turn
takes octets, of which there are only so many: a turn that takes none does not
answer, and a loop whose turn does not answer stops.

So a loop that goes on until it is closed needs no budget. `Ends` is that loop
without one, as a relation; it holds after so many turns, and a budget above
them is never used up. In the same way a count that is greater than the octets
to come is as good as any other such count.

From turns to calls it is the same argument once more: calls that answer take
octets, so there comes a call that does not.
-/

namespace RespWire

namespace Step

variable {σ α : Type} {v : σ → Bytes} {faults : Fault → Prop} {n : Nat}

/-- A loop that is bounded by nothing ends after so many turns: its step answers
none at last, or fails. -/
inductive Ends (m : Step σ (Option α)) :
    σ → Nat → Except Fault (List α) × σ → Prop where
  | last {s after : σ} (h : m s = (.ok none, after)) :
      Ends m s 0 (.ok [], after)
  | fault {s after : σ} {f : Fault} (h : m s = (.error f, after)) :
      Ends m s 0 (.error f, after)
  | turn {s mid after : σ} {a : α} {k : Nat} {result : Except Fault (List α)}
      (h : m s = (.ok (some a), mid)) (hlater : Ends m mid k (result, after)) :
      Ends m s (k + 1) (result.map (a :: ·), after)

/-- A budget above the number of turns does not show. -/
theorem Ends.collect_eq {m : Step σ (Option α)} {s : σ} {k : Nat}
    {x : Except Fault (List α) × σ} (h : Ends m s k x) {budget : Nat}
    (hbudget : k < budget) :
    m.collect budget s = x := by
  induction h generalizing budget with
  | last h =>
      obtain ⟨budget, rfl⟩ := Nat.exists_eq_add_one.mpr hbudget
      exact bind_of_ok h
  | fault h =>
      obtain ⟨budget, rfl⟩ := Nat.exists_eq_add_one.mpr hbudget
      exact bind_of_error h
  | @turn s mid after a k result h hlater ih =>
      obtain ⟨budget, rfl⟩ :=
        Nat.exists_eq_add_one.mpr (Nat.zero_lt_of_lt hbudget)
      have hrest := ih (Nat.lt_of_succ_lt_succ hbudget)
      refine (bind_of_ok h).trans ?_
      cases result with
      | ok as => exact bind_of_ok hrest
      | error f => exact bind_of_error hrest

/-- A loop whose turns take octets ends. -/
theorem Takes.exists_ends {m : Step σ (Option α)} (hm : Takes v faults n m)
    (hn : 0 < n) (s : σ) :
    ∃ k x, k * n ≤ (v s).length ∧ Ends m s k x := by
  induction hlength : (v s).length using Nat.strongRecOn generalizing s with
  | ind length ih =>
      cases hrun : m s with
      | mk result mid =>
          match result with
          | .error f => exact ⟨0, _, by omega, .fault hrun⟩
          | .ok none => exact ⟨0, _, by omega, .last hrun⟩
          | .ok (some a) =>
              have hprice := hm.of_ok hrun
              obtain ⟨k, ⟨result, after⟩, hk, hends⟩ := ih _ (by omega) mid rfl
              refine ⟨k + 1, _, ?_, .turn hrun hends⟩
              rw [Nat.succ_mul]
              omega

/-- Counts that are both too great make no difference. -/
theorem Takes.times_eq {m : Step σ α} (hm : Takes v faults n m) {s : σ}
    {count count' : Nat} (h : (v s).length < count * n)
    (h' : (v s).length < count' * n) :
    m.times count s = m.times count' s := by
  induction count generalizing count' s with
  | zero => simp at h
  | succ count ih =>
      cases count' with
      | zero => simp at h'
      | succ count' =>
          rw [Step.times, Step.times, bind_apply, bind_apply]
          cases hrun : m s with
          | mk result mid =>
              cases result with
              | error f => rfl
              | ok a =>
                  have hprice := hm.of_ok hrun
                  rw [Nat.succ_mul] at h h'
                  have hrest : m.times count mid = m.times count' mid :=
                    ih (by omega) (by omega)
                  simp only
                  rw [bind_apply, bind_apply, hrest]

/-- As many turns as can be paid for and one more are as good as any count. -/
theorem Takes.times_min {m : Step σ α} (hm : Takes v faults n m) (hn : 0 < n)
    (count : Nat) (s : σ) :
    m.times count s = m.times (min count ((v s).length / n + 1)) s := by
  by_cases h : count ≤ (v s).length / n + 1
  · rw [Nat.min_eq_left h]
  · have hone : (v s).length < ((v s).length / n + 1) * n :=
      Nat.mul_comm _ _ ▸ Nat.lt_mul_div_succ _ hn
    rw [Nat.min_eq_right (by omega)]
    exact hm.times_eq
      (Nat.lt_of_lt_of_le hone (Nat.mul_le_mul_right n (by omega))) hone

/-- A loop over this step, which shows the octets to come by `v`, ends by itself
after no more than one turn for three octets, and so with every budget that is
greater than the octets to come. -/
def Closes (v : σ → Bytes) (m : Step σ (Option α)) : Prop :=
  ∀ s, ∃ k x, 3 * k ≤ (v s).length ∧ Ends m s k x ∧
    ∀ budget, (v s).length < budget → m.collect budget s = x

/-- However often this step is to be run, it is run no more than once for three
octets, and once more. -/
def Exhausts (v : σ → Bytes) (m : Step σ α) : Prop :=
  ∀ count s, m.times count s = m.times (min count ((v s).length / 3 + 1)) s

theorem Takes.closes {m : Step σ (Option α)} (hm : Takes v faults 3 m) :
    Closes v m := by
  intro s
  obtain ⟨k, x, hk, hends⟩ := hm.exists_ends (by decide) s
  exact ⟨k, x, by omega, hends,
    fun budget hbudget => hends.collect_eq (by omega)⟩

theorem Takes.exhausts {m : Step σ α} (hm : Takes v faults 3 m) :
    Exhausts v m :=
  hm.times_min (by decide)

end Step

namespace Reader

variable {α β : Type}

/-! ## Looks -/

/-- A read that takes nothing, also where it fails. -/
def Leaves (m : Read α) : Prop := ∀ r, (m r).2.remaining = r.remaining

theorem Leaves.bind {m : Read α} {f : α → Read β} (hm : Leaves m)
    (hf : ∀ a, Leaves (f a)) :
    Leaves (m >>= f) := by
  intro r
  have hfirst := hm r
  rw [Step.bind_apply]
  generalize m r = x at hfirst
  obtain ⟨result, mid⟩ := x
  cases result with
  | error e => exact hfirst
  | ok a => exact (hf a mid).trans hfirst

theorem Leaves.attempt {m : Read α} (hm : Leaves m) : Leaves m.attempt := by
  intro r
  have hfirst := hm r
  unfold Step.attempt
  generalize m r = x at hfirst
  obtain ⟨result, mid⟩ := x
  cases result <;> exact hfirst

theorem leaves_pure (a : α) : Leaves (pure a) := fun _ => rfl

theorem leaves_fail (f : Fault) : Leaves (Step.fail f : Read α) := fun _ => rfl

theorem leaves_lookAhead (n : Nat) : Leaves (lookAhead n) :=
  remaining_lookAhead n

theorem leaves_peekLead : Leaves peekLead := by
  refine (leaves_lookAhead 1).bind fun bs => ?_
  split
  · exact leaves_fail _
  · split
    · exact leaves_pure _
    · exact leaves_fail _

theorem leaves_earlierNull? (k : Kind) : Leaves (earlierNull? k) := by
  unfold earlierNull?
  split
  · exact leaves_pure none
  · refine (leaves_lookAhead 2).attempt.bind fun first? => ?_
    split
    · split
      · exact (leaves_lookAhead _).attempt.bind fun _ => leaves_pure _
      · exact leaves_pure none
    · exact leaves_pure none

theorem leaves_peek : Leaves peek := by
  refine leaves_peekLead.bind fun k => (leaves_earlierNull? k).bind fun form? =>
    ?_
  split <;> exact leaves_pure _

/-! ## Calls -/

theorem takes_value : Takes (fun _ => True) 3 value := by
  intro r
  obtain ⟨m, hm, heq⟩ := looks_value r
  rw [heq]
  exact hm.takes r

theorem takes_skip (deep : Bool) : Takes (fun _ => True) 3 (skip deep) := by
  intro r
  obtain ⟨m, hm, heq⟩ := looks_skip deep r
  rw [heq]
  exact hm.takes r

/-- Every call but a peek takes three octets for its answer. -/
theorem takes_make_of_ne_peek {call : Call} (h : call ≠ .peek) :
    Gather.Takes (fun _ => True) 3 call.make := by
  cases hlooks : call.looks with
  | false => exact (takes_make hlooks).mono (Nat.le_refl 3) fun _ _ => trivial
  | true =>
      cases call with
      | peek => exact absurd rfl h
      | value => exact (Gather.takes_ofRead takes_value).bind_pure _
      | skip deep => exact (Gather.takes_ofRead (takes_skip deep)).bind_pure _
      | _ => cases hlooks

theorem leaves_make_peek (d : Draft) :
    (Call.peek.make d).2.reader.remaining = d.reader.remaining := by
  have hpeek := leaves_peek d.reader
  show ((Gather.ofRead peek >>= fun k => pure (Answer.kind k))
    d).2.reader.remaining = _
  rw [Step.bind_apply, Gather.ofRead]
  generalize peek d.reader = x at hpeek
  obtain ⟨result, r⟩ := x
  cases result <;> exact hpeek

theorem suffix_make (call : Call) (d : Draft) :
    (call.make d).2.reader.remaining <:+ d.reader.remaining := by
  by_cases h : call = .peek
  · subst h
    exact leaves_make_peek d ▸ List.suffix_rfl
  · exact (takes_make_of_ne_peek h d).suffix

/-- Among calls that take octets there comes one that fails. -/
theorem exists_failing_call {calls : Nat → Call} (hcalls : ∀ i, calls i ≠ .peek)
    (d : Draft) :
    ∃ k answers mid f after, 3 * k ≤ d.reader.remaining.length ∧
      ((List.range k).map calls).mapM Call.make d = (.ok answers, mid) ∧
      (calls k).make mid = (.error f, after) := by
  induction hlength : d.reader.remaining.length using Nat.strongRecOn
      generalizing d calls with
  | ind length ih =>
      cases hfirst : (calls 0).make d with
      | mk result next =>
          cases result with
          | error f => exact ⟨0, [], d, f, next, Nat.zero_le _, rfl, hfirst⟩
          | ok a =>
              have hprice : next.reader.remaining.length + 3 ≤
                  d.reader.remaining.length :=
                (takes_make_of_ne_peek (hcalls 0)).of_ok hfirst
              obtain ⟨k, answers, mid, f, after, hk, hrun, hlast⟩ :=
                ih next.reader.remaining.length (by omega)
                  (fun i => hcalls (i + 1)) next rfl
              refine ⟨k + 1, a :: answers, mid, f, after, by omega, ?_, hlast⟩
              rw [List.range_succ_eq_map, List.map_cons, List.map_map,
                List.mapM_cons]
              exact (Step.bind_of_ok hfirst).trans (Step.bind_of_ok hrun)

/-- No call loses an octet, and every call comes to an end. What is to come
afterwards is a tail of what was to come before, whether the call has answered
or failed; after a peek it is all of it, and any other call that answers has
taken three octets at least. So of calls that are made until one fails, no more
than one for three octets answer. Within a call a loop that waits for a close
ends by itself, and a count is as good as another that the octets to come cannot
satisfy either. -/
theorem make_progresses :
    (∀ (call : Call) (d : Draft), (call.make d).2.reader.remaining <:+
      d.reader.remaining) ∧
    (∀ d : Draft, (Call.peek.make d).2.reader.remaining = d.reader.remaining) ∧
    (∀ (call : Call) (d after : Draft) (a : Answer), call ≠ .peek →
      call.make d = (.ok a, after) →
        after.reader.remaining.length + 3 ≤ d.reader.remaining.length) ∧
    (∀ (calls : Nat → Call) (d : Draft), (∀ i, calls i ≠ .peek) →
      ∃ k answers mid f after, 3 * k ≤ d.reader.remaining.length ∧
        ((List.range k).map calls).mapM Call.make d = (.ok answers, mid) ∧
        (calls k).make mid = (.error f, after)) ∧
    (Step.Closes remaining skipChunk? ∧
      Step.Closes (·.reader.remaining) Gather.chunk?) ∧
    (∀ levels, Step.Closes remaining (element? (nested (valueWithin levels))) ∧
      Step.Closes remaining (pair? (valueWithin levels)) ∧
      Step.Exhausts remaining (nested (valueWithin levels)) ∧
      Step.Exhausts remaining (pair (valueWithin levels))) ∧
    (∀ levels, Step.Closes remaining (skipElement? (skipWithin true levels)) ∧
      Step.Exhausts remaining (nested (skipWithin true levels))) ∧
    (∀ n tries r, n ≤ tries → await n tries r = await n n r) := by
  refine ⟨suffix_make, leaves_make_peek,
    fun call d after a h => (takes_make_of_ne_peek h).of_ok,
    fun calls d h => exists_failing_call h d,
    ⟨(takes_skipChunk?.le (by decide)).closes,
      (Gather.takes_chunk?.le (by decide)).closes⟩,
    fun levels => ?_, fun levels => ?_, fun n tries r h => ?_⟩
  · have hvalue := takes_valueWithin levels
    exact ⟨(takes_element? (takes_nested hvalue)).closes,
      (takes_pair? hvalue).closes,
      (takes_nested hvalue).exhausts, (takes_pair hvalue).exhausts⟩
  · have hskip := takes_skipWithin true levels
    exact ⟨(takes_skipElement? hskip).closes, (takes_nested hskip).exhausts⟩
  · obtain ⟨more, rfl⟩ := Nat.exists_eq_add_of_le h
    exact await_add (Nat.le_add_left n _) more

/-- A null, and behind it an array that announces as many elements as can be
announced and breaks off in the first, on a feed that fails on the way. The
first call answers and a later one does not, and of all these elements one is
looked for. -/
theorem make_progresses_broken :
    let r : Reader :=
      ⟨⟨[.piece (Bytes.ofChars "\r\n*9223372036854775807\r\n:".toList),
        .failure ⟨.timedOut, "late"⟩, .piece (Bytes.ofChars ['7'])], some 1⟩,
        {}, Bytes.ofChars ['_']⟩
    let element : Reader := ⟨.ofBytes (Bytes.ofChars [':', '7']), {}, []⟩
    (∃ after, Call.value.make ⟨r, []⟩ = (.ok (.value .null), after) ∧
      after.reader.remaining.length + 3 ≤ r.remaining.length) ∧
    (∃ k answers mid f after, 3 * k ≤ r.remaining.length ∧
      ((List.range k).map fun _ => Call.value).mapM Call.make ⟨r, []⟩ =
        (.ok answers, mid) ∧
      Call.value.make mid = (.error f, after)) ∧
    (nested (valueWithin 1)).times (2 ^ 63 - 1) element =
      (nested (valueWithin 1)).times 1 element := by
  intro r element
  obtain ⟨-, -, htakes, hfails, -, hvalues, -⟩ := make_progresses
  have hnull : Call.value.make ⟨r, []⟩ =
      (.ok (.value .null), (Call.value.make ⟨r, []⟩).2) := by
    with_unfolding_all rfl
  have hturns : min (2 ^ 63 - 1) (element.remaining.length / 3 + 1) = 1 := by
    decide +kernel
  refine ⟨⟨_, hnull, htakes .value _ _ _ nofun hnull⟩,
    hfails (fun _ => .value) ⟨r, []⟩ nofun, ?_⟩
  obtain ⟨-, -, helements, -⟩ := hvalues 1
  rw [helements, hturns]

end Reader

end RespWire

import RespWire.Proofs.Consuming
import RespWire.Proofs.Tracking

/-!
# A run that matches another

Two runs, of steps that need not be the same step, from states that need not
pass for the same. The second matches the first if it gives the same answer or
the same fault and leaves a state that is again related to that of the first,
or if it is stopped by a fault from a given class. As far as the second run
gets, the first has come as well, and it is there in a related state.

Tracking asks for less, since it may lose sight of two runs that have met.
Here the relation of the states is what a theorem is about, and it is kept up
to the end, after a fault too.

A loop takes its budget from what is to come, and that may differ for the two
runs. It makes no difference as long as both budgets cover what the loop takes.
-/

namespace RespWire

namespace Step

variable {σ α β : Type} {stops : Fault → Prop} {P : σ → σ → Prop}

/-- How the outcome of a run may compare with that of a run that may have been
stopped, which comes second. -/
inductive Matched (stops : Fault → Prop) (P : σ → σ → Prop) :
    Except Fault α × σ → Except Fault α × σ → Prop where
  | same {result : Except Fault α} {s t : σ} (h : P s t) :
      Matched stops P (result, s) (result, t)
  | stopped {x : Except Fault α × σ} {f : Fault} {t : σ} (h : stops f) :
      Matched stops P x (.error f, t)

/-- Two steps whose runs from related states match. -/
def Matches (stops : Fault → Prop) (P : σ → σ → Prop) (m m' : Step σ α) :
    Prop :=
  ∀ s t, P s t → Matched stops P (m s) (m' t)

/-- What the second run answers, the first answers as well. -/
theorem Matched.of_ok {x : Except Fault α × σ} {a : α} {t : σ}
    (h : Matched stops P x (.ok a, t)) : ∃ s, x = (.ok a, s) ∧ P s t := by
  cases h with
  | same h => exact ⟨_, rfl, h⟩

/-- Where any fault may stop the second run, only an answer has to be
matched. -/
theorem Matched.of_imp {x y : Except Fault α × σ} (hstops : ∀ f, stops f)
    (h : ∀ a t, y = (.ok a, t) → ∃ s, x = (.ok a, s) ∧ P s t) :
    Matched stops P x y := by
  obtain ⟨result, t⟩ := y
  cases result with
  | error f => exact .stopped (hstops f)
  | ok a =>
      obtain ⟨s, rfl, hP⟩ := h a t rfl
      exact .same hP

/-- Two runs go on behind a first step, or something else is the case. -/
theorem Matched.bind_or {m m' : Step σ α} {f f' : α → Step σ β} {s t : σ}
    {Q : Prop} (hm : Matched stops P (m s) (m' t))
    (hf : ∀ a s' t', m s = (.ok a, s') → m' t = (.ok a, t') → P s' t' →
      Matched stops P (f a s') (f' a t') ∨ Q) :
    Matched stops P ((m >>= f) s) ((m' >>= f') t) ∨ Q := by
  rw [bind_apply, bind_apply]
  generalize hx : m s = x at hm
  generalize hy : m' t = y at hm
  cases hm with
  | stopped h => exact Or.inl (.stopped h)
  | @same result s' t' h =>
      cases result with
      | error e => exact Or.inl (.same h)
      | ok a => exact hf a s' t' hx hy h

theorem Matched.bind {m m' : Step σ α} {f f' : α → Step σ β} {s t : σ}
    (hm : Matched stops P (m s) (m' t))
    (hf : ∀ a s' t', m s = (.ok a, s') → m' t = (.ok a, t') → P s' t' →
      Matched stops P (f a s') (f' a t')) :
    Matched stops P ((m >>= f) s) ((m' >>= f') t) :=
  (hm.bind_or fun a s' t' hs ht h => Or.inl (hf a s' t' hs ht h)).resolve_right
    id

theorem Matches.bind {m m' : Step σ α} {f f' : α → Step σ β}
    (hm : Matches stops P m m') (hf : ∀ a, Matches stops P (f a) (f' a)) :
    Matches stops P (m >>= f) (m' >>= f') :=
  fun s t h => (hm s t h).bind fun a s' t' _ _ => hf a s' t'

theorem Matches.pure (a : α) :
    Matches stops P (Pure.pure a : Step σ α) (Pure.pure a) :=
  fun _ _ h => .same h

theorem Matches.fail (f : Fault) :
    Matches stops P (Step.fail f : Step σ α) (Step.fail f) :=
  fun _ _ h => .same h

theorem Matches.bind_pure {m m' : Step σ α} (hm : Matches stops P m m')
    (f : α → β) :
    Matches stops P (m >>= fun a => Pure.pure (f a))
      (m' >>= fun a => Pure.pure (f a)) :=
  hm.bind fun a => .pure (f a)

theorem Matched.mapFault {m m' : Step σ α} {change : Fault → Fault} {s t : σ}
    (hm : Matched stops P (m s) (m' t))
    (hchange : ∀ f, stops f → stops (change f)) :
    Matched stops P (m.mapFault change s) (m'.mapFault change t) := by
  unfold Step.mapFault
  generalize m s = x at hm
  generalize m' t = y at hm
  cases hm with
  | stopped h => exact .stopped (hchange _ h)
  | @same result s' t' h => cases result <;> exact .same h

theorem Matches.mapFault {m m' : Step σ α} {change : Fault → Fault}
    (hm : Matches stops P m m') (hchange : ∀ f, stops f → stops (change f)) :
    Matches stops P (m.mapFault change) (m'.mapFault change) :=
  fun s t h => (hm s t h).mapFault hchange

theorem Matches.times {m m' : Step σ α} (hm : Matches stops P m m') (n : Nat) :
    Matches stops P (m.times n) (m'.times n) := by
  induction n with
  | zero => exact .pure []
  | succ n ih => exact hm.bind fun _ => ih.bind_pure _

/-- A form is looked for and found in both runs. Or else the look of the second
falls short, and then what is done instead needs more octets than are to
come. -/
theorem Matches.orForm {v : σ → Bytes} {faults : Fault → Prop} {n : Nat}
    {take : Step σ Bool} {A A' B B' : Step σ α}
    (htake : ∀ s t, P s t → Matched stops P (take s) (take t) ∨
      (∀ f, stops f) ∧ take t = (.ok false, t) ∧ (v t).length < n)
    (hA : Matches stops P A A') (hB : Matches stops P B B')
    (hlong : Takes v faults n B') :
    Matches stops P (take >>= fun found => if found = true then A else B)
      (take >>= fun found => if found = true then A' else B') := by
  intro s t hst
  rcases htake s t hst with hmatched | ⟨hall, hnone, hshort⟩
  · refine hmatched.bind fun found s' t' _ _ hst' => ?_
    split
    · exact hA s' t' hst'
    · exact hB s' t' hst'
  · refine .of_imp hall fun a after hok => ?_
    rw [bind_of_ok hnone] at hok
    have hprice := hlong.of_ok hok
    omega

/-- Two loops with budgets of their own, which both cover what is to come. -/
theorem Matches.collect {v : σ → Bytes} {faults faults' : Fault → Prop}
    {m m' : Step σ (Option α)} (hm : Matches stops P m m')
    (htakes : Takes v faults 1 m) (htakes' : Takes v faults' 1 m') :
    ∀ (budget budget' : Nat) (s t : σ), (v s).length < budget →
      (v t).length < budget' → P s t →
      Matched stops P (m.collect budget s) (m'.collect budget' t) := by
  intro budget
  induction budget with
  | zero => exact fun _ _ _ hs => absurd hs (Nat.not_lt_zero _)
  | succ budget ih =>
      intro budget' s t hs ht hst
      cases budget' with
      | zero => exact absurd ht (Nat.not_lt_zero _)
      | succ budget' =>
          refine (hm s t hst).bind fun found s' t' hturn hturn' hst' => ?_
          cases found with
          | none => exact .same hst'
          | some a =>
              -- a turn takes an octet from both budgets and from both inputs
              have hcost := htakes.of_ok hturn
              have hcost' := htakes'.of_ok hturn'
              exact (ih budget' s' t' (by omega) (by omega) hst').bind
                fun as _ _ _ _ h => .same h

end Step

namespace Gather

open Step (Matched Matches)

variable {α : Type} {stops : Fault → Prop} {P : Reader → Reader → Prop}

theorem matched_ofRead {m m' : Read α} {d e : Draft}
    (h : Matched stops P (m d.reader) (m' e.reader))
    (hgathered : d.gathered = e.gathered) :
    Matched stops (Draft.Related P) (ofRead m d) (ofRead m' e) := by
  unfold ofRead
  generalize m d.reader = x at h
  generalize m' e.reader = y at h
  cases h with
  | stopped hf => exact .stopped hf
  | same hP => exact .same ⟨hP, hgathered⟩

theorem matches_ofRead {m m' : Read α} (h : Matches stops P m m') :
    Matches stops (Draft.Related P) (ofRead m) (ofRead m') :=
  fun d e hde => matched_ofRead (h d.reader e.reader hde.reader) hde.gathered

theorem matches_push (octets : Bytes) :
    Matches stops (Draft.Related P) (push octets) (push octets) :=
  fun _ _ h => .same ⟨h.reader, congrArg (· ++ octets) h.gathered⟩

theorem matches_settleLine (total : Nat) :
    Matches stops (Draft.Related P) (settleLine total) (settleLine total) := by
  intro d e h
  simp only [settleLine, h.gathered]
  split
  · exact .same ⟨h.reader, rfl⟩
  · exact .same h

/-- Bodies are matched where what is held is, and what is taken of it. -/
theorem matches_bodyFrom (hheld : Matches stops P Reader.held Reader.held)
    (htake : ∀ n, Matches stops P (Reader.consume n) (Reader.consume n))
    (missing : Nat) :
    Matches stops (Draft.Related P) (bodyFrom missing) (bodyFrom missing) := by
  induction missing using Nat.strongRecOn with
  | ind missing ih =>
      by_cases hzero : missing = 0
      · subst hzero
        intro d e hde
        rw [bodyFrom, bodyFrom]
        exact .same hde
      · rw [bodyFrom_eq hzero]
        refine (matches_ofRead hheld).bind fun next => ?_
        cases next with
        | nil => exact .fail _
        | cons b bs =>
            have hless : missing - ((b :: bs).take missing).length <
                missing := by
              rw [List.length_take, List.length_cons]
              omega
            exact (matches_ofRead (htake _)).bind fun _ =>
              (matches_push _).bind fun _ => ih _ hless

/-- Lines are matched where, besides, sizes are refused alike. -/
theorem matches_lineFrom (hheld : Matches stops P Reader.held Reader.held)
    (htake : ∀ n, Matches stops P (Reader.consume n) (Reader.consume n))
    (hcheck : ∀ size, Matches stops P (Reader.checkSize size)
      (Reader.checkSize size))
    (taken : Nat) :
    Matches stops (Draft.Related P) (lineFrom taken) (lineFrom taken) := by
  intro d
  induction hn : d.reader.remaining.length using Nat.strongRecOn
      generalizing d taken with
  | ind size ih =>
      intro e hde
      rw [lineFrom_eq]
      refine (matches_ofRead hheld d e hde).bind fun next d' e' hlook _ hde' =>
        ?_
      cases next with
      | nil => exact .same hde'
      | cons b bs =>
          refine (matches_ofRead (hcheck _) d' e' hde').bind
            fun _ d2 e2 hsize _ hde2 => ?_
          rw [eq_of_checkSize hsize] at hde2 ⊢
          refine (matches_ofRead (htake _) d' e2 hde2).bind
            fun _ d3 e3 htaken _ hde3 =>
              (matches_push _ d3 e3 hde3).bind fun _ d4 e4 hpush _ hde4 => ?_
          split
          · exact matches_settleLine _ d4 e4 hde4
          · refine ih _ ?_ _ d4 rfl e4 hde4
            cases htaken
            cases hpush
            have hpos := Reader.length_throughLineFeed_cons_pos b bs
            exact hn ▸ length_remaining_lt_of_held hpos hlook

theorem matches_atomically {m m' : Gather α}
    (h : Matches stops (Draft.Related P) m m') :
    Matches stops (Draft.Related P) (atomically m) (atomically m') := by
  intro d e hde
  have hx := h d e hde
  unfold atomically
  rw [hde.gathered]
  generalize m d = x at hx
  generalize m' e = y at hx
  cases hx with
  | stopped hf => exact .stopped hf
  | @same result d' e' hP =>
      cases result with
      | ok a => exact .same hP
      | error f =>
          simp only [hP.gathered]
          exact .same ⟨hP.reader, rfl⟩

theorem matches_collected {m m' : Gather α}
    (h : Matches stops (Draft.Related P) m m') :
    Matches stops P m.collected m'.collected := by
  intro r r' hr
  have hx := h ⟨r, []⟩ ⟨r', []⟩ ⟨hr, rfl⟩
  unfold collected
  generalize m ⟨r, []⟩ = x at hx
  generalize m' ⟨r', []⟩ = y at hx
  cases hx with
  | stopped hf => exact .stopped hf
  | @same result d e hP =>
      cases result with
      | ok a =>
          simp only [hP.gathered]
          exact .same hP.reader
      | error f => exact .same hP.reader

theorem matches_dropped {m m' : Gather α}
    (h : Matches stops (Draft.Related P) m m') :
    Matches stops P m.dropped m'.dropped :=
  (matches_collected h).bind_pure _

end Gather

end RespWire

import RespWire.Proofs.Languages
import RespWire.Proofs.Matching

/-!
# Counterparts

Two readers that are counterparts show the same to a look ahead and stay
counterparts when both take what they saw. All parts of values are then matched
whose octets have to be there.

One exception is left open, for readers whose second run may be stopped by
anything: there a look ahead may show the second reader fewer octets than it
asked for, and then nothing is said about the first. A read that has to see the
octets stops there, as it does at the end of the input.
-/

namespace RespWire

/-- Whether a fault refuses what exceeds a limit. -/
def Fault.IsLimit : Fault → Prop
  | .violation (.tooLarge _ _) | .violation (.tooDeep _) => True
  | _ => False

namespace Reader

open Step (Matched Matches)

/-- A relation of readers that the parts of values keep up, as long as the
second run is not stopped. -/
structure Counterparts (stops : Fault → Prop) (P : Reader → Reader → Prop) :
    Prop where
  lookAhead : ∀ (n : Nat) (s t : Reader), P s t →
    (∃ result s' t', lookAhead n s = (result, s') ∧
      lookAhead n t = (result, t') ∧ P s' t') ∨
    ((∀ f, stops f) ∧ ∀ bs after, lookAhead n t = (.ok bs, after) →
      bs.length < n)
  consume : ∀ (n : Nat) (s t : Reader), P s t → n ≤ s.buffer.length →
    n ≤ t.buffer.length → P (consume n s).2 (consume n t).2
  checkSize : ∀ size, Matches stops P (checkSize size) (checkSize size)
  bodyFrom :
    ∀ missing, Matches stops (Draft.Related P) (Gather.bodyFrom missing)
    (Gather.bodyFrom missing)
  line : Matches stops (Draft.Related P) Gather.line Gather.line
  /-- Any fault stops the second run, or none but refusals for a limit. -/
  stops_cases : (∀ f, stops f) ∨ ∀ f, stops f → f.IsLimit

namespace Counterparts

variable {α β : Type} {stops : Fault → Prop} {P : Reader → Reader → Prop}
  {s t : Reader}

/-- Rewording faults that are no refusals for a limit does not make up for a
stop. -/
theorem reworded (h : Counterparts stops P) {change : Fault → Fault}
    (hchange : ∀ f, f.IsLimit → change f = f) (f : Fault) (hf : stops f) :
    stops (change f) := by
  rcases h.stops_cases with hall | hlimits
  · exact hall _
  · rw [hchange f (hlimits f hf)]
    exact hf

/-- What is done with octets that were looked at, if it stops where there are
fewer than were asked for. -/
theorem look (h : Counterparts stops P) {n : Nat} {f : Bytes → Read α}
    (hst : P s t)
    (hf : ∀ bs s' t', Reader.lookAhead n s = (.ok bs, s') → P s' t' →
      bs.length ≤ s'.buffer.length → bs.length ≤ t'.buffer.length →
      Matched stops P (f bs s') (f bs t'))
    (hfew : ∀ bs t', bs.length < n → ∃ e, (f bs t').1 = .error e) :
    Matched stops P ((Reader.lookAhead n >>= f) s)
      ((Reader.lookAhead n >>= f) t) := by
  rcases h.lookAhead n s t hst with ⟨result, s', t', hs, ht, hst'⟩ |
    ⟨hall, hshort⟩
  · cases result with
    | error e =>
        rw [Step.bind_of_error hs, Step.bind_of_error ht]
        exact .same hst'
    | ok bs =>
        rw [Step.bind_of_ok hs, Step.bind_of_ok ht]
        exact hf bs s' t' hs hst' (length_le_buffer_of_lookAhead hs)
          (length_le_buffer_of_lookAhead ht)
  · refine .of_imp hall fun a after hok => ?_
    obtain ⟨bs, mid, hlook, hlater⟩ := Step.bind_eq_ok.mp hok
    obtain ⟨e, he⟩ := hfew bs mid (hshort bs mid hlook)
    rw [hlater] at he
    cases he

theorem consume_pure (h : Counterparts stops P) {n : Nat} (a : α) (hst : P s t)
    (hs : n ≤ s.buffer.length) (ht : n ≤ t.buffer.length) :
    Matched stops P ((Reader.consume n >>= fun _ => pure a : Read α) s)
      ((Reader.consume n >>= fun _ => pure a : Read α) t) :=
  .same (h.consume n s t hst hs ht)

/-! ## Octets and numbers -/

theorem peekLead (h : Counterparts stops P) :
    Matches stops P peekLead peekLead := by
  refine fun s t hst => h.look hst (fun bs s t _ hst _ _ => ?_) fun bs t hlt =>
    ?_
  · cases bs with
    | nil => exact .same hst
    | cons b bs =>
        cases hk : Kind.ofLead? b <;> simp only [hk] <;> exact .same hst
  · rw [List.eq_nil_of_length_eq_zero (Nat.lt_one_iff.mp hlt)]
    exact ⟨_, rfl⟩

theorem noValueInstead_of_isLimit (k : Kind) (f : Fault) (hf : f.IsLimit) :
    noValueInstead k f = f := by
  cases f with
  | endOfInput => exact hf.elim
  | _ => rfl

theorem expect (h : Counterparts stops P) (k : Kind) :
    Matches stops P (expect k) (expect k) := by
  intro s t hst
  refine ((h.peekLead s t hst).mapFault
    (h.reworded (noValueInstead_of_isLimit k))).bind
    fun got s' t' hs ht hst' => ?_
  split
  · exact .same
      (h.consume 1 s' t' hst' (buffer_of_peekLead (Step.mapFault_eq_ok.mp hs))
        (buffer_of_peekLead (Step.mapFault_eq_ok.mp ht)))
  · exact .same hst'

theorem lineEnd (h : Counterparts stops P) :
    Matches stops P lineEnd lineEnd := by
  refine fun s t hst =>
    h.look hst (fun bs s t _ hst hs ht => ?_) fun bs t hlt => ?_
  · split
    · next hcrlf =>
        rw [hcrlf] at hs ht
        exact .same (h.consume 2 s t hst hs ht)
    · split <;> exact .same hst
  · have hne : bs ≠ Bytes.crlf :=
      fun heq => by rw [heq] at hlt; exact absurd hlt (by decide)
    rw [if_neg hne, if_pos hlt]
    exact ⟨_, rfl⟩

theorem minusSign (h : Counterparts stops P) :
    Matches stops P minusSign minusSign := by
  refine fun s t hst =>
    h.look hst (fun bs s t _ hst hs ht => ?_) fun bs t hlt => ?_
  · cases bs with
    | nil => exact .same hst
    | cons b bs =>
        simp only
        split
        · exact h.consume_pure true hst (Nat.le_trans (Nat.succ_pos _) hs)
            (Nat.le_trans (Nat.succ_pos _) ht)
        · exact .same hst
  · rw [List.eq_nil_of_length_eq_zero (Nat.lt_one_iff.mp hlt)]
    exact ⟨_, rfl⟩

theorem digitsFrom (h : Counterparts stops P) (negative : Bool)
    (before : Option Int) :
    Matches stops P (digitsFrom negative before)
      (digitsFrom negative before) := by
  intro s
  induction hn : s.remaining.length using Nat.strongRecOn
      generalizing s before with
  | ind size ih =>
      intro t hst
      rw [digitsFrom_eq]
      refine h.look hst (fun bs s' t' hlook hst' hs' ht' => ?_) fun bs t' hlt =>
        ?_
      · cases bs with
        | nil => exact .same hst'
        | cons b bs =>
            simp only
            split
            · split
              · have hnext :=
                  h.consume 1 s' t' hst' (Nat.le_trans (Nat.succ_pos _) hs')
                  (Nat.le_trans (Nat.succ_pos _) ht')
                exact ih _ (hn ▸ length_remaining_lt_of_lookAhead hlook) _ _
                  rfl _ hnext
              · exact .same hst'
            · split <;> exact .same hst'
      · rw [List.eq_nil_of_length_eq_zero (Nat.lt_one_iff.mp hlt)]
        exact ⟨_, rfl⟩

theorem number (h : Counterparts stops P) : Matches stops P number number := by
  refine h.minusSign.bind fun negative =>
    (h.digitsFrom negative none).bind fun n? =>
      h.lineEnd.bind fun _ => ?_
  cases n? with
  | none => exact .fail _
  | some n => exact .pure n

/-! ## Octets for a destination -/

open Gather
  (matches_ofRead matches_atomically matches_collected matches_dropped)

theorem counted (h : Counterparts stops P) (k : Kind) :
    Matches stops (Draft.Related P) (Gather.counted k) (Gather.counted k) := by
  refine (matches_ofRead (h.expect k)).bind fun _ =>
    (matches_ofRead h.number).bind fun n => ?_
  split
  · exact .fail _
  · have hbody : Matches stops (Draft.Related P) (Gather.body n.toNat)
        (Gather.body n.toNat) :=
      (matches_ofRead (h.checkSize _)).bind fun _ =>
        (h.bodyFrom _).bind fun _ => matches_ofRead h.lineEnd
    exact hbody.bind_pure _

theorem simple (h : Counterparts stops P) (role : Role) :
    Matches stops (Draft.Related P) (Gather.simple role) (Gather.simple role) :=
  matches_atomically ((matches_ofRead (h.expect _)).bind fun _ => h.line)

theorem verbatim (h : Counterparts stops P) :
    Matches stops (Draft.Related P) Gather.verbatim Gather.verbatim := by
  have hmark : Matches stops (Draft.Related P) Gather.mark Gather.mark := by
    intro d e hde
    rw [Gather.mark, Gather.mark, hde.gathered]
    exact .same hde
  have hsince : ∀ start,
      Matches stops (Draft.Related P) (Gather.since start)
        (Gather.since start) := by
    intro start d e hde
    rw [Gather.since, Gather.since, hde.gathered]
    exact .same hde
  have hcutBack : ∀ length,
      Matches stops (Draft.Related P) (Gather.cutBack length)
        (Gather.cutBack length) :=
    fun length d e hde =>
      .same ⟨hde.reader, congrArg (List.take length) hde.gathered⟩
  refine matches_atomically (hmark.bind fun start => (h.counted _).bind fun _ =>
    (hsince start).bind fun octets => ?_)
  match octets with
  | [] | [_] | [_, _] | [_, _, _] => exact .fail _
  | a :: b :: c :: separator :: text =>
      simp only
      split
      · exact (hcutBack start).bind fun _ =>
          (Gather.matches_push text).bind fun _ => .pure _
      · exact .fail _

/-! ## Scalars -/

theorem boolean (h : Counterparts stops P) :
    Matches stops P boolean boolean := by
  refine (h.expect _).bind fun _ s t hst => ?_
  refine h.look hst (fun bs s t _ hst hs ht => ?_) fun bs t hlt => ?_
  · match bs with
    | [] | [_] | [_, _] | _ :: _ :: _ :: _ :: _ => exact .same hst
    | [x, y, z] =>
        simp only
        split
        · split
          · exact h.consume_pure _ hst hs ht
          · exact .same hst
        · exact .same hst
  · match bs with
    | [] | [_] | [_, _] => exact ⟨_, rfl⟩
    | _ :: _ :: _ :: _ =>
        simp only [List.length_cons] at hlt
        omega

theorem integer (h : Counterparts stops P) : Matches stops P integer integer :=
  (h.expect _).bind fun _ => h.number.bind_pure _

theorem close (h : Counterparts stops P) : Matches stops P close close :=
  (h.expect _).bind fun _ => h.lineEnd

theorem lineOf (h : Counterparts stops P) (k : Kind)
    (settle : Bytes → Except Fault α) :
    Matches stops P (lineOf k settle) (lineOf k settle) :=
  (h.expect k).bind fun _ => (matches_collected h.line).bind fun _ _ _ hst =>
    .same hst

end Counterparts

end Reader

end RespWire

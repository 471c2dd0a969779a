import RespWire.Proofs.Accepts
import RespWire.Proofs.Peek
import RespWire.Proofs.Portions
import RespWire.Proofs.Waiting
import RespWire.Reader.Call

/-!
# What a read takes

On whatever feed, a read leaves a tail of the octets that were to come, and an
answer has its price: so many octets at least are taken for it. `Takes` says
this of a step together with the faults that may stop it.

Prices add up along a sequence, and the rule for a sequence says what is still
owed behind its first step. The cheapest values are a null, a close and an empty
simple string, of three octets each, so every typed read that answers has taken
three.

Among the faults it is the end of input that is kept track of. It is reported
as such by the look for the first octet of a value and by nothing else: a read
that looks for a value which has to be there makes something else of it, and
behind the first look every fault is another.
-/

namespace RespWire

namespace Step

variable {σ α β : Type}

theorem mapFault_eq_ok {m : Step σ α} {change : Fault → Fault} {s after : σ}
    {a : α} :
    m.mapFault change s = (.ok a, after) ↔ m s = (.ok a, after) := by
  rw [Step.mapFault]
  cases m s with
  | mk result mid => cases result <;> simp

theorem attempt_eq_some {m : Step σ α} {s after : σ} {a : α} :
    m.attempt s = (.ok (some a), after) ↔ m s = (.ok a, after) := by
  rw [Step.attempt]
  cases m s with
  | mk result mid => cases result <;> simp

/-- What a run with this result may have made of the octets to come. -/
structure Took (faults : Fault → Prop) (n : Nat) (before : Bytes)
    (result : Except Fault α) (after : Bytes) : Prop where
  suffix : after <:+ before
  price : ∀ a, result = .ok a → after.length + n ≤ before.length
  fault : ∀ f, result = .error f → faults f

/-- A step that takes at least `n` octets for an answer, where `v` shows the
octets to come, and stops with none but the given faults. -/
def Takes (v : σ → Bytes) (faults : Fault → Prop) (n : Nat) (m : Step σ α) :
    Prop :=
  ∀ s, Took faults n (v s) (m s).1 (v (m s).2)

variable {v : σ → Bytes} {faults : Fault → Prop} {k n : Nat}

theorem Took.ok {before after : Bytes} {a : α} (h : after <:+ before)
    (hprice : after.length + n ≤ before.length) :
    Took faults n before (.ok a) after :=
  ⟨h, fun _ _ => hprice, nofun⟩

theorem Took.error {before after : Bytes} {f : Fault} (h : after <:+ before)
    (hf : faults f) :
    Took faults n before (.error f : Except Fault α) after :=
  ⟨h, nofun, fun _ heq => Except.error.inj heq ▸ hf⟩

/-- What is done behind a run has to take what is still owed. -/
theorem Took.bind {m : Step σ α} {f : α → Step σ β} {s : σ}
    (hm : Took faults k (v s) (m s).1 (v (m s).2))
    (hf : ∀ a s', m s = (.ok a, s') →
      Took faults (n - k) (v s') (f a s').1 (v (f a s').2)) :
    Took faults n (v s) ((m >>= f) s).1 (v ((m >>= f) s).2) := by
  rw [bind_apply]
  generalize hx : m s = x at hm
  obtain ⟨result, after⟩ := x
  cases result with
  | error e => exact .error hm.suffix (hm.fault e rfl)
  | ok a =>
      have hlater := hf a after hx
      refine ⟨hlater.suffix.trans hm.suffix, fun b hb => ?_, hlater.fault⟩
      have hfirst : (v after).length + k ≤ (v s).length := hm.price a rfl
      have hrest : (v (f a after).2).length + (n - k) ≤ (v after).length :=
        hlater.price b hb
      simp only
      omega

theorem Takes.bind {m : Step σ α} {f : α → Step σ β} (hm : Takes v faults k m)
    (hf : ∀ a, Takes v faults (n - k) (f a)) : Takes v faults n (m >>= f) :=
  fun s => (hm s).bind fun a s' _ => hf a s'

theorem Took.le {before after : Bytes} {result : Except Fault α}
    (h : Took faults k before result after) (hn : n ≤ k) :
    Took faults n before result after :=
  ⟨h.suffix, fun a ha => Nat.le_trans (Nat.add_le_add_left hn _) (h.price a ha),
    h.fault⟩

theorem Takes.of_ok {m : Step σ α} (hm : Takes v faults n m) {s after : σ}
    {a : α} (h : m s = (.ok a, after)) :
    (v after).length + n ≤ (v s).length := by
  have hprice := (hm s).price a (congrArg Prod.fst h)
  rwa [h] at hprice

theorem Takes.mono {faults' : Fault → Prop} {m : Step σ α}
    (hm : Takes v faults k m) (hn : n ≤ k)
    (hfaults : ∀ f, faults f → faults' f) : Takes v faults' n m := by
  intro s
  obtain ⟨hsuffix, hprice, hfault⟩ := (hm s).le hn
  exact ⟨hsuffix, hprice, fun f hf => hfaults f (hfault f hf)⟩

theorem Takes.le {m : Step σ α} (hm : Takes v faults k m) (hn : n ≤ k) :
    Takes v faults n m :=
  fun s => (hm s).le hn

theorem Takes.pure (a : α) : Takes v faults 0 (Pure.pure a : Step σ α) :=
  fun _ => .ok List.suffix_rfl (Nat.le_refl _)

theorem Takes.fail {f : Fault} (hf : faults f) :
    Takes v faults n (Step.fail f : Step σ α) :=
  fun _ => .error List.suffix_rfl hf

theorem Takes.bind_pure {m : Step σ α} (hm : Takes v faults n m) (f : α → β) :
    Takes v faults n (m >>= fun a => Pure.pure (f a)) :=
  hm.bind fun a => Nat.sub_self n ▸ .pure (f a)

theorem Takes.mapFault {faults' : Fault → Prop} {m : Step σ α}
    {change : Fault → Fault} (hm : Takes v faults n m)
    (hchange : ∀ f, faults f → faults' (change f)) :
    Takes v faults' n (m.mapFault change) := by
  intro s
  have hx := hm s
  unfold Step.mapFault
  generalize m s = x at hx
  obtain ⟨result, after⟩ := x
  cases result with
  | ok a => exact .ok hx.suffix (hx.price a rfl)
  | error f => exact .error hx.suffix (hchange f (hx.fault f rfl))

theorem Takes.attempt {m : Step σ α} (hm : Takes v faults n m) :
    Takes v faults 0 m.attempt := by
  intro s
  have hx := hm s
  unfold Step.attempt
  generalize m s = x at hx
  obtain ⟨result, after⟩ := x
  cases result <;> exact .ok hx.suffix hx.suffix.length_le

/-- A form that comes first selects one step, everything else goes to the
other. -/
theorem Takes.orForm {form : Bytes} {take : Step σ Bool} {A B : Step σ α}
    (htake : Takes v faults 0 take)
    (hform : ∀ s after, take s = (.ok true, after) →
      (v after).length + form.length ≤ (v s).length)
    (hA : Takes v faults k A) (hB : Takes v faults n B)
    (hkn : n ≤ form.length + k) :
    Takes v faults n (take >>= fun found => if found = true then A else B) := by
  intro s
  have hx := htake s
  rw [bind_apply]
  generalize htaken : take s = x at hx
  obtain ⟨result, after⟩ := x
  cases result with
  | error f => exact .error hx.suffix (hx.fault f rfl)
  | ok found =>
      cases found with
      | true =>
          obtain ⟨hsuffix, hprice, hfault⟩ := hA after
          refine ⟨hsuffix.trans hx.suffix, fun a ha => ?_, hfault⟩
          have hfirst := hform s after htaken
          have hrest : (v (A after).2).length + k ≤ (v after).length :=
            hprice a ha
          show (v (A after).2).length + n ≤ _
          omega
      | false =>
          obtain ⟨hsuffix, hprice, hfault⟩ := hB after
          refine ⟨hsuffix.trans hx.suffix, fun a ha => ?_, hfault⟩
          exact Nat.le_trans (hprice a ha) hx.suffix.length_le

theorem Takes.times {m : Step σ α} (hm : Takes v faults n m) (count : Nat) :
    Takes v faults 0 (m.times count) := by
  induction count with
  | zero => exact .pure []
  | succ count ih => exact (hm.le (Nat.zero_le n)).bind fun _ => ih.bind_pure _

/-- A loop that turns at all takes what a turn takes. -/
theorem Takes.collect {m : Step σ (Option α)} (hm : Takes v faults n m)
    (budget : Nat) :
    Takes v faults n (m.collect (budget + 1)) := by
  have hlater : ∀ budget, Takes v faults 0 (m.collect budget) := by
    intro budget
    induction budget with
    | zero => exact .pure []
    | succ budget ih =>
        refine (hm.le (Nat.zero_le n)).bind fun found => ?_
        cases found with
        | none => exact .pure []
        | some a => exact ih.bind_pure _
  refine hm.bind fun found => ?_
  rw [Nat.sub_self]
  cases found with
  | none => exact .pure []
  | some a => exact (hlater budget).bind_pure _

end Step

/-- Any fault but the end of input in front of a value. -/
abbrev Fault.NotEnd (f : Fault) : Prop := f ≠ .endOfInput

theorem Fault.notEnd_violation (v : Violation) : NotEnd (.violation v) := by
  intro h
  cases h

namespace Reader

open Fault (NotEnd)
open Step (Took)

variable {α : Type} {n : Nat} {r after : Reader}

/-- A read that takes at least `n` octets for an answer. -/
abbrev Takes (faults : Fault → Prop) (n : Nat) (m : Read α) : Prop :=
  Step.Takes Reader.remaining faults n m

/-! ## Octets -/

theorem notEnd_of_fill {f : Fault} (h : fill r = (.error f, after)) :
    NotEnd f := by
  unfold fill at h
  split at h
  · cases h
  · cases h
    exact nofun

theorem notEnd_of_lookAhead {f : Fault}
    (h : lookAhead n r = (.error f, after)) : NotEnd f := by
  induction r using lookAhead_induction (n := n) with
  | enough r hn =>
      rw [lookAhead_of_le hn] at h
      cases h
  | lacks r hn ih =>
      rw [lookAhead_of_lacks hn] at h
      cases hfill : fill r with
      | mk result mid =>
          rw [hfill] at h
          match result with
          | .ok 0 => cases h
          | .ok (k + 1) => exact ih k mid hfill h
          | .error g =>
              cases h
              exact notEnd_of_fill hfill

theorem takes_lookAhead (n : Nat) : Takes NotEnd 0 (lookAhead n) := by
  intro r
  have hrem := remaining_lookAhead n r
  exact ⟨hrem ▸ List.suffix_rfl, fun _ _ => hrem ▸ Nat.le_refl _,
    fun f hf => notEnd_of_lookAhead (Prod.ext hf rfl)⟩

theorem length_le_buffer_of_lookAhead {bs : Bytes}
    (h : lookAhead n r = (.ok bs, after)) :
    bs.length ≤ after.buffer.length := by
  rw [eq_take_of_lookAhead h]
  exact List.length_take_le' n after.buffer

/-- What is done with octets that were looked at. -/
theorem takes_lookAhead_bind {k : Nat} {f : Bytes → Read α}
    (hf : ∀ bs r, bs.length ≤ r.buffer.length →
      Took NotEnd n r.remaining (f bs r).1 (f bs r).2.remaining) :
    Takes NotEnd n (lookAhead k >>= f) :=
  fun r => (takes_lookAhead k r).bind fun bs after h =>
    hf bs after (length_le_buffer_of_lookAhead h)

theorem took_consume (h : n ≤ r.buffer.length) :
    Took NotEnd n r.remaining (consume n r).1 (consume n r).2.remaining := by
  have hrem := remaining_consume h
  refine .ok (hrem ▸ List.drop_suffix n _) ?_
  rw [hrem, List.length_drop, remaining, List.length_append]
  omega

theorem took_consume_pure (a : α) (h : n ≤ r.buffer.length) :
    Took NotEnd n r.remaining ((consume n >>= fun _ => pure a : Read α) r).1
      ((consume n >>= fun _ => pure a : Read α) r).2.remaining :=
  (took_consume h).bind fun _ after _ =>
    Nat.sub_self n ▸ Step.Takes.pure a after

theorem took_fail {f : Fault} (hf : NotEnd f) :
    Took NotEnd n r.remaining ((Step.fail f : Read α) r).1
      ((Step.fail f : Read α) r).2.remaining :=
  Step.Takes.fail hf r

theorem takes_held : Takes NotEnd 0 held := by
  intro r
  have hrem := remaining_held r
  refine ⟨hrem ▸ List.suffix_rfl, fun _ _ => hrem ▸ Nat.le_refl _,
    fun f hf => ?_⟩
  unfold held at hf
  split at hf
  · split at hf
    · cases hf
    · next hfill =>
        cases hf
        exact notEnd_of_fill hfill
  · cases hf

theorem takes_checkSize (size : Nat) : Takes NotEnd 0 (checkSize size) := by
  intro r
  simp only [checkSize, getOptions, Step.bind_apply]
  cases hfault : sizeFault? r.options size with
  | none => exact .ok List.suffix_rfl (Nat.le_refl _)
  | some f =>
      refine .error List.suffix_rfl ?_
      unfold sizeFault? at hfault
      split at hfault
      · split at hfault <;> cases hfault
        exact Fault.notEnd_violation _
      · cases hfault

theorem takes_remainingLength : Takes NotEnd 0 remainingLength :=
  fun _ => .ok List.suffix_rfl (Nat.le_refl _)

theorem takes_getOptions : Takes NotEnd 0 getOptions :=
  fun _ => .ok List.suffix_rfl (Nat.le_refl _)

/-- The end of input may be all that a look for a first octet finds. -/
theorem takes_peekLead : Takes (fun _ => True) 0 peekLead := by
  refine ((takes_lookAhead 1).mono (Nat.le_refl 0) fun _ _ => trivial).bind
    fun bs => ?_
  split
  · exact .fail trivial
  · split
    · exact .pure _
    · exact .fail trivial

theorem buffer_of_peekLead {k : Kind} (h : peekLead r = (.ok k, after)) :
    1 ≤ after.buffer.length := by
  obtain ⟨bs, mid, hlook, hlead⟩ := Step.bind_eq_ok.mp h
  have hheld := length_le_buffer_of_lookAhead hlook
  cases bs with
  | nil => cases hlead
  | cons b bs =>
      have hafter : after = mid := by
        simp only at hlead
        cases hk : Kind.ofLead? b <;> rw [hk] at hlead <;> cases hlead
        rfl
      exact hafter ▸ Nat.le_trans (Nat.succ_pos _) hheld

theorem notEnd_noValueInstead (k : Kind) (f : Fault) :
    NotEnd (noValueInstead k f) := by
  cases f <;> exact nofun

theorem takes_expect (k : Kind) : Takes NotEnd 1 (expect k) := by
  intro r
  have hpeek : Takes NotEnd 0 (peekLead.mapFault (noValueInstead k)) :=
    takes_peekLead.mapFault fun f _ => notEnd_noValueInstead k f
  refine (hpeek r).bind fun got after h => ?_
  split
  · exact took_consume (buffer_of_peekLead (Step.mapFault_eq_ok.mp h))
  · exact took_fail nofun

theorem takes_lineEnd : Takes NotEnd 2 lineEnd := by
  refine takes_lookAhead_bind fun bs r hheld => ?_
  split
  · next hcrlf => exact took_consume (by rw [hcrlf] at hheld; exact hheld)
  · split <;> exact took_fail nofun

theorem takes_minusSign : Takes NotEnd 0 minusSign := by
  refine takes_lookAhead_bind fun bs r hheld => ?_
  cases bs with
  | nil => exact took_fail nofun
  | cons b bs =>
      simp only
      split
      · have hone : 1 ≤ r.buffer.length := Nat.le_trans (Nat.succ_pos _) hheld
        exact (took_consume hone).bind fun _ after _ =>
          Step.Takes.pure true after
      · exact Step.Takes.pure false r

theorem takes_digitsFrom (negative : Bool) (before : Option Int) :
    Takes NotEnd 0 (digitsFrom negative before) := by
  intro r
  -- each digit is one octet less to come, whatever fills have brought in
  induction hn : r.remaining.length using Nat.strongRecOn
      generalizing r before with
  | ind size ih =>
      rw [digitsFrom_eq]
      refine (takes_lookAhead 1 r).bind fun bs mid hlook => ?_
      have hheld := length_le_buffer_of_lookAhead hlook
      have hrem := remaining_lookAhead 1 r
      rw [hlook] at hrem
      cases bs with
      | nil => exact took_fail nofun
      | cons b bs =>
          simp only
          split
          · split
            · have hone : 1 ≤ mid.buffer.length :=
                Nat.le_trans (Nat.succ_pos _) hheld
              refine (took_consume hone).bind fun _ after hafter => ?_
              cases hafter
              exact ih _ (hn ▸ length_remaining_lt_of_lookAhead hlook) _ _ rfl
            · exact took_fail nofun
          · split
            · exact Step.Takes.pure before mid
            · exact took_fail nofun

/-- A number that digits have changed has taken one. -/
theorem length_remaining_of_digitsFrom {negative : Bool}
    {before n? : Option Int}
    (h : digitsFrom negative before r = (.ok n?, after)) :
    n? = before ∨ after.remaining.length + 1 ≤ r.remaining.length := by
  rw [digitsFrom_eq] at h
  obtain ⟨bs, mid, hlook, hlater⟩ := Step.bind_eq_ok.mp h
  cases bs with
  | nil => cases hlater
  | cons b bs =>
      simp only at hlater
      split at hlater
      · split at hlater
        · obtain ⟨u, next, hnext, hrest⟩ := Step.bind_eq_ok.mp hlater
          cases hnext
          have hdigit := length_remaining_lt_of_lookAhead hlook
          exact Or.inr
            (Nat.lt_of_le_of_lt ((takes_digitsFrom _ _).of_ok hrest) hdigit)
        · cases hlater
      · split at hlater
        · cases hlater
          exact Or.inl rfl
        · cases hlater

theorem takes_number : Takes NotEnd 3 number := by
  have hend : Takes NotEnd 2 number := by
    refine takes_minusSign.bind fun negative =>
      (takes_digitsFrom negative none).bind fun n? =>
        takes_lineEnd.bind fun _ => ?_
    cases n? with
    | none => exact .fail nofun
    | some n => exact .pure n
  -- besides the end of its line a number has a digit, or there is no number
  intro r
  refine ⟨(hend r).suffix, fun n hn => ?_, (hend r).fault⟩
  have hrun : number r = (.ok n, (number r).2) := Prod.ext hn rfl
  generalize (number r).2 = after at hrun ⊢
  obtain ⟨negative, signed, hsign, hrest⟩ := Step.bind_eq_ok.mp hrun
  obtain ⟨n?, unended, hdigits, hline⟩ := Step.bind_eq_ok.mp hrest
  obtain ⟨u, ended, hlineEnd, hsettle⟩ := Step.bind_eq_ok.mp hline
  have hsigned : signed.remaining.length ≤ r.remaining.length :=
    takes_minusSign.of_ok hsign
  have hended : ended.remaining.length + 2 ≤ unended.remaining.length :=
    takes_lineEnd.of_ok hlineEnd
  cases n? with
  | none => cases hsettle
  | some m =>
      cases hsettle
      rcases length_remaining_of_digitsFrom hdigits with hnone | hdigit
      · cases hnone
      · omega

theorem takes_takeForm (form : Bytes) : Takes NotEnd 0 (takeForm form) := by
  rw [takeForm_eq]
  refine takes_lookAhead_bind fun bs r hheld => ?_
  split
  · next hform =>
      rw [eq_of_beq hform] at hheld
      exact (took_consume_pure true hheld).le (Nat.zero_le _)
  · exact Step.Takes.pure false r

/-- A form that is taken is gone. -/
theorem length_remaining_of_takeForm {form : Bytes}
    (h : takeForm form r = (.ok true, after)) :
    after.remaining.length + form.length ≤ r.remaining.length := by
  rw [takeForm_eq] at h
  obtain ⟨bs, mid, hlook, htake⟩ := Step.bind_eq_ok.mp h
  have hrem := remaining_lookAhead form.length r
  rw [hlook] at hrem
  have hheld := length_le_buffer_of_lookAhead hlook
  split at htake
  · next hform =>
      rw [eq_of_beq hform] at hheld
      cases htake
      exact hrem ▸ (took_consume hheld).price () rfl
  · cases htake

theorem takes_orForm {k : Nat} {form : Bytes} {A B : Read α}
    (hA : Takes NotEnd k A) (hB : Takes NotEnd n B)
    (hkn : n ≤ form.length + k) :
    Takes NotEnd n (takeForm form >>= fun found =>
      if found = true then A else B) :=
  Step.Takes.orForm (takes_takeForm form)
    (fun _ _ => length_remaining_of_takeForm) hA hB hkn

theorem badCountInstead_notEnd {f : Fault} (h : NotEnd f) :
    NotEnd (badCountInstead f) := by
  unfold badCountInstead
  split
  · exact nofun
  · exact h

theorem takes_countedHeader (a : Aggregate) :
    Takes NotEnd 4 (expect (.aggregate a) >>= fun _ =>
      number.mapFault badCountInstead >>= fun n =>
        if n < 0 then Step.violate .badCount
        else pure (Length.known n.toNat)) := by
  refine (takes_expect _).bind fun _ =>
    (takes_number.mapFault fun _ => badCountInstead_notEnd).bind fun n => ?_
  split
  · exact .fail nofun
  · exact .pure _

theorem takes_header (a : Aggregate) : Takes NotEnd 4 (header a) := by
  have hlength : (Kind.aggregate a).streamHeader.length = 4 := rfl
  exact takes_orForm (Step.Takes.pure Length.streamed) (takes_countedHeader a)
    (by omega)

end Reader

namespace Gather

open Fault (NotEnd)
open Reader (took_consume took_fail)
open Step (Took)

variable {α : Type} {faults : Fault → Prop} {k n : Nat}

/-- A read that takes at least `n` octets for an answer, whatever it gathers. -/
abbrev Takes (faults : Fault → Prop) (n : Nat) (m : Gather α) : Prop :=
  Step.Takes (fun d => d.reader.remaining) faults n m

/-- What a read of the reader of a draft answers, and that it gathers
nothing. -/
theorem ofRead_eq_ok {m : Read α} {d after : Draft} {a : α} :
    ofRead m d = (.ok a, after) ↔
      m d.reader = (.ok a, after.reader) ∧ after.gathered = d.gathered := by
  obtain ⟨r, g⟩ := after
  rw [ofRead]
  cases m d.reader with
  | mk result s =>
      simp only [Prod.mk.injEq, Draft.mk.injEq, and_assoc]
      rw [eq_comm (a := g)]

theorem takes_ofRead {m : Read α} (hm : Reader.Takes faults n m) :
    Takes faults n (ofRead m) :=
  fun d => hm d.reader

theorem takes_collected {m : Gather α} (hm : Takes faults n m) :
    Reader.Takes faults n m.collected := by
  intro r
  have hx := hm ⟨r, []⟩
  unfold collected
  generalize m ⟨r, []⟩ = x at hx
  obtain ⟨result, after⟩ := x
  cases result with
  | ok a => exact .ok hx.suffix (hx.price a rfl)
  | error f => exact .error hx.suffix (hx.fault f rfl)

theorem takes_dropped {m : Gather α} (hm : Takes faults n m) :
    Reader.Takes faults n m.dropped :=
  (takes_collected hm).bind_pure _

theorem takes_atomically {m : Gather α} (hm : Takes faults n m) :
    Takes faults n (atomically m) := by
  intro d
  have hx := hm d
  unfold atomically
  generalize m d = x at hx
  obtain ⟨result, after⟩ := x
  cases result with
  | ok a => exact .ok hx.suffix (hx.price a rfl)
  | error f => exact .error hx.suffix (hx.fault f rfl)

theorem takes_orForm {form : Bytes} {A B : Gather α} (hA : Takes NotEnd k A)
    (hB : Takes NotEnd n B) (hkn : n ≤ form.length + k) :
    Takes NotEnd n
      (ofRead (Reader.takeForm form) >>= fun found =>
        if found = true then A else B) := by
  refine Step.Takes.orForm (takes_ofRead (Reader.takes_takeForm form)) ?_
    hA hB hkn
  exact fun d after htake =>
    Reader.length_remaining_of_takeForm (ofRead_eq_ok.mp htake).1

/-! ## Lines and bodies -/

/-- What is done with the octets that turned out to be held. -/
theorem took_held_bind {d : Draft} {f : Bytes → Gather α}
    (hf : ∀ bs after, after.reader.buffer = bs →
      after.reader.remaining = d.reader.remaining →
      Took NotEnd n after.reader.remaining (f bs after).1
        (f bs after).2.reader.remaining) :
    Took NotEnd n d.reader.remaining ((ofRead Reader.held >>= f) d).1
      ((ofRead Reader.held >>= f) d).2.reader.remaining := by
  refine Took.bind (v := fun d : Draft => d.reader.remaining)
    (takes_ofRead Reader.takes_held d)
    fun bs after h => ?_
  have hheld := (ofRead_eq_ok.mp h).1
  have hrem := Reader.remaining_held d.reader
  rw [hheld] at hrem
  exact hf bs after (Reader.eq_buffer_of_held hheld).symm hrem

/-- What is done behind a portion of what is held. -/
theorem took_portion {portion : Bytes} {m : Gather α} {d : Draft}
    (hlength : portion.length ≤ d.reader.buffer.length) (hm : ∀ after : Draft,
      after.reader.remaining.length + portion.length =
        d.reader.remaining.length →
      Took NotEnd (n - portion.length) after.reader.remaining (m after).1
      (m after).2.reader.remaining) :
    Took NotEnd n d.reader.remaining
      ((ofRead (Reader.consume portion.length) >>= fun _ =>
        push portion >>= fun _ => m) d).1
      ((ofRead (Reader.consume portion.length) >>= fun _ =>
        push portion >>= fun _ => m) d).2.reader.remaining := by
  refine Took.bind (v := fun d : Draft => d.reader.remaining)
    (took_consume hlength)
    fun _ after hafter => hm ⟨after.reader, after.gathered ++ portion⟩ ?_
  cases hafter
  show (Reader.consume portion.length d.reader).2.remaining.length + _ = _
  rw [Reader.remaining_consume hlength, List.length_drop, Reader.remaining,
    List.length_append]
  omega

theorem takes_bodyFrom (missing : Nat) : Takes NotEnd 0 (bodyFrom missing) := by
  induction missing using Nat.strongRecOn with
  | ind missing ih =>
      intro d
      by_cases hzero : missing = 0
      · rw [bodyFrom, dif_pos hzero]
        exact .ok List.suffix_rfl (Nat.le_refl _)
      · rw [bodyFrom_eq hzero]
        refine took_held_bind fun bs d hbuffer _ => ?_
        cases bs with
        | nil => exact took_fail (Fault.notEnd_violation _)
        | cons b bs =>
            have hlength : ((b :: bs).take missing).length ≤
                d.reader.buffer.length := by
              rw [hbuffer]
              exact List.length_take_le' missing (b :: bs)
            refine took_portion hlength fun after _ =>
              (ih _ ?_ after).le (Nat.le_of_eq ?_)
            · simp only [List.length_take, List.length_cons]
              omega
            · exact Nat.zero_sub _

/-- Settling a line takes nothing more, and no line is shorter than its end. -/
theorem took_settleLine (total : Nat) (d : Draft) :
    Took NotEnd (2 - total) d.reader.remaining (settleLine total d).1
      (settleLine total d).2.reader.remaining := by
  rw [settleLine_apply]
  split
  · next hend => exact .ok List.suffix_rfl (by simp only; omega)
  · exact .error List.suffix_rfl nofun

theorem eq_of_checkSize {size : Nat} {u : Unit} {d after : Draft}
    (h : ofRead (Reader.checkSize size) d = (.ok u, after)) : after = d := by
  rw [ofRead, Reader.checkSize_apply] at h
  cases hfault : Reader.sizeFault? d.reader.options size <;>
    rw [hfault] at h <;> cases h
  rfl

theorem length_remaining_lt_of_held {n : Nat} {d after : Draft} {b : UInt8}
    {bs : Bytes} (hn : 0 < n)
    (h : ofRead Reader.held d = (.ok (b :: bs), after)) :
    (Reader.consume n after.reader).2.remaining.length <
      d.reader.remaining.length :=
  Reader.length_remaining_lt_of_held hn (ofRead_eq_ok.mp h).1

theorem takes_lineFrom (taken : Nat) :
    Takes NotEnd (2 - taken) (lineFrom taken) := by
  intro d
  induction hn : d.reader.remaining.length using Nat.strongRecOn
      generalizing d taken with
  | ind size ih =>
      rw [lineFrom_eq]
      refine took_held_bind fun bs d' hbuffer hrem => ?_
      cases bs with
      | nil => exact took_fail nofun
      | cons b bs =>
          have hpos := Reader.length_throughLineFeed_cons_pos b bs
          have hlength : (Reader.throughLineFeed (b :: bs)).length ≤
              d'.reader.buffer.length := by
            rw [hbuffer]
            exact (Reader.throughLineFeed_prefix _).length_le
          simp only
          generalize Reader.throughLineFeed (b :: bs) = portion at hpos hlength
          refine Took.bind (v := fun d : Draft => d.reader.remaining)
            (takes_ofRead (Reader.takes_checkSize _) d') fun _ after hafter =>
              ?_
          obtain rfl := eq_of_checkSize hafter
          refine took_portion hlength fun later hlater => ?_
          rw [hrem] at hlater
          have howed : 2 - taken - 0 - portion.length =
              2 - (taken + portion.length) := by omega
          rw [howed]
          split
          · exact took_settleLine _ later
          · exact ih _ (by omega) _ later rfl

theorem takes_line : Takes NotEnd 2 line := takes_lineFrom 0

theorem takes_counted (k : Kind) : Takes NotEnd 6 (counted k) := by
  refine (takes_ofRead (Reader.takes_expect k)).bind fun _ =>
    (takes_ofRead Reader.takes_number).bind fun n => ?_
  split
  · exact .fail nofun
  · have hbody : Takes NotEnd 2 (body n.toNat) :=
      (takes_ofRead (Reader.takes_checkSize _)).bind fun _ =>
        (takes_bodyFrom _).bind fun _ => takes_ofRead Reader.takes_lineEnd
    exact hbody.bind_pure _

/-! ## Octets for a destination -/

theorem takes_blob (role : Role) : Takes NotEnd 4 (blob role) := by
  have hlength : (Kind.blob role).streamHeader.length = 4 := rfl
  exact takes_atomically (takes_orForm (.pure Length.streamed)
    ((takes_counted _).le (by decide) |>.bind_pure _) (by omega))

theorem takes_chunk : Takes NotEnd 4 chunk :=
  takes_orForm (.pure true)
    ((takes_atomically (takes_counted _)).le (by decide) |>.bind_pure _)
    (by decide)

theorem takes_chunk? : Takes NotEnd 4 chunk? := by
  refine takes_chunk.bind fun last => ?_
  split <;> exact .pure _

theorem takes_chunks : Takes NotEnd 4 chunks :=
  takes_atomically ((takes_ofRead Reader.takes_remainingLength).bind fun _ =>
    (takes_chunk?.collect _).bind_pure _)

theorem takes_simple (role : Role) : Takes NotEnd 3 (simple role) :=
  takes_atomically ((takes_ofRead (Reader.takes_expect _)).bind fun _ =>
    takes_line)

theorem takes_verbatim : Takes NotEnd 6 verbatim := by
  have hmark : Takes NotEnd 0 mark :=
    fun _ => .ok List.suffix_rfl (Nat.le_refl _)
  have hsince : ∀ start, Takes NotEnd 0 (since start) :=
    fun _ _ => .ok List.suffix_rfl (Nat.le_refl _)
  have hcutBack : ∀ length, Takes NotEnd 0 (cutBack length) :=
    fun _ _ => .ok List.suffix_rfl (Nat.le_refl _)
  have hpush : ∀ octets, Takes NotEnd 0 (push octets) :=
    fun _ _ => .ok List.suffix_rfl (Nat.le_refl _)
  refine takes_atomically
    (hmark.bind fun start => (takes_counted _).bind fun _ =>
      (hsince start).bind fun octets => ?_)
  match octets with
  | [] | [_] | [_, _] | [_, _, _] => exact .fail nofun
  | a :: b :: c :: separator :: text =>
      simp only
      split
      · exact (hcutBack start).bind fun _ => (hpush text).bind fun _ => .pure _
      · exact .fail nofun

end Gather

namespace Reader

open Fault (NotEnd)
open Step (Took)

variable {α : Type} {faults : Fault → Prop} {n : Nat} {r after : Reader}

/-! ## Typed reads -/

theorem takes_boolean : Takes NotEnd 4 boolean := by
  refine (takes_expect _).bind fun _ => takes_lookAhead_bind fun bs r hheld =>
    ?_
  match bs with
  | [] | [_] | [_, _] | _ :: _ :: _ :: _ :: _ => exact took_fail nofun
  | [x, y, z] =>
      simp only
      split
      · split
        · exact took_consume_pure _ hheld
        · exact took_fail nofun
      · exact took_fail nofun

theorem takes_integer : Takes NotEnd 4 integer :=
  (takes_expect _).bind fun _ => takes_number.bind_pure _

theorem takes_close : Takes NotEnd 3 close :=
  (takes_expect _).bind fun _ => takes_lineEnd

theorem takes_earlierNull? (k : Kind) : Takes NotEnd 0 (earlierNull? k) := by
  unfold earlierNull?
  split
  · exact .pure none
  · refine (takes_lookAhead 2).attempt.bind fun first? => ?_
    split
    · split
      · exact (takes_lookAhead _).attempt.bind_pure _
      · exact .pure none
    · exact .pure none

/-- A null of the earlier protocol version that is found is held. -/
theorem held_of_earlierNull? {k : Kind} {form : Bytes}
    (h : earlierNull? k r = (.ok (some form), after)) :
    k.earlierNull? = some form ∧ form.length ≤ after.buffer.length := by
  cases hk : k.earlierNull? with
  | none =>
      simp only [earlierNull?, hk] at h
      cases h
  | some known =>
      simp only [earlierNull?, hk] at h
      obtain ⟨first?, mid, -, hlater⟩ := Step.bind_eq_ok.mp h
      split at hlater
      · split at hlater
        · obtain ⟨next?, last, hnext, hfound⟩ := Step.bind_eq_ok.mp hlater
          split at hfound
          · next hform =>
              cases hfound
              rw [hform] at hnext
              exact ⟨rfl, length_le_buffer_of_lookAhead
                (Step.attempt_eq_some.mp hnext)⟩
          · cases hfound
        · cases hlater
      · cases hlater

theorem takes_null : Takes NotEnd 3 null := by
  have hlead : Takes NotEnd 0 (peekLead.mapFault (noValueInstead .null)) :=
    takes_peekLead.mapFault fun f _ => notEnd_noValueInstead _ f
  refine hlead.bind fun k r =>
    (takes_earlierNull? k r).bind fun form? after hnull => ?_
  cases form? with
  | none => exact ((takes_expect .null).bind fun _ => takes_lineEnd) after
  | some form =>
      obtain ⟨hform, hheld⟩ := held_of_earlierNull? hnull
      have hlength := Kind.length_of_earlierNull? hform
      exact (took_consume hheld).le (by omega)

theorem doubleLine_notEnd {text : Bytes} {f : Fault}
    (h : doubleLine text = .error f) :
    NotEnd f := by
  unfold doubleLine at h
  split at h
  · cases h
    exact nofun
  · split at h
    · cases h
    · cases h
      exact nofun

theorem bigNumberLine_notEnd {text : Bytes} {f : Fault}
    (h : bigNumberLine text = .error f) :
    NotEnd f := by
  unfold bigNumberLine at h
  split at h
  · cases h
    exact nofun
  · simp only at h
    split at h
    · cases h
      exact nofun
    · cases h

theorem takes_lineOf (k : Kind) {settle : Bytes → Except Fault α}
    (hsettle : ∀ text f, settle text = .error f → NotEnd f) :
    Takes NotEnd 3 (lineOf k settle) := by
  refine (takes_expect k).bind fun _ =>
    (Gather.takes_collected Gather.takes_line).bind fun x r => ?_
  obtain ⟨u, text⟩ := x
  exact ⟨List.suffix_rfl, fun _ _ => Nat.le_refl _,
    fun f hf => hsettle text f hf⟩

theorem takes_double : Takes NotEnd 3 double :=
  takes_lineOf _ fun _ _ => doubleLine_notEnd

theorem takes_bigNumber : Takes NotEnd 3 bigNumber :=
  takes_lineOf _ fun _ _ => bigNumberLine_notEnd

end Reader

end RespWire

import RespWire.Proofs.Calm
import RespWire.Proofs.Lockstep
import RespWire.Reader.Framing

/-!
# Readers that have the same octets to come

Two calm readers are alike when they have the same limits and the same octets
to come. What they hold of these octets, how the rest will arrive and how much
they ask for at a time may differ. Here every part that values are made of is
shown to be steady: it cannot tell alike readers apart.

The one part that can is a line that is longer than the limit. It is refused
as soon as the portions that have come in exceed the limit, so how much of the
line was taken by then, and which size is reported, depends on the portions.
`StopsInLine` says what remains true of each refusal, and `ApartInLine` that
two of them belong to one line. Such a line starts behind the first octet of a
simple value, a big number or a double; a body is refused behind the end of a
line, so no refusal of a body is a refusal in a line.
-/

namespace RespWire

/-- Whether values of the kind are a line of any length. -/
def Kind.onLine : Kind → Bool
  | .simple _ | .bigNumber | .double => true
  | _ => false

namespace Reader

/-- A read refused inside a line that exceeds the limit: the size reported is
above the limit and at most that of the line, and the octets taken are within
the limit, with two more for the end of the line. -/
structure StopsInLine (line : Bytes) (limit : Nat) (e : Fault) (after : Bytes) :
    Prop where
  fault : ∃ size, e = .violation (.tooLarge size limit) ∧ limit < size ∧
    size + 2 ≤ (throughLineFeed line).length
  after : ∃ taken, after = line.drop taken ∧ taken ≤ limit + 2

/-- Two reads from `before` refused inside the same line, each after as much of
it as it had seen. -/
def ApartInLine (before : Bytes) (e : Fault) (after : Bytes) (e' : Fault)
    (after' : Bytes) :
    Prop :=
  ∃ (k : Kind) (line : Bytes) (limit : Nat), k.onLine = true ∧
    k.lead :: line <:+ before ∧
    StopsInLine line limit e after ∧ StopsInLine line limit e' after'

theorem ApartInLine.of_suffix {s t : Bytes} {e e' : Fault}
    {after after' : Bytes} (h : t <:+ s)
    (ht : ApartInLine t e after e' after') :
    ApartInLine s e after e' after' := by
  obtain ⟨k, line, limit, hk, hline, hstops⟩ := ht
  exact ⟨k, line, limit, hk, hline.trans h, hstops⟩

theorem ApartInLine.tooLarge {s : Bytes} {e e' : Fault} {after after' : Bytes}
    (h : ApartInLine s e after e' after') :
    ∃ size size' limit, e = .violation (.tooLarge size limit) ∧
      e' = .violation (.tooLarge size' limit) := by
  obtain ⟨k, line, limit, hk, hline, ⟨⟨size, he, -⟩, -⟩, ⟨size', he', -⟩, -⟩ :=
    h
  exact ⟨size, size', limit, he, he'⟩

/-- Calm readers with the same limits and the same octets to come. -/
structure Alike (a b : Reader) : Prop where
  calm_left : a.feed.Calm
  calm_right : b.feed.Calm
  limits : a.options.limits = b.options.limits
  remaining : a.remaining = b.remaining

theorem Alike.symm {a b : Reader} (h : Alike a b) : Alike b a :=
  ⟨h.calm_right, h.calm_left, h.limits.symm, h.remaining.symm⟩

theorem Alike.ahead {a b a' b' : Reader} (h : Alike a b) (ha : Ahead a a')
    (hb : Ahead b b') :
    Alike a' b' :=
  ⟨ha.calm, hb.calm, by rw [ha.options, hb.options, h.limits],
    by rw [ha.remaining, hb.remaining, h.remaining]⟩

/-- Alike readers pass for the same, and a read leaves a tail of what was to
come. -/
def lockstep : Lockstep Reader where
  same := Alike
  follows r after := after.remaining <:+ r.remaining
  apart r x y := ApartInLine r.remaining x.1 x.2.remaining y.1 y.2.remaining
  follows_refl _ := List.suffix_rfl
  follows_trans h h' := h'.trans h
  apart_of_follows h h' := h'.of_suffix h
  tooLarge_of_apart h := h.tooLarge

open Step (Agree Steady)

theorem agree_pure {a b : Reader} {α : Type} (x : α) (h : Alike a b) :
    Agree lockstep a ((pure x : Read α) a) ((pure x : Read α) b) :=
  .same h List.suffix_rfl

theorem agree_fail {a b : Reader} {α : Type} (e : Fault) (h : Alike a b) :
    Agree lockstep a ((Step.fail e : Read α) a) ((Step.fail e : Read α) b) :=
  .same h List.suffix_rfl

/-! ## Looking ahead

A step that looks ahead and then takes some of what it saw is steady. The look
ahead alone is not enough to say so, since taking depends on what is held: both
readers have to hold what was seen. -/

/-- Alike readers that both hold the octets `bs`. -/
structure BothHold (bs : Bytes) (a b : Reader) : Prop where
  alike : Alike a b
  left : bs <+: a.buffer
  right : bs <+: b.buffer

theorem lookAhead_alike (n : Nat) {a b : Reader} (h : Alike a b) :
    ∃ a' b', lookAhead n a = (.ok (a.remaining.take n), a') ∧
      lookAhead n b = (.ok (a.remaining.take n), b') ∧
      BothHold (a.remaining.take n) a' b' ∧ a'.remaining = a.remaining := by
  obtain ⟨a', ha, haahead, hatake⟩ := lookAhead_calm n h.calm_left
  obtain ⟨b', hb, hbahead, hbtake⟩ := lookAhead_calm n h.calm_right
  rw [← h.remaining] at hb hbtake
  exact ⟨a', b', ha, hb,
    ⟨h.ahead haahead hbahead, hatake ▸ List.take_prefix n _,
      hbtake ▸ List.take_prefix n _⟩, haahead.remaining⟩

theorem steady_lookAhead_bind {α : Type} {n : Nat} {f : Bytes → Read α}
    (hf : ∀ bs a b, BothHold bs a b → Agree lockstep a (f bs a) (f bs b)) :
    Steady lockstep (lookAhead n >>= f) := by
  intro a b h
  obtain ⟨a', b', ha, hb, hhold, hrem⟩ := lookAhead_alike n h
  rw [Step.bind_of_ok ha, Step.bind_of_ok hb]
  exact .of_follows (l := lockstep)
    (show a'.remaining <:+ a.remaining from hrem ▸ List.suffix_rfl)
    (hf _ a' b' hhold)

theorem BothHold.consume {bs : Bytes} {a b : Reader} {n : Nat}
    (h : BothHold bs a b) (hn : n ≤ bs.length) :
    Alike (consume n a).2 (consume n b).2 ∧
      (consume n a).2.remaining = a.remaining.drop n := by
  obtain ⟨hca, hoa, hra⟩ :=
    consume_calm h.alike.calm_left (Nat.le_trans hn h.left.length_le)
  obtain ⟨hcb, hob, hrb⟩ :=
    consume_calm h.alike.calm_right (Nat.le_trans hn h.right.length_le)
  refine ⟨⟨hca, hcb, ?_, ?_⟩, hra⟩
  · rw [hoa, hob, h.alike.limits]
  · rw [hra, hrb, h.alike.remaining]

theorem agree_consume {bs : Bytes} {a b : Reader} {n : Nat}
    (h : BothHold bs a b) (hn : n ≤ bs.length) :
    Agree lockstep a (consume n a) (consume n b) := by
  obtain ⟨halike, hrem⟩ := h.consume hn
  refine Agree.same (l := lockstep) halike ?_
  show (consume n a).2.remaining <:+ a.remaining
  rw [hrem]
  exact List.drop_suffix n _

theorem steady_takeForm (form : Bytes) : Steady lockstep (takeForm form) := by
  rw [takeForm_eq]
  refine steady_lookAhead_bind fun bs a b h => ?_
  split
  · next hform =>
      exact (agree_consume h (Nat.le_of_eq (by rw [eq_of_beq hform]))).bind
        fun _ _ _ hsame _ => agree_pure true hsame
  · exact agree_pure false h.alike

theorem steady_lineEnd : Steady lockstep lineEnd := by
  refine steady_lookAhead_bind fun bs a b h => ?_
  split
  · next hcrlf =>
      exact agree_consume h (Nat.le_of_eq (by rw [hcrlf, Bytes.length_crlf]))
  · split
    · exact agree_fail _ h.alike
    · exact agree_fail _ h.alike

theorem steady_minusSign : Steady lockstep minusSign := by
  refine steady_lookAhead_bind fun bs a b h => ?_
  cases bs with
  | nil => exact agree_fail _ h.alike
  | cons c bs =>
      simp only
      split
      · exact (agree_consume h (Nat.le_add_left ..)).bind
          fun _ _ _ hsame _ => agree_pure true hsame
      · exact agree_pure false h.alike

/-- The first octet of a value is taken by both readers or by none. -/
theorem expect_alike (k : Kind) {a b : Reader} (h : Alike a b) :
    (∃ a' b', expect k a = (.ok (), a') ∧ expect k b = (.ok (), b') ∧
      Alike a' b' ∧ a.remaining = k.lead :: a'.remaining) ∨
    (∃ e a' b', expect k a = (.error e, a') ∧ expect k b = (.error e, b') ∧
      Alike a' b' ∧ a'.remaining = a.remaining) := by
  obtain ⟨a', b', ha, hb, hhold, hrem⟩ := lookAhead_alike 1 h
  simp only [expect, peekLead, Step.bind_apply, Step.mapFault, ha, hb]
  cases hs : a.remaining with
  | nil => exact Or.inr ⟨_, a', b', rfl, rfl, hhold.alike, hrem.trans hs⟩
  | cons c rest =>
      rw [hs] at hhold
      cases hk : Kind.ofLead? c with
      | none =>
          refine Or.inr
            ⟨.violation (.unknownKind c), a', b', ?_, ?_, hhold.alike,
              hrem.trans hs⟩ <;>
            simp [hk, Step.violate, Step.fail, noValueInstead]
      | some got =>
          by_cases hgot : got = k
          · obtain ⟨halike, hrest⟩ := hhold.consume (Nat.le_refl 1)
            refine Or.inl
              ⟨(consume 1 a').2, (consume 1 b').2, ?_, ?_, halike, ?_⟩
            · simp [hk, hgot, Step.pure_apply, consume]
            · simp [hk, hgot, Step.pure_apply, consume]
            · rw [hrest, hrem, hs, ← hgot, Kind.lead_of_ofLead? hk]
              rfl
          · refine Or.inr
              ⟨.violation (.unexpectedKind k got), a', b', ?_, ?_, hhold.alike,
                hrem.trans hs⟩ <;>
              simp [hk, hgot, Step.pure_apply, Step.violate, Step.fail]

theorem steady_expect (k : Kind) : Steady lockstep (expect k) := by
  intro a b h
  rcases expect_alike k h with ⟨a', b', ha, hb, halike, hrem⟩ |
    ⟨e, a', b', ha, hb, halike, hrem⟩
  · rw [ha, hb]
    exact .same halike
      (show a'.remaining <:+ a.remaining from hrem ▸ List.suffix_cons _ _)
  · rw [ha, hb]
    exact .same halike
      (show a'.remaining <:+ a.remaining from hrem ▸ List.suffix_rfl)

/-! ## Numbers and headers -/

theorem steady_digitsFrom (negative : Bool) (before : Option Int) :
    Steady lockstep (digitsFrom negative before) := by
  intro a b h
  generalize hn : a.remaining.length = n
  induction n using Nat.strongRecOn generalizing before a b with
  | _ n ih =>
      obtain ⟨a', b', ha, hb, hhold, hrem⟩ := lookAhead_alike 1 h
      have hstay : lockstep.follows a a' :=
        show a'.remaining <:+ a.remaining from
        hrem ▸ List.suffix_rfl
      rw [digitsFrom_apply, digitsFrom_apply, ha, hb]
      cases hs : a.remaining with
      | nil => exact .same hhold.alike hstay
      | cons c rest =>
          rw [hs] at hhold hn
          simp only [List.take_succ_cons, List.take_zero]
          split
          · split
            · obtain ⟨halike, hrest⟩ := hhold.consume (Nat.le_refl 1)
              rw [hrem, hs, List.drop_succ_cons, List.drop_zero] at hrest
              refine .of_follows ?_
                (ih rest.length ?_ _ _ _ halike (by rw [hrest]))
              · show (consume 1 a').2.remaining <:+ a.remaining
                rw [hrest, hs]
                exact List.suffix_cons c rest
              · rw [← hn]
                exact Nat.lt_succ_self _
            · exact .same hhold.alike hstay
          · split
            · exact .same hhold.alike hstay
            · exact .same hhold.alike hstay

theorem steady_number : Steady lockstep number := by
  refine steady_minusSign.bind fun negative => ?_
  refine (steady_digitsFrom negative none).bind fun n? => ?_
  refine steady_lineEnd.bind fun _ => ?_
  cases n? with
  | none => exact .fail _
  | some n => exact .pure n

theorem sizeFault?_congr {o o' : Options} (h : o.limits = o'.limits)
    (size : Nat) :
    sizeFault? o size = sizeFault? o' size := by
  rw [sizeFault?, sizeFault?, show o.effectiveLimit? = o'.effectiveLimit? from
    congrArg Limits.size? h]

theorem steady_checkSize (size : Nat) : Steady lockstep (checkSize size) := by
  intro a b h
  simp only [checkSize, getOptions, Step.bind_apply, sizeFault?_congr h.limits]
  cases sizeFault? b.options size with
  | some f => exact agree_fail f h
  | none => exact agree_pure () h

theorem steady_remainingLength : Steady lockstep remainingLength := by
  intro a b h
  rw [remainingLength, remainingLength, h.remaining]
  exact .same h List.suffix_rfl

theorem steady_header (a : Aggregate) : Steady lockstep (header a) := by
  refine (steady_takeForm _).bind fun streamed => ?_
  split
  · exact .pure _
  · refine (steady_expect _).bind fun _ => ?_
    refine Steady.bind (steady_number.mapFault fun _ _ => rfl) fun n => ?_
    split
    · exact .fail _
    · exact .pure _

end Reader

/-! ## Reads that gather -/

namespace Draft

/-- Alike readers with the same octets gathered. -/
structure Alike (d e : Draft) : Prop where
  reader : Reader.Alike d.reader e.reader
  gathered : d.gathered = e.gathered

/-- As for readers; and a read that gathers leaves what was gathered before. -/
def lockstep : Lockstep Draft where
  same := Alike
  follows d after := after.reader.remaining <:+ d.reader.remaining ∧
    d.gathered <+: after.gathered
  apart d x y :=
    Reader.ApartInLine d.reader.remaining x.1 x.2.reader.remaining y.1
      y.2.reader.remaining ∧
      d.gathered <+: x.2.gathered ∧ d.gathered <+: y.2.gathered
  follows_refl _ := ⟨List.suffix_rfl, List.prefix_rfl⟩
  follows_trans h h' := ⟨h'.1.trans h.1, h.2.trans h'.2⟩
  apart_of_follows h h' :=
    ⟨h'.1.of_suffix h.1, h.2.trans h'.2.1, h.2.trans h'.2.2⟩
  tooLarge_of_apart h := h.1.tooLarge

end Draft

namespace Gather

open Step (Agree Steady)

theorem steady_ofRead {α : Type} {m : Read α} (hm : Steady Reader.lockstep m) :
    Steady Draft.lockstep (ofRead m) := by
  intro d e h
  have hx := hm d.reader e.reader h.reader
  simp only [ofRead]
  generalize m d.reader = x at hx
  generalize m e.reader = y at hx
  cases hx with
  | same hsame hfollows =>
      exact Agree.same (l := Draft.lockstep) ⟨hsame, h.gathered⟩
        ⟨hfollows, List.prefix_rfl⟩
  | apart hapart =>
      exact Agree.apart (l := Draft.lockstep)
        ⟨hapart, List.prefix_rfl, h.gathered ▸ List.prefix_rfl⟩

theorem steady_collected {α : Type} {m : Gather α}
    (hm : Steady Draft.lockstep m) :
    Steady Reader.lockstep m.collected := by
  intro a b h
  have hx := hm ⟨a, []⟩ ⟨b, []⟩ ⟨h, rfl⟩
  simp only [collected]
  generalize m ⟨a, []⟩ = x at hx
  generalize m ⟨b, []⟩ = y at hx
  cases hx with
  | @same result d e hsame hfollows =>
      cases result with
      | ok x =>
          simp only [hsame.gathered]
          exact Agree.same (l := Reader.lockstep) hsame.reader hfollows.1
      | error e =>
          exact Agree.same (l := Reader.lockstep) hsame.reader hfollows.1
  | apart hapart => exact Agree.apart (l := Reader.lockstep) hapart.1

theorem steady_dropped {α : Type} {m : Gather α}
    (hm : Steady Draft.lockstep m) :
    Steady Reader.lockstep m.dropped :=
  (steady_collected hm).bind fun _ => .pure _

theorem steady_atomically {α : Type} {m : Gather α}
    (hm : Steady Draft.lockstep m) :
    Steady Draft.lockstep (atomically m) := by
  intro d e h
  have hx := hm d e h
  simp only [atomically]
  generalize m d = x at hx
  generalize m e = y at hx
  cases hx with
  | @same result d' e' hsame hfollows =>
      cases result with
      | ok x => exact .same hsame hfollows
      | error f =>
          simp only [← h.gathered, ← hsame.gathered]
          refine Agree.same (l := Draft.lockstep) ⟨hsame.reader, rfl⟩
            ⟨hfollows.1, ?_⟩
          exact List.prefix_take_iff.mpr ⟨hfollows.2, Nat.le_refl _⟩
  | apart hapart =>
      refine Agree.apart (l := Draft.lockstep) ⟨hapart.1, ?_, ?_⟩
      · exact List.prefix_take_iff.mpr ⟨hapart.2.1, Nat.le_refl _⟩
      · rw [← h.gathered]
        exact List.prefix_take_iff.mpr ⟨hapart.2.2, Nat.le_refl _⟩

end Gather

end RespWire

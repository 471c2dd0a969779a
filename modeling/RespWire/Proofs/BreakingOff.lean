import RespWire.Proofs.Accepts

/-!
# Words that break off

What a step does where the input ends inside a word of its language. It should
say that the input was cut, and every step does, with one exception: the header
of a stream is recognised as a whole, so one that is cut is taken for a header
with a number, and its question mark for a digit that is none. `BreaksOff` is
what may be reported, and it depends on the octets that came before the end.

`StopsShort` goes with `Accepts` and is closed under the same ways of joining
steps. The one rule that needs more than its counterpart is that for a fixed
form: a form that breaks off is not recognised, so the other step meets it.
-/

namespace RespWire

/-- The octets end in the header of a stream of the kind, behind its mark. -/
def EndsInHeader (p : Bytes) (k : Kind) : Prop :=
  k.streamHeader.take 2 <:+ p ∨ k.streamHeader.take 3 <:+ p

/-- The faults of octets that break off. -/
inductive BreaksOff (p : Bytes) : Fault → Prop where
  | cut (c : Cut) : BreaksOff p (.cut c)
  | count {a : Aggregate} (h : EndsInHeader p (.aggregate a)) :
      BreaksOff p (.violation .badCount)
  | digit {role : Role} (h : EndsInHeader p (.blob role)) :
      BreaksOff p (.violation (.badDigit '?'.toUInt8))

theorem BreaksOff.append {p : Bytes} {f : Fault} (h : BreaksOff p f)
    (u : Bytes) :
    BreaksOff (u ++ p) f := by
  have hends : ∀ {k : Kind}, EndsInHeader p k → EndsInHeader (u ++ p) k :=
    fun h => h.imp (·.trans (List.suffix_append u p))
      (·.trans (List.suffix_append u p))
  cases h with
  | cut c => exact .cut c
  | count h => exact .count (hends h)
  | digit h => exact .digit (hends h)

namespace Step

variable {σ α β : Type} {hold : Bytes → Bytes → σ}

/-- A step fails for the end of the input wherever a word of `L` breaks off. -/
def StopsShort (hold : Bytes → Bytes → σ) (m : Step σ α)
    (L : Bytes → α → Bytes → Prop) : Prop :=
  ∀ p t g a q, t ≠ [] → L (p ++ t) a q →
    ∃ f after, m (hold p g) = (.error f, after) ∧ BreaksOff p f

theorem StopsShort.mono {m : Step σ α} {L M : Bytes → α → Bytes → Prop}
    (h : StopsShort hold m M) (hL : ∀ w a q, L w a q → ∃ a' q', M w a' q') :
    StopsShort hold m L := by
  intro p t g a q ht hw
  obtain ⟨a', q', hw'⟩ := hL _ _ _ hw
  exact h p t g a' q' ht hw'

theorem StopsShort.or {m : Step σ α} {L M : Bytes → α → Bytes → Prop}
    (hL : StopsShort hold m L) (hM : StopsShort hold m M) :
    StopsShort hold m fun w a q => L w a q ∨ M w a q :=
  fun p t g a q ht hw => hw.elim (hL p t g a q ht) (hM p t g a q ht)

/-- The empty word does not break off. -/
theorem StopsShort.of_nil {m : Step σ α} {L : Bytes → α → Bytes → Prop}
    (hL : ∀ w a q, L w a q → w = []) : StopsShort hold m L :=
  fun _ _ _ _ _ ht hw =>
    absurd (List.append_eq_nil_iff.mp (hL _ _ _ hw)).2 ht

/-- Two words one behind the other break off in the first or in the second. -/
theorem breaksOff_cases {p t u v : Bytes} (h : p ++ t = u ++ v) (ht : t ≠ []) :
    (∃ s, s ≠ [] ∧ p ++ s = u) ∨ ∃ s, p = u ++ s ∧ s ++ t = v := by
  rcases List.append_eq_append_iff.mp h with ⟨s, rfl, rfl⟩ | ⟨s, rfl, rfl⟩
  · cases s with
    | nil => exact Or.inr ⟨[], by simp, rfl⟩
    | cons b s => exact Or.inl ⟨b :: s, List.cons_ne_nil b s, rfl⟩
  · exact Or.inr ⟨s, rfl, rfl⟩

theorem StopsShort.bind {m : Step σ α} {f : α → Step σ β}
    {L : Bytes → α → Bytes → Prop} {M : α → Bytes → β → Bytes → Prop}
    (haccepts : Accepts hold m L) (hm : StopsShort hold m L)
    (hf : ∀ a, StopsShort hold (f a) (M a)) :
    StopsShort hold (m >>= f) fun w b r =>
      ∃ u t a p q, w = u ++ t ∧ r = p ++ q ∧ L u a p ∧ M a t b q := by
  intro p t g b r ht hw
  obtain ⟨u, v, a, x, y, hsplit, rfl, hL, hM⟩ := hw
  rcases breaksOff_cases hsplit ht with ⟨s, hs, rfl⟩ | ⟨s, rfl, rfl⟩
  · obtain ⟨e, after, hrun, he⟩ := hm p s g a x hs hL
    exact ⟨e, after, bind_of_error hrun, he⟩
  · have hrun := (haccepts (u ++ s) g a _).mpr ⟨u, s, x, rfl, rfl, hL⟩
    obtain ⟨e, after, hlater, he⟩ := hf a s t (g ++ x) b y ht hM
    exact ⟨e, after, by rw [bind_of_ok hrun, hlater], he.append u⟩

theorem StopsShort.bind_left {m : Step σ α} {L : Bytes → α → Bytes → Prop}
    (hm : StopsShort hold m L) (f : α → Step σ β) {M : Bytes → β → Bytes → Prop}
    (hM : ∀ w b q, M w b q → ∃ a q', L w a q') :
    StopsShort hold (m >>= f) M := by
  intro p t g b q ht hw
  obtain ⟨a, q', hL⟩ := hM _ _ _ hw
  obtain ⟨e, after, hrun, he⟩ := hm p t g a q' ht hL
  exact ⟨e, after, bind_of_error hrun, he⟩

theorem StopsShort.bind_pure {m : Step σ α} {L : Bytes → α → Bytes → Prop}
    (hm : StopsShort hold m L) (f : α → β) :
    StopsShort hold (m >>= fun a => Pure.pure (f a)) fun w b p =>
      ∃ a, b = f a ∧ L w a p :=
  hm.bind_left _ fun _ _ q hw => hw.imp fun _ h => ⟨q, h.2⟩

/-- A form that breaks off is left to the other step. -/
theorem StopsShort.orForm {form : Bytes} {take : Step σ Bool} {A B : Step σ α}
    {L M : Bytes → α → Bytes → Prop} (htake : ∀ s g, take (hold s g) =
      if form <+: s then (.ok true, hold (s.drop form.length) g)
      else (.ok false, hold s g))
    (hA : StopsShort hold A L) (hB : StopsShort hold B M)
    (hform : ∀ p t g, t ≠ [] → p ++ t = form →
      ∃ f after, B (hold p g) = (.error f, after) ∧ BreaksOff p f) :
    StopsShort hold (take >>= fun found => if found = true then A else B)
      fun w a p =>
        (∃ t, w = form ++ t ∧ L t a p) ∨ (M w a p ∧ ¬ form <+: w) := by
  intro p t g a q ht hw
  have hother : ¬ form <+: p →
      (take >>= fun found => if found = true then A else B) (hold p g) =
      B (hold p g) := by
    intro hnot
    have hs := htake p g
    rw [if_neg hnot] at hs
    rw [bind_of_ok hs, if_neg Bool.false_ne_true]
  obtain ⟨v, hsplit, hL⟩ | ⟨hM, hnot⟩ := hw
  · rcases breaksOff_cases hsplit ht with ⟨s, hs, hform'⟩ | ⟨s, rfl, rfl⟩
    · rw [hother fun hfront => ?_]
      · exact hform p s g hs hform'
      · have hlength := hfront.length_le
        have hpos := List.length_pos_iff.mpr hs
        rw [← hform', List.length_append] at hlength
        omega
    · have hs := htake (form ++ s) g
      rw [if_pos (List.prefix_append form s), List.drop_left] at hs
      obtain ⟨e, after, hrun, he⟩ := hA s t g a q ht hL
      exact ⟨e, after, by rw [bind_of_ok hs, if_pos rfl, hrun], he.append form⟩
  · rw [hother fun hfront => hnot (hfront.trans (List.prefix_append p t))]
    exact hB p t g a q ht hM

/-! ## Repetitions

Both go by the words that are repeated, and break off in the first of them or
behind it. -/

theorem StopsShort.times {m : Step σ α} {L : Bytes → α → Bytes → Prop}
    (haccepts : Accepts hold m L) (hm : StopsShort hold m L) (n : Nat) :
    StopsShort hold (m.times n) fun w as p =>
      as.length = n ∧ Repeated (fun w p => p = [] ∧ w = []) L w as p := by
  induction n with
  | zero =>
      refine .of_nil fun w as q hw => ?_
      obtain ⟨hlength, hrep⟩ := hw
      cases hrep with
      | last h => exact h.2
      | more h hlater => cases hlength
  | succ n ih =>
      refine (StopsShort.bind haccepts hm fun a => ih.bind_pure (a :: ·)).mono
        fun w as q hw => ?_
      obtain ⟨hlength, hrep⟩ := hw
      cases hrep with
      | last h => cases hlength
      | more h hlater =>
          exact ⟨_, _, _, _, _, _, _, rfl, rfl, h, _, rfl, Nat.succ.inj hlength,
            hlater⟩

/-- A loop whose turns take octets, with a budget that covers those to come. -/
theorem StopsShort.collect {m : Step σ (Option α)} {Last : Bytes → Bytes → Prop}
    {L : Bytes → α → Bytes → Prop}
    (haccepts : Accepts hold m fun w found p =>
      (found = none ∧ Last w p) ∨ ∃ a, found = some a ∧ L w a p)
    (hm : StopsShort hold m fun w found p =>
      (found = none ∧ Last w p) ∨ ∃ a, found = some a ∧ L w a p)
    (hne : ∀ w a p, L w a p → w ≠ []) {w : Bytes} {as : List α} {q : Bytes}
    (hw : Repeated Last L w as q) :
    ∀ (budget : Nat) (p t g : Bytes), p.length < budget → t ≠ [] → p ++ t = w →
      ∃ f after, m.collect budget (hold p g) = (.error f, after) ∧
        BreaksOff p f := by
  induction hw with
  | last h =>
      intro budget p t g hbudget ht hp
      cases budget with
      | zero => cases hbudget
      | succ budget =>
          obtain ⟨e, after, hrun, he⟩ :=
            hm p t g none _ ht (Or.inl ⟨rfl, hp ▸ h⟩)
          exact ⟨e, after, bind_of_error hrun, he⟩
  | @more u w x y a as h hlater ih =>
      intro budget p t g hbudget ht hp
      cases budget with
      | zero => cases hbudget
      | succ budget =>
          rcases breaksOff_cases hp ht with ⟨s, hs, rfl⟩ | ⟨s, rfl, hlast⟩
          · obtain ⟨e, after, hrun, he⟩ :=
              hm p s g (some a) x hs (Or.inr ⟨a, rfl, h⟩)
            exact ⟨e, after, bind_of_error hrun, he⟩
          · have hrun := (haccepts (u ++ s) g (some a) _).mpr
              ⟨u, s, x, rfl, rfl, Or.inr ⟨a, rfl, h⟩⟩
            have hshort : s.length < budget := by
              have := List.length_pos_iff.mpr (hne u a x h)
              rw [List.length_append] at hbudget
              omega
            obtain ⟨e, after, hrest, he⟩ :=
              ih budget s t (g ++ x) hshort ht hlast
            refine ⟨e, after, ?_, he.append u⟩
            rw [Step.collect, bind_of_ok hrun]
            exact bind_of_error hrest

theorem StopsShort.loop {m : Step σ (Option α)} {count : Step σ Nat}
    {Last : Bytes → Bytes → Prop} {L : Bytes → α → Bytes → Prop}
    (hcount : ∀ s g, count (hold s g) = (.ok s.length, hold s g))
    (haccepts : Accepts hold m fun w found p =>
      (found = none ∧ Last w p) ∨ ∃ a, found = some a ∧ L w a p)
 (hm : StopsShort hold m fun w found p =>
      (found = none ∧ Last w p) ∨ ∃ a, found = some a ∧ L w a p)
    (hne : ∀ w a p, L w a p → w ≠ []) :
    StopsShort hold (count >>= fun budget => m.collect (budget + 1))
      (Repeated Last L) := by
  intro p t g as q ht hw
  rw [bind_of_ok (hcount p g)]
  exact StopsShort.collect haccepts hm hne hw (p.length + 1) p t g
    (Nat.lt_succ_self _) ht rfl

end Step

end RespWire

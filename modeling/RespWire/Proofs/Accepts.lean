import RespWire.Proofs.Calm
import RespWire.Reader.Framing

/-!
# The language of a step

A reader that holds all there is, with nothing left to arrive, is the plainest
of the readers with given octets to come. On such readers a step has a
language: the words on which it succeeds, each with an answer and with the
octets it gathers. `Accepts` says that a step succeeds just on the words of a
language, takes just the word and leaves whatever follows it. It is an
equivalence, so a language says both what is read and what is refused.

Languages are put together as steps are. Sequences, alternatives that are told
apart by a fixed form, and repetitions are treated here once, for reads and
for reads that gather alike; a loop with a budget has the language of the loop
without one, since every turn takes octets and the budget covers them all.
-/

namespace RespWire

namespace Step

variable {σ α β : Type} {hold : Bytes → Bytes → σ}

/-- A step succeeds just on the words of `L`. The state `hold s g` has the
octets `s` to come and has gathered `g`. -/
def Accepts (hold : Bytes → Bytes → σ) (m : Step σ α)
    (L : Bytes → α → Bytes → Prop) : Prop :=
  ∀ s g a after, m (hold s g) = (.ok a, after) ↔
    ∃ w rest p, s = w ++ rest ∧ after = hold rest (g ++ p) ∧ L w a p

theorem Accepts.congr {m : Step σ α} {L M : Bytes → α → Bytes → Prop}
    (h : Accepts hold m L) (hL : ∀ w a p, L w a p ↔ M w a p) :
    Accepts hold m M := by
  intro s g a after
  simp only [h s g a after, hL]

theorem Accepts.pure (a : α) :
    Accepts hold (Pure.pure a) fun w b p => w = [] ∧ b = a ∧ p = [] := by
  intro s g b after
  rw [pure_apply, Prod.mk.injEq, Except.ok.injEq]
  refine ⟨fun hleft => ?_, fun hright => ?_⟩
  · obtain ⟨rfl, rfl⟩ := hleft
    exact ⟨[], s, [], rfl, by rw [List.append_nil], rfl, rfl, rfl⟩
  · obtain ⟨w, rest, p, rfl, rfl, rfl, rfl, rfl⟩ := hright
    exact ⟨rfl, by rw [List.append_nil, List.nil_append]⟩

theorem Accepts.fail (e : Fault) :
    Accepts hold (Step.fail e : Step σ α) fun _ _ _ => False := by
  intro s g a after
  simp [Step.fail]

theorem bind_eq_ok {m : Step σ α} {f : α → Step σ β} {s after : σ} {b : β} :
    (m >>= f) s = (.ok b, after) ↔
      ∃ a mid, m s = (.ok a, mid) ∧ f a mid = (.ok b, after) := by
  refine ⟨fun h => ?_, fun hright => ?_⟩
  · rw [bind_apply] at h
    cases hm : m s with
    | mk result mid =>
        rw [hm] at h
        cases result with
        | ok a => exact ⟨a, mid, rfl, h⟩
        | error e => cases h
  · obtain ⟨a, mid, hm, hf⟩ := hright
    rw [bind_of_ok hm, hf]

theorem Accepts.bind {m : Step σ α} {f : α → Step σ β}
    {L : Bytes → α → Bytes → Prop} {M : α → Bytes → β → Bytes → Prop}
    (hm : Accepts hold m L) (hf : ∀ a, Accepts hold (f a) (M a)) :
    Accepts hold (m >>= f) fun w b r =>
      ∃ u t a p q, w = u ++ t ∧ r = p ++ q ∧ L u a p ∧ M a t b q := by
  intro s g b after
  rw [bind_eq_ok]
  refine ⟨fun hleft => ?_, fun hright => ?_⟩
  · obtain ⟨a, mid, hma, hfa⟩ := hleft
    obtain ⟨u, s', p, rfl, rfl, hL⟩ := (hm s g a mid).mp hma
    obtain ⟨t, rest, q, rfl, rfl, hM⟩ := (hf a s' (g ++ p) b after).mp hfa
    exact ⟨u ++ t, rest, p ++ q, (List.append_assoc ..).symm,
      by rw [List.append_assoc], u, t, a, p, q, rfl, rfl, hL, hM⟩
  · obtain ⟨w, rest, r, rfl, rfl, u, t, a, p, q, rfl, rfl, hL, hM⟩ := hright
    refine ⟨a, hold (t ++ rest) (g ++ p),
      (hm _ g a _).mpr ⟨u, t ++ rest, p, ?_, rfl, hL⟩,
      (hf a _ _ b _).mpr ⟨t, rest, q, rfl, ?_, hM⟩⟩
    · rw [List.append_assoc]
    · rw [List.append_assoc]

theorem Accepts.bind_pure {m : Step σ α} {L : Bytes → α → Bytes → Prop}
    (hm : Accepts hold m L) (f : α → β) :
    Accepts hold (m >>= fun a => Pure.pure (f a)) fun w b p =>
      ∃ a, b = f a ∧ L w a p := by
  refine (hm.bind fun a => .pure (f a)).congr fun w b r => ?_
  refine ⟨fun hleft => ?_, fun hright => ?_⟩
  · obtain ⟨u, t, a, p, q, rfl, rfl, hL, rfl, rfl, rfl⟩ := hleft
    exact ⟨a, rfl, by rw [List.append_nil, List.append_nil]; exact hL⟩
  · obtain ⟨a, rfl, hL⟩ := hright
    exact ⟨w, [], a, r, [], (List.append_nil w).symm, (List.append_nil r).symm,
      hL, rfl, rfl, rfl⟩

theorem Accepts.mapFault {m : Step σ α} {L : Bytes → α → Bytes → Prop}
    (hm : Accepts hold m L) (change : Fault → Fault) :
    Accepts hold (m.mapFault change) L := by
  intro s g a after
  rw [← hm s g a after, Step.mapFault]
  cases m (hold s g) with
  | mk result mid => cases result <;> simp

/-! ## Alternatives -/

/-- A form that comes first selects one step, everything else goes to the
other. The words of the other have to be long enough to show the form. -/
theorem Accepts.orForm {form : Bytes} {take : Step σ Bool} {A B : Step σ α}
    {L M : Bytes → α → Bytes → Prop} (htake : ∀ s g, take (hold s g) =
      if form <+: s then (.ok true, hold (s.drop form.length) g)
      else (.ok false, hold s g))
    (hA : Accepts hold A L) (hB : Accepts hold B M)
    (hlong : ∀ w a p, M w a p → form.length ≤ w.length) :
    Accepts hold (take >>= fun found => if found = true then A else B)
      fun w a p =>
        (∃ t, w = form ++ t ∧ L t a p) ∨ (M w a p ∧ ¬ form <+: w) := by
  intro s g a after
  by_cases hform : form <+: s
  · have hs := htake s g
    rw [if_pos hform] at hs
    rw [bind_of_ok hs, if_pos rfl]
    obtain ⟨t, rfl⟩ := hform
    rw [List.drop_left, hA t g a after]
    refine ⟨fun hleft => ?_, fun hright => ?_⟩
    · obtain ⟨w, rest, p, rfl, rfl, hL⟩ := hleft
      exact ⟨form ++ w, rest, p, (List.append_assoc ..).symm, rfl,
        Or.inl ⟨w, rfl, hL⟩⟩
    · obtain ⟨w, rest, p, hw, rfl, ⟨u, rfl, hL⟩ | ⟨hM, hnot⟩⟩ := hright
      · rw [List.append_assoc, List.append_cancel_left_eq] at hw
        exact ⟨u, rest, p, hw, rfl, hL⟩
      · exact absurd
          (List.prefix_of_prefix_length_le ⟨t, hw⟩ (List.prefix_append w rest)
            (hlong w a p hM)) hnot
  · have hs := htake s g
    rw [if_neg hform] at hs
    rw [bind_of_ok hs, if_neg Bool.false_ne_true, hB s g a after]
    refine ⟨fun hleft => ?_, fun hright => ?_⟩
    · obtain ⟨w, rest, p, rfl, rfl, hM⟩ := hleft
      exact ⟨w, rest, p, rfl, rfl,
        Or.inr ⟨hM, fun hw => hform (hw.trans (List.prefix_append _ _))⟩⟩
    · obtain ⟨w, rest, p, rfl, rfl, ⟨u, rfl, hL⟩ | ⟨hM, hnot⟩⟩ := hright
      · exact absurd
          (by rw [List.append_assoc]; exact List.prefix_append _ _) hform
      · exact ⟨w, rest, p, rfl, rfl, hM⟩

/-! ## Repetitions -/

/-- Words of `L` one behind the other, and then a word of `Last`. -/
inductive Repeated (Last : Bytes → Bytes → Prop)
    (L : Bytes → α → Bytes → Prop) :
    Bytes → List α → Bytes → Prop where
  | last {w p : Bytes} (h : Last w p) : Repeated Last L w [] p
  | more {u w p q : Bytes} {a : α} {as : List α} (h : L u a p)
      (hlater : Repeated Last L w as q) :
      Repeated Last L (u ++ w) (a :: as) (p ++ q)

theorem Accepts.times {m : Step σ α} {L : Bytes → α → Bytes → Prop}
    (hm : Accepts hold m L) (n : Nat) :
    Accepts hold (m.times n) fun w as p =>
      as.length = n ∧ Repeated (fun w p => p = [] ∧ w = []) L w as p := by
  induction n with
  | zero =>
      refine (Accepts.pure []).congr fun w as p => ?_
      refine ⟨fun hleft => ?_, fun hright => ?_⟩
      · obtain ⟨rfl, rfl, rfl⟩ := hleft
        exact ⟨rfl, .last ⟨rfl, rfl⟩⟩
      · obtain ⟨hlength, hrep⟩ := hright
        cases hrep with
        | last h => exact ⟨h.2, rfl, h.1⟩
        | more h hlater => cases hlength
  | succ n ih =>
      refine (hm.bind fun a => ih.bind_pure (a :: ·)).congr fun w as p => ?_
      refine ⟨fun hleft => ?_, fun hright => ?_⟩
      · obtain ⟨u, t, a, p, q, rfl, rfl, hL, bs, rfl, hlength, hrep⟩ := hleft
        exact ⟨congrArg Nat.succ hlength, .more hL hrep⟩
      · obtain ⟨hlength, hrep⟩ := hright
        cases hrep with
        | last h => cases hlength
        | more h hlater =>
            exact ⟨_, _, _, _, _, rfl, rfl, h, _, rfl, Nat.succ.inj hlength,
              hlater⟩

/-- A loop whose turns take octets, with a budget that covers those to come. -/
theorem Accepts.collect {m : Step σ (Option α)} {Last : Bytes → Bytes → Prop}
    {L : Bytes → α → Bytes → Prop}
    (hm : Accepts hold m fun w found p =>
      (found = none ∧ Last w p) ∨ ∃ a, found = some a ∧ L w a p)
    (hne : ∀ w a p, L w a p → w ≠ []) :
    ∀ (budget : Nat) (s g : Bytes) (as : List α) (after : σ),
      s.length < budget → (m.collect budget (hold s g) = (.ok as, after) ↔
        ∃ w rest p, s = w ++ rest ∧ after = hold rest (g ++ p) ∧
          Repeated Last L w as p) := by
  intro budget
  induction budget with
  | zero => exact fun s _ _ _ h => absurd h (Nat.not_lt_zero _)
  | succ budget ih =>
      intro s g as after hs
      rw [Step.collect, bind_eq_ok]
      refine ⟨fun hleft => ?_, fun hright => ?_⟩
      · obtain ⟨found, mid, hma, hlater⟩ := hleft
        obtain ⟨u, s', p, rfl, rfl, ⟨rfl, hlast⟩ | ⟨a, rfl, hL⟩⟩ :=
          (hm s g found mid).mp hma
        · cases hlater
          exact ⟨u, s', p, rfl, rfl, .last hlast⟩
        · obtain ⟨bs, later, hbs, hpure⟩ := bind_eq_ok.mp hlater
          cases hpure
          have hshort : s'.length < budget := by
            have := List.length_pos_iff.mpr (hne u a p hL)
            rw [List.length_append] at hs
            omega
          obtain ⟨w, rest, q, rfl, rfl, hrep⟩ :=
            (ih s' (g ++ p) bs _ hshort).mp hbs
          exact ⟨u ++ w, rest, p ++ q, (List.append_assoc ..).symm,
            by rw [List.append_assoc], .more hL hrep⟩
      · obtain ⟨w, rest, r, rfl, rfl, hrep⟩ := hright
        cases hrep with
        | last h =>
            exact ⟨none, _, (hm _ g none _).mpr
              ⟨w, rest, r, rfl, rfl, Or.inl ⟨rfl, h⟩⟩, rfl⟩
        | @more u w p q a bs h hlater =>
            refine ⟨some a, hold (w ++ rest) (g ++ p),
              (hm _ g _ _).mpr ⟨u, w ++ rest, p, ?_, rfl, Or.inr ⟨a, rfl, h⟩⟩,
                ?_⟩
            · rw [List.append_assoc]
            · refine bind_eq_ok.mpr ⟨bs, hold rest (g ++ (p ++ q)), ?_, rfl⟩
              refine (ih _ _ _ _ ?_).mpr ⟨w, rest, q, rfl, ?_, hlater⟩
              · have := List.length_pos_iff.mpr (hne u a p h)
                simp only [List.length_append] at hs ⊢
                omega
              · rw [List.append_assoc]

/-- A loop that takes its budget from what is to come runs until the last
word. -/
theorem Accepts.loop {m : Step σ (Option α)} {count : Step σ Nat}
    {Last : Bytes → Bytes → Prop} {L : Bytes → α → Bytes → Prop}
    (hcount : ∀ s g, count (hold s g) = (.ok s.length, hold s g))
    (hm : Accepts hold m fun w found p =>
      (found = none ∧ Last w p) ∨ ∃ a, found = some a ∧ L w a p)
    (hne : ∀ w a p, L w a p → w ≠ []) :
    Accepts hold (count >>= fun budget => m.collect (budget + 1))
      (Repeated Last L) := by
  intro s g as after
  rw [bind_of_ok (hcount s g)]
  exact Accepts.collect hm hne (s.length + 1) s g as after (Nat.lt_succ_self _)

end Step

end RespWire

import RespWire.Proofs.Counterparts
import RespWire.Proofs.Destination
import RespWire.Proofs.Gathering

/-!
# What is appended to a destination

The languages of the reads that gather are about readers that hold everything.
Of any other reader, whatever its feed does, one half remains true: where a read
answers, it has taken a word of its language and appended what the word holds.
A feed that falters may keep a read from answering, and its input may seem to
end while octets follow, but no octets come from anywhere else.

Bodies and lines are followed portion by portion. Everything made of them is
compared with the same read on a reader that holds what is to come: it sees the
same wherever a look ahead is not cut short. Only the choice of a form is made
by a look ahead that may be, so there the word can be one that a whole look
would have taken for the form.
-/

namespace RespWire

namespace Gather

open Step (Matched Matches)

variable {α β : Type} {L M : Limits → Bytes → α → Bytes → Prop}

/-- From one draft to the other the reader has taken a word of the language
under its limits, and what the word holds was gathered. -/
def Yielded (L : Limits → Bytes → α → Bytes → Prop) (d : Draft) (a : α)
    (after : Draft) : Prop :=
  ∃ w p, d.reader.remaining = w ++ after.reader.remaining ∧
    after.gathered = d.gathered ++ p ∧
    after.reader.options = d.reader.options ∧ L d.reader.options.limits w a p

theorem Yielded.mono {d after : Draft} {a : α} {b : β}
    {N : Limits → Bytes → β → Bytes → Prop} (h : Yielded L d a after)
    (hL : ∀ l w p, L l w a p → N l w b p) : Yielded N d b after := by
  obtain ⟨w, p, hrem, hgathered, hoptions, hw⟩ := h
  exact ⟨w, p, hrem, hgathered, hoptions, hL _ w p hw⟩

theorem Yielded.append {d mid after : Draft} {a : α} {b : β}
    {N : Limits → Bytes → β → Bytes → Prop} (h : Yielded L d a mid)
    (h' : Yielded N mid b after) :
    Yielded (fun l w b r =>
      ∃ u t p q, w = u ++ t ∧ r = p ++ q ∧ L l u a p ∧ N l t b q)
      d b after := by
  obtain ⟨u, p, hrem, hgathered, hoptions, hu⟩ := h
  obtain ⟨t, q, hrem', hgathered', hoptions', ht⟩ := h'
  refine ⟨u ++ t, p ++ q, ?_, ?_, hoptions'.trans hoptions, u, t, p, q, rfl,
    rfl, hu, ?_⟩
  · rw [hrem, hrem', List.append_assoc]
  · rw [hgathered', hgathered, List.append_assoc]
  · exact hoptions ▸ ht

/-- A read that takes a word of the language wherever it answers. -/
def Yields (m : Gather α) (L : Limits → Bytes → α → Bytes → Prop) : Prop :=
  ∀ d a after, m d = (.ok a, after) → Yielded L d a after

theorem Yields.mono {m : Gather α} (h : Yields m L)
    (hL : ∀ l w a p, L l w a p → M l w a p) :
    Yields m M :=
  fun d a after hok => (h d a after hok).mono fun l w p => hL l w a p

theorem Yields.pure (a : α) :
    Yields (Pure.pure a) fun _ w b p => w = [] ∧ b = a ∧ p = [] := by
  intro d b after hok
  cases hok
  exact ⟨[], [], rfl, (List.append_nil _).symm, rfl, rfl, rfl, rfl⟩

theorem Yields.bind {m : Gather α} {f : α → Gather β}
    {N : α → Limits → Bytes → β → Bytes → Prop} (hm : Yields m L)
    (hf : ∀ a, Yields (f a) (N a)) :
    Yields (m >>= f) fun l w b r =>
      ∃ a u t p q, w = u ++ t ∧ r = p ++ q ∧ L l u a p ∧ N a l t b q := by
  intro d b after hok
  obtain ⟨a, mid, hma, hfa⟩ := Step.bind_eq_ok.mp hok
  exact ((hm d a mid hma).append (hf a mid b after hfa)).mono fun l w p h =>
    ⟨a, h⟩

theorem Yields.bind_pure {m : Gather α} (hm : Yields m L) (f : α → β) :
    Yields (m >>= fun a => Pure.pure (f a)) fun l w b p =>
      ∃ a, b = f a ∧ L l w a p := by
  refine (hm.bind fun a => .pure (f a)).mono fun l w b r h => ?_
  obtain ⟨a, u, t, p, q, rfl, rfl, hu, rfl, rfl, rfl⟩ := h
  exact ⟨a, rfl, by rw [List.append_nil, List.append_nil]; exact hu⟩

theorem Yields.atomically {m : Gather α} (h : Yields m L) :
    Yields (atomically m) L := by
  intro d a after hok
  refine h d a after ?_
  unfold Gather.atomically at hok
  split at hok
  · next heq => exact heq.trans hok
  · cases hok

/-- A loop whose turns take octets runs until the last word. -/
theorem Yields.loop {m : Gather (Option α)}
    {Last : Limits → Bytes → Bytes → Prop} (hm : Yields m fun l w found p =>
      (found = none ∧ Last l w p) ∨ ∃ a, found = some a ∧ L l w a p)
    (hne : ∀ l w a p, L l w a p → w ≠ []) :
    Yields (Gather.ofRead Reader.remainingLength >>= fun budget =>
      m.collect (budget + 1))
      fun l => Step.Repeated (Last l) (L l) := by
  have hturns : ∀ (budget : Nat) (d : Draft) (as : List α) (after : Draft),
      d.reader.remaining.length < budget →
        m.collect budget d = (.ok as, after) →
      Yielded (fun l => Step.Repeated (Last l) (L l)) d as after := by
    intro budget
    induction budget with
    | zero => exact fun d _ _ hshort => absurd hshort (Nat.not_lt_zero _)
    | succ budget ih =>
        intro d as after hshort hok
        obtain ⟨found, mid, hturn, hlater⟩ := Step.bind_eq_ok.mp hok
        have hfound := hm d found mid hturn
        cases found with
        | none =>
            cases hlater
            refine hfound.mono fun l w p hright => ?_
            rcases hright with ⟨-, hlast⟩ | ⟨a, hnone, -⟩
            · exact .last hlast
            · cases hnone
        | some a =>
            obtain ⟨bs, later, hrest, hpure⟩ := Step.bind_eq_ok.mp hlater
            cases hpure
            have hword : Yielded L d a mid := hfound.mono fun l w p hright => by
              rcases hright with ⟨hnone, -⟩ | ⟨b, hsome, hw⟩
              · cases hnone
              · exact Option.some.inj hsome ▸ hw
            have hless : mid.reader.remaining.length < budget := by
              obtain ⟨w, p, hrem, -, -, hw⟩ := hword
              have := List.length_pos_iff.mpr (hne _ w a p hw)
              rw [hrem, List.length_append] at hshort
              omega
            refine (hword.append (ih mid bs after hless hrest)).mono
              fun l w p h => ?_
            obtain ⟨u, t, p, q, rfl, rfl, hu, ht⟩ := h
            exact .more hu ht
  exact fun d as after hok => hturns _ d as after (Nat.lt_succ_self _) hok

/-! ## Lines and bodies -/

/-- A portion of what is held is taken and gathered. -/
theorem yielded_portion {bs portion : Bytes} {d mid : Draft}
    (hheld : ofRead Reader.held d = (.ok bs, mid)) (hfront : portion <+: bs) :
    Yielded (fun _ w _ p => w = portion ∧ p = portion) d ()
      ⟨(Reader.consume portion.length mid.reader).2,
        mid.gathered ++ portion⟩ := by
  obtain ⟨hread, hgathered⟩ := ofRead_eq_ok.mp hheld
  have hrem := Reader.remaining_held d.reader
  have hoptions := Reader.options_of_held d.reader
  rw [hread] at hrem hoptions
  obtain ⟨rest, hrest⟩ := Reader.eq_buffer_of_held hread ▸ hfront
  have hlength : portion.length ≤ mid.reader.buffer.length := by
    rw [← hrest]
    exact (List.prefix_append portion rest).length_le
  refine ⟨portion, portion, ?_, by rw [hgathered], hoptions, rfl, rfl⟩
  rw [Reader.remaining_consume hlength, ← hrem, Reader.remaining, ← hrest,
    List.append_assoc, List.drop_left]

theorem yields_bodyFrom (missing : Nat) :
    Yields (bodyFrom missing) fun _ w _ p => w = p ∧ p.length = missing := by
  induction missing using Nat.strongRecOn with
  | ind missing ih =>
      intro d u after hok
      by_cases hzero : missing = 0
      · rw [bodyFrom, dif_pos hzero] at hok
        cases hok
        exact ⟨[], [], rfl, (List.append_nil _).symm, rfl, rfl, hzero.symm⟩
      · rw [bodyFrom_eq hzero] at hok
        obtain ⟨bs, mid, hheld, hlater⟩ := Step.bind_eq_ok.mp hok
        cases bs with
        | nil => cases hlater
        | cons b bs =>
            have hlength : ((b :: bs).take missing).length =
                min missing (bs.length + 1) :=
              List.length_take
            have hrest := ih (missing - ((b :: bs).take missing).length)
              (by omega) _ u after hlater
            refine ((yielded_portion hheld (List.take_prefix missing _)).append
              hrest).mono
              fun l w p h => ?_
            obtain ⟨_, _, _, q, rfl, rfl, ⟨rfl, rfl⟩, rfl, hq⟩ := h
            exact ⟨rfl, by rw [List.length_append, hq]; omega⟩

/-- Where a line answers, the portions up to its line feed were gathered, within
the limit, and then settled. -/
theorem lineFrom_eq_ok {taken : Nat} {d after : Draft} {u : Unit}
    (hok : lineFrom taken d = (.ok u, after)) :
    ∃ x mid, Bytes.lf ∉ x ∧
      d.reader.options.limits.Admits (taken + (x.length + 1) - 2) ∧
      Yielded (fun _ w _ p => w = x ++ [Bytes.lf] ∧ p = x ++ [Bytes.lf]) d
        () mid ∧
      settleLine (taken + (x.length + 1)) mid = (.ok u, after) := by
  -- on what is to come, of which every portion takes some
  induction hn : d.reader.remaining.length using Nat.strongRecOn
      generalizing d taken with
  | ind size ih =>
      rw [lineFrom_eq] at hok
      obtain ⟨bs, mid, hheld, hlater⟩ := Step.bind_eq_ok.mp hok
      cases bs with
      | nil => cases hlater
      | cons b bs =>
          obtain ⟨_, mid', hcheck, hlater⟩ := Step.bind_eq_ok.mp hlater
          rw [eq_of_checkSize hcheck] at hlater
          have hadmits := Reader.admits_of_checkSize (ofRead_eq_ok.mp hcheck).1
          have hoptions := Reader.options_of_held d.reader
          rw [(ofRead_eq_ok.mp hheld).1] at hoptions
          rw [show mid.reader.options = d.reader.options
            from hoptions] at hadmits
          have htaken :=
            yielded_portion hheld (Reader.throughLineFeed_prefix (b :: bs))
          have hless := length_remaining_lt_of_held
            (Reader.length_throughLineFeed_cons_pos b bs) hheld
          by_cases hlf : Bytes.lf ∈ b :: bs
          · obtain ⟨x, t, hsplit, hx⟩ := List.eq_append_cons_of_mem hlf
            rw [hsplit,
              Reader.throughLineFeed_append_lf hx] at hlater htaken hadmits
            have hlength : (x ++ [Bytes.lf]).length = x.length + 1 :=
              List.length_append
            have hsettle := (if_pos List.getLast?_concat).symm.trans hlater
            exact ⟨x, _, hx, hlength ▸ hadmits, htaken, hlength ▸ hsettle⟩
          · rw [Reader.throughLineFeed_of_notMem hlf] at hlater htaken hless
            have hlast : (b :: bs).getLast? ≠ some Bytes.lf :=
              fun hlast => hlf (List.mem_of_getLast? hlast)
            obtain ⟨x, ended, hx, hfits, hrest, hsettle⟩ :=
              ih _ (hn ▸ hless) ((if_neg hlast).symm.trans hlater) rfl
            have hlength : taken + (((b :: bs) ++ x).length + 1) =
                taken + (b :: bs).length + (x.length + 1) := by
              rw [List.length_append]
              omega
            refine ⟨(b :: bs) ++ x, ended, ?_, ?_, ?_, ?_⟩
            · exact fun hmem => (List.mem_append.mp hmem).elim hlf hx
            · rw [hlength]
              exact hoptions ▸ hfits
            · refine (htaken.append hrest).mono fun l w p h => ?_
              obtain ⟨_, _, _, _, rfl, rfl, ⟨rfl, rfl⟩, rfl, rfl⟩ := h
              exact ⟨(List.append_assoc _ _ _).symm,
                (List.append_assoc _ _ _).symm⟩
            · rw [hlength]
              exact hsettle

theorem yields_line :
    Yields line fun l w _ p =>
      Bytes.lf ∉ p ∧ l.Admits p.length ∧ w = p ++ Bytes.crlf := by
  intro d u after hok
  obtain ⟨x, ⟨r, g⟩, hx, hadmits, ⟨w, p, hrem, hgathered, hoptions, rfl, rfl⟩,
      hsettle⟩ :=
    lineFrom_eq_ok hok
  have hlength : 0 + (x.length + 1) = (x ++ [Bytes.lf]).length := by simp
  rw [hlength, show g = _ from hgathered] at hsettle
  obtain ⟨text, hend, rfl⟩ := settleLine_eq_ok_iff.mp hsettle
  have hcr : x = text ++ [Bytes.cr] := by
    refine List.append_inj_left' (hend.trans ?_) rfl
    exact (List.append_assoc text [Bytes.cr] [Bytes.lf]).symm
  refine ⟨text ++ Bytes.crlf, text, hend ▸ hrem, rfl, hoptions, ?_, ?_, rfl⟩
  · exact fun hmem => hx (hcr ▸ List.mem_append_left _ hmem)
  · rw [hcr] at hadmits
    simpa using hadmits

/-! ## Reads on a reader that holds what is to come -/

/-- The first reader holds all that is to come for the second. -/
def Pooled (s t : Reader) : Prop := s = Reader.holding t.options t.remaining

theorem Gathers.unambiguous {o : Options} {m : Gather α}
    {K : Bytes → α → Bytes → Prop} (hm : Gathers o m K) {w w' t t' p p' : Bytes}
    {a a' : α} (h : K w a p) (h' : K w' a' p') (heq : w ++ t = w' ++ t') :
    a = a' ∧ t = t' ∧ p = p' := by
  have hrun :=
    (hm (w ++ t) [] a ⟨Reader.holding o t, p⟩).mpr ⟨w, t, p, rfl, rfl, h⟩
  have hrun' :=
    (hm (w ++ t) [] a' ⟨Reader.holding o t', p'⟩).mpr ⟨w', t', p', heq, rfl, h'⟩
  cases hrun.symm.trans hrun'
  exact ⟨rfl, rfl, rfl⟩

theorem Gathers.unique {o : Options} {m : Gather α}
    {K : Bytes → α → Bytes → Prop} (hm : Gathers o m K) {w p p' : Bytes}
    {a a' : α} (h : K w a p) (h' : K w a' p') :
    a = a' ∧ p = p' :=
  (hm.unambiguous h h' (rfl : w ++ [] = w ++ [])).imp_right And.right

theorem matches_pooled {m : Gather α}
    (hm : ∀ o : Options, Gathers o m (L o.limits)) (h : Yields m L) :
    Matches (fun _ => True) (Draft.Related Pooled) m m := by
  rintro ⟨s, g⟩ ⟨t, g'⟩ ⟨hst, hg⟩
  cases hst
  cases hg
  refine .of_imp (fun _ => trivial) fun a after hok => ?_
  obtain ⟨w, p, hrem, hgathered, hoptions, hw⟩ := h ⟨t, g⟩ a after hok
  refine ⟨⟨Reader.holding t.options after.reader.remaining, g ++ p⟩, ?_, ?_,
    hgathered.symm⟩
  · exact (hm t.options t.remaining g a _).mpr ⟨w, _, p, hrem, rfl, hw⟩
  · rw [Pooled, show after.reader.options = t.options from hoptions]

theorem Yields.of_matches {m : Gather α}
    (hm : ∀ o : Options, Gathers o m (L o.limits))
    (h : Matches (fun _ => True) (Draft.Related Pooled) m m) : Yields m L := by
  intro d a after hok
  have hmatched :=
    h ⟨Reader.holding d.reader.options d.reader.remaining, d.gathered⟩ d
      ⟨rfl, rfl⟩
  rw [hok] at hmatched
  obtain ⟨e, hrun, hpooled, hgathered⟩ := hmatched.of_ok
  obtain ⟨w, rest, p, hrem, rfl, hw⟩ := (hm _ _ _ a e).mp hrun
  obtain ⟨hoptions, hrest⟩ :=
    Reader.mk.inj (hpooled : Reader.holding _ rest = _) |>.2
  exact ⟨w, p, hrest ▸ hrem, hgathered.symm, hoptions.symm, hw⟩

theorem counterparts_pooled : Reader.Counterparts (fun _ => True) Pooled where
  lookAhead n s t hst := by
    subst hst
    have hrem := Reader.remaining_lookAhead n t
    have hoptions := Reader.options_of_lookAhead n t
    cases hlook : Reader.lookAhead n t with
    | mk result after =>
        rw [hlook] at hrem hoptions
        cases result with
        | error e =>
            exact Or.inr ⟨fun _ => trivial, fun bs later hok => nomatch hok⟩
        | ok bs =>
            by_cases hshort : bs.length < n
            · refine Or.inr ⟨fun _ => trivial, fun bs' later hok => ?_⟩
              cases hok
              exact hshort
            · obtain ⟨hshown, -⟩ :=
                Reader.take_remaining_of_lookAhead hlook (Nat.not_lt.mp hshort)
              refine Or.inl ⟨.ok bs, Reader.holding t.options t.remaining,
                after, ?_, rfl, ?_⟩
              · rw [Reader.lookAhead_holding, hshown]
              · rw [Pooled, show after.options = _ from hoptions,
                  show after.remaining = _ from hrem]
  consume n s t hst hs ht := by
    subst hst
    rw [Pooled, Reader.remaining_consume ht]
    rfl
  checkSize size s t hst := by
    subst hst
    rw [Reader.checkSize_apply, Reader.checkSize_apply,
      show (Reader.holding t.options t.remaining).options = t.options from rfl]
    split
    · exact .stopped trivial
    · exact .same rfl
  bodyFrom missing :=
    matches_pooled (fun _ => gathers_bodyFrom missing) (yields_bodyFrom missing)
  line := matches_pooled (fun _ => gathers_line) yields_line
  stops_cases := Or.inl fun _ => trivial

theorem yields_counted (k : Kind) :
    Yields (counted k) fun l w n p => n = p.length ∧ Counted l k w p :=
  .of_matches (fun _ => gathers_counted k) (counterparts_pooled.counted k)

theorem yields_simple (role : Role) : Yields (simple role) fun l w _ p =>
    Bytes.lf ∉ p ∧ l.Admits p.length ∧ w = (Kind.simple role).line p :=
  .of_matches (fun _ => gathers_simple role) (counterparts_pooled.simple role)

theorem yields_verbatim : Yields verbatim fun l w format p =>
    Counted l .verbatim w (format.octets ++ ':'.toUInt8 :: p) :=
  .of_matches (fun _ => gathers_verbatim) counterparts_pooled.verbatim

/-! ## Streams -/

theorem yields_takeForm (form : Bytes) : Yields (ofRead (Reader.takeForm form))
    fun _ w found p => p = [] ∧ w = if found = true then form else [] := by
  intro d found after hok
  obtain ⟨hread, hgathered⟩ := ofRead_eq_ok.mp hok
  rw [Reader.takeForm_eq] at hread
  obtain ⟨bs, mid, hlook, hlater⟩ := Step.bind_eq_ok.mp hread
  have hrem := Reader.remaining_lookAhead form.length d.reader
  have hoptions := Reader.options_of_lookAhead form.length d.reader
  rw [hlook] at hrem hoptions
  have hnone : after.gathered = d.gathered ++ [] := by
    rw [hgathered, List.append_nil]
  split at hlater
  · next hform =>
      rw [eq_of_beq hform] at hlook
      obtain ⟨hshown, hheld⟩ :=
        Reader.take_remaining_of_lookAhead hlook (Nat.le_refl _)
      obtain ⟨hfound, hafter⟩ := Prod.mk.inj hlater
      cases hfound
      have hrest : after.reader.remaining = mid.remaining.drop form.length :=
        hafter ▸ Reader.remaining_consume hheld
      have hsplit := List.take_append_drop form.length d.reader.remaining
      rw [← hshown] at hsplit
      refine ⟨form, [], ?_, hnone, hafter ▸ hoptions, rfl, rfl⟩
      rw [hrest, show mid.remaining = _ from hrem, hsplit]
  · cases hlater
    exact ⟨[], [], hrem.symm, hnone, hoptions, rfl, rfl⟩

theorem yields_orForm {form : Bytes} {A B : Gather α} (hA : Yields A L)
    (hB : Yields B M) :
    Yields (ofRead (Reader.takeForm form) >>= fun found =>
      if found = true then A else B)
      fun l w a p => (∃ t, w = form ++ t ∧ L l t a p) ∨ M l w a p := by
  have hfound : ∀ found : Bool, Yields (if found = true then A else B)
      fun l w a p => if found = true then L l w a p else M l w a p := by
    intro found
    cases found
    · exact hB
    · exact hA
  refine ((yields_takeForm form).bind hfound).mono fun l w a r h => ?_
  obtain ⟨found, u, t, p, q, rfl, rfl, ⟨rfl, rfl⟩, ht⟩ := h
  cases found with
  | true => exact Or.inl ⟨t, rfl, ht⟩
  | false => exact Or.inr ht

theorem yields_blob (role : Role) : Yields (blob role) fun l w n p =>
    (n = .streamed ∧ w = (Kind.blob role).streamHeader ∧ p = []) ∨
      (n = .known p.length ∧ Counted l (.blob role) w p) := by
  refine (yields_orForm (.pure Length.streamed)
    ((yields_counted (.blob role)).bind_pure Length.known)).atomically.mono
      fun l w n p h => ?_
  rcases h with ⟨t, rfl, rfl, rfl, rfl⟩ | ⟨n, rfl, rfl, h⟩
  · exact Or.inl ⟨rfl, List.append_nil _, rfl⟩
  · exact Or.inr ⟨rfl, h⟩

theorem yields_chunk : Yields chunk fun l w isLast p =>
    (isLast = true ∧ w = Marker.lastChunk ∧ p = []) ∨
      (isLast = false ∧ Counted l .chunk w p) := by
  refine (yields_orForm (.pure true)
    ((yields_counted .chunk).atomically.bind_pure fun _ => false)).mono
      fun l w n p h => ?_
  rcases h with ⟨t, rfl, rfl, rfl, rfl⟩ | ⟨n, rfl, rfl, h⟩
  · exact Or.inl ⟨rfl, List.append_nil _, rfl⟩
  · exact Or.inr ⟨rfl, h⟩

theorem yields_chunk? : Yields chunk? fun l w found p =>
    (found = none ∧ w = Marker.lastChunk ∧ p = []) ∨
      ∃ u, found = some u ∧ Counted l .chunk w p := by
  have hfound : ∀ isLast : Bool, Yields
      (if isLast = true then Pure.pure none else Pure.pure (some ()) : Gather
        (Option Unit))
      fun _ w found p => w = [] ∧
        found = (if isLast = true then none else some ()) ∧ p = [] := by
    intro isLast
    cases isLast <;> exact .pure _
  refine (yields_chunk.bind hfound).mono fun l w found r h => ?_
  obtain ⟨_, _, _, p, _, rfl, rfl, ⟨rfl, rfl, rfl⟩ | ⟨rfl, h⟩, rfl, rfl, rfl⟩ :=
    h
  · exact Or.inl ⟨rfl, List.append_nil _, rfl⟩
  · rw [List.append_nil, List.append_nil]
    exact Or.inr ⟨(), rfl, h⟩

theorem yields_chunks :
    Yields chunks fun l w _ p => ∃ parts : List (Bytes × Bytes),
    (∀ part ∈ parts, Counted l .chunk part.1 part.2) ∧
      w = parts.flatMap Prod.fst ++ Marker.lastChunk ∧
        p = parts.flatMap Prod.snd := by
  have hloop : Yields (Gather.ofRead Reader.remainingLength >>= fun budget =>
      chunk?.collect (budget + 1)) _ :=
    Yields.loop yields_chunk? fun l w _ p h hnil => by
      have := Counted.length_le h
      rw [hnil] at this
      cases this
  have hall := hloop.bind_pure fun _ => ()
  rw [Step.bind_assoc_apply] at hall
  refine hall.atomically.mono fun l w u p h => ?_
  obtain ⟨us, -, hrep⟩ := h
  induction hrep with
  | last h =>
      obtain ⟨rfl, rfl⟩ := h
      exact ⟨[], nofun, rfl, rfl⟩
  | @more u w p q _ _ hpart hlater ih =>
      obtain ⟨parts, hparts, rfl, rfl⟩ := ih
      refine ⟨(u, p) :: parts, ?_, ?_, rfl⟩
      · rintro part (_ | ⟨_, hmem⟩)
        · exact hpart
        · exact hparts part hmem
      · rw [List.flatMap_cons, List.append_assoc]

end Gather

/-! ## Calls -/

namespace Reader

/-- Whether a call gathers octets. -/
def Call.gathers : Call → Bool
  | blob _ | chunk | chunks | simple _ | verbatim => true
  | _ => false

/-- What a call that gathers octets takes for its answer, and what it gathers:
nothing of the header of a stream or of the last chunk, the bodies of all chunks
one behind the other, the text behind the format, the line without its end. -/
inductive Payload (l : Limits) : Call → Answer → Bytes → Bytes → Prop where
  | blob {role : Role} {w p : Bytes} (h : Counted l (.blob role) w p) :
      Payload l (.blob role) (.length (.known p.length)) w p
  | openBlob {role : Role} :
      Payload l (.blob role) (.length .streamed)
        (Kind.blob role).streamHeader []
  | chunk {w p : Bytes} (h : Counted l .chunk w p) :
      Payload l .chunk (.last false) w p
  | lastChunk : Payload l .chunk (.last true) Marker.lastChunk []
  | chunks {parts : List (Bytes × Bytes)}
      (h : ∀ part ∈ parts, Counted l .chunk part.1 part.2) :
      Payload l .chunks .done (parts.flatMap Prod.fst ++ Marker.lastChunk)
        (parts.flatMap Prod.snd)
  | simple {role : Role} {text : Bytes} (hlf : Bytes.lf ∉ text)
      (hsize : l.Admits text.length) :
      Payload l (.simple role) .done ((Kind.simple role).line text) text
  | verbatim {w text : Bytes} {format : Format}
      (h : Counted l .verbatim w (format.octets ++ ':'.toUInt8 :: text)) :
      Payload l .verbatim (.format format) w text

/-- Chunks are told apart by what they announce, and the last by its being
shorter. -/
theorem chunks_unique {o : Options} {parts parts' : List (Bytes × Bytes)}
    (h : ∀ part ∈ parts, Counted o.limits .chunk part.1 part.2)
    (h' : ∀ part ∈ parts', Counted o.limits .chunk part.1 part.2)
    (heq : parts.flatMap Prod.fst ++ Marker.lastChunk =
      parts'.flatMap Prod.fst ++ Marker.lastChunk) :
    parts.flatMap Prod.snd = parts'.flatMap Prod.snd := by
  have hnil : ∀ (part : Bytes × Bytes) (later : Bytes),
      Counted o.limits .chunk part.1 part.2 →
      Marker.lastChunk ≠ (part.1 ++ later) ++ Marker.lastChunk := by
    intro part later hpart heq
    have hlength := congrArg List.length heq
    have := hpart.length_le
    rw [List.length_append, List.length_append] at hlength
    omega
  induction parts generalizing parts' with
  | nil =>
      cases parts' with
      | nil => rfl
      | cons part' later' =>
          exact absurd heq (hnil part' _ (h' part' (.head _)))
  | cons part later ih =>
      cases parts' with
      | nil => exact absurd heq.symm (hnil part _ (h part (.head _)))
      | cons part' later' =>
          simp only [List.flatMap_cons, List.append_assoc] at heq ⊢
          have hpart := h part (.head _)
          have hpart' := h' part' (.head _)
          obtain ⟨-, hlater, hsame⟩ :=
            (Gather.gathers_counted .chunk).unambiguous ⟨rfl, hpart⟩
              ⟨rfl, hpart'⟩ heq
          rw [hsame, ih (fun x hx => h x (.tail _ hx))
            (fun x hx => h' x (.tail _ hx)) hlater]

/-- What was taken settles what was gathered. -/
theorem Payload.unique {o : Options} {call : Call} {a a' : Answer}
    {w p p' : Bytes} (h : Payload o.limits call a w p)
    (h' : Payload o.limits call a' w p') : a = a' ∧ p = p' := by
  have hblob : ∀ role, Gather.Gathers o (Gather.blob role) _ :=
    Gather.gathers_blob
  generalize hw : w = w' at h'
  cases h with
  | blob h =>
      cases h' with
      | blob h' =>
          obtain ⟨-, rfl⟩ :=
            (hblob _).unique (Or.inr ⟨rfl, hw ▸ h⟩) (Or.inr ⟨rfl, h'⟩)
          exact ⟨rfl, rfl⟩
      | openBlob =>
          cases ((hblob _).unique (Or.inr ⟨rfl, hw ▸ h⟩)
            (Or.inl ⟨rfl, rfl, rfl⟩)).1
  | openBlob =>
      cases h' with
      | blob h' =>
          cases ((hblob _).unique (Or.inl ⟨rfl, hw.symm, rfl⟩)
            (Or.inr ⟨rfl, h'⟩)).1
      | openBlob => exact ⟨rfl, rfl⟩
  | chunk h =>
      cases h' with
      | chunk h' =>
          obtain ⟨-, rfl⟩ :=
            (Gather.gathers_counted .chunk).unique ⟨rfl, hw ▸ h⟩ ⟨rfl, h'⟩
          exact ⟨rfl, rfl⟩
      | lastChunk => exact absurd hw h.ne_lastChunk
  | lastChunk =>
      cases h' with
      | chunk h' => exact absurd hw.symm h'.ne_lastChunk
      | lastChunk => exact ⟨rfl, rfl⟩
  | chunks h =>
      cases h' with
      | chunks h' => exact ⟨rfl, chunks_unique h h' hw⟩
  | simple hlf hsize =>
      cases h' with
      | simple => exact ⟨rfl, List.append_cancel_right (List.cons.inj hw).2⟩
  | verbatim h =>
      cases h' with
      | verbatim h' =>
          obtain ⟨rfl, rfl⟩ := Gather.gathers_verbatim.unique (hw ▸ h) h'
          exact ⟨rfl, rfl⟩

theorem yields_make {call : Call} (hcall : call.gathers = true) :
    Gather.Yields call.make fun l w a p => Payload l call a w p := by
  cases call with
  | blob role =>
      refine ((Gather.yields_blob role).bind_pure Answer.length).mono
        fun l w a p h => ?_
      obtain ⟨_, rfl, ⟨rfl, rfl, rfl⟩ | ⟨rfl, h⟩⟩ := h
      · exact .openBlob
      · exact .blob h
  | chunk =>
      refine (Gather.yields_chunk.bind_pure Answer.last).mono fun l w a p h =>
        ?_
      obtain ⟨_, rfl, ⟨rfl, rfl, rfl⟩ | ⟨rfl, h⟩⟩ := h
      · exact .lastChunk
      · exact .chunk h
  | chunks =>
      refine (Gather.yields_chunks.bind_pure fun _ => Answer.done).mono
        fun l w a p h => ?_
      obtain ⟨_, rfl, parts, h, rfl, rfl⟩ := h
      exact .chunks h
  | simple role =>
      refine ((Gather.yields_simple role).bind_pure fun _ => Answer.done).mono
        fun l w a p h => ?_
      obtain ⟨_, rfl, hlf, hsize, rfl⟩ := h
      exact .simple hlf hsize
  | verbatim =>
      refine (Gather.yields_verbatim.bind_pure Answer.format).mono
        fun l w a p h => ?_
      obtain ⟨_, rfl, h⟩ := h
      exact .verbatim h
  | _ => cases hcall

theorem gathered_of_ofRead {α β : Type} {m : Read α} {f : α → β}
    {d after : Draft} {b : β}
    (hok : (Gather.ofRead m >>= fun a => pure (f a)) d = (.ok b, after)) :
    after.gathered = d.gathered := by
  obtain ⟨a, mid, hread, hpure⟩ := Step.bind_eq_ok.mp hok
  cases hpure
  exact (Gather.ofRead_eq_ok.mp hread).2

theorem gathered_of_make {call : Call} (hcall : call.gathers = false)
    {d after : Draft} {a : Answer} (hok : call.make d = (.ok a, after)) :
    after.gathered = d.gathered := by
  cases call with
  | blob role => cases hcall
  | chunk => cases hcall
  | chunks => cases hcall
  | simple role => cases hcall
  | verbatim => cases hcall
  | _ => exact gathered_of_ofRead hok

/-- A call that fails leaves its destination as it was, on whatever feed and
however much had been appended. A call that gathers and answers has taken a word
from what was to come, and the one payload of that word stands behind what was
in the destination; any other call leaves that alone. -/
theorem make_appends (call : Call) (d after : Draft) :
    (∀ f, call.make d = (.error f, after) → after.gathered = d.gathered) ∧
    (∀ a, call.make d = (.ok a, after) →
      (call.gathers = true →
        ∃ w p, d.reader.remaining = w ++ after.reader.remaining ∧
        after.gathered = d.gathered ++ p ∧
          Payload d.reader.options.limits call a w p ∧
        ∀ a' p', Payload d.reader.options.limits call a' w p' →
          a' = a ∧ p' = p) ∧
      (call.gathers = false → after.gathered = d.gathered)) := by
  refine ⟨fun f => restores_make call d f after,
    fun a hok => ⟨fun hcall => ?_, fun hcall => ?_⟩⟩
  · obtain ⟨w, p, hrem, hgathered, -, hw⟩ := yields_make hcall d a after hok
    exact ⟨w, p, hrem, hgathered, hw, fun a' p' hw' => hw'.unique hw⟩
  · exact gathered_of_make hcall hok

/-- A line that breaks off behind its first octets, and a blob that is whole. -/
theorem make_appends_broken :
    let broken : Reader :=
      ⟨⟨[.failure ⟨.timedOut, "slow"⟩], none⟩, {}, Bytes.ofChars "+ok".toList⟩
    let whole : Reader := holding {} (Bytes.ofChars "$2\r\nok\r\n-".toList)
    (∃ f after, (Call.simple .string).make ⟨broken, [7]⟩ = (.error f, after) ∧
      after.gathered = [7]) ∧
    ∃ after w p, (Call.blob .string).make ⟨whole, [7]⟩ =
      (.ok (.length (.known 2)), after) ∧
      whole.remaining = w ++ after.reader.remaining ∧
        after.gathered = [7] ++ p ∧
      Payload whole.options.limits (.blob .string) (.length (.known 2))
        w p := by
  intro broken whole
  constructor
  · have hexpect : Gather.ofRead (expect (.simple .string)) ⟨broken, [7]⟩ =
        (.ok (), ⟨(consume 1 broken).2, [7]⟩) := rfl
    have hline : Gather.line ⟨(consume 1 broken).2, [7]⟩ =
        (.error (.io ⟨.timedOut, "slow"⟩),
          ⟨holding {} [], [7, 'o'.toUInt8, 'k'.toUInt8]⟩) := by
      rw [Gather.line, Gather.lineFrom_apply]
      show Gather.lineFrom 2
        ⟨(consume 3 broken).2, [7, 'o'.toUInt8, 'k'.toUInt8]⟩ = _
      rw [Gather.lineFrom_apply]
      rfl
    have hfails : (Call.simple .string).make ⟨broken, [7]⟩ =
        (.error (.io ⟨.timedOut, "slow"⟩), ⟨holding {} [], [7]⟩) := by
      refine Step.bind_of_error ?_
      show Gather.atomically
        (Gather.ofRead (expect _) >>= fun _ => Gather.line) _ = _
      rw [Gather.atomically, Step.bind_of_ok hexpect, hline]
      rfl
    exact ⟨_, _, hfails, (make_appends _ _ _).1 _ hfails⟩
  · have htwo : Count (Bytes.ofChars ['2']) 2 :=
      ⟨.plain (.singleton rfl), by decide⟩
    have hcounted : Counted whole.options.limits (.blob .string) _
        (Bytes.ofChars ['o', 'k']) :=
      ⟨_, htwo, by decide, rfl⟩
    have hblob := (Gather.gathers_blob .string _ [7] _ _).mpr
      ⟨_, Bytes.ofChars ['-'], _, rfl, rfl, Or.inr ⟨rfl, hcounted⟩⟩
    have hmake : (Call.blob .string).make ⟨whole, [7]⟩ =
        (.ok (.length (.known 2)), _) :=
      Step.bind_of_ok hblob
    obtain ⟨w, p, hrem, hgathered, hw⟩ := ((make_appends _ _ _).2 _ hmake).1 rfl
    exact ⟨_, w, p, hmake, hrem, hgathered, hw.1⟩

end Reader

end RespWire

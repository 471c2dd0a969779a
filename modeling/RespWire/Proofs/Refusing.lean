import RespWire.Proofs.Written

/-!
# Values that nest too deep

What is written of a value is refused by a reader with no more levels left than
the value is high. The reader comes down to the first child that is too high
for the levels left there. All that stands in front of that child is read as
it would be in a value that is not refused, so the reader gets there, and the
fault that stops it there is the fault of the whole.
-/

namespace RespWire

namespace Reader

variable {α β γ : Type} {o : Options}

/-- A read stops with a fault somewhere in a word, whatever follows the word. -/
def Refuses (o : Options) (m : Read α) (w : Bytes) (e : Fault) : Prop :=
  ∀ rest, (m (holding o (w ++ rest))).1 = .error e

theorem refuses_iff {m : Read α} {w : Bytes} {e : Fault} :
    Refuses o m w e ↔
      ∀ rest, ∃ after, m (holding o (w ++ rest)) = (.error e, after) := by
  refine forall_congr' fun rest => ⟨fun h => ?_, fun hright => ?_⟩
  · exact ⟨(m (holding o (w ++ rest))).2, Prod.ext h rfl⟩
  · obtain ⟨after, h⟩ := hright
    rw [h]

theorem Refuses.append {m : Read α} {u : Bytes} {e : Fault}
    (h : Refuses o m u e) (t : Bytes) :
    Refuses o m (u ++ t) e := by
  intro rest
  rw [List.append_assoc]
  exact h (t ++ rest)

theorem Refuses.bind {m : Read α} {w : Bytes} {e : Fault} (h : Refuses o m w e)
    (f : α → Read β) : Refuses o (m >>= f) w e := by
  intro rest
  obtain ⟨after, hm⟩ := refuses_iff.mp h rest
  rw [Step.bind_of_error hm]

theorem Refuses.mapFault {m : Read α} {w : Bytes} {e : Fault}
    (h : Refuses o m w e) {change : Fault → Fault} (hchange : change e = e) :
    Refuses o (m.mapFault change) w e := by
  intro rest
  obtain ⟨after, hm⟩ := refuses_iff.mp h rest
  rw [Step.mapFault, hm]
  exact congrArg Except.error hchange

/-- What comes after a word that is read is refused as it would be on its
own. -/
theorem Reads.bind_refuses {m : Read α} {f : α → Read β} {L : Bytes → α → Prop}
    {u t : Bytes} {a : α} {e : Fault} (hm : Reads o m L) (hu : L u a)
    (hf : Refuses o (f a) t e) :
    Refuses o (m >>= f) (u ++ t) e := by
  intro rest
  have hrun :=
    (reads_iff.mp hm (u ++ (t ++ rest)) a _).mpr ⟨u, t ++ rest, rfl, rfl, hu⟩
  rw [List.append_assoc, Step.bind_of_ok hrun]
  exact hf rest

theorem Refuses.select {f : Kind → Read α} {w : Bytes} {k : Kind} {e : Fault}
    (hw : Kind.Shows w k) (hf : Refuses o (f k) w e) :
    Refuses o (peek >>= f) w e := by
  intro rest
  rw [Step.bind_of_ok ((peek_eq_ok_iff _ _ _).mpr ⟨rfl, hw rest⟩)]
  exact hf rest

/-- A repetition stops at the first word that is refused. -/
theorem Refuses.times {m : Read α} {L : Bytes → α → Prop} (hm : Reads o m L)
    {word : γ → Bytes} {e : Fault} {xs : List γ}
    (h : ∀ x ∈ xs, (∃ a, L (word x) a) ∨ Refuses o m (word x) e)
    (hsome : ∃ x ∈ xs, Refuses o m (word x) e) :
    Refuses o (m.times xs.length) (xs.flatMap word) e := by
  induction xs with
  | nil =>
      obtain ⟨x, hx, -⟩ := hsome
      cases hx
  | cons x xs ih =>
      rw [List.length_cons, List.flatMap_cons, Step.times]
      rcases h x (.head _) with ⟨a, ha⟩ | hx
      · obtain ⟨y, hy, hrefused⟩ := hsome
        rcases List.mem_cons.mp hy with rfl | hy
        · exact (hrefused.bind _).append _
        · have hlater := ih (fun z hz => h z (.tail _ hz)) ⟨y, hy, hrefused⟩
          exact hm.bind_refuses ha (hlater.bind _)
      · exact (hx.bind _).append _

/-- A loop whose budget covers what is to come stops with a fault somewhere in
a word, whatever follows the word. -/
def LoopRefuses (o : Options) (m : Read (Option α)) (w : Bytes) (e : Fault) :
    Prop :=
  ∀ budget rest, (w ++ rest).length < budget →
    (m.collect budget (holding o (w ++ rest))).1 = .error e

theorem LoopRefuses.refuses {m : Read (Option α)} {w : Bytes} {e : Fault}
    (h : LoopRefuses o m w e) :
    Refuses o (remainingLength >>= fun budget => m.collect (budget + 1))
      w e := by
  intro rest
  rw [Step.bind_of_ok (remainingLength_holding _)]
  exact h _ rest (Nat.lt_succ_self _)

theorem Refuses.loop {m : Read (Option α)} {u : Bytes} {e : Fault}
    (h : Refuses o m u e) (t : Bytes) : LoopRefuses o m (u ++ t) e := by
  intro budget rest hbudget
  cases budget with
  | zero => cases hbudget
  | succ budget => exact (h.append t).bind _ rest

/-- A loop goes on behind a word that is read. -/
theorem LoopRefuses.cons {m : Read (Option α)} {L : Bytes → Option α → Prop}
    {u t : Bytes} {a : α} {e : Fault} (hm : Reads o m L) (hu : L u (some a))
    (hne : u ≠ []) (h : LoopRefuses o m t e) :
    LoopRefuses o m (u ++ t) e := by
  intro budget rest hbudget
  cases budget with
  | zero => cases hbudget
  | succ budget =>
      have hrun := (reads_iff.mp hm (u ++ (t ++ rest)) _ _).mpr
        ⟨u, t ++ rest, rfl, rfl, hu⟩
      have hshort : (t ++ rest).length < budget := by
        have := List.length_pos_iff.mpr hne
        simp only [List.length_append] at hbudget ⊢
        omega
      rw [List.append_assoc, Step.collect, Step.bind_of_ok hrun]
      obtain ⟨after, hlater⟩ :
          ∃ after, m.collect budget (holding o (t ++ rest)) =
          (.error e, after) := ⟨_, Prod.ext (h budget rest hshort) rfl⟩
      simp only [Step.bind_of_error hlater]

/-- A loop stops at the first word that is refused. -/
theorem Refuses.collect {m : Read (Option α)} {L : Bytes → Option α → Prop}
    (hm : Reads o m L) {word : γ → Bytes} {e : Fault} {xs : List γ}
    (h : ∀ x ∈ xs,
      (word x ≠ [] ∧ ∃ a, L (word x) (some a)) ∨ Refuses o m (word x) e)
    (hsome : ∃ x ∈ xs, Refuses o m (word x) e) (t : Bytes) :
    LoopRefuses o m (xs.flatMap word ++ t) e := by
  induction xs with
  | nil =>
      obtain ⟨x, hx, -⟩ := hsome
      cases hx
  | cons x xs ih =>
      rw [List.flatMap_cons, List.append_assoc]
      rcases h x (.head _) with ⟨hne, a, ha⟩ | hx
      · obtain ⟨y, hy, hrefused⟩ := hsome
        rcases List.mem_cons.mp hy with rfl | hy
        · exact hrefused.loop _
        · exact (ih (fun z hz => h z (.tail _ hz)) ⟨y, hy, hrefused⟩).cons
            hm ha hne
      · exact hx.loop _

/-- What a header counts is refused with the word in which the elements are. -/
theorem refuses_elements_known {a : Aggregate} {item : Read α}
    {streamed : Read (Option α)} {num w : Bytes} {n : Nat} {e : Fault}
    (hcount : Count num n) (h : Refuses o (item.times n) w e) :
    Refuses o (elements a item streamed) ((Kind.aggregate a).line num ++ w) e :=
  (reads_header a).bind_refuses (Or.inr ⟨num, n, rfl, hcount, rfl⟩) h

theorem refuses_elements_streamed {a : Aggregate} {item : Read α}
    {streamed : Read (Option α)} {w : Bytes} {e : Fault}
    (h : LoopRefuses o streamed w e) :
    Refuses o (elements a item streamed)
      ((Kind.aggregate a).streamHeader ++ w) e :=
  (reads_header a).bind_refuses (Or.inl ⟨rfl, rfl⟩) h.refuses

theorem Refuses.nested {item : Read α} {w : Bytes} {e : Fault}
    (h : Refuses o item w e) (he : e ≠ .endOfInput) :
    Refuses o (nested item) w e := by
  refine h.mapFault ?_
  cases e with
  | endOfInput => exact absurd rfl he
  | _ => rfl

theorem Refuses.pair {item : Read Value} {L : Bytes → Value → Prop}
    (hitem : Reads o item L) {t u : Bytes} {e : Fault} (he : e ≠ .endOfInput)
    (h : Refuses o item t e ∨ (∃ k, L t k) ∧ Refuses o item u e) :
    Refuses o (pair item) (t ++ u) e := by
  rcases h with hkey | ⟨⟨k, hk⟩, hvalue⟩
  · exact ((hkey.nested he).bind _).append u
  · exact (hitem.mapFault _).bind_refuses hk ((hvalue.nested he).bind _)

theorem Refuses.element? {item : Read α} {w : Bytes} {k : Kind} {e : Fault}
    (hw : Kind.Shows w k) (hk : k ≠ .close) (h : Refuses o item w e) :
    Refuses o (element? item) w e := by
  intro rest
  rw [Reader.element?,
    Step.bind_of_ok ((peek_mapFault_eq_ok_iff _ _ _ _).mpr ⟨rfl, hw rest⟩),
    if_neg hk]
  exact h.bind _ rest

theorem refuses_skipElements {a : Aggregate} {item : Read Kind}
    {L : Bytes → Kind → Prop} (hitem : Reads o item L) {e : Fault}
    (he : e ≠ .endOfInput) {word : γ → Bytes} {xs : List γ} {n : Nat}
    (hn : n * a.width = xs.length)
    (h : ∀ x ∈ xs, (∃ k, L (word x) k) ∨ Refuses o item (word x) e)
    (hsome : ∃ x ∈ xs, Refuses o item (word x) e) :
    Refuses o (skipElements a item (.known n)) (xs.flatMap word) e := by
  obtain ⟨x, hx, hrefused⟩ := hsome
  have hnested : Reads o (Reader.nested item) L := hitem.mapFault _
  rw [skipElements, hn]
  exact (Refuses.times hnested (fun x hx => (h x hx).imp_right (·.nested he))
    ⟨x, hx, hrefused.nested he⟩).bind _

end Reader

namespace Value

theorem exists_child_of_lt {v : Value} {n : Nat} (h : n < v.height) :
    ∃ c ∈ v.children, n ≤ c.height := by
  refine Classical.byContradiction fun hnone => ?_
  have hle : v.height ≤ n :=
    height_le_iff.mpr fun c hc => Nat.lt_of_not_le fun hn => hnone ⟨c, hc, hn⟩
  omega

end Value

namespace Reader

open Value

variable {o : Options} {v : Value}

theorem tooDeep_ne_endOfInput (n : Nat) :
    Fault.violation (.tooDeep n) ≠ .endOfInput :=
  nofun

theorem refuses_valueWithin (hline : v.OneLine) (hcount : v.Countable)
    (hsize : v.Fits o.limits) (levels depth : Nat)
    (h : depth + levels = o.maxDepth + 1) (hheight : levels ≤ v.height) :
    Refuses o (valueWithin levels) v.octets
      (.violation (.tooDeep o.maxDepth)) := by
  have he := tooDeep_ne_endOfInput o.maxDepth
  induction levels generalizing v depth with
  | zero => exact fun rest => rfl
  | succ levels ih =>
      have hitem := reads_valueWithin (o := o) levels (depth + 1) (by omega)
      have hchildren : ∀ c ∈ v.children,
          (∃ a, Nests o.limits (depth + 1) c.octets a) ∨
          Refuses o (valueWithin levels) c.octets
            (.violation (.tooDeep o.maxDepth)) := by
        intro c hc
        have hfits := hsize.child hc
        rcases Nat.lt_or_ge c.height levels with hlow | hhigh
        · refine Or.inl ⟨c.canonical, show depth + 1 ≤ o.maxDepth by omega, ?_⟩
          exact derives_octets (hline.child hc) (hcount.child hc) hfits
            (depth + 1) (show depth + 1 + c.height ≤ o.maxDepth by omega)
        · exact Or.inr
            (ih (hline.child hc) (hcount.child hc) hfits (depth + 1)
              (by omega) hhigh)
      obtain ⟨c, hc, hhigh⟩ := exists_child_of_lt hheight
      have hrefused :=
        ih (hline.child hc) (hcount.child hc) (hsize.child hc) (depth + 1)
        (by omega) hhigh
      have hcounts := hcount v (mem_parts_self v)
      cases v with
      | sequence s items =>
          have hn : Count (Decimal.ofNat items.length) items.length :=
            count_ofNat (hcounts _ rfl)
          have hnested : Reads o (nested (valueWithin levels)) _ :=
            hitem.mapFault _
          rw [octets_sequence hline, valueWithin]
          refine Refuses.select (hn.shows _ _)
            (Refuses.bind (refuses_elements_known hn ?_) _)
          exact Refuses.times hnested
            (fun c hc => (hchildren c hc).imp_right (·.nested he))
            ⟨c, hc, hrefused.nested he⟩
      | pairing p pairs =>
          have hn : Count (Decimal.ofNat pairs.length) pairs.length :=
            count_ofNat (hcounts _ rfl)
          have hkey : ∀ x ∈ pairs, _ := fun x hx =>
            hchildren x.1 (mem_flat.mpr ⟨x, hx, Or.inl rfl⟩)
          have hvalue : ∀ x ∈ pairs, _ := fun x hx =>
            hchildren x.2 (mem_flat.mpr ⟨x, hx, Or.inr rfl⟩)
          rw [octets_pairing hline, flatMap_flat, valueWithin]
          refine Refuses.select (hn.shows _ _)
            (Refuses.bind (refuses_elements_known hn ?_) _)
          refine Refuses.times (reads_pair hitem) (fun x hx => ?_) ?_
          · rcases hkey x hx with ⟨a, ha⟩ | hdeep
            · rcases hvalue x hx with ⟨b, hb⟩ | hdeep
              · exact Or.inl ⟨(a, b), _, _, rfl, ha, hb⟩
              · exact Or.inr (.pair hitem he (Or.inr ⟨⟨a, ha⟩, hdeep⟩))
            · exact Or.inr (.pair hitem he (Or.inl hdeep))
          · obtain ⟨x, hx, rfl | rfl⟩ := mem_flat.mp hc
            · exact ⟨x, hx, .pair hitem he (Or.inl hrefused)⟩
            · refine ⟨x, hx, .pair hitem he ?_⟩
              exact (hkey x hx).elim (fun ha => Or.inr ⟨ha, hrefused⟩) Or.inl
      | _ => cases hc

theorem refuses_skipWithin (hline : v.OneLine) (hcount : v.Countable)
    (hsize : v.Fits o.limits) (levels : Nat) (hheight : levels ≤ v.height) :
    Refuses o (skipWithin true levels) v.octets
      (.violation (.tooDeep o.maxDepth)) := by
  have he := tooDeep_ne_endOfInput o.maxDepth
  induction levels generalizing v with
  | zero => exact fun rest => rfl
  | succ levels ih =>
      have hitem := reads_skipWithin (o := o) levels
      have hchildren : ∀ c ∈ v.children,
          (∃ k, Skips o.limits levels c.octets k) ∨
          Refuses o (skipWithin true levels) c.octets
            (.violation (.tooDeep o.maxDepth)) := by
        intro c hc
        have hfits := hsize.child hc
        rcases Nat.lt_or_ge c.height levels with hlow | hhigh
        · exact Or.inl
            ⟨_, skips_octets (hline.child hc) (hcount.child hc) hfits
              levels hlow⟩
        · exact Or.inr (ih (hline.child hc) (hcount.child hc) hfits hhigh)
      have hsome : ∃ c ∈ v.children, Refuses o (skipWithin true levels) c.octets
          (.violation (.tooDeep o.maxDepth)) := by
        obtain ⟨c, hc, hhigh⟩ := exists_child_of_lt hheight
        exact ⟨c, hc, ih (hline.child hc) (hcount.child hc)
          (hsize.child hc) hhigh⟩
      have hcounts := hcount v (mem_parts_self v)
      cases v with
      | sequence s items =>
          have hn : Count (Decimal.ofNat items.length) items.length :=
            count_ofNat (hcounts _ rfl)
          rw [octets_sequence hline, skipWithin]
          refine Refuses.select (hn.shows _ _) ?_
          refine Reads.bind_refuses (reads_header _)
            (Or.inr ⟨_, _, rfl, hn, rfl⟩) ?_
          refine Refuses.bind ?_ _
          exact refuses_skipElements hitem he (Nat.mul_one _) hchildren hsome
      | pairing p pairs =>
          have hn : Count (Decimal.ofNat pairs.length) pairs.length :=
            count_ofNat (hcounts _ rfl)
          rw [octets_pairing hline, skipWithin]
          refine Refuses.select (hn.shows _ _) ?_
          refine Reads.bind_refuses (reads_header _)
            (Or.inr ⟨_, _, rfl, hn, rfl⟩) ?_
          refine Refuses.bind ?_ _
          exact refuses_skipElements hitem he (length_flat pairs).symm
            hchildren hsome
      | _ =>
          obtain ⟨c, hc, -⟩ := hsome
          cases hc

/-- Where a reader that holds everything refuses a word, every reader with the
same octets to come does. -/
theorem Refuses.of_steady {α : Type} {m : Read α}
    (hsteady : Step.Steady lockstep m) {r : Reader} {w : Bytes} {e : Fault}
    (hm : Refuses r.options m w e)
    (he : ∀ size limit, e ≠ .violation (.tooLarge size limit)) (h : r.feed.Calm)
    {rest : Bytes} (hr : r.remaining = w ++ rest) : (m r).1 = .error e :=
  error_of_holding hsteady h (by rw [hr]; exact hm rest) he

end Reader

end RespWire

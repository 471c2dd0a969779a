import RespWire.Proofs.Refusing

/-!
# Where a skip goes further than a read

A deep skip passes elements one at a time and does not ask what they are for. A
read does: it has no use for a chunk or a close where a value is due, and where
pairs are expected it has no use for a key without a value. In every other
respect the two take the same words.

So what a deep skip passes is either read, or stops the read at the first chunk
or close that it cannot place. Nothing has to be said about the kind of what is
read: a word shows its kind, and the skip and the read look at the same word.
-/

namespace RespWire

namespace Reader

variable {α β : Type} {o : Options} {w : Bytes} {ks : List Kind}

/-- The fault of a chunk or a close where a value is due. -/
def Misplaced (e : Fault) : Prop :=
  ∃ marker,
    (marker = .chunk ∨ marker = .close) ∧ e = .violation (.misplaced marker)

theorem Misplaced.ne_endOfInput {e : Fault} (h : Misplaced e) :
    e ≠ .endOfInput := by
  obtain ⟨marker, -, rfl⟩ := h
  exact nofun

/-- Either `P`, or `Q` of the fault of a misplaced chunk or close. -/
def OrMisplaced (P : Prop) (Q : Fault → Prop) : Prop :=
  P ∨ ∃ e, Misplaced e ∧ Q e

theorem OrMisplaced.imp {P P' : Prop} {Q Q' : Fault → Prop}
    (h : OrMisplaced P Q) (hP : P → P') (hQ : ∀ e, Misplaced e → Q e → Q' e) :
    OrMisplaced P' Q' :=
  Or.imp hP (fun ⟨e, he, h⟩ => ⟨e, he, hQ e he h⟩) h

theorem OrMisplaced.nested {item : Read α} {w : Bytes} {P : Prop}
    (h : OrMisplaced P (Refuses o item w)) :
    OrMisplaced P (Refuses o (nested item) w) :=
  h.imp id fun _ he h => h.nested he.ne_endOfInput

/-! ## Elements -/

theorem orMisplaced_times {m : Read α} {N : Bytes → α → Prop} (hm : Reads o m N)
    {L : Bytes → β → Prop}
    (hL : ∀ w b, L w b → OrMisplaced (∃ a, N w a) (Refuses o m w)) {w : Bytes}
    {bs : List β} (h : Many L w bs) :
    OrMisplaced (∃ as : List α, as.length = bs.length ∧ Many N w as)
      (Refuses o (m.times bs.length) w) := by
  induction h with
  | nil => exact Or.inl ⟨[], rfl, .nil⟩
  | @cons u w b bs hu hlater ih =>
      rcases hL u b hu with ⟨a, ha⟩ | ⟨e, he, hrefused⟩
      · rcases ih with ⟨as, hlength, has⟩ | ⟨e, he, hrefused⟩
        · exact Or.inl ⟨a :: as, congrArg Nat.succ hlength, .cons ha has⟩
        · exact Or.inr ⟨e, he, hm.bind_refuses ha (hrefused.bind _)⟩
      · exact Or.inr ⟨e, he, (hrefused.bind _).append w⟩

theorem orMisplaced_pair {item : Read Value} {N : Bytes → Value → Prop}
    (hitem : Reads o item N) {t u : Bytes}
    (hkey : OrMisplaced (∃ k, N t k) (Refuses o item t))
    (hvalue : OrMisplaced (∃ v, N u v) (Refuses o item u)) :
    OrMisplaced (∃ x, Both N (t ++ u) x) (Refuses o (pair item) (t ++ u)) := by
  rcases hkey with ⟨k, hk⟩ | ⟨e, he, hrefused⟩
  · refine hvalue.imp (fun ⟨v, hv⟩ => ⟨(k, v), t, u, rfl, hk, hv⟩)
      fun e he hrefused => ?_
    exact .pair hitem he.ne_endOfInput (Or.inr ⟨⟨k, hk⟩, hrefused⟩)
  · exact Or.inr ⟨e, he, .pair hitem he.ne_endOfInput (Or.inl hrefused)⟩

/-- An even number of words, two at a time. -/
theorem Many.twos {L : Bytes → β → Prop} :
    ∀ {n : Nat} {w : Bytes} {bs : List β}, Many L w bs →
    bs.length = n * 2 → ∃ xs : List (β × β), xs.length = n ∧
      Many (fun w x => ∃ t u, w = t ++ u ∧ L t x.1 ∧ L u x.2) w xs
  | 0, _, [], h, _ => ⟨[], rfl, many_nil_iff.mpr (many_nil_iff.mp h)⟩
  | n + 1, _, a :: b :: bs, h, hn => by
      obtain ⟨t, _, rfl, ht, htail⟩ := many_cons_iff.mp h
      obtain ⟨u, w, rfl, hu, hlater⟩ := many_cons_iff.mp htail
      obtain ⟨xs, hlength, hxs⟩ := hlater.twos (n := n) (by
        simp only [List.length_cons] at hn
        omega)
      rw [← List.append_assoc]
      exact ⟨(a, b) :: xs, congrArg Nat.succ hlength,
        .cons ⟨t, u, rfl, ht, hu⟩ hxs⟩
  | n + 1, _, [_], _, hn => absurd hn (by rw [List.length_singleton]; omega)
  | n + 1, _, [], _, hn => absurd hn (by rw [List.length_nil]; omega)
  | 0, _, _ :: _, _, hn => absurd hn (by simp)

/-! ## Streams

The close behind the last element is a word of its own, and for the elements of
a sequence it ends the loop. Between a key and its value it does not. -/

variable {item : Read Value} {N : Bytes → Value → Prop}
  {L : Bytes → Kind → Prop}

theorem orMisplaced_stream (hitem : Reads o item N)
    (hN : ∀ w v, N w v → ∃ k, k ≠ .close ∧ Kind.Shows w k)
    (hL : ∀ w k, L w k → k ≠ .close ∧ Kind.Shows w k ∧
      OrMisplaced (∃ v, N w v) (Refuses o item w))
    (h : Many L w ks) :
    OrMisplaced (∃ vs, Many N w vs)
      (LoopRefuses o (element? (nested item)) (w ++ Marker.close)) := by
  induction h with
  | nil => exact Or.inl ⟨[], .nil⟩
  | @cons u w k ks hu hlater ih =>
      obtain ⟨hk, hshows, hsettled⟩ := hL u k hu
      rw [List.append_assoc]
      rcases hsettled.nested with ⟨v, hv⟩ | ⟨e, he, hrefused⟩
      · refine ih.imp (fun ⟨vs, hvs⟩ => ⟨v :: vs, .cons hv hvs⟩)
          fun e he hrefused => ?_
        exact hrefused.cons (reads_element? (hitem.mapFault _) hN)
          (Or.inr ⟨v, rfl, hv⟩) hshows.ne_nil
      · exact Or.inr ⟨e, he, (hrefused.element? hshows hk).loop _⟩

theorem refuses_pair?_of_key {t : Bytes} {k : Kind} {e : Fault}
    (hshows : Kind.Shows t k) (hk : k ≠ .close) (he : e ≠ .endOfInput)
    (h : Refuses o item t e) :
    Refuses o (pair? item) t e :=
  ((h.nested he).element? hshows hk).bind _

theorem refuses_pair?_of_value (hitem : Reads o item N)
    (hN : ∀ w v, N w v → ∃ k, k ≠ .close ∧ Kind.Shows w k) {t u : Bytes}
    {key : Value} {e : Fault} (hkey : N t key) (he : e ≠ .endOfInput)
    (h : Refuses o item u e) :
    Refuses o (pair? item) (t ++ u) e :=
  (reads_element? (hitem.mapFault _) hN).bind_refuses (Or.inr ⟨key, rfl, hkey⟩)
    ((h.nested he).bind _)

/-- The elements of a stream of pairs are taken two at a time, and the close
stops the read where it comes for a value. -/
theorem orMisplaced_pairStream (hitem : Reads o item N)
    (hN : ∀ w v, N w v → ∃ k, k ≠ .close ∧ Kind.Shows w k)
    (hL : ∀ w k, L w k → k ≠ .close ∧ Kind.Shows w k ∧
      OrMisplaced (∃ v, N w v) (Refuses o item w))
    (hclose : ∃ e, Misplaced e ∧ Refuses o item Marker.close e) :
    ∀ {ks : List Kind} {w : Bytes}, Many L w ks →
      OrMisplaced (∃ xs, Many (Both N) w xs)
        (LoopRefuses o (pair? item) (w ++ Marker.close))
  | [], _, h => Or.inl ⟨[], many_nil_iff.mpr (many_nil_iff.mp h)⟩
  | [k], _, h => by
      obtain ⟨t, _, rfl, ht, hnil⟩ := many_cons_iff.mp h
      obtain rfl := many_nil_iff.mp hnil
      obtain ⟨hk, hshows, hkey⟩ := hL t k ht
      rw [List.append_nil]
      rcases hkey with ⟨key, hkey⟩ | ⟨e, he, hrefused⟩
      · obtain ⟨e, he, hrefused⟩ := hclose
        have hpair :=
          refuses_pair?_of_value hitem hN hkey he.ne_endOfInput hrefused
        exact Or.inr
          ⟨e, he, List.append_nil (t ++ Marker.close) ▸ hpair.loop []⟩
      · exact Or.inr
          ⟨e, he,
            (refuses_pair?_of_key hshows hk he.ne_endOfInput hrefused).loop _⟩
  | k :: k' :: ks, _, h => by
      obtain ⟨t, _, rfl, ht, htail⟩ := many_cons_iff.mp h
      obtain ⟨u, w, rfl, hu, hlater⟩ := many_cons_iff.mp htail
      obtain ⟨hk, hshows, hkey⟩ := hL t k ht
      obtain ⟨-, -, hvalue⟩ := hL u k' hu
      rcases hkey with ⟨key, hkey⟩ | ⟨e, he, hrefused⟩
      · rw [← List.append_assoc, List.append_assoc (t ++ u)]
        rcases hvalue with ⟨v, hv⟩ | ⟨e, he, hrefused⟩
        · have hboth : Both N (t ++ u) (key, v) := ⟨t, u, rfl, hkey, hv⟩
          refine (orMisplaced_pairStream hitem hN hL hclose hlater).imp
            (fun ⟨xs, hxs⟩ => ⟨(key, v) :: xs, .cons hboth hxs⟩)
              fun e he hrefused => ?_
          exact hrefused.cons (reads_pair? hitem hN) (Or.inr ⟨_, rfl, hboth⟩)
            fun hnil => hshows.ne_nil (List.append_eq_nil_iff.mp hnil).1
        · exact Or.inr ⟨e, he,
            (refuses_pair?_of_value hitem hN hkey he.ne_endOfInput
              hrefused).loop _⟩
      · rw [List.append_assoc]
        exact Or.inr
          ⟨e, he,
            (refuses_pair?_of_key hshows hk he.ne_endOfInput hrefused).loop _⟩

/-! ## Values -/

section Branches

variable {inner : Bytes → Kind → Prop} {depth n : Nat} {num : Bytes}
  {levels : Nat}

/-- Each word that a skip passes a level deeper is read there, or stops the
read. -/
def Settled (o : Options) (inner : Bytes → Kind → Prop) (levels depth : Nat) :
    Prop :=
  ∀ w k, inner w k →
    OrMisplaced (∃ v, Nests o.limits depth w v)
      (Refuses o (valueWithin levels) w)

theorem orMisplaced_counted (hlevels : depth + levels = o.maxDepth)
    (a : Aggregate) (hinner : Settled o inner levels (depth + 1))
    (hcount : Count num n) (hlength : ks.length = n * a.width)
    (h : Many inner w ks) :
    OrMisplaced
      (∃ v, Derives o.limits depth ((Kind.aggregate a).line num ++ w) v)
      (Refuses o (valueWithin (levels + 1))
        ((Kind.aggregate a).line num ++ w)) := by
  have hitem := reads_valueWithin (o := o) levels (depth + 1) (by omega)
  have hshows := hcount.shows (.aggregate a) w
  cases a with
  | sequence s =>
      have hn : ks.length = n := hlength.trans (Nat.mul_one n)
      have hnested : Reads o (nested (valueWithin levels)) _ := hitem.mapFault _
      refine (orMisplaced_times hnested (fun w k hw => (hinner w k hw).nested)
        h).imp ?_ ?_
      · rintro ⟨items, hitems, hmany⟩
        rw [hn] at hitems
        exact ⟨.sequence s items,
          .sequence (hitems ▸ hcount) (many_nests_iff.mp hmany)⟩
      · intro e he hrefused
        rw [hn] at hrefused
        exact .select hshows ((refuses_elements_known hcount hrefused).bind _)
  | pairing p =>
      obtain ⟨xs, hxs, htwos⟩ := h.twos hlength
      refine (orMisplaced_times (reads_pair hitem) (fun w x hw => ?_) htwos).imp
        ?_ ?_
      · obtain ⟨t, u, rfl, ht, hu⟩ := hw
        exact orMisplaced_pair hitem (hinner t _ ht) (hinner u _ hu)
      · rintro ⟨pairs, hpairs, hmany⟩
        rw [hxs] at hpairs
        exact ⟨.pairing p pairs,
          .pairing (hpairs ▸ hcount) (many_both_iff.mp hmany)⟩
      · intro e he hrefused
        rw [hxs] at hrefused
        exact .select hshows ((refuses_elements_known hcount hrefused).bind _)

theorem orMisplaced_opened (hlevels : depth + levels = o.maxDepth)
    (a : Aggregate) (hinner : Settled o inner levels (depth + 1))
    (hshows : ∀ w k, inner w k → Kind.Shows w k)
    (h : Many (fun w k => inner w k ∧ k ≠ .close) w ks)
    (hclose : inner Marker.close .close) :
    OrMisplaced
      (∃ v, Derives o.limits depth
        ((Kind.aggregate a).streamHeader ++ (w ++ Marker.close)) v)
      (Refuses o (valueWithin (levels + 1))
        ((Kind.aggregate a).streamHeader ++ (w ++ Marker.close))) := by
  have hitem := reads_valueWithin (o := o) levels (depth + 1) (by omega)
  have hheader := Kind.shows_streamHeader (.aggregate a) (w ++ Marker.close)
  have hN : ∀ w v,
      Nests o.limits (depth + 1) w v → ∃ k, k ≠ .close ∧ Kind.Shows w k :=
    fun w v hv => hv.shows
  have hL : ∀ w k, inner w k ∧ k ≠ .close → k ≠ .close ∧ Kind.Shows w k ∧ _ :=
    fun w k hw => ⟨hw.2, hshows w k hw.1, hinner w k hw.1⟩
  cases a with
  | sequence s =>
      refine (orMisplaced_stream hitem hN hL h).imp ?_ ?_
      · rintro ⟨items, hmany⟩
        exact ⟨.sequence s items, .openSequence (many_nests_iff.mp hmany)⟩
      · intro e he hrefused
        exact .select hheader ((refuses_elements_streamed hrefused).bind _)
  | pairing p =>
      -- a close is no value, so where it is not read it stops the read
      have hstop : ∃ e, Misplaced e ∧
          Refuses o (valueWithin levels) Marker.close e := by
        refine (hinner _ _ hclose).resolve_left ?_
        rintro ⟨v, -, hv⟩
        have hkind :=
          Except.ok.inj ((hv.shows []).symm.trans (hshows _ _ hclose []))
        exact v.kind_ne_close hkind
      refine (orMisplaced_pairStream hitem hN hL hstop h).imp ?_ ?_
      · rintro ⟨pairs, hmany⟩
        exact ⟨.pairing p pairs, .openPairing (many_both_iff.mp hmany)⟩
      · intro e he hrefused
        exact .select hheader ((refuses_elements_streamed hrefused).bind _)

end Branches

/-- What a deep skip passes is read, or refused for a misplaced chunk or
close. -/
theorem orMisplaced_valueWithin (levels depth : Nat)
    (hlevels : depth + levels = o.maxDepth + 1) {w : Bytes} {k : Kind}
    (hw : Skips o.limits levels w k) :
    OrMisplaced (∃ v, Nests o.limits depth w v)
      (Refuses o (valueWithin levels) w) := by
  induction levels generalizing depth w k with
  | zero => exact hw.elim
  | succ levels ih =>
      have hdepth : depth ≤ o.limits.depth := show depth ≤ o.maxDepth by omega
      have hinner : Settled o (Skips o.limits levels) levels (depth + 1) :=
        fun w k h => ih (depth + 1) (by omega) h
      have hderives : OrMisplaced (∃ v, Derives o.limits depth w v)
          (Refuses o (valueWithin (levels + 1)) w) := by
        cases hw with
        | flat h =>
            cases h with
            | blob h => exact Or.inl ⟨_, .blob h⟩
            | simple hlf hsize => exact Or.inl ⟨_, .simple hlf hsize⟩
            | verbatim h => exact Or.inl ⟨_, .verbatim h⟩
            | bigNumber hn hsize => exact Or.inl ⟨_, .bigNumber hn hsize⟩
            | boolean b => exact Or.inl ⟨_, .boolean b⟩
            | double hx hsize => exact Or.inl ⟨_, .double hx hsize⟩
            | integer hn hfits => exact Or.inl ⟨_, .integer hn hfits⟩
            | null => exact Or.inl ⟨_, .null⟩
            | nullArray => exact Or.inl ⟨_, .nullArray⟩
            | nullBlob => exact Or.inl ⟨_, .nullBlob⟩
            | close =>
                have hshows : Kind.Shows Marker.close .close :=
                  Passes.close.shows (l := o.limits)
                exact Or.inr
                  ⟨_, ⟨.close, Or.inr rfl, rfl⟩, .select hshows fun rest => rfl⟩
        | openBlob h => exact Or.inl ⟨_, .openBlob h⟩
        | chunks h =>
            exact Or.inr
              ⟨_, ⟨.chunk, Or.inl rfl, rfl⟩, .select h.shows fun rest => rfl⟩
        | counted hcount hlength h =>
            exact orMisplaced_counted (by omega) _ hinner hcount hlength h
        | opened h hclose =>
            obtain rfl := hclose.eq_close
            exact orMisplaced_opened (by omega) _ hinner (fun w k h => h.shows)
              h hclose
      exact hderives.imp (fun ⟨v, hv⟩ => ⟨v, hdepth, hv⟩) fun _ _ h => h

/-- After a deep skip a read from the same state finds a value of the same kind
and leaves the same octets, or it is refused for a chunk or a close where a
value is due. -/
theorem value_of_skip_ok {r after : Reader} {k : Kind} (h : r.feed.Calm)
    (hskip : skip true r = (.ok k, after)) :
    (∃ v after', value r = (.ok v, after') ∧ v.kind = k ∧
      after'.remaining = after.remaining) ∨
    ∃ marker, (marker = .chunk ∨ marker = .close) ∧
      (value r).1 = .error (.violation (.misplaced marker)) := by
  obtain ⟨w, hr, hw⟩ :=
    (reads_skip.accepts_iff (steady_skip true) h k after.remaining).mp
    ⟨after, hskip, rfl⟩
  rcases orMisplaced_valueWithin (r.options.maxDepth + 1) 0
    (Nat.zero_add _) hw with
    ⟨v, -, hv⟩ | ⟨_, ⟨marker, hmarker, rfl⟩, hrefused⟩
  · left
    obtain ⟨after', hvalue, hrest⟩ :=
      (reads_value.accepts_iff steady_value h v after.remaining).mpr ⟨w, hr, hv⟩
    have hkind : v.kind = k :=
      Except.ok.inj ((hv.shows []).symm.trans (hw.shows []))
    exact ⟨v, after', hvalue, hkind, hrest⟩
  · right
    have hvalue : Refuses r.options value w _ := hrefused
    exact ⟨marker, hmarker, hvalue.of_steady steady_value nofun h hr⟩

/-- A stream of pairs with a key too many, in pieces and interrupted: it is
skipped, and reading it stops at the close. -/
theorem value_of_skip_ok_odd :
    let r : Reader := ⟨⟨[.piece (Bytes.ofChars "?\r\n+k\r\n:1\r\n+".toList),
        .failure ⟨.interrupted, "signal"⟩,
          .piece (Bytes.ofChars "j\r\n.\r\n_".toList)], some 2⟩,
        {}, Bytes.ofChars ['%']⟩
    r.feed.Calm ∧ (skip true r).1 = .ok .map ∧
      ∃ marker, (marker = .chunk ∨ marker = .close) ∧
        (value r).1 = .error (.violation (.misplaced marker)) := by
  intro r
  have hcalm : r.feed.Calm := by decide
  have hskip : (skip true r).1 = .ok .map := by decide +kernel
  have hfails : (value r).1.isOk = false := by decide +kernel
  refine ⟨hcalm, hskip,
    (value_of_skip_ok hcalm (Prod.ext hskip rfl)).resolve_left ?_⟩
  rintro ⟨v, after', hok, -⟩
  rw [hok] at hfails
  cases hfails

end Reader

end RespWire

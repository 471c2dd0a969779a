import RespWire.Proofs.Scalars
import RespWire.Proofs.Steady

/-!
# Reading a value accepts exactly the grammar

The language of reading a value is what the grammar derives. The levels left to
the reader and the depth in the grammar are two ends of one measure, so the
proof goes by the levels and for each level by the kind that comes next.

Which branch is taken is settled by a look ahead, and a look ahead sees more
than the word: where a count may follow, it looks for the null of the earlier
protocol version. So a word has to show its kind whatever stands behind it,
`Kind.Shows`, and every word of the grammar does.

The language is computed for readers that hold everything. Reads are steady,
so what is accepted and what is left is the same for every reader with the
same octets to come.
-/

namespace RespWire

/-- A word that is taken for a value of the kind, whatever follows. -/
def Kind.Shows (w : Bytes) (k : Kind) : Prop :=
  ∀ rest, Kind.ofFront (w ++ rest) = .ok k

theorem Kind.Shows.ne_nil {w : Bytes} {k : Kind} (h : Kind.Shows w k) :
    w ≠ [] :=
  fun hnil => by
  have := h []
  rw [hnil] at this
  cases this

theorem Kind.shows_of_notPrefix {k : Kind} {t : Bytes}
    (h : ∀ form,
      k.earlierNull? = some form → ∀ rest, ¬ form <+: k.lead :: t ++ rest) :
    Kind.Shows (k.lead :: t) k := by
  intro rest
  rw [List.cons_append, Kind.ofFront, Kind.ofLead?_lead]
  simp only
  cases hk : k.earlierNull? with
  | none => rfl
  | some form =>
      have hp := h form hk rest
      rw [if_neg (by simpa using hp)]

theorem Kind.shows_of_lead {k : Kind} (h : k.earlierNull? = none) (t : Bytes) :
    Kind.Shows (k.lead :: t) k :=
  Kind.shows_of_notPrefix fun form hform => by
    rw [h] at hform
    cases hform

theorem Kind.shows_streamHeader (k : Kind) (t : Bytes) :
    Kind.Shows (k.streamHeader ++ t) k := by
  refine Kind.shows_of_notPrefix fun form hform rest hprefix => ?_
  rw [Kind.eq_of_earlierNull? hform] at hprefix
  obtain ⟨u, hu⟩ := hprefix
  exact absurd (List.cons.inj (List.cons.inj hu).2).1 (by decide)

/-- A count does not denote minus one. -/
theorem Count.shows {num : Bytes} {n : Nat} (h : Count num n) (k : Kind)
    (t : Bytes) :
    Kind.Shows (k.line num ++ t) k := by
  refine Kind.shows_of_notPrefix fun form hform rest hprefix => ?_
  rw [Kind.eq_of_earlierNull? hform] at hprefix
  obtain ⟨u, hu⟩ := hprefix
  have hnum : Decimal.minus :: '1'.toUInt8 :: Bytes.cr :: Bytes.lf :: u =
      num ++ Bytes.crlf ++ t ++ rest := (List.cons.inj hu).2
  rw [List.append_assoc, List.append_assoc] at hnum
  obtain ⟨hnumeral, -⟩ := h
  generalize hn : (n : Int) = m at hnumeral
  cases hnumeral with
  | plain hds =>
      cases num with
      | nil => exact hds.ne_nil rfl
      | cons d ds =>
          obtain ⟨rfl, -⟩ := List.cons.inj hnum
          exact absurd (hds.isDigit _ (.head _)) (by decide)
  | negative hds =>
      rw [hds.eq_singleton (List.cons.inj hnum).2] at hn
      have hone : Decimal.value ['1'.toUInt8] = 1 := by decide
      omega

theorem Counted.shows {l : Limits} {k : Kind} {w octets : Bytes}
    (h : Counted l k w octets) :
    Kind.Shows w k := by
  obtain ⟨num, hcount, -, rfl⟩ := h
  exact hcount.shows k _

/-- Every word of the grammar shows the kind of its value. -/
theorem Derives.shows {l : Limits} {depth : Nat} {w : Bytes} {v : Value}
    (h : Derives l depth w v) : Kind.Shows w v.kind := by
  cases h with
  | sequence hcount hitems => exact hcount.shows _ _
  | openSequence hitems => exact Kind.shows_streamHeader _ _
  | pairing hcount hpairs => exact hcount.shows _ _
  | openPairing hpairs => exact Kind.shows_streamHeader _ _
  | blob h => exact h.shows
  | openBlob h => exact Kind.shows_streamHeader _ _
  | simple hlf hsize => exact Kind.shows_of_lead rfl _
  | verbatim h => exact h.shows
  | bigNumber hn hsize => exact Kind.shows_of_lead rfl _
  | boolean b => cases b <;> exact Kind.shows_of_lead (k := .boolean) rfl _
  | double hx hsize => exact Kind.shows_of_lead rfl _
  | integer hn hfits => exact Kind.shows_of_lead rfl _
  | null => exact Kind.shows_of_lead (k := .null) rfl _
  | nullArray => exact fun rest => rfl
  | nullBlob => exact fun rest => rfl

theorem Value.kind_ne_chunk (v : Value) : v.kind ≠ .chunk := by
  cases v <;> exact nofun

theorem Value.kind_ne_close (v : Value) : v.kind ≠ .close := by
  cases v <;> exact nofun

namespace Reader

variable {α : Type} {o : Options}

/-- Words that show which branch they are for select it. -/
theorem Reads.select {look : Read Kind} {f : Kind → Read α}
    {M : Kind → Bytes → α → Prop}
    (hlook : ∀ s k after, look (holding o s) = (.ok k, after) ↔
      after = holding o s ∧ Kind.ofFront s = .ok k)
    (hf : ∀ k, Reads o (f k) (M k))
    (hM : ∀ k w a, M k w a → ∃ k', Kind.Shows w k') :
    Reads o (look >>= f) fun w a => ∃ k, Kind.Shows w k ∧ M k w a := by
  refine reads_iff.mpr fun s a after => ?_
  rw [Step.bind_eq_ok]
  refine ⟨fun hleft => ?_, fun hright => ?_⟩
  · obtain ⟨k, mid, hk, hfa⟩ := hleft
    obtain ⟨rfl, hfront⟩ := (hlook s k mid).mp hk
    obtain ⟨w, rest, rfl, rfl, hMw⟩ := (reads_iff.mp (hf k) s a after).mp hfa
    obtain ⟨k', hshows⟩ := hM k w a hMw
    have hkk : k' = k := Except.ok.inj ((hshows rest).symm.trans hfront)
    exact ⟨w, rest, rfl, rfl, k, hkk ▸ hshows, hMw⟩
  · obtain ⟨w, rest, rfl, rfl, k, hshows, hMw⟩ := hright
    exact ⟨k, holding o (w ++ rest), (hlook _ _ _).mpr ⟨rfl, hshows rest⟩,
      (reads_iff.mp (hf k) _ _ _).mpr ⟨w, rest, rfl, rfl, hMw⟩⟩

theorem peek_eq_ok_iff (s : Bytes) (k : Kind) (after : Reader) :
    peek (holding o s) = (.ok k, after) ↔ after = holding o s ∧
      Kind.ofFront s = .ok k := by
  rw [peek_holding, Prod.mk.injEq, and_comm, eq_comm (a := holding o s)]

theorem peek_mapFault_eq_ok_iff (change : Fault → Fault) (s : Bytes) (k : Kind)
    (after : Reader) :
    peek.mapFault change (holding o s) = (.ok k, after) ↔
      after = holding o s ∧ Kind.ofFront s = .ok k := by
  rw [← peek_eq_ok_iff, Step.mapFault]
  cases peek (holding o s) with
  | mk result mid => cases result <;> simp

/-! ## Elements -/

/-- Words of `L` one behind the other. -/
inductive Many (L : Bytes → α → Prop) : Bytes → List α → Prop where
  | nil : Many L [] []
  | cons {u w : Bytes} {a : α} {as : List α} (h : L u a)
      (hlater : Many L w as) :
      Many L (u ++ w) (a :: as)

theorem many_nil_iff {L : Bytes → α → Prop} {w : Bytes} :
    Many L w [] ↔ w = [] := by
  refine ⟨fun h => ?_, fun h => h ▸ .nil⟩
  cases h
  rfl

theorem many_cons_iff {L : Bytes → α → Prop} {w : Bytes} {a : α} {as : List α} :
    Many L w (a :: as) ↔ ∃ u t, w = u ++ t ∧ L u a ∧ Many L t as := by
  refine ⟨fun h => ?_, fun hright => ?_⟩
  · cases h with
    | cons h hlater => exact ⟨_, _, rfl, h, hlater⟩
  · obtain ⟨u, t, rfl, h, hlater⟩ := hright
    exact .cons h hlater

theorem Many.map {L : Bytes → α → Prop} {M : Bytes → β → Prop} {as : List α}
    (f : α → β) (hf : ∀ w a, L w a → M w (f a)) (h : Many L w as) :
    Many M w (as.map f) := by
  induction h with
  | nil => exact .nil
  | cons h hlater ih => exact .cons (hf _ _ h) ih

theorem Many.mono {L M : Bytes → α → Prop} {w : Bytes} {as : List α}
    (hL : ∀ w a, L w a → M w a) (h : Many L w as) : Many M w as := by
  simpa using h.map id hL

theorem repeated_iff {L : Bytes → α → Prop} {Last : Bytes → Prop} {w p : Bytes}
    {as : List α} :
    Step.Repeated (fun w p => p = [] ∧ Last w) (fun w a p => p = [] ∧ L w a)
      w as p ↔ p = [] ∧ ∃ u t, w = u ++ t ∧ Many L u as ∧ Last t := by
  refine ⟨fun h => ?_, fun hright => ?_⟩
  · induction h with
    | last h => exact ⟨h.1, [], _, rfl, .nil, h.2⟩
    | more h hlater ih =>
        obtain ⟨rfl, hL⟩ := h
        obtain ⟨rfl, u, t, rfl, hmany, hlast⟩ := ih
        exact ⟨rfl, _, t, (List.append_assoc _ _ _).symm, .cons hL hmany, hlast⟩
  · obtain ⟨rfl, u, t, rfl, hmany, hlast⟩ := hright
    induction hmany with
    | nil => exact .last ⟨rfl, hlast⟩
    | cons hL hlater ih =>
        rw [List.append_assoc]
        exact .more (p := []) ⟨rfl, hL⟩ ih

theorem Reads.times {m : Read α} {L : Bytes → α → Prop} (hm : Reads o m L)
    (n : Nat) :
    Reads o (m.times n) fun w as => as.length = n ∧ Many L w as := by
  refine (Step.Accepts.times hm n).congr fun w as p => ?_
  rw [repeated_iff]
  refine ⟨fun hleft => ?_, fun hright => ?_⟩
  · obtain ⟨hlength, hp, u, _, rfl, hmany, rfl⟩ := hleft
    exact ⟨hp, hlength, by rw [List.append_nil]; exact hmany⟩
  · obtain ⟨hp, hlength, hmany⟩ := hright
    exact ⟨hlength, hp, w, [], (List.append_nil w).symm, hmany, rfl⟩

/-- One turn of a loop, as the rule for loops has it. -/
theorem Reads.turn {m : Read (Option α)} {L : Bytes → α → Prop}
    {Last : Bytes → Prop}
    (hm : Reads o m fun w found =>
      (found = none ∧ Last w) ∨ ∃ a, found = some a ∧ L w a) :
    Step.Accepts (fun s _ => holding o s) m fun w found p =>
      (found = none ∧ p = [] ∧ Last w) ∨
        ∃ a, found = some a ∧ p = [] ∧ L w a := by
  refine Step.Accepts.congr hm fun w found p => ?_
  refine ⟨fun hleft => ?_, fun hright => ?_⟩
  · obtain ⟨rfl, ⟨rfl, hlast⟩ | ⟨a, rfl, hL⟩⟩ := hleft
    · exact Or.inl ⟨rfl, rfl, hlast⟩
    · exact Or.inr ⟨a, rfl, rfl, hL⟩
  · obtain ⟨rfl, rfl, hlast⟩ | ⟨a, rfl, rfl, hL⟩ := hright
    · exact ⟨rfl, Or.inl ⟨rfl, hlast⟩⟩
    · exact ⟨rfl, Or.inr ⟨a, rfl, hL⟩⟩

/-- A loop over what is to come, up to the word that ends it. -/
theorem Reads.loop {m : Read (Option α)} {L : Bytes → α → Prop}
    {Last : Bytes → Prop}
    (hm : Reads o m fun w found =>
      (found = none ∧ Last w) ∨ ∃ a, found = some a ∧ L w a)
    (hne : ∀ w a, L w a → w ≠ []) :
    Reads o (remainingLength >>= fun budget => m.collect (budget + 1))
      fun w as =>
        ∃ u t, w = u ++ t ∧ Many L u as ∧ Last t :=
  (Step.Accepts.loop (fun s _ => remainingLength_holding s) hm.turn
    fun w a _ h => hne w a h.2).congr fun _ _ _ => repeated_iff

/-- What a stream goes on with: another element, or its close. -/
def OrClose (L : Bytes → α → Prop) (w : Bytes) (found : Option α) : Prop :=
  (found = none ∧ w = Marker.close) ∨ ∃ a, found = some a ∧ L w a

theorem reads_element? {item : Read α} {L : Bytes → α → Prop}
    (hitem : Reads o item L)
    (hL : ∀ w a, L w a → ∃ k, k ≠ .close ∧ Kind.Shows w k) :
    Reads o (element? item) (OrClose L) := by
  have hbranch : ∀ k : Kind,
      Reads o (if k = .close then close >>= fun _ => Pure.pure none
        else item >>= fun a => Pure.pure (some a)) fun w found =>
          if k = .close then found = none ∧ w = Marker.close
          else ∃ a, found = some a ∧ L w a := by
    intro k
    by_cases hk : k = .close
    · rw [if_pos hk]
      simp only [if_pos hk]
      refine (reads_close.bind_pure fun _ => none).congr fun w found => ?_
      exact ⟨fun ⟨_, hfound, hw⟩ => ⟨hfound, hw⟩,
        fun ⟨hfound, hw⟩ => ⟨(), hfound, hw⟩⟩
    · rw [if_neg hk]
      simp only [if_neg hk]
      exact hitem.bind_pure some
  have hclose : Kind.Shows Marker.close .close :=
    Kind.shows_of_lead (k := .close) rfl _
  refine (Reads.select (peek_mapFault_eq_ok_iff _) hbranch fun k w found h =>
    ?_).congr
    fun w found => ?_
  · split at h
    · obtain ⟨-, rfl⟩ := h
      exact ⟨_, hclose⟩
    · obtain ⟨a, -, hw⟩ := h
      obtain ⟨k', -, hshows⟩ := hL w a hw
      exact ⟨k', hshows⟩
  · refine ⟨fun hleft => ?_, fun hright => ?_⟩
    · obtain ⟨k, -, h⟩ := hleft
      split at h
      · exact Or.inl h
      · exact Or.inr h
    · obtain ⟨rfl, rfl⟩ | ⟨a, rfl, hw⟩ := hright
      · exact ⟨.close, hclose, by rw [if_pos rfl]; exact ⟨rfl, rfl⟩⟩
      · obtain ⟨k, hk, hshows⟩ := hL w a hw
        exact ⟨k, hshows, by rw [if_neg hk]; exact ⟨a, rfl, hw⟩⟩

/-- Two words of `L`, for a key and a value. -/
def Both (L : Bytes → Value → Prop) (w : Bytes) (x : Value × Value) : Prop :=
  ∃ t u, w = t ++ u ∧ L t x.1 ∧ L u x.2

theorem reads_pair {item : Read Value} {L : Bytes → Value → Prop}
    (hitem : Reads o item L) :
    Reads o (pair item) (Both L) := by
  refine ((hitem.mapFault _).bind fun key =>
    (hitem.mapFault _).bind_pure fun v => (key, v)).congr
    fun w x => ?_
  refine ⟨fun hleft => ?_, fun hright => ?_⟩
  · obtain ⟨t, u, key, rfl, hkey, v, rfl, hv⟩ := hleft
    exact ⟨t, u, rfl, hkey, hv⟩
  · obtain ⟨t, u, rfl, hkey, hv⟩ := hright
    exact ⟨t, u, x.1, rfl, hkey, x.2, rfl, hv⟩

theorem reads_pair? {item : Read Value} {L : Bytes → Value → Prop}
    (hitem : Reads o item L)
    (hL : ∀ w a, L w a → ∃ k, k ≠ .close ∧ Kind.Shows w k) :
    Reads o (pair? item) (OrClose (Both L)) := by
  refine ((reads_element? (hitem.mapFault _) hL).bind (M := fun found w pair? =>
    (found = none ∧ w = [] ∧ pair? = none) ∨
      ∃ key v, found = some key ∧ pair? = some (key, v) ∧ L w v) fun found =>
        ?_).congr
    fun w pair? => ?_
  · cases found with
    | none =>
        refine (Reads.pure none).congr fun w pair? =>
          ⟨fun h => Or.inl ⟨rfl, h⟩, ?_⟩
        rintro (⟨-, h⟩ | ⟨key, v, h, -⟩)
        · exact h
        · cases h
    | some key =>
        refine ((hitem.mapFault _).bind_pure fun v => some (key, v)).congr
          fun w pair? => ?_
        refine ⟨fun hleft => ?_, fun hright => ?_⟩
        · obtain ⟨v, rfl, hw⟩ := hleft
          exact Or.inr ⟨key, v, rfl, rfl, hw⟩
        · obtain ⟨h, -⟩ | ⟨key', v, h, rfl, hw⟩ := hright
          · cases h
          · cases h
            exact ⟨v, rfl, hw⟩
  · refine ⟨fun hleft => ?_, fun hright => ?_⟩
    · obtain ⟨t, u, found, rfl, ⟨rfl, rfl⟩ | ⟨key, rfl, hkey⟩,
        ⟨hf, rfl, rfl⟩ | ⟨key', v, hf, rfl, hv⟩⟩ := hleft
      · exact Or.inl ⟨rfl, List.append_nil _⟩
      · cases hf
      · cases hf
      · cases hf
        exact Or.inr ⟨_, rfl, t, u, rfl, hkey, hv⟩
    · obtain ⟨rfl, rfl⟩ | ⟨x, rfl, t, u, rfl, hkey, hv⟩ := hright
      · exact ⟨Marker.close, [], none, rfl, Or.inl ⟨rfl, rfl⟩,
          Or.inl ⟨rfl, rfl, rfl⟩⟩
      · exact ⟨t, u, some x.1, rfl, Or.inr ⟨x.1, rfl, hkey⟩,
          Or.inr ⟨x.1, x.2, rfl, rfl, hv⟩⟩

/-- The elements behind a header: as many as it counts, or all up to the
close. -/
def Behind (L : Bytes → α → Prop) : Length → Bytes → List α → Prop
  | .known n => fun w as => as.length = n ∧ Many L w as
  | .streamed => fun w as => ∃ u t, w = u ++ t ∧ Many L u as ∧ t = Marker.close

theorem reads_elements (a : Aggregate) {item : Read α}
    {streamed : Read (Option α)} {L : Bytes → α → Prop} (hitem : Reads o item L)
    (hstreamed : Reads o streamed (OrClose L)) (hne : ∀ w a, L w a → w ≠ []) :
    Reads o (elements a item streamed) fun w as => ∃ u, Many L u as ∧
      ((∃ num, w = (Kind.aggregate a).line num ++ u ∧ Count num as.length) ∨
        w = (Kind.aggregate a).streamHeader ++ (u ++ Marker.close)) := by
  refine ((reads_header a).bind (M := Behind L) fun n => ?_).congr fun w as =>
    ?_
  · cases n with
    | known n => exact hitem.times n
    | streamed => exact hstreamed.loop hne
  · refine ⟨fun hleft => ?_, fun hright => ?_⟩
    · obtain ⟨t, u, n, rfl, ⟨rfl, rfl⟩ | ⟨num, c, rfl, hcount, rfl⟩, h⟩ := hleft
      · obtain ⟨u, _, rfl, hmany, rfl⟩ := h
        exact ⟨u, hmany, Or.inr rfl⟩
      · obtain ⟨rfl, hmany⟩ := h
        exact ⟨u, hmany, Or.inl ⟨num, rfl, hcount⟩⟩
    · obtain ⟨u, hmany, ⟨num, rfl, hcount⟩ | rfl⟩ := hright
      · exact ⟨_, u, .known as.length, rfl, Or.inr ⟨num, _, rfl, hcount, rfl⟩,
          rfl, hmany⟩
      · exact ⟨_, _, .streamed, rfl, Or.inl ⟨rfl, rfl⟩, u, _, rfl, hmany, rfl⟩

/-- What is behind the body or the header of a blob: nothing, or all its
chunks. -/
def ChunksBehind (l : Limits) : Length → Bytes → Bytes → Prop
  | .known _ => fun w octets => w = [] ∧ octets = []
  | .streamed => Chunks l

theorem reads_joinedBlob (role : Role) :
    Reads o (joinedBlob role) fun w octets =>
      Counted o.limits (.blob role) w octets ∨
      ∃ u,
        w = (Kind.blob role).streamHeader ++ u ∧ Chunks o.limits u octets := by
  refine ((Gather.Gathers.collected ((Gather.gathers_blob role).bind
    (M := fun n w _ p => ChunksBehind o.limits n w p) fun n => ?_)).bind_pure
      Prod.snd).congr
    fun w octets => ?_
  · cases n with
    | known n =>
        exact (Step.Accepts.pure ()).congr fun w _ p =>
          ⟨fun h => ⟨h.1, h.2.2⟩, fun h => ⟨h.1, rfl, h.2⟩⟩
    | streamed => exact Gather.gathers_chunks
  · refine ⟨fun hleft => ?_, fun hright => ?_⟩
    · obtain ⟨⟨_, octets⟩, rfl, t, u, n, p, q, rfl, rfl, ⟨rfl, rfl, rfl⟩ |
          ⟨rfl, h⟩, hrest⟩ := hleft
      · exact Or.inr ⟨u, rfl, hrest⟩
      · obtain ⟨rfl, rfl⟩ := hrest
        rw [List.append_nil]
        simp only [List.append_nil]
        exact Or.inl h
    · obtain h | ⟨u, rfl, h⟩ := hright
      · exact ⟨((), octets), rfl, w, [], .known octets.length, octets, [],
          (List.append_nil w).symm,
          (List.append_nil octets).symm, Or.inr ⟨rfl, h⟩, rfl, rfl⟩
      · exact ⟨((), octets), rfl, _, u, .streamed, [], octets, rfl, rfl,
          Or.inl ⟨rfl, rfl, rfl⟩, h⟩

/-! ## Values -/

/-- What nests at a depth: nothing beyond the greatest. -/
def Nests (l : Limits) (depth : Nat) (w : Bytes) (v : Value) : Prop :=
  depth ≤ l.depth ∧ Derives l depth w v

theorem Nests.shows {l : Limits} {depth : Nat} {w : Bytes} {v : Value}
    (h : Nests l depth w v) :
    ∃ k, k ≠ .close ∧ Kind.Shows w k :=
  ⟨v.kind, v.kind_ne_close, h.2.shows⟩

theorem many_nests_iff {l : Limits} {depth : Nat} {w : Bytes}
    {items : List Value} :
    Many (Nests l depth) w items ↔ DerivesItems l depth w items := by
  refine ⟨fun h => ?_, fun h => ?_⟩
  · induction h with
    | nil => exact .nil
    | cons h hlater ih => exact .cons h.1 h.2 ih
  · induction items generalizing w with
    | nil => cases h; exact .nil
    | cons v items ih =>
        cases h with
        | cons hdepth hitem hlater => exact .cons ⟨hdepth, hitem⟩ (ih hlater)

theorem many_both_iff {l : Limits} {depth : Nat} {w : Bytes}
    {pairs : List (Value × Value)} :
    Many (Both (Nests l depth)) w pairs ↔ DerivesPairs l depth w pairs := by
  refine ⟨fun h => ?_, fun h => ?_⟩
  · induction h with
    | nil => exact .nil
    | @cons u w a as h hlater ih =>
        obtain ⟨t, u, rfl, hkey, hvalue⟩ := h
        rw [List.append_assoc]
        exact .cons hkey.1 hkey.2 hvalue.2 ih
  · induction pairs generalizing w with
    | nil => cases h; exact .nil
    | cons x pairs ih =>
        cases h with
        | cons hdepth hkey hvalue hlater =>
            rw [← List.append_assoc]
            exact .cons ⟨_, _, rfl, ⟨hdepth, hkey⟩, hdepth, hvalue⟩ (ih hlater)

/-- The words of values of one kind. -/
def OfKind (l : Limits) (depth : Nat) (k : Kind) (w : Bytes) (v : Value) :
    Prop :=
  Derives l depth w v ∧ v.kind = k

section Branches

variable {depth : Nat}

theorem reads_sequence (s : Sequence) {item : Read Value}
    (hitem : Reads o item (Nests o.limits (depth + 1))) :
    Reads o
      (elements (.sequence s) (nested item) (element? (nested item)) >>=
        fun items => Pure.pure (.sequence s items))
      (OfKind o.limits depth (.aggregate (.sequence s))) := by
  have hnested : Reads o (nested item) (Nests o.limits (depth + 1)) :=
    hitem.mapFault _
  refine ((reads_elements (.sequence s) hnested
    (reads_element? hnested fun w v h => h.shows)
    fun w v h => h.2.shows.ne_nil).bind_pure (Value.sequence s)).congr
      fun w v => ?_
  refine ⟨fun hleft => ?_, fun hright => ?_⟩
  · obtain ⟨items, rfl, u, hmany, ⟨num, rfl, hcount⟩ | rfl⟩ := hleft
    · exact ⟨.sequence hcount (many_nests_iff.mp hmany), rfl⟩
    · exact ⟨.openSequence (many_nests_iff.mp hmany), rfl⟩
  · obtain ⟨h, hk⟩ := hright
    cases h <;> cases hk
    · next hcount hitems =>
        exact ⟨_, rfl, _, many_nests_iff.mpr hitems, Or.inl ⟨_, rfl, hcount⟩⟩
    · next hitems => exact ⟨_, rfl, _, many_nests_iff.mpr hitems, Or.inr rfl⟩

theorem reads_pairing (p : Pairing) {item : Read Value}
    (hitem : Reads o item (Nests o.limits (depth + 1))) :
    Reads o
      (elements (.pairing p) (pair item) (pair? item) >>= fun pairs =>
        Pure.pure (.pairing p pairs))
      (OfKind o.limits depth (.aggregate (.pairing p))) := by
  have hne : ∀ w x, Both (Nests o.limits (depth + 1)) w x → w ≠ [] := by
    rintro _ x ⟨t, u, rfl, hkey, -⟩ hnil
    exact hkey.2.shows.ne_nil (List.append_eq_nil_iff.mp hnil).1
  refine ((reads_elements (.pairing p) (reads_pair hitem)
    (reads_pair? hitem fun w v h => h.shows)
    hne).bind_pure (Value.pairing p)).congr fun w v => ?_
  refine ⟨fun hleft => ?_, fun hright => ?_⟩
  · obtain ⟨pairs, rfl, u, hmany, ⟨num, rfl, hcount⟩ | rfl⟩ := hleft
    · exact ⟨.pairing hcount (many_both_iff.mp hmany), rfl⟩
    · exact ⟨.openPairing (many_both_iff.mp hmany), rfl⟩
  · obtain ⟨h, hk⟩ := hright
    cases h <;> cases hk
    · next hcount hpairs =>
        exact ⟨_, rfl, _, many_both_iff.mpr hpairs, Or.inl ⟨_, rfl, hcount⟩⟩
    · next hpairs => exact ⟨_, rfl, _, many_both_iff.mpr hpairs, Or.inr rfl⟩

theorem reads_blobValue (role : Role) :
    Reads o (joinedBlob role >>= fun octets => Pure.pure (.blob role octets))
      (OfKind o.limits depth (.blob role)) := by
  refine ((reads_joinedBlob role).bind_pure (Value.blob role)).congr fun w v =>
    ?_
  refine ⟨fun hleft => ?_, fun hright => ?_⟩
  · obtain ⟨octets, rfl, h | ⟨u, rfl, h⟩⟩ := hleft
    · exact ⟨.blob h, rfl⟩
    · exact ⟨.openBlob h, rfl⟩
  · obtain ⟨h, hk⟩ := hright
    cases h <;> cases hk
    · next h => exact ⟨_, rfl, Or.inl h⟩
    · next h => exact ⟨_, rfl, Or.inr ⟨_, rfl, h⟩⟩

theorem reads_simpleValue (role : Role) :
    Reads o ((Gather.simple role).collected >>= fun x =>
      Pure.pure (.simple role x.2)) (OfKind o.limits depth (.simple role)) := by
  refine ((Gather.gathers_simple role).collected.bind_pure fun x =>
    Value.simple role x.2).congr
    fun w v => ?_
  refine ⟨fun hleft => ?_, fun hright => ?_⟩
  · obtain ⟨x, rfl, hlf, hsize, rfl⟩ := hleft
    exact ⟨.simple hlf hsize, rfl⟩
  · obtain ⟨h, hk⟩ := hright
    cases h <;> cases hk
    next hlf hsize => exact ⟨((), _), rfl, hlf, hsize, rfl⟩

theorem reads_verbatimValue :
    Reads o (Gather.verbatim.collected >>= fun x =>
      Pure.pure (.verbatim x.1 x.2)) (OfKind o.limits depth .verbatim) := by
  refine (Gather.gathers_verbatim.collected.bind_pure fun x =>
    Value.verbatim x.1 x.2).congr
    fun w v => ?_
  refine ⟨fun hleft => ?_, fun hright => ?_⟩
  · obtain ⟨x, rfl, h⟩ := hleft
    exact ⟨.verbatim h, rfl⟩
  · obtain ⟨h, hk⟩ := hright
    cases h <;> cases hk
    next h => exact ⟨(_, _), rfl, h⟩

theorem reads_bigNumberValue :
    Reads o (bigNumber >>= fun n => Pure.pure (.bigNumber n))
      (OfKind o.limits depth .bigNumber) := by
  refine (reads_bigNumber.bind_pure Value.bigNumber).congr fun w v => ?_
  refine ⟨fun hleft => ?_, fun hright => ?_⟩
  · obtain ⟨n, rfl, text, rfl, hsize, hn⟩ := hleft
    exact ⟨.bigNumber hn hsize, rfl⟩
  · obtain ⟨h, hk⟩ := hright
    cases h <;> cases hk
    next hn hsize => exact ⟨_, rfl, _, rfl, hsize, hn⟩

theorem reads_booleanValue :
    Reads o (boolean >>= fun b => Pure.pure (.boolean b))
      (OfKind o.limits depth .boolean) := by
  refine (reads_boolean.bind_pure Value.boolean).congr fun w v => ?_
  refine ⟨fun hleft => ?_, fun hright => ?_⟩
  · obtain ⟨b, rfl, rfl⟩ := hleft
    exact ⟨.boolean b, rfl⟩
  · obtain ⟨h, hk⟩ := hright
    cases h <;> cases hk
    exact ⟨_, rfl, rfl⟩

theorem reads_doubleValue :
    Reads o (double >>= fun x => Pure.pure (.double x))
      (OfKind o.limits depth .double) := by
  refine (reads_double.bind_pure Value.double).congr fun w v => ?_
  refine ⟨fun hleft => ?_, fun hright => ?_⟩
  · obtain ⟨x, rfl, text, rfl, hsize, hx⟩ := hleft
    exact ⟨.double hx hsize, rfl⟩
  · obtain ⟨h, hk⟩ := hright
    cases h <;> cases hk
    next hx hsize => exact ⟨_, rfl, _, rfl, hsize, hx⟩

theorem reads_integerValue :
    Reads o (integer >>= fun n => Pure.pure (.integer n))
      (OfKind o.limits depth .integer) := by
  refine (reads_integer.bind_pure Value.integer).congr fun w v => ?_
  refine ⟨fun hleft => ?_, fun hright => ?_⟩
  · obtain ⟨_, rfl, num, m, rfl, hnum, hfits, rfl⟩ := hleft
    exact ⟨.integer hnum hfits, rfl⟩
  · obtain ⟨h, hk⟩ := hright
    cases h <;> cases hk
    next hnum hfits => exact ⟨_, rfl, _, _, rfl, hnum, hfits, rfl⟩

theorem reads_nullValue :
    Reads o (null >>= fun _ => Pure.pure .null)
      (OfKind o.limits depth .null) := by
  refine (reads_null.bind_pure fun _ => Value.null).congr fun w v => ?_
  refine ⟨fun hleft => ?_, fun hright => ?_⟩
  · obtain ⟨_, rfl, rfl | rfl | rfl⟩ := hleft
    · exact ⟨.null, rfl⟩
    · exact ⟨.nullArray, rfl⟩
    · exact ⟨.nullBlob, rfl⟩
  · obtain ⟨h, hk⟩ := hright
    cases h <;> cases hk
    · exact ⟨(), rfl, Or.inl rfl⟩
    · exact ⟨(), rfl, Or.inr (Or.inl rfl)⟩
    · exact ⟨(), rfl, Or.inr (Or.inr rfl)⟩

/-- Chunks and closes are no values. -/
theorem reads_misplaced {k : Kind} (hk : ∀ v : Value, v.kind ≠ k) (e : Fault) :
    Reads o (Step.fail e : Read Value) (OfKind o.limits depth k) :=
  (Reads.fail e).congr fun _ v => ⟨False.elim, fun h => hk v h.2⟩

end Branches

/-- With so many levels left a reader accepts just what derives at the depth
where it is. -/
theorem reads_valueWithin (levels depth : Nat)
    (h : depth + levels = o.maxDepth + 1) :
    Reads o (valueWithin levels) (Nests o.limits depth) := by
  induction levels generalizing depth with
  | zero =>
      refine (Reads.fail (.violation (.tooDeep o.maxDepth))).congr fun w v =>
        ⟨False.elim, ?_⟩
      rintro ⟨hdepth, -⟩
      exact absurd hdepth (Nat.not_le.mpr (show o.maxDepth < depth by omega))
  | succ levels ih =>
      have hitem := ih (depth + 1) (by omega)
      rw [valueWithin]
      refine (Reads.select (M := OfKind o.limits depth) peek_eq_ok_iff
        (fun k => ?_)
        fun k w v hw => ⟨_, hw.1.shows⟩).congr fun w v => ?_
      · cases k with
        | aggregate a =>
            cases a with
            | sequence s => exact reads_sequence s hitem
            | pairing p => exact reads_pairing p hitem
        | blob role => exact reads_blobValue role
        | simple role => exact reads_simpleValue role
        | verbatim => exact reads_verbatimValue
        | bigNumber => exact reads_bigNumberValue
        | boolean => exact reads_booleanValue
        | double => exact reads_doubleValue
        | integer => exact reads_integerValue
        | null => exact reads_nullValue
        | chunk => exact reads_misplaced Value.kind_ne_chunk _
        | close => exact reads_misplaced Value.kind_ne_close _
      · refine ⟨fun hleft => ?_, fun hright => ?_⟩
        · obtain ⟨k, -, hw, -⟩ := hleft
          exact ⟨show depth ≤ o.maxDepth by omega, hw⟩
        · obtain ⟨-, hw⟩ := hright
          exact ⟨_, hw.shows, hw, rfl⟩

theorem reads_value : Reads o value (Derives o.limits 0) := by
  refine reads_iff.mpr fun s v after => ?_
  refine (reads_iff.mp (reads_valueWithin (o.maxDepth + 1) 0 (Nat.zero_add _)) s
    v after).trans ?_
  refine ⟨fun hleft => ?_, fun hright => ?_⟩
  · obtain ⟨w, rest, hs, hafter, -, hw⟩ := hleft
    exact ⟨w, rest, hs, hafter, hw⟩
  · obtain ⟨w, rest, hs, hafter, hw⟩ := hright
    exact ⟨w, rest, hs, hafter, Nat.zero_le _, hw⟩

/-! ## Readers that hold less -/

theorem alike_holding {r : Reader} (h : r.feed.Calm) :
    Alike r (holding r.options r.remaining) :=
  ⟨h, calm_holding _, rfl, (remaining_holding _).symm⟩

/-- What a read answers and what it leaves does not depend on what is held,
unless it is refused for the size of a line. -/
theorem run_of_holding {m : Read α} (hsteady : Step.Steady lockstep m)
    {r after : Reader} (h : r.feed.Calm) {result : Except Fault α}
    (hm : m (holding r.options r.remaining) = (result, after))
    (hresult : ∀ size limit,
      result ≠ .error (.violation (.tooLarge size limit))) :
    ∃ later, m r = (result, later) ∧ later.remaining = after.remaining := by
  obtain ⟨later, hrun, hsame⟩ := hsteady.of_run (alike_holding h) hm hresult
  exact ⟨later, hrun, hsame.remaining⟩

theorem result_of_holding {m : Read α} (hsteady : Step.Steady lockstep m)
    {r : Reader} (h : r.feed.Calm) {result : Except Fault α}
    (hm : (m (holding r.options r.remaining)).1 = result)
    (hresult : ∀ size limit,
      result ≠ .error (.violation (.tooLarge size limit))) :
    (m r).1 = result := by
  obtain ⟨later, hrun, -⟩ := run_of_holding hsteady h (Prod.ext hm rfl) hresult
  rw [hrun]

theorem error_of_holding {m : Read α} (hsteady : Step.Steady lockstep m)
    {r : Reader} (h : r.feed.Calm) {e : Fault}
    (hm : (m (holding r.options r.remaining)).1 = .error e)
    (he : ∀ size limit, e ≠ .violation (.tooLarge size limit)) :
    (m r).1 = .error e :=
  result_of_holding hsteady h hm fun size limit heq =>
    he size limit (Except.error.inj heq)

/-- What is accepted does not depend on what is held. -/
theorem Reads.accepts_iff {m : Read α} {L : Bytes → α → Prop}
    (hsteady : Step.Steady lockstep m) {r : Reader} (hm : Reads r.options m L)
    (h : r.feed.Calm) (a : α) (rest : Bytes) :
    (∃ after, m r = (.ok a, after) ∧ after.remaining = rest) ↔
      ∃ w, r.remaining = w ++ rest ∧ L w a := by
  have hagree := hsteady _ _ (alike_holding h)
  have hlanguage := reads_iff.mp hm r.remaining a
  refine ⟨fun hleft => ?_, fun hright => ?_⟩
  · obtain ⟨after, hrun, rfl⟩ := hleft
    rw [hrun] at hagree
    generalize hholding : m (holding r.options r.remaining) = x at hagree
    cases hagree with
    | @same _ _ u hsame _ =>
        obtain ⟨w, rest, hs, rfl, hw⟩ := (hlanguage u).mp hholding
        exact ⟨w, by rw [hsame.remaining, remaining_holding]; exact hs, hw⟩
  · obtain ⟨w, hs, hw⟩ := hright
    rw [(hlanguage (holding r.options rest)).mpr
      ⟨w, rest, hs, rfl, hw⟩] at hagree
    generalize hrun : m r = x at hagree
    cases hagree with
    | @same _ t _ hsame _ =>
        exact ⟨t, rfl, by rw [hsame.remaining, remaining_holding]⟩

/-- A reader answers a value and leaves `rest` just where the octets to come
are a word of the grammar for that value, and then `rest`. -/
theorem value_ok_iff_derives {r : Reader} (h : r.feed.Calm) (v : Value)
    (rest : Bytes) :
    (∃ after, value r = (.ok v, after) ∧ after.remaining = rest) ↔
      ∃ w, r.remaining = w ++ rest ∧ Derives r.options.limits 0 w v :=
  reads_value.accepts_iff steady_value h v rest

/-- A streamed array of an old null, one octet at a time and interrupted, nested
as deep as it may be, and something behind it. -/
theorem value_ok_iff_derives_trickle :
    let r : Reader :=
      ⟨⟨[.piece (Bytes.ofChars "?\r\n*-".toList),
        .failure ⟨.interrupted, "signal"⟩,
        .piece (Bytes.ofChars "1\r\n.\r\n+x".toList)], some 1⟩,
          { maxDepth := 1 },
        Bytes.ofChars ['*']⟩
    r.feed.Calm ∧ ∃ after, value r = (.ok (.sequence .array [.null]), after) ∧
      after.remaining = Bytes.ofChars "+x".toList := by
  intro r
  have hcalm : r.feed.Calm := by decide
  refine ⟨hcalm, (value_ok_iff_derives hcalm _ _).mpr ⟨_, ?_, .openSequence
    (.cons (by decide) .nullArray .nil)⟩⟩
  decide

end Reader

end RespWire

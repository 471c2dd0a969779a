import RespWire.Proofs.CutShort
import RespWire.Proofs.Parsing

/-!
# Values that break off

A value of which only the front has come is refused, and as a rule the fault
says that it was cut. A look ahead at the front finds the kind that it finds at
the whole value; only a null of the earlier protocol version passes for the
array or the blob that it is written as, and is then cut in its number.

The input may also end between two nested values. That the end of the input is
no cut is said only for a value that nothing surrounds, so `valueWithin` is
followed here on fronts that are not empty, and `nested` on all.
-/

namespace RespWire

/-- What a look ahead at the front of some octets finds, if it finds a kind at
all of them. -/
theorem Kind.ofFront_append {p t : Bytes} {k : Kind} (hp : p ≠ [])
    (h : Kind.ofFront (p ++ t) = .ok k) :
    Kind.ofFront p = .ok k ∨
      k = .null ∧ ∃ k' form, Kind.ofFront p = .ok k' ∧
        k'.earlierNull? = some form := by
  cases p with
  | nil => exact absurd rfl hp
  | cons b p =>
      rw [List.cons_append, Kind.ofFront] at h
      rw [Kind.ofFront]
      cases hb : Kind.ofLead? b with
      | none =>
          rw [hb] at h
          cases h
      | some k' =>
          simp only [hb] at h ⊢
          cases hform : k'.earlierNull? with
          | none =>
              left
              simpa [hform] using h
          | some form =>
              simp only [hform, Option.any_some,
                List.isPrefixOf_iff_prefix] at h ⊢
              by_cases hfront : form <+: b :: p
              · have hwhole : form <+: b :: (p ++ t) :=
                  hfront.trans (List.prefix_append (b :: p) t)
                rw [if_pos hwhole] at h
                rw [if_pos hfront]
                exact Or.inl h
              · rw [if_neg hfront]
                split at h
                · exact Or.inr ⟨(Except.ok.inj h).symm, k', form, rfl, hform⟩
                · exact Or.inl h

/-- A null of the earlier protocol version shows only when it is complete. -/
theorem Kind.ofFront_earlierNull {k : Kind} {form p t : Bytes}
    (hform : k.earlierNull? = some form) (hp : p ≠ []) (ht : t ≠ [])
    (h : p ++ t = form) : Kind.ofFront p = .ok k := by
  rw [Kind.eq_of_earlierNull? hform] at h
  cases p with
  | nil => exact absurd rfl hp
  | cons b p =>
      obtain rfl : b = k.lead := (List.cons.inj h).1
      rw [Kind.ofFront, Kind.ofLead?_lead]
      simp only [hform, Option.any_some, List.isPrefixOf_iff_prefix]
      refine if_neg fun hfront => ?_
      have hlength := congrArg List.length h
      have hpos := List.length_pos_iff.mpr ht
      have hle := hfront.length_le
      rw [Kind.eq_of_earlierNull? hform, ← h, List.length_append] at hle
      omega

namespace Reader

variable {α : Type} {o : Options} {depth : Nat}

/-! ## Elements -/

/-- A read fails for the end of the input wherever a word of `L` breaks off. In
front of the word that end is not yet taken for a cut. -/
def StopsInside (o : Options) (m : Read α) (L : Bytes → α → Prop) : Prop :=
  ∀ p t a,
    t ≠ [] → L (p ++ t) a → ∃ f after, m (holding o p) = (.error f, after) ∧
    (BreaksOff p f ∨ p = [] ∧ f = .endOfInput)

theorem StopsInside.nested {item : Read α} {L : Bytes → α → Prop}
    (h : StopsInside o item L) :
    StopsShort o (nested item) L := by
  refine stopsShort_iff.mpr fun p t a ht hw => ?_
  obtain ⟨f, after, hrun, hf⟩ := h p t a ht hw
  refine ⟨noElementInstead .noElement f, after,
    by rw [Reader.nested, Step.mapFault, hrun], ?_⟩
  rcases hf with hf | ⟨-, rfl⟩
  · cases hf with
    | cut c => exact .cut c
    | count h => exact .count h
    | digit h => exact .digit h
  · exact .cut _

theorem StopsShort.element? {item : Read α} {L : Bytes → α → Prop}
    (hitem : StopsShort o item L)
    (hL : ∀ w a, L w a → ∃ k, k ≠ .close ∧ Kind.Shows w k) :
    StopsShort o (element? item) (OrClose L) := by
  refine stopsShort_iff.mpr fun p t found ht hw => ?_
  by_cases hp : p = []
  · subst hp
    exact ⟨_, _, rfl, .cut .noElementOrClose⟩
  obtain ⟨-, hclose⟩ | ⟨a, -, hword⟩ := hw
  · obtain ⟨f, after, hrun, hf⟩ :=
      stopsShort_iff.mp stopsShort_close p t () ht hclose
    have hshows : Kind.ofFront (p ++ t) = .ok .close := by
      rw [hclose]
      rfl
    have hfront : Kind.ofFront p = .ok .close := by
      rcases Kind.ofFront_append hp hshows with hfront | ⟨hk, -⟩
      · exact hfront
      · cases hk
    refine ⟨f, after, ?_, hf⟩
    rw [Reader.element?,
      Step.bind_of_ok ((peek_mapFault_eq_ok_iff _ _ _ _).mpr ⟨rfl, hfront⟩),
      if_pos rfl]
    exact Step.bind_of_error hrun
  · obtain ⟨k, hk, hshows⟩ := hL _ _ hword
    have hwhole := hshows []
    rw [List.append_nil] at hwhole
    obtain ⟨k', hk', hfront⟩ : ∃ k', k' ≠ .close ∧ Kind.ofFront p = .ok k' := by
      rcases Kind.ofFront_append hp hwhole with hfront |
        ⟨-, k', form, hfront, hform⟩
      · exact ⟨k, hk, hfront⟩
      · exact ⟨k', fun hc => (by rw [hc] at hform; cases hform), hfront⟩
    obtain ⟨f, after, hrun, hf⟩ := stopsShort_iff.mp hitem p t a ht hword
    refine ⟨f, after, ?_, hf⟩
    rw [Reader.element?,
      Step.bind_of_ok ((peek_mapFault_eq_ok_iff _ _ _ _).mpr ⟨rfl, hfront⟩),
      if_neg hk']
    exact Step.bind_of_error hrun

section

variable {item : Read Value} {L : Bytes → Value → Prop}

theorem stopsShort_pair (hreads : Reads o item L)
    (hitem : StopsShort o (nested item) L) :
    StopsShort o (pair item) (Both L) := by
  refine (StopsShort.bind (hreads.mapFault _) hitem fun key =>
    hitem.bind_pure fun v => (key, v)).mono fun w x hw => ?_
  obtain ⟨t, u, rfl, hkey, hvalue⟩ := hw
  exact ⟨x, t, u, x.1, rfl, hkey, x.2, rfl, hvalue⟩

theorem stopsShort_pair? (hreads : Reads o item L)
    (hitem : StopsShort o (nested item) L)
    (hL : ∀ w a, L w a → ∃ k, k ≠ .close ∧ Kind.Shows w k) :
    StopsShort o (pair? item) (OrClose (Both L)) := by
  have hnested : Reads o (nested item) L := hreads.mapFault _
  refine (StopsShort.bind (reads_element? hnested hL) (hitem.element? hL)
    (M := fun found w _ =>
      (found = none ∧ w = []) ∨ ∃ key v, found = some key ∧ L w v)
    fun found => ?_).mono fun w pair? hw => ?_
  · cases found with
    | none =>
        refine .of_nil fun w _ hw => ?_
        obtain ⟨-, rfl⟩ | ⟨key, v, h, -⟩ := hw
        · rfl
        · cases h
    | some key =>
        refine hitem.bind_left _ fun w _ hw => ?_
        obtain ⟨h, -⟩ | ⟨key', v, -, hv⟩ := hw
        · cases h
        · exact ⟨v, hv⟩
  · obtain ⟨-, rfl⟩ | ⟨x, -, t, u, rfl, hkey, hvalue⟩ := hw
    · exact ⟨none, Marker.close, [], none, rfl, Or.inl ⟨rfl, rfl⟩,
        Or.inl ⟨rfl, rfl⟩⟩
    · exact ⟨none, t, u, some x.1, rfl, Or.inr ⟨x.1, rfl, hkey⟩,
        Or.inr ⟨x.1, x.2, rfl, hvalue⟩⟩

end

theorem StopsShort.times {m : Read α} {L : Bytes → α → Prop}
    (hreads : Reads o m L) (hm : StopsShort o m L) (n : Nat) :
    StopsShort o (m.times n) fun w as => as.length = n ∧ Many L w as := by
  refine Step.StopsShort.mono (Step.StopsShort.times hreads hm n)
    fun w as q hw => ?_
  obtain ⟨-, hlength, hmany⟩ := hw
  exact ⟨as, [], hlength,
    repeated_iff.mpr ⟨rfl, w, [], (List.append_nil w).symm, hmany, rfl⟩⟩

theorem StopsShort.loop {m : Read (Option α)} {L : Bytes → α → Prop}
    (hreads : Reads o m (OrClose L)) (hm : StopsShort o m (OrClose L))
    (hne : ∀ w a, L w a → w ≠ []) :
    StopsShort o (remainingLength >>= fun budget => m.collect (budget + 1))
      fun w as =>
        ∃ u t, w = u ++ t ∧ Many L u as ∧ t = Marker.close := by
  have hturn : Step.StopsShort (fun s _ => holding o s) m fun w found p =>
      (found = none ∧ p = [] ∧ w = Marker.close) ∨
        ∃ a, found = some a ∧ p = [] ∧ L w a :=
    Step.StopsShort.mono hm fun w found _ hw => ⟨found, [], rfl,
      hw.imp (fun h => ⟨h.1, h.2.2⟩) fun ⟨a, h, _, hL⟩ => ⟨a, h, hL⟩⟩
  exact (Step.StopsShort.loop (fun s _ => remainingLength_holding s)
    hreads.turn hturn
    fun w a _ h => hne w a h.2).mono fun _ as _ hw =>
      ⟨as, [], repeated_iff.mpr ⟨rfl, hw.2⟩⟩

theorem stopsShort_elements (a : Aggregate) {item : Read α}
    {streamed : Read (Option α)} {L : Bytes → α → Prop}
    (hreads : Reads o item L) (hitem : StopsShort o item L)
    (hreads' : Reads o streamed (OrClose L))
    (hstreamed : StopsShort o streamed (OrClose L))
    (hne : ∀ w a, L w a → w ≠ []) :
    StopsShort o (elements a item streamed) fun w as => ∃ u, Many L u as ∧
      ((∃ num, w = (Kind.aggregate a).line num ++ u ∧ Count num as.length) ∨
        w = (Kind.aggregate a).streamHeader ++ (u ++ Marker.close)) := by
  refine (StopsShort.bind (reads_header a)
    ((stopsShort_header a).mono fun w n hw => ?_)
    (M := Behind L) fun n => ?_).mono fun w as hw => ?_
  · obtain ⟨-, rfl⟩ | ⟨num, c, -, hcount, rfl⟩ := hw
    · exact ⟨n, Or.inl rfl⟩
    · obtain ⟨hnum, hfits⟩ := count_iff.mp hcount
      exact ⟨n, Or.inr ⟨num, c, hnum, hfits, rfl⟩⟩
  · cases n with
    | known n => exact hitem.times hreads n
    | streamed => exact hstreamed.loop hreads' hne
  · obtain ⟨u, hmany, ⟨num, rfl, hcount⟩ | rfl⟩ := hw
    · exact ⟨as, _, u, .known as.length, rfl, Or.inr ⟨num, _, rfl, hcount, rfl⟩,
        rfl, hmany⟩
    · exact ⟨as, _, _, .streamed, rfl, Or.inl ⟨rfl, rfl⟩, u, _, rfl, hmany, rfl⟩

theorem stopsShort_joinedBlob (role : Role) :
    StopsShort o (joinedBlob role) fun w octets =>
      Counted o.limits (.blob role) w octets ∨
      ∃ u,
        w = (Kind.blob role).streamHeader ++ u ∧ Chunks o.limits u octets := by
  have hblob : Gather.StopsShort o (Gather.blob role) fun w n p =>
      (n = .streamed ∧ w = (Kind.blob role).streamHeader ∧ p = []) ∨
      (n = .known p.length ∧ Counted o.limits (.blob role) w p) :=
    (Gather.stopsShort_blob role).mono fun w n p hw => ⟨n, p, Or.inl hw⟩
  refine ((Gather.StopsShort.collected
    (Step.StopsShort.bind (Gather.gathers_blob role) hblob
      (M := fun n w _ p => ChunksBehind o.limits n w p)
      fun n => ?_)).bind_pure Prod.snd).mono fun w octets hw => ?_
  · cases n with
    | known n => exact Step.StopsShort.of_nil fun w _ p hw => hw.1
    | streamed => exact Gather.stopsShort_chunks
  · obtain h | ⟨u, rfl, h⟩ := hw
    · exact ⟨octets, ((), octets), rfl, w, [], .known octets.length, octets, [],
        (List.append_nil w).symm, (List.append_nil octets).symm,
          Or.inr ⟨rfl, h⟩, rfl, rfl⟩
    · exact ⟨octets, ((), octets), rfl, _, u, .streamed, [], octets, rfl, rfl,
        Or.inl ⟨rfl, rfl, rfl⟩, h⟩

theorem stopsShort_joinedBlob_line (role : Role) :
    StopsShort o (joinedBlob role) fun w _ =>
      ∃ num n, Numeral num n ∧ fits n = true ∧ w = (Kind.blob role).line num :=
  (Gather.StopsShort.collected
    (Step.StopsShort.bind_left (Gather.stopsShort_blob role) _
      (M := fun w _ _ => ∃ num n, Numeral num n ∧ fits n = true ∧
        w = (Kind.blob role).line num)
      fun _ _ _ h => ⟨.streamed, [], Or.inr h⟩)).bind_left _ fun _ _ h =>
        ⟨((), []), h⟩

/-! ## Values -/

/-- The branch for the kind that shows at the whole value meets the front of it
too, but for the nulls of the earlier protocol version. -/
theorem StopsInside.select {f : Kind → Read Value}
    (hf : ∀ k, k ≠ .null → StopsShort o (f k) (OfKind o.limits depth k))
    (hnull : StopsShort o (f .null) fun w _ => w = Marker.null)
    (harray : ∀ p t, t ≠ [] → p ++ t = Marker.nullArray →
      ∃ e after, f .array (holding o p) = (.error e, after) ∧ BreaksOff p e)
 (hblob : ∀ p t, t ≠ [] → p ++ t = Marker.nullBlob →
      ∃ e after, f .blobString (holding o p) = (.error e, after) ∧
        BreaksOff p e) :
    StopsInside o (peek >>= f) (Derives o.limits depth) := by
  intro p t v ht hw
  by_cases hp : p = []
  · subst hp
    exact ⟨.endOfInput, holding o [], Step.bind_of_error (peek_holding []),
      Or.inr ⟨rfl, rfl⟩⟩
  have hbranch : ∀ k, Kind.ofFront p = .ok k →
      (∃ e after, f k (holding o p) = (.error e, after) ∧ BreaksOff p e) →
      ∃ e after, (peek >>= f) (holding o p) = (.error e, after) ∧
        (BreaksOff p e ∨ p = [] ∧ e = .endOfInput) := by
    rintro k hk ⟨e, after, hrun, he⟩
    refine ⟨e, after, ?_, Or.inl he⟩
    rw [Step.bind_of_ok ((peek_eq_ok_iff _ _ _).mpr ⟨rfl, hk⟩), hrun]
  by_cases hk : v.kind = .null
  · -- a null of the earlier version shows its own kind only when it is complete
    generalize hs : p ++ t = s at hw
    cases hw <;> cases hk
    · have hfront : Kind.ofFront p = .ok .null := by
        cases p with
        | nil => exact absurd rfl hp
        | cons b p =>
            obtain rfl : b = Kind.null.lead := (List.cons.inj hs).1
            rfl
      exact hbranch _ hfront (stopsShort_iff.mp hnull p t .null ht hs)
    · exact hbranch _ (Kind.ofFront_earlierNull rfl hp ht hs) (harray p t ht hs)
    · exact hbranch _ (Kind.ofFront_earlierNull rfl hp ht hs) (hblob p t ht hs)
  · have hwhole := hw.shows []
    rw [List.append_nil] at hwhole
    have hfront := (Kind.ofFront_append hp hwhole).resolve_right fun h => hk h.1
    exact hbranch _ hfront (stopsShort_iff.mp (hf v.kind hk) p t v ht ⟨hw, rfl⟩)

section Branches

theorem stopsShort_sequence (s : Sequence) {item : Read Value}
    (hreads : Reads o item (Nests o.limits (depth + 1)))
    (hitem : StopsShort o (nested item) (Nests o.limits (depth + 1))) :
    StopsShort o
      (elements (.sequence s) (nested item) (element? (nested item)) >>=
        fun items => Pure.pure (.sequence s items))
      (OfKind o.limits depth (.aggregate (.sequence s))) := by
  have hnested : Reads o (nested item) (Nests o.limits (depth + 1)) :=
    hreads.mapFault _
  refine (stopsShort_elements (.sequence s) hnested hitem
    (reads_element? hnested fun w v h => h.shows)
    (hitem.element? fun w v h => h.shows)
    fun w v h => h.2.shows.ne_nil).bind_left _ fun w v hw => ?_
  obtain ⟨h, hk⟩ := hw
  cases h <;> cases hk
  · next hcount hitems =>
      exact ⟨_, _, many_nests_iff.mpr hitems, Or.inl ⟨_, rfl, hcount⟩⟩
  · next hitems => exact ⟨_, _, many_nests_iff.mpr hitems, Or.inr rfl⟩

theorem stopsShort_pairing (p : Pairing) {item : Read Value}
    (hreads : Reads o item (Nests o.limits (depth + 1)))
    (hitem : StopsShort o (nested item) (Nests o.limits (depth + 1))) :
    StopsShort o
      (elements (.pairing p) (pair item) (pair? item) >>= fun pairs =>
        Pure.pure (.pairing p pairs))
      (OfKind o.limits depth (.aggregate (.pairing p))) := by
  have hne : ∀ w x, Both (Nests o.limits (depth + 1)) w x → w ≠ [] := by
    rintro _ x ⟨t, u, rfl, hkey, -⟩ hnil
    exact hkey.2.shows.ne_nil (List.append_eq_nil_iff.mp hnil).1
  refine (stopsShort_elements (.pairing p) (reads_pair hreads)
    (stopsShort_pair hreads hitem)
    (reads_pair? hreads fun w v h => h.shows)
    (stopsShort_pair? hreads hitem fun w v h => h.shows)
    hne).bind_left _ fun w v hw => ?_
  obtain ⟨h, hk⟩ := hw
  cases h <;> cases hk
  · next hcount hpairs =>
      exact ⟨_, _, many_both_iff.mpr hpairs, Or.inl ⟨_, rfl, hcount⟩⟩
  · next hpairs => exact ⟨_, _, many_both_iff.mpr hpairs, Or.inr rfl⟩

theorem stopsShort_blobValue (role : Role) :
    StopsShort o (joinedBlob role >>= fun octets =>
      Pure.pure (.blob role octets)) (OfKind o.limits depth (.blob role)) := by
  refine (stopsShort_joinedBlob role).bind_left _ fun w v hw => ?_
  obtain ⟨h, hk⟩ := hw
  cases h <;> cases hk
  · next h => exact ⟨_, Or.inl h⟩
  · next h => exact ⟨_, Or.inr ⟨_, rfl, h⟩⟩

theorem stopsShort_simpleValue (role : Role) :
    StopsShort o ((Gather.simple role).collected >>= fun x =>
      Pure.pure (.simple role x.2)) (OfKind o.limits depth (.simple role)) := by
  refine (Gather.stopsShort_simple role).collected.bind_left _ fun w v hw => ?_
  obtain ⟨h, hk⟩ := hw
  cases h <;> cases hk
  next hlf hsize => exact ⟨((), _), hlf, hsize, rfl⟩

theorem stopsShort_verbatimValue :
    StopsShort o (Gather.verbatim.collected >>= fun x =>
      Pure.pure (.verbatim x.1 x.2)) (OfKind o.limits depth .verbatim) := by
  refine Gather.stopsShort_verbatim.collected.bind_left _ fun w v hw => ?_
  obtain ⟨h, hk⟩ := hw
  cases h <;> cases hk
  next h => exact ⟨(_, _), h⟩

theorem stopsShort_bigNumberValue :
    StopsShort o (bigNumber >>= fun n => Pure.pure (.bigNumber n))
      (OfKind o.limits depth .bigNumber) := by
  refine (stopsShort_lineOf .bigNumber bigNumberLine).bind_left _ fun w v hw =>
    ?_
  obtain ⟨h, hk⟩ := hw
  cases h <;> cases hk
  next hn hsize => exact ⟨0, _, rfl, hn.lf_notMem, hsize⟩

theorem stopsShort_booleanValue :
    StopsShort o (boolean >>= fun b => Pure.pure (.boolean b))
      (OfKind o.limits depth .boolean) := by
  refine stopsShort_boolean.bind_left _ fun w v hw => ?_
  obtain ⟨h, hk⟩ := hw
  cases h <;> cases hk
  exact ⟨_, rfl⟩

theorem stopsShort_doubleValue :
    StopsShort o (double >>= fun x => Pure.pure (.double x))
      (OfKind o.limits depth .double) := by
  refine (stopsShort_lineOf .double doubleLine).bind_left _ fun w v hw => ?_
  obtain ⟨h, hk⟩ := hw
  cases h <;> cases hk
  next x hx hsize => exact ⟨x, _, rfl, Double.lf_notMem_of_ofText? hx, hsize⟩

theorem stopsShort_integerValue :
    StopsShort o (integer >>= fun n => Pure.pure (.integer n))
      (OfKind o.limits depth .integer) := by
  refine stopsShort_integer.bind_left _ fun w v hw => ?_
  obtain ⟨h, hk⟩ := hw
  cases h <;> cases hk
  next hnum hfits => exact ⟨0, _, _, rfl, hnum, hfits⟩

/-- Chunks and closes are no values. -/
theorem stopsShort_misplaced {k : Kind} {m : Read Value}
    (hk : ∀ v : Value, v.kind ≠ k) :
    StopsShort o m (OfKind o.limits depth k) :=
  .of_nil fun _ v hw => absurd hw.2 (hk v)

end Branches

/-- With so many levels left a value is refused where it breaks off at the depth
where the reader is. -/
theorem stopsInside_valueWithin (levels depth : Nat)
    (h : depth + levels = o.maxDepth + 1) :
    StopsInside o (valueWithin levels) (Nests o.limits depth) := by
  induction levels generalizing depth with
  | zero =>
      rintro p t v - ⟨hdepth, -⟩
      exact absurd hdepth (Nat.not_le.mpr (show o.maxDepth < depth by omega))
  | succ levels ih =>
      have hreads := reads_valueWithin (o := o) levels (depth + 1) (by omega)
      have hitem := (ih (depth + 1) (by omega)).nested
      have hvalue :
          StopsInside o (valueWithin (levels + 1))
            (Derives o.limits depth) := by
        rw [valueWithin]
        refine StopsInside.select (fun k hk => ?_) ?_ (fun p t ht hp => ?_)
          fun p t ht hp => ?_
        · cases k with
          | aggregate a =>
              cases a with
              | sequence s => exact stopsShort_sequence s hreads hitem
              | pairing p => exact stopsShort_pairing p hreads hitem
          | blob role => exact stopsShort_blobValue role
          | simple role => exact stopsShort_simpleValue role
          | verbatim => exact stopsShort_verbatimValue
          | bigNumber => exact stopsShort_bigNumberValue
          | boolean => exact stopsShort_booleanValue
          | double => exact stopsShort_doubleValue
          | integer => exact stopsShort_integerValue
          | null => exact absurd rfl hk
          | chunk => exact stopsShort_misplaced Value.kind_ne_chunk
          | close => exact stopsShort_misplaced Value.kind_ne_close
        · exact stopsShort_null.bind_left _ fun w v hw => ⟨(), hw⟩
        · -- a null that is cut is a line cut in its number, and the number
          -- may be any
          obtain ⟨num, hnum, hform⟩ := numeral_of_earlierNull? (k := .array) rfl
          have hshort := stopsShort_header (o := o) (.sequence .array)
          obtain ⟨e, after, hrun, he⟩ :=
            stopsShort_iff.mp hshort p t .streamed ht
              (Or.inr ⟨num, -1, hnum, by decide, hp.trans hform⟩)
          exact ⟨e, after, Step.bind_of_error (Step.bind_of_error hrun), he⟩
        · obtain ⟨num, hnum, hform⟩ :=
            numeral_of_earlierNull? (k := .blobString) rfl
          have hshort := stopsShort_joinedBlob_line (o := o) .string
          obtain ⟨e, after, hrun, he⟩ :=
            stopsShort_iff.mp hshort p t [] ht
              ⟨num, -1, hnum, by decide, hp.trans hform⟩
          exact ⟨e, after, Step.bind_of_error hrun, he⟩
      exact fun p t v ht hw => hvalue p t v ht hw.2

/-- Where a value that was read to the last octet comes only in part, reading it
fails. The fault says that the input was cut, unless the input ends behind the
mark in the header of a stream. -/
theorem value_of_truncated {q r after : Reader} {v : Value} (hq : q.feed.Calm)
    (hr : r.feed.Calm) (hlimits : r.options.limits = q.options.limits)
    (hvalue : value q = (.ok v, after)) (hall : after.remaining = [])
    (hfront : r.remaining <+: q.remaining) (hstrict : r.remaining ≠ q.remaining)
    (hne : r.remaining ≠ []) :
    ∃ f, (value r).1 = .error f ∧ BreaksOff r.remaining f ∧
      ((∀ a, ¬ EndsInHeader r.remaining (.aggregate a)) →
        (∀ role, ¬ EndsInHeader r.remaining (.blob role)) →
        (∃ c, f = .cut c) ∧ f.faultClass = .framing ∧
          f.isRecoverable = false) := by
  obtain ⟨w, hw, hderives⟩ := (reads_value.accepts_iff steady_value hq v []).mp
    ⟨after, hvalue, hall⟩
  obtain ⟨t, ht⟩ := hfront
  rw [List.append_nil] at hw
  have htail : t ≠ [] :=
    fun hnil => hstrict (by rw [← ht, hnil, List.append_nil])
  have hnests : Nests r.options.limits 0 (r.remaining ++ t) v := by
    refine ⟨Nat.zero_le _, ?_⟩
    rw [ht, hw, hlimits]
    exact hderives
  obtain ⟨f, mid, hrun, hf⟩ :=
    stopsInside_valueWithin (r.options.maxDepth + 1) 0 (Nat.zero_add _)
    r.remaining t v htail hnests
  have hbreaks := hf.resolve_right fun h => hne h.1
  have hholding : value (holding r.options r.remaining) = (.error f, mid) :=
    hrun
  refine ⟨f, ?_, hbreaks, fun haggregate hblob => ?_⟩
  · refine error_of_holding steady_value hr (by rw [hholding])
      fun size limit hlarge => ?_
    rw [hlarge] at hbreaks
    cases hbreaks
  · cases hbreaks with
    | cut c => exact ⟨⟨c, rfl⟩, rfl, rfl⟩
    | count h => exact absurd h (haggregate _)
    | digit h => exact absurd h (hblob _)

/-- A null of the earlier protocol version and a streamed string, in pieces and
without the last octet. -/
theorem value_of_truncated_in_pieces :
    let q : Reader :=
      ⟨.ofBytes (Bytes.ofChars "*2\r\n$-1\r\n$?\r\n;1\r\na\r\n;0\r\n".toList),
        {}, []⟩
    let r : Reader := ⟨⟨[.piece (Bytes.ofChars "\n$-1\r\n$?".toList),
        .failure ⟨.interrupted, "signal"⟩,
        .piece (Bytes.ofChars "\r\n;1\r\na\r\n;0\r".toList)], some 4⟩, {},
        Bytes.ofChars ['*', '2', '\r']⟩
    q.feed.Calm ∧ r.feed.Calm ∧
      (∃ after, value q =
        (.ok (.array [.null, .blob .string (Bytes.ofChars ['a'])]), after)) ∧
      ∃ c, (value r).1 = .error (.cut c) := by
  intro q r
  have hq : q.feed.Calm := by decide
  have hr : r.feed.Calm := by decide
  have hone : Count (Bytes.ofChars ['1']) 1 :=
    ⟨.plain (.singleton rfl), by decide⟩
  have htwo : Count (Bytes.ofChars ['2']) 2 :=
    ⟨.plain (.singleton rfl), by decide⟩
  have hchunk :
      Counted q.options.limits .chunk (Bytes.ofChars ";1\r\na\r\n".toList)
      (Bytes.ofChars ['a']) := ⟨_, hone, by decide, rfl⟩
  have hderives : Derives q.options.limits 0 _
      (.array [.null, .blob .string (Bytes.ofChars ['a'])]) :=
    .sequence htwo (.cons (by decide) .nullBlob
      (.cons (by decide) (.openBlob (.more hchunk (by decide) .last)) .nil))
  obtain ⟨after, hvalue, hall⟩ :=
    (reads_value.accepts_iff steady_value hq _ []).mpr ⟨_, by decide, hderives⟩
  obtain ⟨f, hf, -, hcut⟩ := value_of_truncated hq hr rfl hvalue hall
    (by decide +kernel) (by decide +kernel) (by decide +kernel)
  obtain ⟨⟨c, rfl⟩, -⟩ := hcut
    (fun a => by
      obtain (_ | _ | _) | (_ | _) := a <;>
        exact not_or.mpr (by decide +kernel))
    fun role => by cases role <;> exact not_or.mpr (by decide +kernel)
  exact ⟨hq, hr, ⟨_, hvalue⟩, c, hf⟩

/-- An array that breaks off in the header of a stream is called a fault of the
grammar. -/
theorem value_refuses_cut_header :
    let q : Reader := ⟨.ofBytes (Bytes.ofChars "*?\r\n.\r\n".toList), {}, []⟩
    let r : Reader := ⟨.ofBytes (Bytes.ofChars ['*', '?']), {}, []⟩
    r.remaining <+: q.remaining ∧
      (∃ after, value q = (.ok (.array []), after) ∧ after.remaining = []) ∧
      (value r).1 = .error (.violation .badCount) ∧
      (Fault.violation .badCount).faultClass = .grammar := by
  intro q r
  have hempty : Derives q.options.limits 0 _ (.array []) := .openSequence .nil
  have hq : q.feed.Calm := by decide
  exact ⟨by decide,
    (reads_value.accepts_iff steady_value hq _ []).mpr ⟨_, by decide, hempty⟩,
    by with_unfolding_all rfl, rfl⟩

end Reader

end RespWire

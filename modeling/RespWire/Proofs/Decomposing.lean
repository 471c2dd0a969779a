import RespWire.Proofs.Contents

/-!
# A deep skip in shallow ones

A shallow skip passes a header and leaves what the header announces to its
caller, who may skip each part of it deep. Done to the end that comes to the
same as one deep skip, if the deep skip succeeds: every part passes, and what is
left is what the deep skip leaves. The parts have more room to nest than they
had inside, since the levels are counted anew for each of them, and what passes
with some levels left passes with more.

The header says how a caller has to go on. `Completes` is a table of this: so
many skips for a count, skips up to a close or up to the last chunk for a
stream, and none where nothing is left.
-/

namespace RespWire

namespace Step

variable {σ α : Type}

/-- Runs of a step one behind the other, up to the first that is the last:
`isLast` tells it by the state it starts from and by what it answers. -/
inductive Until (m : Step σ α) (isLast : σ → α → Prop) :
    σ → List α → σ → Prop where
  | last {s after : σ} {a : α} (h : m s = (.ok a, after)) (hlast : isLast s a) :
      Until m isLast s [a] after
  | more {s mid after : σ} {a : α} {as : List α} (h : m s = (.ok a, mid))
      (hmore : ¬ isLast s a)
      (hlater : Until m isLast mid as after) : Until m isLast s (a :: as) after

/-- What passes for the same is run through in the same way. -/
theorem Steady.until {l : Lockstep σ} {m : Step σ α} (hm : Steady l m)
    {isLast : σ → α → Prop}
    (hlast : ∀ s t a, l.same s t → (isLast s a ↔ isLast t a)) {s after : σ}
    {as : List α} (h : Until m isLast s as after) {t : σ} (hsame : l.same s t) :
    ∃ later, Until m isLast t as later ∧ l.same after later := by
  induction h generalizing t with
  | last h hend =>
      obtain ⟨later, hrun, hlater⟩ := hm.of_ok hsame h
      exact ⟨later, .last hrun ((hlast _ _ _ hsame).mp hend), hlater⟩
  | more h hmore _ ih =>
      obtain ⟨mid, hrun, hmid⟩ := hm.of_ok hsame h
      obtain ⟨later, huntil, hlater⟩ := ih hmid
      exact ⟨later, .more hrun
        (fun hend => hmore ((hlast _ _ _ hsame).mpr hend)) huntil, hlater⟩

end Step

/-! ## Levels to spare -/

theorem SkipsOver.mono {l : Limits} {inner outer : Bytes → Kind → Prop}
    (hinner : ∀ w k, inner w k → outer w k) {w : Bytes} {k : Kind}
    (h : SkipsOver l inner w k) :
    SkipsOver l outer w k := by
  cases h with
  | flat h => exact .flat h
  | openBlob h => exact .openBlob h
  | chunks h => exact .chunks h
  | counted hcount hlength h => exact .counted hcount hlength (h.mono hinner)
  | opened h hclose =>
      exact .opened (h.mono fun w k hw => ⟨hinner w k hw.1, hw.2⟩)
        (hinner _ _ hclose)

/-- What passes with some levels left passes with one more. -/
theorem Skips.succ {l : Limits} {levels : Nat} {w : Bytes} {k : Kind}
    (h : Skips l levels w k) :
    Skips l (levels + 1) w k := by
  induction levels generalizing w k with
  | zero => exact h.elim
  | succ levels ih => exact SkipsOver.mono (fun _ _ => ih) h

/-- What passes without going deeper is passed as a whole. -/
theorem Passes.whole {l : Limits} {w : Bytes} {k : Kind} (h : Passes l w k)
    (rest : Bytes) :
    k.isAggregate = false ∧ k ≠ .chunk ∧
      ∀ role,
        k = .blob role → ¬ (Kind.blob role).streamHeader <+: w ++ rest := by
  cases h with
  | @blob role w octets h =>
      refine ⟨rfl, nofun, ?_⟩
      rintro _ ⟨⟩
      obtain ⟨num, hcount, -, rfl⟩ := h
      rw [List.append_assoc]
      exact hcount.1.not_streamHeader _ _
  | _ => exact ⟨rfl, nofun, nofun⟩

namespace Reader

variable {α : Type} {o : Options}

theorem Reads.until {m : Read α} {L M : Bytes → α → Prop}
    {isLast : Reader → α → Prop} (hm : Reads o m L)
    (hM : ∀ w a, M w a → L w a ∧ ∀ rest, ¬ isLast (holding o (w ++ rest)) a)
    {u w rest : Bytes} {as : List α} {a : α} (hmany : Many M u as) (hw : L w a)
    (hlast : isLast (holding o (w ++ rest)) a) :
    m.Until isLast (holding o (u ++ (w ++ rest))) (as ++ [a])
      (holding o rest) := by
  induction hmany with
  | nil =>
      exact .last ((reads_iff.mp hm _ _ _).mpr ⟨w, rest, rfl, rfl, hw⟩) hlast
  | @cons v u b bs h _ ih =>
      obtain ⟨hv, hmore⟩ := hM v b h
      rw [List.append_assoc]
      exact .more ((reads_iff.mp hm _ _ _).mpr ⟨v, _, rfl, rfl, hv⟩)
        (hmore _) ih

/-! ## Shallow skips -/

/-- How deep a skip is makes a difference only where something is nested or
streamed. -/
theorem skip_of_flat {s : Bytes} {k : Kind} (hk : Kind.ofFront s = .ok k)
    (haggregate : k.isAggregate = false) (hchunk : k ≠ .chunk)
    (hstream : ∀ role, k = .blob role → ¬ (Kind.blob role).streamHeader <+: s) :
    skip false (holding o s) = skip true (holding o s) := by
  have hpeek : peek (holding o s) = (.ok k, holding o s) := by
    rw [peek_holding, hk]
  rw [skip_holding, skip_holding, skipWithin, skipWithin, Step.bind_of_ok hpeek,
    Step.bind_of_ok hpeek]
  cases k with
  | aggregate a => cases haggregate
  | chunk => exact absurd rfl hchunk
  | blob role =>
      have htake := takeForm_holding (o := o) (Kind.blob role).streamHeader s
      rw [if_neg (hstream role rfl)] at htake
      refine (Step.bind_of_ok htake).trans ?_
      symm
      exact Step.bind_of_ok htake
  | _ => rfl

theorem skip_header {a : Aggregate} {w rest : Bytes} {n : Length}
    (hshows : Kind.Shows w (.aggregate a))
    (hw : header a (holding o (w ++ rest)) = (.ok n, holding o rest)) :
    skip false (holding o (w ++ rest)) =
      (.ok (.aggregate a), holding o rest) := by
  rw [skip_holding, skipWithin, Step.bind_of_ok (peek_of_shows hshows rest)]
  exact Step.bind_of_ok hw

theorem skip_streamHeader (role : Role) (rest : Bytes) :
    skip false (holding o ((Kind.blob role).streamHeader ++ rest)) =
      (.ok (.blob role), holding o rest) := by
  have hshows : Kind.Shows (Kind.blob role).streamHeader (.blob role) := by
    simpa using Kind.shows_streamHeader (.blob role) []
  have htake := takeForm_holding (o := o) (Kind.blob role).streamHeader
    ((Kind.blob role).streamHeader ++ rest)
  rw [if_pos (List.prefix_append _ _), List.drop_left] at htake
  rw [skip_holding, skipWithin, Step.bind_of_ok (peek_of_shows hshows rest)]
  exact Step.bind_of_ok htake

theorem skip_chunk {w rest : Bytes} {isLast : Bool}
    (hshows : Kind.Shows w .chunk)
    (hw : skipChunk (holding o (w ++ rest)) = (.ok isLast, holding o rest)) :
    skip false (holding o (w ++ rest)) = (.ok .chunk, holding o rest) := by
  rw [skip_holding, skipWithin, Step.bind_of_ok (peek_of_shows hshows rest)]
  exact Step.bind_of_ok hw

/-! ## Going on -/

/-- A chunk that is the last of its stream comes next. -/
def AtLastChunk (s : Reader) (_ : Kind) : Prop :=
  Marker.lastChunk <+: s.remaining

/-- How a caller goes on behind a shallow skip that passed a value of the kind
from `r`, and has left `mid`: from there he comes to the end of the value. -/
inductive Completes (r mid : Reader) : Kind → Reader → Prop where
  /-- As many deep skips as the header announces elements, and twice as many for
  pairs. -/
  | counted {a : Aggregate} {n : Nat} {ks : List Kind} {last : Reader}
      (hheader : (header a r).1 = .ok (.known n))
      (h : (skip true).times (n * a.width) mid = (.ok ks, last)) :
      Completes r mid (.aggregate a) last
  /-- Deep skips up to one that passes a close. -/
  | streamed {a : Aggregate} {ks : List Kind} {last : Reader}
      (hheader : (header a r).1 = .ok .streamed)
      (h : (skip true).Until (fun _ k => k = .close) mid ks last) :
      Completes r mid (.aggregate a) last
  /-- One deep skip of all the chunks. -/
  | chunks {role : Role} {last : Reader}
      (hheader : (Kind.blob role).streamHeader <+: r.remaining)
      (h : skip true mid = (.ok .chunk, last)) :
        Completes r mid (.blob role) last
  /-- Shallow skips of chunks up to the last. -/
  | chunk {ks : List Kind} {last : Reader} (hmore : ¬ AtLastChunk r .chunk)
      (h : (skip false).Until AtLastChunk mid ks last) :
        Completes r mid .chunk last
  | lastChunk (hlast : AtLastChunk r .chunk) : Completes r mid .chunk mid
  /-- Not at all. -/
  | whole {k : Kind} (haggregate : k.isAggregate = false) (hchunk : k ≠ .chunk)
      (hstream : ∀ role,
        k = .blob role → ¬ (Kind.blob role).streamHeader <+: r.remaining) :
      Completes r mid k mid

theorem Completes.alike {r mid last r' mid' : Reader} {k : Kind}
    (h : Completes r mid k last) (hr : Alike r r') (hmid : Alike mid mid') :
    ∃ last', Completes r' mid' k last' ∧ Alike last last' := by
  have hheader : ∀ a n, (header a r).1 = .ok n → (header a r').1 = .ok n := by
    intro a n hn
    obtain ⟨after, hrun, -⟩ := (steady_header a).of_ok hr (Prod.ext hn rfl)
    rw [hrun]
  have hchunk : ∀ s t (k : Kind),
      Alike s t → (AtLastChunk s k ↔ AtLastChunk t k) := by
    intro s t k hst
    rw [AtLastChunk, AtLastChunk, hst.remaining]
  cases h with
  | counted hn h =>
      obtain ⟨last', hrun, hlast⟩ := ((steady_skip true).times _).of_ok hmid h
      exact ⟨last', .counted (hheader _ _ hn) hrun, hlast⟩
  | streamed hn h =>
      obtain ⟨last', hrun, hlast⟩ :=
        (steady_skip true).until (fun _ _ _ _ => Iff.rfl) h hmid
      exact ⟨last', .streamed (hheader _ _ hn) hrun, hlast⟩
  | chunks hstream h =>
      obtain ⟨last', hrun, hlast⟩ := (steady_skip true).of_ok hmid h
      exact ⟨last', .chunks (hr.remaining ▸ hstream) hrun, hlast⟩
  | chunk hmore h =>
      obtain ⟨last', hrun, hlast⟩ := (steady_skip false).until hchunk h hmid
      exact ⟨last', .chunk (fun hend => hmore ((hchunk _ _ _ hr).mpr hend))
        hrun, hlast⟩
  | lastChunk hend => exact ⟨mid', .lastChunk ((hchunk _ _ _ hr).mp hend), hmid⟩
  | whole haggregate hflat hstream =>
      exact ⟨mid', .whole haggregate hflat (hr.remaining ▸ hstream), hmid⟩

theorem skip_lastChunk (rest : Bytes) :
    skip false (holding o (Marker.lastChunk ++ rest)) =
      (.ok .chunk, holding o rest) ∧
      AtLastChunk (holding o (Marker.lastChunk ++ rest)) .chunk := by
  have hrun : skipChunk (holding o (Marker.lastChunk ++ rest)) =
      (.ok true, holding o rest) :=
    (reads_iff.mp reads_skipChunk _ _ _).mpr
      ⟨_, rest, rfl, rfl, Or.inl ⟨rfl, rfl⟩⟩
  refine ⟨skip_chunk (Chunks.last (l := o.limits)).shows hrun, ?_⟩
  rw [AtLastChunk, remaining_holding]
  exact List.prefix_append _ _

theorem skip_counted_chunk {w octets : Bytes}
    (h : Counted o.limits .chunk w octets) (hmore : ¬ Marker.lastChunk <+: w)
    (rest : Bytes) :
    skip false (holding o (w ++ rest)) = (.ok .chunk, holding o rest) ∧
      ¬ AtLastChunk (holding o (w ++ rest)) .chunk := by
  have hrun : skipChunk (holding o (w ++ rest)) = (.ok false, holding o rest) :=
    (reads_iff.mp reads_skipChunk _ _ _).mpr
      ⟨w, rest, rfl, rfl, Or.inr ⟨rfl, octets, h, hmore⟩⟩
  refine ⟨skip_chunk h.shows hrun, ?_⟩
  rw [AtLastChunk, remaining_holding]
  intro hlast
  exact hmore
    (List.prefix_of_prefix_length_le hlast (List.prefix_append _ _) h.length_le)

/-- The chunks of a stream are passed one by one. -/
theorem until_chunks {w octets : Bytes} (h : Chunks o.limits w octets)
    (rest : Bytes) :
    ∃ ks,
      (skip false).Until AtLastChunk (holding o (w ++ rest)) ks
        (holding o rest) := by
  induction h with
  | last =>
      obtain ⟨hskip, hlast⟩ := skip_lastChunk (o := o) rest
      exact ⟨_, .last hskip hlast⟩
  | @more u w octets later hcounted hmore _ ih =>
      obtain ⟨ks, huntil⟩ := ih
      obtain ⟨hskip, hnot⟩ := skip_counted_chunk hcounted hmore (w ++ rest)
      rw [List.append_assoc]
      exact ⟨_, .more hskip hnot huntil⟩

theorem header_line (a : Aggregate) {num : Bytes} {n : Nat}
    (hcount : Count num n) (rest : Bytes) :
    header a (holding o ((Kind.aggregate a).line num ++ rest)) =
      (.ok (.known n), holding o rest) :=
  (reads_iff.mp (reads_header a) _ _ _).mpr
    ⟨_, rest, rfl, rfl, Or.inr ⟨num, n, rfl, hcount, rfl⟩⟩

theorem header_streamHeader (a : Aggregate) (rest : Bytes) :
    header a (holding o ((Kind.aggregate a).streamHeader ++ rest)) =
      (.ok .streamed, holding o rest) :=
  (reads_iff.mp (reads_header a) _ _ _).mpr
    ⟨_, rest, rfl, rfl, Or.inl ⟨rfl, rfl⟩⟩

theorem skip_holding_decomposes {s : Bytes} {k : Kind} {after : Reader}
    (h : skip true (holding o s) = (.ok k, after)) :
    ∃ mid, skip false (holding o s) = (.ok k, mid) ∧
      Completes (holding o s) mid k after := by
  obtain ⟨w, rest, rfl, rfl, hw⟩ := (reads_iff.mp reads_skip _ _ _).mp h
  have helement : ∀ {w k},
      Skips o.limits o.maxDepth w k → Skips o.limits (o.maxDepth + 1) w k :=
    fun hw => hw.succ
  cases hw with
  | flat hw =>
      obtain ⟨haggregate, hchunk, hstream⟩ := hw.whole rest
      refine ⟨holding o rest, ?_, .whole haggregate hchunk ?_⟩
      · rw [skip_of_flat (hw.shows rest) haggregate hchunk hstream, h]
      · rw [remaining_holding]
        exact hstream
  | @openBlob role w octets hw =>
      refine ⟨holding o (w ++ rest), ?_, .chunks ?_ ?_⟩
      · rw [List.append_assoc]
        exact skip_streamHeader role _
      · rw [remaining_holding, List.append_assoc]
        exact List.prefix_append _ _
      · exact (reads_iff.mp reads_skip _ _ _).mpr
          ⟨w, rest, rfl, rfl, .chunks hw⟩
  | chunks hw =>
      cases hw with
      | last =>
          obtain ⟨hskip, hlast⟩ := skip_lastChunk (o := o) rest
          exact ⟨holding o rest, hskip, .lastChunk hlast⟩
      | @more u w octets later hcounted hmore hlater =>
          obtain ⟨ks, huntil⟩ := until_chunks hlater rest
          obtain ⟨hskip, hnot⟩ := skip_counted_chunk hcounted hmore (w ++ rest)
          rw [List.append_assoc]
          exact ⟨holding o (w ++ rest), hskip, .chunk hnot huntil⟩
  | @counted a num w n ks hcount hlength hmany =>
      have hheader := header_line (o := o) a hcount (w ++ rest)
      rw [List.append_assoc]
      have hshows :
          Kind.Shows ((Kind.aggregate a).line num) (.aggregate a) := by
        simpa using hcount.shows (.aggregate a) []
      have htimes : (skip true).times (n * a.width) (holding o (w ++ rest)) =
          (.ok ks, holding o rest) :=
        (reads_iff.mp (reads_skip.times _) _ _ _).mpr
          ⟨w, rest, rfl, rfl, hlength, hmany.mono fun _ _ => helement⟩
      exact ⟨_, skip_header hshows hheader,
        .counted (congrArg Prod.fst hheader) htimes⟩
  | @opened a u w ks hmany hclose =>
      have hheader := header_streamHeader (o := o) a (u ++ (w ++ rest))
      rw [List.append_assoc, List.append_assoc]
      have hshows :
          Kind.Shows (Kind.aggregate a).streamHeader (.aggregate a) := by
        simpa using Kind.shows_streamHeader (.aggregate a) []
      have huntil :
          (skip true).Until (fun _ k => k = .close)
          (holding o (u ++ (w ++ rest))) (ks ++ [.close]) (holding o rest) :=
        reads_skip.until (fun w k hw => ⟨helement hw.1, fun _ => hw.2⟩) hmany
          (helement hclose) rfl
      exact ⟨_, skip_header hshows hheader,
        .streamed (congrArg Prod.fst hheader) huntil⟩

/-- A deep skip that passes a value comes apart. A shallow skip passes the front
of the same value and answers the same kind, and from there a caller comes, by
the skips that the front calls for, to where the deep skip has left off, with no
skip failing on the way. -/
theorem skip_decomposes {r after : Reader} {k : Kind} (h : r.feed.Calm)
    (hskip : skip true r = (.ok k, after)) :
    ∃ mid last, skip false r = (.ok k, mid) ∧ Completes r mid k last ∧
      last.remaining = after.remaining := by
  have halike := alike_holding h
  obtain ⟨held, hheld, hafter⟩ := (steady_skip true).of_ok halike hskip
  obtain ⟨mid, hshallow, hcompletes⟩ := skip_holding_decomposes hheld
  obtain ⟨mid', hrun, hmid⟩ := (steady_skip false).of_ok halike.symm hshallow
  obtain ⟨last, hlast, hsame⟩ := hcompletes.alike halike.symm hmid
  exact ⟨mid', last, hrun, hlast,
    hsame.remaining.symm.trans hafter.remaining.symm⟩

/-- A map of one pair whose value is a stream: behind its header two deep skips
remain. -/
theorem skip_decomposes_map :
    let r : Reader := ⟨⟨[.piece (Bytes.ofChars "1\r\n+a\r".toList),
        .failure ⟨.interrupted, "signal"⟩,
        .piece (Bytes.ofChars "\n*?\r\n:1\r\n.\r\n+x".toList)], some 2⟩,
        {}, Bytes.ofChars ['%']⟩
    r.feed.Calm ∧ (skip true r).1 = .ok .map ∧
      ∃ mid last, skip false r = (.ok .map, mid) ∧
        Completes r mid .map last ∧
        last.remaining = (skip true r).2.remaining := by
  intro r
  have hcalm : r.feed.Calm := by decide
  have hpasses : (skip true r).1.toOption = some .map := by decide +kernel
  have hskip : (skip true r).1 = .ok .map := by
    cases h : (skip true r).1 with
    | ok k =>
        rw [h] at hpasses; exact congrArg Except.ok (Option.some.inj hpasses)
    | error e => rw [h] at hpasses; cases hpasses
  exact ⟨hcalm, hskip, skip_decomposes hcalm (Prod.ext hskip rfl)⟩

end Reader

end RespWire

import RespWire.Proofs.Followers

/-!
# A reply is not waited past

A feed that goes quiet behind a whole reply must not be asked for more, since
the answer would have to wait for it. What a call asks for is seen from what it
leaves of the feed: every call on the feed meets the front of what is still to
arrive, so a feed that is left as it was when the last octet of the reply came
in has not been asked since.

A reader to which the reply is being delivered is compared with one that holds
it and has nothing else to come. What the second sees in a look ahead the first
sees as well, and it asks the feed only for octets of the reply. A look ahead
that reaches beyond the reply fails on the second reader, or is of no
consequence: then the second is scant, and no reply is read from it.
-/

namespace RespWire

namespace Reader

open Step (Matched Matches)
open Feed (isData octetsOf)

/-- The reader with these octets put back in front of what it holds. -/
def putBack (w : Bytes) (r : Reader) : Reader :=
  { r with buffer := w ++ r.buffer }

/-- `Delivered w left r`: where `r` asks its feed for octets until it holds `w`,
and no longer, every fill hands out some, and `left` is what then comes behind
`w`. -/
inductive Delivered (w : Bytes) (left : Reader) : Reader → Prop where
  | held : Delivered w left (left.putBack w)
  | fill {r mid : Reader} {k : Nat} (hshort : r.buffer.length < w.length)
      (hfill : Reader.fill r = (.ok (k + 1), mid))
        (hlater : Delivered w left mid) :
      Delivered w left r

variable {w p : Bytes} {left r s t mid : Reader} {n k taken missing : Nat}

theorem consume_putBack (p w : Bytes) (r : Reader) :
    (consume p.length (r.putBack (p ++ w))).2 = r.putBack w := by
  simp only [consume, putBack]
  rw [List.append_assoc, List.drop_left]

theorem putBack_nil (r : Reader) : r.putBack [] = r := rfl

namespace Delivered

theorem options (h : Delivered w left r) : r.options = left.options := by
  induction h with
  | held => rfl
  | @fill r mid k hshort hfill hlater ih =>
      have hoptions := options_of_fill r
      rw [hfill] at hoptions
      exact hoptions.symm.trans ih

/-- What is held is the front of what is delivered and of what comes behind
it. -/
theorem prefix_buffer (h : Delivered w left r) :
    r.buffer <+: w ++ left.buffer := by
  induction h with
  | held => exact List.prefix_rfl
  | @fill r mid k hshort hfill hlater ih =>
      have hfilled := prefix_buffer_of_fill r
      rw [hfill] at hfilled
      exact hfilled.trans ih

theorem front (h : Delivered w left r) (hp : p <+: r.buffer)
    (hle : p.length ≤ w.length) :
    p <+: w :=
  List.prefix_of_prefix_length_le (hp.trans h.prefix_buffer)
    (List.prefix_append w _) hle

theorem of_nil (h : Delivered [] left r) : r = left := by
  cases h with
  | held => exact putBack_nil left
  | fill hshort => exact absurd hshort (Nat.not_lt_zero _)

/-- Taking octets that are held takes them off the front of what is
delivered. -/
theorem consume (h : Delivered (p ++ w) left r)
    (hp : p.length ≤ r.buffer.length) :
    Delivered w left (Reader.consume p.length r).2 := by
  induction h with
  | held => exact consume_putBack p w left ▸ .held
  | @fill r mid k hshort hfill hlater ih =>
      have hlength := length_buffer_of_fill hfill
      refine .fill (k := k) ?_ ?_ (ih (by omega))
      · simp only [Reader.consume, List.length_drop,
          List.length_append] at hshort ⊢
        omega
      · rw [fill_consume hp, hfill]

/-- A look ahead within what is delivered shows it, and asks for nothing
else. -/
theorem lookAhead (h : Delivered w left r) (hn : n ≤ w.length) :
    ∃ mid,
      Reader.lookAhead n r = (.ok (w.take n), mid) ∧ Delivered w left mid := by
  induction h with
  | held =>
      have hheld : n ≤ (left.putBack w).buffer.length := by
        simp only [putBack, List.length_append]
        omega
      refine ⟨_, ?_, .held⟩
      rw [lookAhead_of_le hheld, putBack, List.take_append_of_le_length hn]
  | @fill r mid k hshort hfill hlater ih =>
      by_cases hheld : n ≤ r.buffer.length
      · have hfront :=
          (Delivered.fill hshort hfill hlater).front List.prefix_rfl
          (Nat.le_of_lt hshort)
        refine ⟨r, ?_, .fill hshort hfill hlater⟩
        rw [lookAhead_of_le hheld, ← List.prefix_iff_eq_append.mp hfront,
          List.take_append_of_le_length hheld]
      · rw [lookAhead_of_lacks (Nat.lt_of_not_le hheld), hfill]
        exact ih

/-- While there is something to deliver, some of it is held or the feed hands it
out. -/
theorem exists_held (h : Delivered w left r) (hw : w ≠ []) :
    ∃ b bs mid, Reader.held r = (.ok (b :: bs), mid) ∧ mid.buffer = b :: bs ∧
      Delivered w left mid := by
  cases hbuffer : r.buffer with
  | cons b bs =>
      refine ⟨b, bs, r, ?_, hbuffer, h⟩
      rw [Reader.held, hbuffer]
      rfl
  | nil =>
      cases h with
      | held => exact absurd (List.append_eq_nil_iff.mp hbuffer).1 hw
      | @fill _ mid k hshort hfill hlater =>
          have hlength := length_buffer_of_fill hfill
          cases hmid : mid.buffer with
          | nil =>
              rw [hmid, hbuffer] at hlength
              exact absurd hlength.symm (by simp)
          | cons b bs =>
              refine ⟨b, bs, mid, ?_, hmid, hlater⟩
              rw [Reader.held, hbuffer, hfill, ← hmid]
              rfl

/-- A body is taken portion by portion, and nothing behind it is asked for. -/
theorem bodyFrom (h : Delivered (p ++ w) left r) (g : Bytes) :
    ∃ after, Gather.bodyFrom p.length ⟨r, g⟩ = (.ok (), ⟨after, g ++ p⟩) ∧
      Delivered w left after := by
  induction hn : p.length using Nat.strongRecOn generalizing p r g with
  | ind size ih =>
      cases p with
      | nil =>
          subst hn
          refine ⟨r, ?_, h⟩
          rw [List.length_nil, Gather.bodyFrom, dif_pos rfl, List.append_nil]
      | cons a p =>
          obtain ⟨b, bs, mid, hheld, hbuffer, hmid⟩ :=
            h.exists_held (List.cons_ne_nil a _)
          have hread : Gather.ofRead Reader.held ⟨r, g⟩ =
              (.ok (b :: bs), ⟨mid, g⟩) :=
            Gather.ofRead_of_run hheld
          have hne : size ≠ 0 := by
            rw [← hn, List.length_cons]
            exact Nat.succ_ne_zero _
          rw [Gather.bodyFrom_eq hne, Step.bind_of_ok hread]
          simp only
          have hlength : ((b :: bs).take size).length ≤ size :=
            List.length_take_le _ _
          have hpos : 0 < ((b :: bs).take size).length := by
            rw [List.length_take, List.length_cons]
            omega
          have hheld : (b :: bs).take size <+: mid.buffer :=
            hbuffer ▸ List.take_prefix _ _
          generalize (b :: bs).take size = u at hlength hpos hheld
          have hfront : u <+: (a :: p) ++ w :=
            hmid.front hheld (by rw [List.length_append, hn]; omega)
          obtain ⟨q, hq⟩ : u <+: a :: p :=
            List.prefix_of_prefix_length_le hfront (List.prefix_append _ w)
              (hn ▸ hlength)
          rw [← hq, List.length_append] at hn
          rw [← hq, List.append_assoc] at hmid
          obtain ⟨after, hbody, hafter⟩ :=
            ih q.length (by omega) (hmid.consume hheld.length_le) (g ++ u) rfl
          refine ⟨after, ?_, hafter⟩
          rw [← hq, ← List.append_assoc, ← hbody,
            show q.length = size - u.length by omega]
          rfl

/-- So is a line, within the limit. -/
theorem lineFrom (hp : Bytes.lf ∉ p) (h : Delivered (p ++ Bytes.lf :: w) left r)
    (hadmits : left.options.limits.Admits (taken + (p.length + 1) - 2))
    (g : Bytes) :
    ∃ after, Gather.lineFrom taken ⟨r, g⟩ =
      Gather.settleLine (taken + (p.length + 1))
        ⟨after, g ++ (p ++ [Bytes.lf])⟩ ∧
      Delivered w left after := by
  induction hn : p.length using Nat.strongRecOn generalizing p taken r g with
  | ind size ih =>
      subst hn
      obtain ⟨b, bs, mid, hheld, hbuffer, hmid⟩ :=
        h.exists_held
          (List.append_ne_nil_of_right_ne_nil p (List.cons_ne_nil _ _))
      rw [Gather.lineFrom_apply, hheld]
      simp only [hmid.options]
      have hfits : ∀ length, length ≤ p.length + 1 →
          sizeFault? left.options (taken + length - 2) = none :=
        fun length hle => sizeFault?_of_admits fun limit hlimit =>
          Nat.le_trans (by omega) (hadmits limit hlimit)
      have hfront : b :: bs <+: p ++ Bytes.lf :: (w ++ left.buffer) := by
        rw [← List.cons_append, ← List.append_assoc]
        exact hbuffer ▸ hmid.prefix_buffer
      rcases throughLineFeed_of_front hp hfront with ⟨q, rfl, hnone⟩ | hportion
      · -- the portion ends in front of the line feed
        have hlast : (b :: bs).getLast? ≠ some Bytes.lf :=
          fun hlast => hnone (List.mem_of_getLast? hlast)
        have hlength : ((b :: bs) ++ q).length = (b :: bs).length + q.length :=
          List.length_append
        have htotal : taken + (((b :: bs) ++ q).length + 1) =
            taken + (b :: bs).length + (q.length + 1) := by omega
        rw [throughLineFeed_of_notMem hnone, hfits _ (by omega)]
        simp only [if_neg hlast]
        rw [htotal] at hadmits
        rw [List.append_assoc] at hmid
        have hless : q.length < ((b :: bs) ++ q).length := by
          rw [hlength, List.length_cons]
          omega
        obtain ⟨after, hline, hafter⟩ := ih q.length hless
          (fun hmem => hp (List.mem_append_right _ hmem))
          (hmid.consume (hbuffer ▸ Nat.le_refl _)) hadmits (g ++ (b :: bs)) rfl
        refine ⟨after, ?_, hafter⟩
        rw [hline, htotal, List.append_assoc, List.append_assoc]
      · -- the portion reaches the line feed
        have hheld : p ++ [Bytes.lf] <+: mid.buffer := by
          rw [hbuffer, ← hportion]
          exact throughLineFeed_prefix (b :: bs)
        have htotal : (p ++ [Bytes.lf]).length = p.length + 1 :=
          List.length_append
        rw [hportion, htotal, hfits _ (Nat.le_refl _)]
        simp only [List.getLast?_concat, if_true]
        rw [← List.singleton_append, ← List.append_assoc] at hmid
        exact ⟨_, by rw [htotal], hmid.consume hheld.length_le⟩

theorem line (hp : Bytes.lf ∉ p) (h : Delivered (p ++ Bytes.crlf ++ w) left r)
    (hadmits : left.options.limits.Admits p.length) (g : Bytes) :
    ∃ after, Gather.line ⟨r, g⟩ = (.ok (), ⟨after, g ++ p⟩) ∧
      Delivered w left after := by
  have hfront : Bytes.lf ∉ p ++ [Bytes.cr] := by
    rw [List.mem_append, not_or]
    exact ⟨hp, by decide⟩
  have hlength : (p ++ [Bytes.cr]).length + 1 = (p ++ Bytes.crlf).length := by
    simp
  have hend : 0 + ((p ++ [Bytes.cr]).length + 1) - 2 = p.length := by simp
  have hsplit : p ++ Bytes.crlf ++ w = (p ++ [Bytes.cr]) ++ Bytes.lf :: w := by
    simp [Bytes.crlf]
  obtain ⟨after, hline, hafter⟩ :=
    (hsplit ▸ h).lineFrom hfront (hend.symm ▸ hadmits) g
  refine ⟨after, ?_, hafter⟩
  rw [Gather.line, hline, hlength, Nat.zero_add, List.append_assoc]
  exact Gather.settleLine_eq_ok_iff.mpr ⟨p, rfl, rfl⟩

end Delivered

/-! ## Calls -/

/-- What is being delivered to the first reader, the second holds. -/
def Supplied (left s t : Reader) : Prop :=
  ∃ w, t = holding left.options w ∧ Delivered w left s

theorem followers_supplied (left : Reader) :
    Followers (fun _ => True) (Supplied left) where
  lookAhead n s t hst := by
    obtain ⟨w, rfl, h⟩ := hst
    rw [lookAhead_holding]
    by_cases hn : n ≤ w.length
    · obtain ⟨mid, hlook, hmid⟩ := h.lookAhead hn
      exact Or.inl ⟨_, mid, _, hlook, rfl, w, rfl, hmid⟩
    · refine Or.inr ⟨fun _ => trivial, fun bs after hok => ?_⟩
      cases hok
      rw [List.length_take]
      omega
  consume n s t hst hs ht := by
    obtain ⟨w, rfl, h⟩ := hst
    have hlength : (w.take n).length = n := List.length_take_of_le ht
    rw [← List.take_append_drop n w] at h
    have hafter := h.consume (hlength.symm ▸ hs)
    rw [hlength] at hafter
    exact ⟨w.drop n, rfl, hafter⟩
  checkSize size s t hst := by
    obtain ⟨w, rfl, h⟩ := hst
    rw [checkSize_apply, checkSize_apply, h.options,
      show (holding left.options w).options = left.options from rfl]
    split
    · exact .stopped trivial
    · exact .same ⟨w, rfl, h⟩
  bodyFrom missing := by
    rintro ⟨s, g⟩ ⟨_, _⟩ ⟨⟨v, rfl, h⟩, rfl⟩
    refine .of_imp (fun _ => trivial) fun u e hok => ?_
    obtain ⟨_, rest, p, rfl, rfl, rfl, rfl⟩ :=
      (Gather.gathers_bodyFrom missing v g u e).mp hok
    obtain ⟨after, hbody, hafter⟩ := h.bodyFrom g
    exact ⟨_, hbody, ⟨rest, rfl, hafter⟩, rfl⟩
  line := by
    rintro ⟨s, g⟩ ⟨_, _⟩ ⟨⟨v, rfl, h⟩, rfl⟩
    refine .of_imp (fun _ => trivial) fun u e hok => ?_
    obtain ⟨_, rest, p, rfl, rfl, hlf, hadmits, rfl⟩ :=
      (Gather.gathers_line v g u e).mp hok
    obtain ⟨after, hline, hafter⟩ := h.line hlf hadmits g
    exact ⟨_, hline, ⟨rest, rfl, hafter⟩, rfl⟩
  stops_cases := Or.inl fun _ => trivial
  holds _ s t hst := by
    obtain ⟨w, rfl, -⟩ := hst
    exact ⟨_, w, rfl⟩
  tooDeep _ := trivial
  depth s t hst := by
    obtain ⟨w, rfl, h⟩ := hst
    rw [h.options]
    exact Nat.le_refl _

section

variable {q : Reader} {call : Call} {g : Bytes} {a : Answer} {after : Draft}

theorem alike_supplied (hq : q.feed.Calm)
    (hlimits : r.options.limits = q.options.limits)
    (h : Delivered q.remaining left r) :
    Alike q (holding left.options q.remaining) :=
  ⟨hq, calm_holding _, by rw [← hlimits, h.options]; rfl,
    (remaining_holding _).symm⟩

/-- A reply that was read to its end is read while it is being delivered, and
nothing more is asked of the feed. -/
theorem make_of_delivered (hcall : call ≠ .peek) (hq : q.feed.Calm)
    (hmake : call.make ⟨q, g⟩ = (.ok a, after))
    (hall : after.reader.remaining = [])
    (hlimits : r.options.limits = q.options.limits)
    (h : Delivered q.remaining left r) :
    call.make ⟨r, g⟩ = (.ok a, ⟨left, after.gathered⟩) := by
  have halike : Draft.Alike ⟨q, g⟩ ⟨holding left.options q.remaining, g⟩ :=
    ⟨alike_supplied hq hlimits h, rfl⟩
  obtain ⟨e, hholding, hsame⟩ := (steady_make call).of_ok halike hmake
  have hmatched :=
    (followers_supplied left).make (fun hpeek => absurd hpeek hcall)
    ⟨r, g⟩ ⟨holding left.options q.remaining, g⟩ ⟨⟨_, rfl, h⟩, rfl⟩
  rw [hholding] at hmatched
  obtain ⟨d, hrun, ⟨w, he, hw⟩, hgathered⟩ := hmatched.of_ok
  have hnil : w = [] := by
    rw [← remaining_holding (o := left.options)
      w, ← he, ← hsame.reader.remaining, hall]
  rw [hrun, show d = ⟨left, after.gathered⟩ from ?_]
  obtain ⟨s, g'⟩ := d
  cases hnil
  cases hw.of_nil
  cases hgathered.trans hsame.gathered.symm
  rfl

/-- Before a value that is being delivered is read, a look for its kind asks for
nothing behind it either. -/
theorem peek_of_delivered {v : Value} {later : Reader} (hq : q.feed.Calm)
    (hvalue : value q = (.ok v, later))
    (hlimits : r.options.limits = q.options.limits)
    (h : Delivered q.remaining left r) :
    ∃ k mid, peek r = (.ok k, mid) ∧ Delivered q.remaining left mid := by
  obtain ⟨_, hholding, -⟩ :=
    steady_value.of_ok (alike_supplied hq hlimits h) hvalue
  have hwithin : valueWithin (left.options.maxDepth + 1)
      (holding left.options q.remaining) = _ :=
    hholding
  obtain ⟨k, _, hpeek, -⟩ := Step.bind_eq_ok.mp hwithin
  rcases (followers_supplied left).peek_or_scant ⟨_, rfl, h⟩ with hmatched |
    ⟨-, k', hscant⟩
  · rw [hpeek] at hmatched
    obtain ⟨mid, hlook, w, hw, hmid⟩ := hmatched.of_ok
    have hstill := still_peek (o := left.options) q.remaining
    rw [Step.Still, hpeek] at hstill
    cases hstill.symm.trans hw
    exact ⟨k, mid, hlook, hmid⟩
  · exact absurd hwithin ((Followers.ample_valueWithin _ k').not_ok hscant)

end

/-! ## Feeds that deliver -/

/-- Octets that arrive in pieces are delivered, whatever arrives behind them. -/
theorem exists_delivered {before : List Arrival} {portion : Option Nat}
    {buffer beyond : Bytes} (hdata : before.all isData = true)
    (hportion : portion ≠ some 0) (o : Options) (later : List Arrival)
    (h : buffer ++ before.flatMap octetsOf = w ++ beyond) :
    ∃ rest kept,
      rest.all isData = true ∧ kept ++ rest.flatMap octetsOf = beyond ∧
      Delivered w ⟨⟨rest ++ later, portion⟩, o, kept⟩
        ⟨⟨before ++ later, portion⟩, o, buffer⟩ := by
  induction hn : w.length - buffer.length using Nat.strongRecOn
      generalizing before buffer with
  | ind size ih =>
      by_cases hle : w.length ≤ buffer.length
      · obtain ⟨kept, rfl⟩ : w <+: buffer :=
          List.prefix_of_prefix_length_le ⟨beyond, h.symm⟩
            (List.prefix_append _ _) hle
        refine ⟨before, kept, hdata, ?_, .held⟩
        rw [List.append_assoc] at h
        exact List.append_cancel_left h
      · cases before with
        | nil =>
            have hlength := congrArg List.length h
            simp only [List.flatMap_nil, List.append_nil,
              List.length_append] at hlength
            omega
        | cons arrival before =>
            rw [List.all_cons, Bool.and_eq_true] at hdata
            cases arrival with
            | failure e => cases hdata.1
            | piece octets =>
                have hne : octets ≠ [] := by simpa [isData] using hdata.1
                obtain ⟨got, rest, hgot, hrest, hsplit, hfill⟩ :=
                  fill_piece hne hportion o buffer
                obtain ⟨k, hk⟩ :=
                  Nat.exists_eq_add_one.mpr (List.length_pos_iff.mpr hgot)
                have hdata' : (rest ++ before).all isData = true := by
                  rw [List.all_append, hrest, hdata.2]
                  rfl
                have h' : (buffer ++ got) ++ (rest ++ before).flatMap octetsOf =
                    w ++ beyond := by
                  rw [← h, List.flatMap_cons, octetsOf, ← hsplit,
                    List.flatMap_append]
                  simp only [List.append_assoc]
                have hless : w.length - (buffer ++ got).length < size := by
                  rw [List.length_append, hk]
                  omega
                obtain ⟨more, kept, hmore, hkept, hlater⟩ :=
                  ih _ hless hdata' h' rfl
                refine ⟨more, kept, hmore, hkept,
                  .fill (k := k) (Nat.lt_of_not_le hle) ?_ hlater⟩
                rw [List.append_assoc]
                exact hk ▸ hfill (before ++ later)

theorem eq_nil_of_isData {rest : List Arrival} (hdata : rest.all isData = true)
    (hnone : rest.flatMap octetsOf = []) : rest = [] := by
  cases rest with
  | nil => rfl
  | cons arrival later =>
      rw [List.all_cons, Bool.and_eq_true] at hdata
      cases arrival with
      | failure e => cases hdata.1
      | piece octets =>
          have hne : octets ≠ [] := by simpa [isData] using hdata.1
          exact absurd (List.append_eq_nil_iff.mp hnone).1 hne

/-- A call that takes all that is to come asks the feed for no more than that.
To a reader with the same limits to which the same octets are delivered, it
gives the same answer, gathers the same, and leaves the feed as it was when the
last of them came in. So whatever arrives behind them is still to arrive: data,
failures, or the end of the input. And in front of a value a look for its kind
keeps within these octets too. -/
theorem make_waits_no_further {q : Reader} {call : Call} {g : Bytes}
    {a : Answer} {after : Draft} (hcall : call ≠ .peek) (hq : q.feed.Calm)
    (hmake : call.make ⟨q, g⟩ = (.ok a, after))
    (hall : after.reader.remaining = []) :
    (∀ left r, r.options.limits = q.options.limits →
      Delivered q.remaining left r →
      call.make ⟨r, g⟩ = (.ok a, ⟨left, after.gathered⟩) ∧
      (call = .value → ∃ k mid, peek r = (.ok k, mid) ∧
        Delivered q.remaining left mid)) ∧
    ∀ (before later : List Arrival) (portion : Option Nat) (o : Options)
      (buffer beyond : Bytes),
      before.all isData = true → portion ≠ some 0 →
        o.limits = q.options.limits →
      buffer ++ before.flatMap octetsOf = q.remaining ++ beyond →
      ∃ rest kept,
        rest.all isData = true ∧ kept ++ rest.flatMap octetsOf = beyond ∧
        Delivered q.remaining ⟨⟨rest ++ later, portion⟩, o, kept⟩
          ⟨⟨before ++ later, portion⟩, o, buffer⟩ ∧
        call.make ⟨⟨⟨before ++ later, portion⟩, o, buffer⟩, g⟩ =
          (.ok a, ⟨⟨⟨rest ++ later, portion⟩, o, kept⟩, after.gathered⟩) := by
  refine ⟨fun left r hlimits h => ⟨?_, fun hvalue => ?_⟩, ?_⟩
  · exact make_of_delivered hcall hq hmake hall hlimits h
  · subst hvalue
    obtain ⟨v, mid, hread, -⟩ := Step.bind_eq_ok.mp hmake
    exact peek_of_delivered hq (Gather.ofRead_eq_ok.mp hread).1 hlimits h
  · intro before later portion o buffer beyond hdata hportion hlimits hsplit
    obtain ⟨rest, kept, hrest, hkept, h⟩ :=
      exists_delivered hdata hportion o later hsplit
    exact ⟨rest, kept, hrest, hkept, h,
      make_of_delivered hcall hq hmake hall hlimits h⟩

/-- An array that comes in pieces, two octets at a time, on a feed that then has
nothing for now. -/
theorem make_waits_no_further_idle :
    let whole : Reader :=
      ⟨.ofBytes (Bytes.ofChars "*1\r\n+a\r\n".toList), {}, []⟩
    let later : List Arrival :=
      [.failure ⟨.wouldBlock, "idle"⟩, .piece (Bytes.ofChars ['+'])]
    let before : List Arrival :=
      [.piece (Bytes.ofChars "1\r\n+a".toList), .piece Bytes.crlf]
    let reader : List Arrival → Bytes → Reader := fun arrivals buffer =>
      ⟨⟨arrivals, some 2⟩, { bufferSize := 0 }, buffer⟩
    let answer : Answer :=
      .value (.array [.simple .string (Bytes.ofChars ['a'])])
    (∃ after, Call.value.make ⟨whole, [7]⟩ = (.ok answer, ⟨after, [7]⟩) ∧
      after.remaining = []) ∧
    Call.value.make ⟨reader (before ++ later) (Bytes.ofChars ['*']), [7]⟩ =
      (.ok answer, ⟨reader later [], [7]⟩) := by
  intro whole later before reader answer
  have hcalm : whole.feed.Calm := by decide
  have hone : Count (Bytes.ofChars ['1']) 1 :=
    ⟨.plain (.singleton rfl), by decide⟩
  have hderives : Derives whole.options.limits 0 _
      (.array [.simple .string (Bytes.ofChars ['a'])]) :=
    .sequence hone (.cons (by decide) (.simple (by decide) (by decide)) .nil)
  obtain ⟨after, hvalue, hall⟩ :=
    (reads_value.accepts_iff steady_value hcalm _ []).mpr
      ⟨_, by decide, hderives⟩
  have hmake : Call.value.make ⟨whole, [7]⟩ = (.ok answer, ⟨after, [7]⟩) :=
    Step.bind_of_ok (Gather.ofRead_eq_ok.mpr ⟨hvalue, rfl⟩)
  refine ⟨⟨after, hmake, hall⟩, ?_⟩
  obtain ⟨rest, kept, hrest, hkept, -, hrun⟩ :=
    (make_waits_no_further (by decide) hcalm hmake hall).2 before later (some 2)
    { bufferSize := 0 }
      (Bytes.ofChars ['*']) [] (by decide) (by decide) rfl (by decide)
  obtain ⟨rfl, hnone⟩ := List.append_eq_nil_iff.mp hkept
  cases eq_nil_of_isData hrest hnone
  exact hrun

end Reader

end RespWire

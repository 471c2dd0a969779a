import RespWire.Proofs.Piecewise
import RespWire.Proofs.RoundTrip

/-!
# However a value is framed

A writer has more than one way to write a value. An aggregate is counted or
opened and closed, a blob is sent whole or cut into chunks, and a value is
written by the one call for all of it or by a call for each of its parts. A peer
of the earlier protocol version has two more forms of null, for which a writer
has no call. The choice is made anew for every value nested in a value. A
`Framing` is a value with these choices made, and `sendings` is what a caller
does then, one thing after the other.

Whatever the choices, what arrives on a sink that takes everything is a word of
the grammar for the value, so all framings of a value are read as that value.
Where the octets come from is kept apart from what they are: `Brings` speaks of
writers and sinks only, and its closures follow the lists of sendings.
-/

namespace RespWire

/-! ## What a caller does -/

/-- What a caller does to bring octets to a sink. -/
inductive Sending where
  | call (c : Writer.Call)
  /-- Octets are put on the sink past the writer. -/
  | past (octets : Bytes)

namespace Sending

def make : Sending → Step Writer Unit
  | call c => c.perform
  | past octets => Writer.onSink (Sink.send octets)

/-- Makes sendings one behind the other, up to the first that fails. -/
def makeAll : List Sending → Step Writer Unit
  | [] => pure ()
  | s :: later => do
      s.make
      makeAll later

theorem makeAll_append (xs ys : List Sending) :
    makeAll (xs ++ ys) = makeAll xs >>= fun _ => makeAll ys := by
  induction xs with
  | nil => rfl
  | cons s xs ih => rw [List.cons_append, makeAll, ih, makeAll, bind_assoc]

theorem makeAll_calls (calls : List Writer.Call) :
    makeAll (calls.map .call) = Writer.performAll calls := by
  induction calls with
  | nil => rfl
  | cons c calls ih => rw [List.map_cons, makeAll, ih, Writer.performAll, make]

/-- With every writer over a sink that takes everything, the sendings succeed,
and just these octets arrive on the sink. -/
def Brings (xs : List Sending) (octets : Bytes) : Prop :=
  ∀ w : Writer, w.sink.TakesAll → ∃ after, makeAll xs w = (.ok (), after) ∧
    after.sink.TakesAll ∧ after.sink.accepted = w.sink.accepted ++ octets

variable {s : Sending} {xs ys : List Sending} {t u octets : Bytes}

theorem brings_nil : Brings [] [] :=
  fun w h => ⟨w, rfl, h, (List.append_nil _).symm⟩

theorem Brings.append (hx : Brings xs t) (hy : Brings ys u) :
    Brings (xs ++ ys) (t ++ u) := by
  intro w h
  obtain ⟨mid, hfirst, hmid, haccepted⟩ := hx w h
  obtain ⟨after, hlater, hafter, hall⟩ := hy mid hmid
  refine ⟨after, ?_, hafter, by rw [hall, haccepted, List.append_assoc]⟩
  rw [makeAll_append, Step.bind_of_ok hfirst, hlater]

theorem Brings.cons (hs : Brings [s] t) (hxs : Brings xs u) :
    Brings (s :: xs) (t ++ u) :=
  hs.append hxs

/-- Calls that can all be encoded bring their encodings, in the way a writer
makes each of them. -/
theorem brings_calls {calls : List Writer.Call}
    (hcalls : ∀ call ∈ calls, call ≠ .flush)
    (h : Writer.assembled calls = .whole octets) :
    Brings (calls.map .call) octets := by
  intro w htakes
  obtain ⟨after, hall, hafter, haccepted⟩ :=
    Writer.performAll_of_takesAll hcalls htakes
  rw [h] at hall haccepted
  exact ⟨after, (congrFun (makeAll_calls calls) w).trans hall, hafter,
    haccepted⟩

theorem brings_call {call : Writer.Call} (hcall : call ≠ .flush)
    (h : call.encoded = .ok octets) : Brings [.call call] octets := by
  have hassembled : Writer.assembled [call] = .whole octets := by
    rw [Writer.assembled, h]
    exact congrArg Encoding.whole (List.append_nil octets)
  exact brings_calls (by simpa using hcall) hassembled

theorem brings_past (octets : Bytes) : Brings [.past octets] octets := by
  intro w h
  obtain ⟨sink, hsend, htakes, haccepted⟩ := Sink.send_of_takesAll h octets
  refine ⟨{ w with sink := sink }, ?_, htakes, haccepted⟩
  have hrun : (past octets).make w = (.ok (), { w with sink := sink }) := by
    rw [make, Writer.onSink, hsend]
  exact Step.bind_of_ok hrun

end Sending

/-! ## Framings -/

/-- How the elements of an aggregate are announced. -/
inductive Opening where
  | counted
  | streamed
  /-- A stream that is opened by a header with the count minus one. -/
  | minusOne
  deriving DecidableEq, Repr

namespace Opening

/-- The call that announces `n` elements. -/
def call (a : Aggregate) (n : Nat) : Opening → Writer.Call
  | counted => .header a n
  | streamed => .openAggregate a
  | minusOne => .header a (-1)

/-- The calls behind the elements. -/
def close : Opening → List Sending
  | counted => []
  | streamed | minusOne => [.call .close]

/-- The octets in front of `n` elements. -/
def front (a : Aggregate) (n : Nat) : Opening → Bytes
  | counted => (Kind.aggregate a).line (Decimal.ofNat n)
  | streamed | minusOne => (Kind.aggregate a).streamHeader

/-- The octets behind the elements. -/
def back : Opening → Bytes
  | counted => []
  | streamed | minusOne => Marker.close

end Opening

/-- A value with a choice of how to write it, and how to write all that is
nested in it. -/
inductive Framing where
  /-- A value in one call. -/
  | whole (v : Value)
  /-- A value in a call for each of its parts, all aggregates counted. -/
  | parts (v : Value)
  | sequence (s : Sequence) (o : Opening) (items : List Framing)
  | pairing (p : Pairing) (o : Opening) (pairs : List (Framing × Framing))
  /-- A blob cut into chunks, without the empty chunk behind them. -/
  | chunks (role : Role) (pieces : List { p : Bytes // p ≠ [] })
  | nullArray
  | nullBlob

namespace Framing

mutual

/-- The value that is written. -/
def value : Framing → Value
  | whole v => v
  | parts v => v
  | sequence s _ items => .sequence s (itemsValue items)
  | pairing p _ pairs => .pairing p (pairsValue pairs)
  | chunks role pieces => .blob role (pieces.flatMap (·.1))
  | nullArray => .null
  | nullBlob => .null

def itemsValue : List Framing → List Value
  | [] => []
  | f :: fs => value f :: itemsValue fs

def pairsValue : List (Framing × Framing) → List (Value × Value)
  | [] => []
  | (k, v) :: rest => (value k, value v) :: pairsValue rest

end

/-- The calls around what is nested in an aggregate. -/
def around (a : Aggregate) (o : Opening) (n : Nat) (nested : List Sending) :
    List Sending :=
  .call (o.call a n) :: (nested ++ o.close)

mutual

/-- What a caller does to write a framing, one thing after the other. -/
def sendings : Framing → List Sending
  | whole v => [.call (.value v)]
  | parts v => v.calls.map .call
  | sequence s o items =>
      around (.sequence s) o items.length (itemsSendings items)
  | pairing p o pairs =>
      around (.pairing p) o pairs.length (pairsSendings pairs)
  | chunks role pieces =>
      .call (.openBlob role) ::
        (pieces.map (fun p => .call (.chunk p.1)) ++ [.call (.chunk [])])
  | nullArray => [.past Marker.nullArray]
  | nullBlob => [.past Marker.nullBlob]

def itemsSendings : List Framing → List Sending
  | [] => []
  | f :: fs => sendings f ++ itemsSendings fs

def pairsSendings : List (Framing × Framing) → List Sending
  | [] => []
  | (k, v) :: rest => sendings k ++ (sendings v ++ pairsSendings rest)

end

/-- Writes a framing. -/
def write (f : Framing) : Step Writer Unit := Sending.makeAll f.sendings

mutual

/-- Whether the numbers that are written can be read, and whether everything
that is written in one piece is within the size limit. -/
def Within (l : Limits) : Framing → Prop
  | whole v => v.Countable ∧ v.Fits l
  | parts v => v.Countable ∧ v.Fits l
  | sequence _ o items =>
      (o = .counted → items.length < 2 ^ 63) ∧ itemsWithin l items
  | pairing _ o pairs =>
      (o = .counted → pairs.length < 2 ^ 63) ∧ pairsWithin l pairs
  | chunks _ pieces =>
      ∀ p ∈ pieces, p.1.length < 2 ^ 63 ∧ l.Admits p.1.length
  | nullArray => True
  | nullBlob => True

def itemsWithin (l : Limits) : List Framing → Prop
  | [] => True
  | f :: fs => Within l f ∧ itemsWithin l fs

def pairsWithin (l : Limits) : List (Framing × Framing) → Prop
  | [] => True
  | (k, v) :: rest => Within l k ∧ Within l v ∧ pairsWithin l rest

end

open Sending (Brings brings_call brings_calls brings_nil)

theorem brings_around (a : Aggregate) (o : Opening) (n : Nat)
    {nested : List Sending} {w : Bytes} (h : Brings nested w) :
    Brings (around a o n nested) (o.front a n ++ (w ++ o.back)) := by
  have hclose : Brings o.close o.back := by
    cases o with
    | counted => exact brings_nil
    | streamed | minusOne => exact brings_call nofun rfl
  refine Brings.cons ?_ (h.append hclose)
  cases o with
  | counted => exact brings_call nofun (Value.header_encoded a n)
  | streamed => exact brings_call nofun rfl
  | minusOne => exact brings_call nofun rfl

theorem brings_chunks (pieces : List { p : Bytes // p ≠ [] }) :
    Brings (pieces.map (fun p => .call (.chunk p.1)) ++ [.call (.chunk [])])
      (pieces.flatMap (fun p => Encode.counted .chunk p.1) ++
        Marker.lastChunk) := by
  induction pieces with
  | nil => exact brings_call nofun rfl
  | cons p pieces ih =>
      rw [List.flatMap_cons, List.append_assoc]
      refine Brings.cons (brings_call nofun ?_) ih
      show Except.ok (Encode.chunk p.1) = _
      rw [Encode.chunk, if_neg (by simpa using p.2)]

theorem brings_parts {v : Value} (h : v.OneLine) :
    Brings (v.calls.map .call) v.octets := by
  refine brings_calls (fun call hcall => ?_) ?_
  · obtain ⟨u, -, rfl⟩ := List.mem_map.mp hcall
    exact Value.call_ne_flush u
  · rw [← Value.encoding_eq_assembled, Value.encoding_eq_whole h]

theorem length_itemsValue (fs : List Framing) :
    (itemsValue fs).length = fs.length := by
  induction fs with
  | nil => rfl
  | cons f fs ih => exact congrArg Nat.succ ih

theorem length_pairsValue (pairs : List (Framing × Framing)) :
    (pairsValue pairs).length = pairs.length := by
  induction pairs with
  | nil => rfl
  | cons x pairs ih => exact congrArg Nat.succ ih

end Framing

/-! ## Chunks -/

/-- The last chunk is told from every chunk that holds octets. -/
theorem Counted.not_lastChunk {l : Limits} {w octets : Bytes}
    (h : Counted l .chunk w octets) (hne : octets ≠ []) :
    ¬ Marker.lastChunk <+: w := by
  intro ⟨t, ht⟩
  obtain ⟨num, ⟨hnum, -⟩, -, rfl⟩ := h
  have hpos := List.length_pos_iff.mpr hne
  have hfront : '0'.toUInt8 :: Bytes.cr :: Bytes.lf :: t =
      num ++ Bytes.crlf ++ (octets ++ Bytes.crlf) := (List.cons.inj ht).2
  rw [List.append_assoc] at hfront
  generalize hn : (octets.length : Int) = n at hnum
  cases hnum with
  | plain hds =>
      rw [hds.eq_singleton hfront] at hn
      have hzero : Decimal.value ['0'.toUInt8] = 0 := by decide
      omega
  | negative hds => exact absurd (List.cons.inj hfront).1 (by decide)

theorem chunks_flatMap {l : Limits} {pieces : List { p : Bytes // p ≠ [] }}
    (h : ∀ p ∈ pieces, p.1.length < 2 ^ 63 ∧ l.Admits p.1.length) :
    Chunks l
      (pieces.flatMap (fun p => Encode.counted .chunk p.1) ++ Marker.lastChunk)
      (pieces.flatMap (·.1)) := by
  induction pieces with
  | nil => exact .last
  | cons p pieces ih =>
      obtain ⟨hlength, hsize⟩ := h p (.head _)
      have hcounted := Value.counted_encode .chunk hlength hsize
      rw [List.flatMap_cons, List.flatMap_cons, List.append_assoc]
      exact .more hcounted (hcounted.not_lastChunk p.2)
        (ih fun q hq => h q (.tail _ hq))

namespace Framing

open Value (flat canonical itemsCanonical_eq pairsCanonical_eq)
open Sending (Brings brings_call brings_nil brings_past)

/-! ## Words of framings

By the recursion of the framing, for values, elements and pairs at once. What
is sent depends only on the framing. Where it is a word depends on the limits
too, and it is one at every depth that leaves room. -/

mutual

theorem sendings_derive : ∀ f : Framing, f.value.OneLine →
    ∃ w, Brings f.sendings w ∧
      ∀ l depth, f.Within l → depth + f.value.height ≤ l.depth →
        Derives l depth w f.value.canonical
  | whole v, hline => by
      refine ⟨v.octets, brings_call nofun (Value.encode_eq_ok hline), ?_⟩
      intro l depth hwithin hdepth
      exact Value.derives_octets hline hwithin.1 hwithin.2 depth hdepth
  | parts v, hline => by
      refine ⟨v.octets, brings_parts hline, ?_⟩
      intro l depth hwithin hdepth
      exact Value.derives_octets hline hwithin.1 hwithin.2 depth hdepth
  | sequence s o items, hline => by
      obtain ⟨w, hw, hitems⟩ :=
        itemsSendings_derive items fun c hc => hline.child hc
      refine ⟨_, brings_around (.sequence s) o items.length hw,
        fun l depth hwithin hdepth => ?_⟩
      have hnested := hitems l (depth + 1) hwithin.2 fun c hc => by
        have hlt := Value.height_lt_of_mem (v := value (sequence s o items)) hc
        omega
      rw [value, canonical, itemsCanonical_eq]
      cases o with
      | counted =>
          rw [Opening.front, Opening.back, List.append_nil]
          refine .sequence ?_ hnested
          rw [List.length_map, length_itemsValue]
          exact count_ofNat (hwithin.1 rfl)
      | streamed | minusOne => exact .openSequence hnested
  | pairing p o pairs, hline => by
      obtain ⟨w, hw, hpairs⟩ :=
        pairsSendings_derive pairs fun c hc => hline.child hc
      refine ⟨_, brings_around (.pairing p) o pairs.length hw,
        fun l depth hwithin hdepth => ?_⟩
      have hnested := hpairs l (depth + 1) hwithin.2 fun c hc => by
        have hlt := Value.height_lt_of_mem (v := value (pairing p o pairs)) hc
        omega
      rw [value, canonical, pairsCanonical_eq]
      cases o with
      | counted =>
          rw [Opening.front, Opening.back, List.append_nil]
          refine .pairing ?_ hnested
          rw [List.length_map, length_pairsValue]
          exact count_ofNat (hwithin.1 rfl)
      | streamed | minusOne => exact .openPairing hnested
  | chunks role pieces, _ =>
      ⟨_, Brings.cons (brings_call nofun rfl) (brings_chunks pieces),
        fun _ _ hwithin _ => .openBlob (chunks_flatMap hwithin)⟩
  | nullArray, _ => ⟨_, brings_past _, fun _ _ _ _ => .nullArray⟩
  | nullBlob, _ => ⟨_, brings_past _, fun _ _ _ _ => .nullBlob⟩

theorem itemsSendings_derive : ∀ fs : List Framing,
    (∀ c ∈ itemsValue fs, c.OneLine) →
    ∃ w, Brings (itemsSendings fs) w ∧ ∀ l depth, itemsWithin l fs →
      (∀ c ∈ itemsValue fs, depth + c.height ≤ l.depth) →
        DerivesItems l depth w ((itemsValue fs).map canonical)
  | [], _ => ⟨[], brings_nil, fun _ _ _ _ => .nil⟩
  | f :: fs, hline => by
      obtain ⟨u, hu, hfirst⟩ := sendings_derive f (hline _ (.head _))
      obtain ⟨w, hw, hlater⟩ :=
        itemsSendings_derive fs fun c hc => hline c (.tail _ hc)
      refine ⟨u ++ w, hu.append hw, fun l depth hwithin hdepth => ?_⟩
      have hroom := hdepth _ (.head _)
      exact .cons (by omega) (hfirst l depth hwithin.1 hroom)
        (hlater l depth hwithin.2 fun c hc => hdepth c (.tail _ hc))

theorem pairsSendings_derive : ∀ pairs : List (Framing × Framing),
    (∀ c ∈ flat (pairsValue pairs), c.OneLine) →
    ∃ w, Brings (pairsSendings pairs) w ∧ ∀ l depth, pairsWithin l pairs →
      (∀ c ∈ flat (pairsValue pairs), depth + c.height ≤ l.depth) →
        DerivesPairs l depth w
          ((pairsValue pairs).map fun x => (x.1.canonical, x.2.canonical))
  | [], _ => ⟨[], brings_nil, fun _ _ _ _ => .nil⟩
  | (k, v) :: rest, hline => by
      obtain ⟨t, ht, hkey⟩ := sendings_derive k (hline _ (.head _))
      obtain ⟨u, hu, hvalue⟩ := sendings_derive v (hline _ (.tail _ (.head _)))
      obtain ⟨w, hw, hlater⟩ :=
        pairsSendings_derive rest fun c hc => hline c (.tail _ (.tail _ hc))
      refine ⟨t ++ (u ++ w), ht.append (hu.append hw),
        fun l depth hwithin hdepth => ?_⟩
      have hroom := hdepth _ (.head _)
      exact .cons (by omega) (hkey l depth hwithin.1 hroom)
        (hvalue l depth hwithin.2.1 (hdepth _ (.tail _ (.head _))))
        (hlater l depth hwithin.2.2 fun c hc =>
          hdepth c (.tail _ (.tail _ hc)))

end

/-- However a value is framed, writing it succeeds on every sink that takes
everything. What arrives there depends on the framing alone, and it is read as
that value, whatever follows it and however it comes in, by every reader that
may go as deep as the value is high. -/
theorem written_reads_back {f : Framing} (hline : f.value.OneLine) :
    ∃ octets,
      (∀ w : Writer, w.sink.TakesAll → ∃ after, f.write w = (.ok (), after) ∧
        after.sink.accepted = w.sink.accepted ++ octets) ∧
      ∀ (r : Reader) (rest : Bytes), r.feed.Calm →
        r.remaining = octets ++ rest → f.Within r.options.limits →
          f.value.height ≤ r.options.maxDepth →
            ∃ after, Reader.value r = (.ok f.value.canonical, after) ∧
              after.remaining = rest := by
  obtain ⟨octets, hbrings, hderives⟩ := sendings_derive f hline
  refine ⟨octets, fun w h => ?_, fun r rest hcalm hr hwithin hheight => ?_⟩
  · obtain ⟨after, hwrite, -, haccepted⟩ := hbrings w h
    exact ⟨after, hwrite, haccepted⟩
  · have hword := hderives r.options.limits 0 hwithin
      ((Nat.zero_add _).symm ▸ hheight)
    exact (Reader.reads_value.accepts_iff Reader.steady_value hcalm _ _).mpr
      ⟨octets, hr, hword⟩

/-- A list opened as a stream, of a blob in two chunks, an earlier null, a
number by its own call and a map, the last with an empty stream at the greatest
depth. The sink takes parts and is interrupted, and the reader gets one octet at
a time. The blob is longer than the limit but its chunks are not. -/
theorem written_reads_back_mixed :
    let pieces : List { p : Bytes // p ≠ [] } :=
      [⟨.ofChars ['a', 'b'], by decide⟩, ⟨.ofChars ['c'], by decide⟩]
    let entry : Framing × Framing :=
      (.whole (.simple .string (.ofChars ['k'])), .sequence .set .minusOne [])
    let f : Framing := .sequence .array .streamed
      [.chunks .string pieces, .nullArray, .parts (.integer 7),
        .pairing .map .counted [entry]]
    let octets := Bytes.ofChars ("*?\r\n$?\r\n;2\r\nab\r\n;1\r\nc\r\n;0\r\n" ++
      "*-1\r\n:7\r\n%1\r\n+k\r\n~?\r\n.\r\n.\r\n").toList
    let w : Writer :=
      ⟨⟨[.upTo 2, .failure ⟨.interrupted, "signal"⟩, .upTo 3], [], []⟩, [7]⟩
    let r : Reader :=
      ⟨⟨[.piece octets, .piece (Bytes.ofChars "_\r\n".toList)], some 1⟩,
        { sizeLimit := 2, maxDepth := 2 }, []⟩
    f.value.OneLine ∧ w.sink.TakesAll ∧ f.Within r.options.limits ∧
      (∃ after, f.write w = (.ok (), after) ∧ after.sink.accepted = octets) ∧
      ∃ after, Reader.value r = (.ok (.array
        [.blob .string (.ofChars ['a', 'b', 'c']), .null, .integer 7,
          .map [(.simple .string (.ofChars ['k']), .sequence .set [])]]),
        after) ∧ after.remaining = Marker.null := by
  intro pieces entry f octets w r
  have hline : f.value.OneLine := by decide
  have htakes : w.sink.TakesAll := by decide
  have hpieces : ∀ p ∈ pieces,
      p.1.length < 2 ^ 63 ∧ r.options.limits.Admits p.1.length := by decide
  have hentry : pairsWithin r.options.limits [entry] :=
    ⟨⟨by decide, by decide⟩, ⟨nofun, trivial⟩, trivial⟩
  have hwithin : f.Within r.options.limits :=
    ⟨nofun, hpieces, trivial, ⟨by decide, by decide⟩,
      ⟨fun _ => by decide, hentry⟩, trivial⟩
  obtain ⟨written, hwrite, hread⟩ := written_reads_back hline
  obtain ⟨after, hrun, haccepted⟩ := hwrite w htakes
  have hsent : (f.write w).2.sink.accepted = octets := by decide +kernel
  rw [hrun] at hsent
  obtain rfl : octets = written := hsent.symm.trans haccepted
  exact ⟨hline, htakes, hwithin, ⟨after, hrun, hsent⟩,
    hread r Marker.null (by decide) (by decide) hwithin (by decide)⟩

end Framing

end RespWire

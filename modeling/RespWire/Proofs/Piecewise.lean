import RespWire.Proofs.Accounting
import RespWire.Proofs.Written

/-!
# Writing piece by piece

A value can be written in one go or call by call: the header of an aggregate,
then what is in it, and each scalar by the call for it. `calls` are the calls
that write a value so, in the order of the wire.

Both come to the same, also where the value cannot be written. Encoding a value
stops in front of the first simple text that leaves its line, and there a caller
that goes call by call is refused. What the encoding has written by then is just
what the calls before have sent. Only the call for the whole value makes a
difference: it has sent nothing then.
-/

namespace RespWire

/-! ## Sinks that take everything -/

/-- Whether a call on a sink takes octets, or is only interrupted. -/
def Acceptance.obliges : Acceptance → Bool
  | upTo n => n != 0
  | failure e => e.kind == .interrupted

namespace Sink

/-- A sink that takes all it is offered, if not at once. -/
def TakesAll (s : Sink) : Prop := ∀ a ∈ s.script, a.obliges = true

instance (s : Sink) : Decidable s.TakesAll :=
  inferInstanceAs (Decidable (∀ a ∈ s.script, a.obliges = true))

theorem offer_of_obliges {script : List Acceptance} (octets : Bytes)
    (h : ∀ a ∈ script, a.obliges = true) :
    (offer script octets).2.2 = none ∧
      ∀ a ∈ (offer script octets).2.1, a.obliges = true := by
  fun_induction offer script octets with
  | case1 script => exact ⟨rfl, h⟩
  | case2 b bs => exact ⟨rfl, h⟩
  | case3 e script b bs he ih => exact ih fun a ha => h a (.tail _ ha)
  | case4 e script b bs he =>
      simpa [Acceptance.obliges, he] using h (.failure e) (.head _)
  | case5 script b bs => simpa [Acceptance.obliges] using h (.upTo 0) (.head _)
  | case6 n script b bs hn later script' failed hoffer ih =>
      rw [hoffer] at ih
      exact ih fun a ha => h a (.tail _ ha)

theorem send_of_takesAll {s : Sink} (h : s.TakesAll) (octets : Bytes) :
    ∃ after, send octets s = (.ok (), after) ∧ after.TakesAll ∧
      after.accepted = s.accepted ++ octets := by
  obtain ⟨hnone, hlater⟩ := offer_of_obliges octets h
  have htaken := (offer_taken s.script octets).2.mp hnone
  rw [send_apply, hnone]
  exact ⟨_, rfl, hlater, by simp [accepted, htaken]⟩

end Sink

namespace Encoding

/-- What a writer answers to one that asks it for an encoding. -/
def answer (e : Encoding) : Except Fault Unit :=
  match e.stopped with
  | none => .ok ()
  | some v => .error (.violation v)

end Encoding

namespace Framing

/-- Encodings one behind the other, up to the first that fails. -/
def joined : List Encoded → Encoded
  | [] => .ok []
  | x :: xs => do return (← x) ++ (← joined xs)

theorem joined_cons {x : Encoded} {xs : List Encoded} {u w : Bytes}
    (hx : x = .ok u) (hxs : joined xs = .ok w) :
    joined (x :: xs) = .ok (u ++ w) := by
  rw [joined, hx, hxs]
  rfl

end Framing

namespace Writer

open Sink (sendEncoded)

/-! ## One call after the other -/

/-- Makes calls one behind the other, up to the first that fails. -/
def performAll : List Call → Step Writer Unit
  | [] => pure ()
  | call :: later => do
      call.perform
      performAll later

/-- The encodings of calls one behind the other, up to the first call that has
none. -/
def assembled : List Call → Encoding
  | [] => .whole []
  | call :: later => (Encoding.ofEncoded call.encoded).andThen (assembled later)

theorem assembled_append (xs ys : List Call) :
    assembled (xs ++ ys) = (assembled xs).andThen (assembled ys) := by
  induction xs with
  | nil => rfl
  | cons call later ih =>
      rw [List.cons_append, assembled, ih, assembled, Encoding.andThen_assoc]

/-- Calls are assembled up to the first that has no encoding, if there is
one. -/
theorem assembled_cases (calls : List Call) :
    ((assembled calls).stopped = none ∧
      ∀ call ∈ calls, ∃ octets, call.encoded = .ok octets) ∨
    ∃ good bad later v, calls = good ++ bad :: later ∧ bad.encoded = .error v ∧
      Framing.joined (good.map Call.encoded) = .ok (assembled calls).written ∧
      (assembled calls).stopped = some v := by
  induction calls with
  | nil => exact Or.inl ⟨rfl, nofun⟩
  | cons call calls ih =>
      cases hencoded : call.encoded with
      | error v =>
          have hall : assembled (call :: calls) = ⟨[], some v⟩ := by
            rw [assembled, hencoded]
            rfl
          rw [hall]
          exact Or.inr ⟨[], call, calls, v, rfl, hencoded, rfl, rfl⟩
      | ok octets =>
          have hall : assembled (call :: calls) =
              ⟨octets ++ (assembled calls).written,
                (assembled calls).stopped⟩ := by
            rw [assembled, hencoded]
            rfl
          rw [hall]
          rcases ih with ⟨hnone, hgood⟩ |
            ⟨good, bad, later, v, rfl, hbad, hjoined, hstopped⟩
          · exact Or.inl
              ⟨hnone, List.forall_mem_cons.mpr ⟨⟨octets, hencoded⟩, hgood⟩⟩
          · exact Or.inr ⟨call :: good, bad, later, v, rfl, hbad,
              Framing.joined_cons hencoded hjoined, hstopped⟩

theorem perform_of_takesAll {call : Call} (hcall : call ≠ .flush) {w : Writer}
    (h : w.sink.TakesAll) :
    ∃ after,
      call.perform w = ((Encoding.ofEncoded call.encoded).answer, after) ∧
      after.sink.TakesAll ∧
      after.sink.accepted = w.sink.accepted ++
        (Encoding.ofEncoded call.encoded).written := by
  obtain ⟨hresult, hsink⟩ := Call.perform_eq hcall w
  cases hencoded : call.encoded with
  | error v =>
      rw [hencoded] at hresult hsink
      exact ⟨_, Prod.ext hresult rfl, hsink ▸ h,
        by rw [hsink]; exact (List.append_nil _).symm⟩
  | ok octets =>
      obtain ⟨sink, hsend, htakes, haccepted⟩ := Sink.send_of_takesAll h octets
      rw [hencoded, sendEncoded, hsend] at hresult hsink
      exact ⟨_, Prod.ext hresult rfl, hsink ▸ htakes, hsink ▸ haccepted⟩

/-- On a sink that takes everything, calls send what they assemble to, and
answer whether it was stopped. -/
theorem performAll_of_takesAll {calls : List Call}
    (hcalls : ∀ call ∈ calls, call ≠ .flush) {w : Writer}
    (h : w.sink.TakesAll) :
    ∃ after, performAll calls w = ((assembled calls).answer, after) ∧
      after.sink.TakesAll ∧
      after.sink.accepted = w.sink.accepted ++ (assembled calls).written := by
  induction calls generalizing w with
  | nil => exact ⟨w, rfl, h, (List.append_nil _).symm⟩
  | cons call calls ih =>
      obtain ⟨mid, hcall, hmid, hfirst⟩ :=
        perform_of_takesAll (hcalls call (.head _)) h
      cases hencoded : call.encoded with
      | error v =>
          rw [hencoded] at hcall hfirst
          rw [performAll, assembled, hencoded, Step.bind_of_error hcall]
          exact ⟨mid, rfl, hmid, hfirst⟩
      | ok octets =>
          rw [hencoded] at hcall hfirst
          obtain ⟨after, hlater, hafter, haccepted⟩ :=
            ih (fun c hc => hcalls c (.tail _ hc)) hmid
          rw [performAll, assembled, hencoded, Step.bind_of_ok hcall]
          refine ⟨after, hlater, hafter, ?_⟩
          rw [haccepted, hfirst, List.append_assoc]
          rfl

end Writer

namespace Value

open Writer (assembled assembled_append assembled_cases performAll)

/-! ## The calls for a value -/

/-- The call that writes a scalar, or the header of an aggregate. -/
def call : Value → Writer.Call
  | .sequence s items => .header (.sequence s) items.length
  | .pairing p pairs => .header (.pairing p) pairs.length
  | .blob role octets => .blob role octets
  | .simple role line => .simple role line
  | .verbatim format text => .verbatim format.octets text
  | .bigNumber n => .bigNumber n
  | .boolean b => .boolean b
  | .double x => .double x
  | .integer n => .integer n
  | .null => .null

/-- The calls that write a value piece by piece: one for each part, and the
parts stand in the order of the wire. -/
def calls (v : Value) : List Writer.Call := v.parts.map call

theorem calls_eq (v : Value) :
    v.calls = v.call :: v.children.flatMap calls := by
  rw [calls, parts_eq, List.map_cons, List.map_flatMap]
  rfl

theorem header_encoded (a : Aggregate) (n : Nat) :
    (Writer.Call.header a n).encoded =
      .ok (Encode.countLine (.aggregate a) n) := by
  rw [Writer.Call.encoded, Encode.header, if_neg (by omega), if_neg (by omega),
    Int.toNat_natCast]

theorem call_ne_flush (u : Value) : u.call ≠ .flush := by
  cases u <;> simp [call]

/-- Only the call for a simple text can be refused, and only for an end of a
line in it. -/
theorem encoded_call_cases (u : Value) :
    ((∃ octets, u.call.encoded = .ok octets) ∧
      ∀ line ∈ u.line?, Bytes.cr ∉ line ∧ Bytes.lf ∉ line) ∨
    ∃ role line, u = .simple role line ∧ (Bytes.cr ∈ line ∨ Bytes.lf ∈ line) ∧
      u.call.encoded = .error .multiline := by
  have hnone : ∀ line ∈ (none : Option Bytes),
      Bytes.cr ∉ line ∧ Bytes.lf ∉ line :=
    fun line h => absurd h (Option.not_mem_none line)
  cases u with
  | sequence s items => exact Or.inl ⟨⟨_, header_encoded _ _⟩, hnone⟩
  | pairing p pairs => exact Or.inl ⟨⟨_, header_encoded _ _⟩, hnone⟩
  | simple role line =>
      by_cases h : Bytes.cr ∉ line ∧ Bytes.lf ∉ line
      · refine Or.inl ⟨⟨_, encode_simple h⟩, fun t ht => ?_⟩
        obtain rfl : line = t := Option.some.inj ht
        exact h
      · have hbad : Bytes.cr ∈ line ∨ Bytes.lf ∈ line := by
          rw [← not_or, not_not] at h
          exact h
        refine Or.inr ⟨role, line, rfl, hbad, ?_⟩
        rw [call, Writer.Call.encoded, Encode.simple, if_pos]
        rw [List.any_eq_true]
        rcases hbad with hcr | hlf
        · exact ⟨_, hcr, by decide⟩
        · exact ⟨_, hlf, by decide⟩
  | _ => exact Or.inl ⟨⟨_, rfl⟩, hnone⟩

theorem itemsEncoding_eq_assembled {vs : List Value}
    (h : ∀ c ∈ vs, c.encoding = assembled c.calls) :
    itemsEncoding vs = assembled (vs.flatMap calls) := by
  induction vs with
  | nil => rfl
  | cons v vs ih =>
      rw [itemsEncoding, h v (.head _), ih fun c hc => h c (.tail _ hc),
        List.flatMap_cons, assembled_append]

/-- A value is encoded as its calls are, one behind the other. -/
theorem encoding_eq_assembled (v : Value) : v.encoding = assembled v.calls := by
  induction v using inductionOn with
  | _ v ih =>
      have hchildren := itemsEncoding_eq_assembled ih
      rw [calls_eq, assembled]
      cases v with
      | sequence s items =>
          rw [encoding, call, header_encoded]
          exact congrArg _ hchildren
      | pairing p pairs =>
          rw [encoding, pairsEncoding_eq, call, header_encoded]
          exact congrArg _ hchildren
      | simple role line =>
          rw [encoding, call, Writer.Call.encoded]
          cases Encode.simple role line with
          | error v => rfl
          | ok octets =>
              exact congrArg Encoding.whole (List.append_nil octets).symm
      | _ => exact congrArg Encoding.whole (List.append_nil _).symm

theorem oneLine_iff_encoded {v : Value} :
    v.OneLine ↔ ∀ call ∈ v.calls, ∃ octets, call.encoded = .ok octets := by
  constructor
  · intro h call hcall
    obtain ⟨u, hu, rfl⟩ := List.mem_map.mp hcall
    rcases encoded_call_cases u with ⟨hok, -⟩ | ⟨role, line, rfl, hbad, -⟩
    · exact hok
    · obtain ⟨hcr, hlf⟩ := h _ hu line rfl
      exact absurd hbad (not_or.mpr ⟨hcr, hlf⟩)
  · intro h u hu
    rcases encoded_call_cases u with ⟨-, hline⟩ | ⟨role, line, rfl, -, herror⟩
    · exact hline
    · obtain ⟨octets, hok⟩ := h _ (List.mem_map.mpr ⟨_, hu, rfl⟩)
      rw [herror] at hok
      cases hok

/-- The encoding of a value is stopped just where a text in it leaves its line.
It is stopped in front of the first such text, behind everything that is written
before. -/
theorem encoding_cases (v : Value) :
    (v.OneLine ∧ v.encoding.stopped = none) ∨
    (¬ v.OneLine ∧ v.encoding.stopped = some .multiline ∧
      ∃ good role line later, v.calls = good ++ .simple role line :: later ∧
        (Bytes.cr ∈ line ∨ Bytes.lf ∈ line) ∧
        Framing.joined (good.map Writer.Call.encoded) =
          .ok v.encoding.written) := by
  rw [encoding_eq_assembled]
  -- the call that stops it is the call for a part, and only one kind of part
  -- has no encoding
  rcases assembled_cases v.calls with ⟨hnone, hall⟩ |
    ⟨good, bad, later, f, hcalls, hbad, hjoined, hf⟩
  · exact Or.inl ⟨oneLine_iff_encoded.mpr hall, hnone⟩
  · right
    have hmem : bad ∈ v.calls := by simp [hcalls]
    obtain ⟨u, hu, rfl⟩ := List.mem_map.mp hmem
    rcases encoded_call_cases u with ⟨⟨octets, hok⟩, -⟩ |
      ⟨role, line, rfl, hline, herror⟩
    · rw [hbad] at hok
      cases hok
    · obtain rfl : f = .multiline := by
        rw [hbad] at herror
        cases herror
        rfl
      refine ⟨fun h => ?_, hf, good, role, line, later, hcalls, hline, hjoined⟩
      exact absurd hline (not_or.mpr (h _ hu line rfl))

/-- Encoding a value behind some octets fails just where a simple text in the
value leaves its line. What it has put there, in full or up to the first such
text, is what a writer sends that goes call by call on a sink that takes
everything; and it is stopped or answered alike. The call for the whole value
sends the same in full, or it sends nothing. -/
theorem encodeOnto_eq_performAll (v : Value) (before : Bytes) {w : Writer}
    (h : w.sink.TakesAll) :
    ∃ written result, v.encodeOnto before = (before ++ written, result) ∧
      (result = .ok () ↔ v.OneLine) ∧
      (¬ v.OneLine → result = .error .multiline ∧
        ∃ good role line later, v.calls = good ++ .simple role line :: later ∧
          (Bytes.cr ∈ line ∨ Bytes.lf ∈ line) ∧
          Framing.joined (good.map Writer.Call.encoded) = .ok written) ∧
      (∃ after, performAll v.calls w = (result.mapError .violation, after) ∧
        after.sink.accepted = w.sink.accepted ++ written) ∧
      ∃ after,
        (Writer.Call.value v).perform w = (result.mapError .violation, after) ∧
        (v.OneLine → after.sink.accepted = w.sink.accepted ++ written) ∧
        (¬ v.OneLine → after.sink = w.sink) := by
  have hcalls : ∀ call ∈ v.calls, call ≠ .flush := by
    intro call hcall
    obtain ⟨u, -, rfl⟩ := List.mem_map.mp hcall
    exact call_ne_flush u
  obtain ⟨walked, hwalk, -, hsent⟩ := Writer.performAll_of_takesAll hcalls h
  obtain ⟨hresult, hsink⟩ := Writer.Call.perform_eq
    (show Writer.Call.value v ≠ .flush from nofun) w
  rw [← encoding_eq_assembled] at hwalk hsent
  rw [Writer.Call.encoded] at hresult hsink
  rcases encoding_cases v with ⟨hline, hnone⟩ | ⟨hline, hstopped, hfirst⟩
  · have hencode : v.encode = .ok v.encoding.written := by
      rw [encode, Encoding.result, hnone]
    have hanswer : v.encoding.answer = .ok () := by rw [Encoding.answer, hnone]
    obtain ⟨sink, hsend, -, hall⟩ := Sink.send_of_takesAll h v.encoding.written
    rw [hencode, Sink.sendEncoded, hsend] at hresult hsink
    refine ⟨v.encoding.written, .ok (), by rw [encodeOnto, hencode]; rfl,
      iff_of_true rfl hline, fun hnot => absurd hline hnot, ⟨walked, ?_, hsent⟩,
      _, Prod.ext hresult rfl, fun _ => ?_, fun hnot => absurd hline hnot⟩
    · rw [hwalk, hanswer]
      rfl
    · rw [hsink, hall]
  · have hencode : v.encode = .error .multiline := by
      rw [encode, Encoding.result, hstopped]
    have hanswer : v.encoding.answer = .error (.violation .multiline) := by
      rw [Encoding.answer, hstopped]
    rw [hencode] at hresult hsink
    refine ⟨v.encoding.written, .error .multiline,
      by rw [encodeOnto, hencode]; rfl,
      iff_of_false (fun hok => by cases hok) hline, fun _ =>
        ⟨rfl, hfirst⟩, ⟨walked, ?_, hsent⟩,
      _, Prod.ext hresult rfl, fun hyes => absurd hyes hline, fun _ => hsink⟩
    rw [hwalk, hanswer]
    rfl

/-- A list with a text of two lines between a number and a null, on a sink that
takes two octets at first and is interrupted then: the number is sent and the
text is not. -/
theorem encodeOnto_eq_performAll_stopped :
    let v : Value :=
      .array [.integer 1, .simple .string (.ofChars ['a', '\r', 'b']), .null]
    let w : Writer :=
      ⟨⟨[.upTo 2, .failure ⟨.interrupted, "signal"⟩], [], []⟩, [7]⟩
    w.sink.TakesAll ∧ ¬ v.OneLine ∧
      (∃ after, performAll v.calls w = (.error (.violation .multiline), after) ∧
        after.sink.accepted = .ofChars "*3\r\n:1\r\n".toList) ∧
      ∃ after, (Writer.Call.value v).perform w =
        (.error (.violation .multiline), after) ∧ after.sink = w.sink := by
  intro v w
  have htakes : w.sink.TakesAll := by decide
  have hline : ¬ v.OneLine := by decide
  obtain ⟨written, result, hencode, -, hstopped, ⟨walked, hwalk, hsent⟩, whole,
      hwhole, -, hnothing⟩ :=
    encodeOnto_eq_performAll v [] htakes
  obtain ⟨rfl, -⟩ := hstopped hline
  have hwritten : written = Bytes.ofChars "*3\r\n:1\r\n".toList :=
    (congrArg Prod.fst hencode).symm.trans (by decide +kernel)
  exact ⟨htakes, hline, ⟨walked, hwalk, by rw [hsent, hwritten]; rfl⟩,
    whole, hwhole, hnothing hline⟩

end Value

end RespWire

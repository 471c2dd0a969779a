import Mathlib.Data.List.Forall2
import RespWire.Writer.Call

/-!
# What a sink has taken

A sink may take a part of what it is offered, take nothing, or fail, and it may
do so anew at every call. Still it can be told from the answers of a writer what
the sink has taken: of each call the whole encoding, or nothing, or a front of
it that is not the whole.

Two things have to be kept apart for that. What is sent depends on the call
alone, although calls are put together in one place after the other: that place
is emptied before it is used (`emit_apply`), so it does not matter what was left
there. And how much of it the sink has taken is told by the answer, since
sending goes on until everything is taken or a call fails (`offer_taken`).
-/

namespace RespWire

namespace Sink

/-- What is taken of an offer is a front of it, and the whole just where nothing
failed. -/
theorem offer_taken (script : List Acceptance) (octets : Bytes) :
    (offer script octets).1.flatten <+: octets ∧
      ((offer script octets).2.2 = none ↔
        (offer script octets).1.flatten = octets) := by
  fun_induction offer script octets with
  | case1 script => simp
  | case2 b bs => simp
  | case3 e script b bs h ih => exact ih
  | case4 e script b bs h => simp
  | case5 script b bs => simp
  | case6 n script b bs hn later script' failed hoffer ih =>
      rw [hoffer] at ih
      obtain ⟨⟨t, ht⟩, hall⟩ := ih
      have hsplit : (b :: bs).take n ++ (b :: bs).drop n = b :: bs :=
        List.take_append_drop ..
      constructor
      · exact ⟨t, by rw [List.flatten_cons, List.append_assoc, ht, hsplit]⟩
      · rw [hall, List.flatten_cons]
        conv => rhs; rhs; rw [← hsplit]
        rw [List.append_cancel_left_eq]

theorem send_apply (octets : Bytes) (s : Sink) :
    send octets s = ((match (offer s.script octets).2.2 with
        | none => .ok ()
        | some e => .error (.io e)),
      { s with
        script := (offer s.script octets).2.1
        taken := s.taken ++ (offer s.script octets).1 }) := by
  unfold send
  obtain ⟨pieces, script, failed⟩ := offer s.script octets
  cases failed <;> rfl

/-- Sending adds all there is to send, or it fails and adds a front of it. -/
theorem accepted_send (octets : Bytes) (s : Sink) :
    ∃ part, (send octets s).2.accepted = s.accepted ++ part ∧
      ((send octets s).1 = .ok () ∧ part = octets ∨
        (∃ e, (send octets s).1 = .error (.io e)) ∧ part <+: octets ∧
          part ≠ octets) := by
  obtain ⟨hfront, hall⟩ := offer_taken s.script octets
  rw [send_apply]
  refine ⟨(offer s.script octets).1.flatten, by simp [accepted], ?_⟩
  cases hfailed : (offer s.script octets).2.2 with
  | none => exact Or.inl ⟨rfl, hall.mp hfailed⟩
  | some e =>
      have hne : (offer s.script octets).1.flatten ≠ octets := by
        intro heq
        rw [hall.mpr heq] at hfailed
        cases hfailed
      exact Or.inr ⟨⟨e, rfl⟩, hfront, hne⟩

theorem accepted_flush (s : Sink) : (flush s).2.accepted = s.accepted := by
  unfold flush
  split <;> rfl

end Sink

theorem Encoding.result_ofEncoded (e : Encoded) :
    (Encoding.ofEncoded e).result = e := by
  cases e <;> rfl

namespace Writer

open Sink (sendEncoded)

/-! ## One call -/

/-- What was in the scratch place before has no part in what is sent, and
nothing is in it afterwards. -/
theorem emit_apply (e : Encoding) (w : Writer) :
    emit e w =
      ((sendEncoded e.result w.sink).1,
        ⟨(sendEncoded e.result w.sink).2, []⟩) := by
  obtain ⟨written, stopped⟩ := e
  cases stopped with
  | none => rfl
  | some v => rfl

theorem sendForm_apply (octets : Bytes) (w : Writer) :
    sendForm octets w =
      ((Sink.send octets w.sink).1, ⟨(Sink.send octets w.sink).2, w.scratch⟩) :=
  rfl

namespace Call

/-- However a call is made, it sends its encoding, or nothing where it has
none. -/
theorem perform_eq {call : Call} (hcall : call ≠ .flush) (w : Writer) :
    (call.perform w).1 = (sendEncoded call.encoded w.sink).1 ∧
      (call.perform w).2.sink = (sendEncoded call.encoded w.sink).2 := by
  cases call with
  | flush => exact absurd rfl hcall
  | header a n =>
      simp only [perform, encoded]
      split
      · next h => simp [h, Encode.header, sendForm_apply, sendEncoded]
      · simp [emit_apply, Encoding.result_ofEncoded]
  | chunk octets =>
      simp only [perform, encoded, Encode.chunk]
      split <;>
        simp [sendForm_apply, emit_apply, sendEncoded, Encoding.result,
          Encoding.whole]
  | double x =>
      simp only [perform, encoded]
      split <;>
        simp [sendForm_apply, emit_apply, sendEncoded, Encoding.result,
          Encoding.whole]
  | verbatim | simple =>
      simp [perform, encoded, emit_apply, Encoding.result_ofEncoded]
  | value v => simp [perform, encoded, emit_apply, Value.encode]
  | _ =>
      simp [perform, encoded, sendForm_apply, emit_apply, sendEncoded,
        Encoding.result, Encoding.whole]

/-- A call answers the same and does the same to the sink, whatever is in the
scratch place. -/
theorem perform_scratch (call : Call) (s : Sink) (scratch scratch' : Bytes) :
    (call.perform ⟨s, scratch⟩).1 = (call.perform ⟨s, scratch'⟩).1 ∧
      (call.perform ⟨s, scratch⟩).2.sink =
        (call.perform ⟨s, scratch'⟩).2.sink := by
  by_cases hcall : call = .flush
  · subst hcall
    exact ⟨rfl, rfl⟩
  · obtain ⟨h, hsink⟩ := perform_eq hcall ⟨s, scratch⟩
    obtain ⟨h', hsink'⟩ := perform_eq hcall ⟨s, scratch'⟩
    exact ⟨h.trans h'.symm, hsink.trans hsink'.symm⟩

end Call

/-! ## Runs of calls -/

/-- One call in a run, what it answered, and the sink before and after it. -/
structure Event where
  call : Call
  result : Except Fault Unit
  before : Sink
  after : Sink

/-- Makes calls one behind the other, whatever they answer. -/
def run : List Call → Writer → List Event × Writer
  | [], w => ([], w)
  | call :: later, w =>
      let (result, after) := call.perform w
      let (events, last) := run later after
      (⟨call, result, w.sink, after.sink⟩ :: events, last)

/-- What a call is said to have added to its sink, by the call and its
answer. -/
inductive Contributes : Event → Bytes → Prop where
  | flushed (result : Except Fault Unit) (before after : Sink) :
      Contributes ⟨.flush, result, before, after⟩ []
  | sent {call : Call} {octets : Bytes} (hcall : call ≠ .flush)
      (h : call.encoded = .ok octets)
      (before after : Sink) : Contributes ⟨call, .ok (), before, after⟩ octets
  /-- A call that has no encoding makes no call on the sink. -/
  | refused {call : Call} {v : Violation} (h : call.encoded = .error v)
      (sink : Sink) :
      Contributes ⟨call, .error (.violation v), sink, sink⟩ []
  | broken {call : Call} {octets part : Bytes} (hcall : call ≠ .flush)
      (h : call.encoded = .ok octets) (hfront : part <+: octets)
      (hpart : part ≠ octets)
      (e : IoFailure) (before after : Sink) :
      Contributes ⟨call, .error (.io e), before, after⟩ part

theorem accepted_perform (call : Call) (w : Writer) :
    ∃ part, Contributes
      ⟨call, (call.perform w).1, w.sink, (call.perform w).2.sink⟩ part ∧
      (call.perform w).2.sink.accepted = w.sink.accepted ++ part := by
  by_cases hcall : call = .flush
  · subst hcall
    refine ⟨[], .flushed _ _ _, ?_⟩
    rw [List.append_nil]
    exact Sink.accepted_flush w.sink
  · obtain ⟨hresult, hsink⟩ := Call.perform_eq hcall w
    rw [hresult, hsink]
    cases hencoded : call.encoded with
    | error v => exact ⟨[], .refused hencoded w.sink, (List.append_nil _).symm⟩
    | ok octets =>
        obtain ⟨part, haccepted, hsent | hbroken⟩ :=
          Sink.accepted_send octets w.sink
        · obtain ⟨hok, rfl⟩ := hsent
          refine ⟨part, ?_, haccepted⟩
          rw [sendEncoded, hok]
          exact .sent hcall hencoded _ _
        · obtain ⟨⟨e, he⟩, hfront, hpart⟩ := hbroken
          refine ⟨part, ?_, haccepted⟩
          rw [sendEncoded, he]
          exact .broken hcall hencoded hfront hpart e _ _

/-- What the sink of a writer has taken after a run of calls is what it had
before and one contribution of each call, in order. What is in the scratch place
when the run starts makes no difference to what the calls answer and send. -/
theorem accepted_run (calls : List Call) (w : Writer) :
    (run calls w).1.map Event.call = calls ∧
    (∀ scratch, (run calls ⟨w.sink, scratch⟩).1 = (run calls w).1) ∧
    ∃ parts, List.Forall₂ (fun event part => Contributes event part ∧
        event.after.accepted = event.before.accepted ++ part)
          (run calls w).1 parts ∧
      (run calls w).2.sink.accepted = w.sink.accepted ++ parts.flatten := by
  induction calls generalizing w with
  | nil => exact ⟨rfl, fun _ => rfl, [], .nil, (List.append_nil _).symm⟩
  | cons call later ih =>
      obtain ⟨hcalls, hscratch, parts, hparts, haccepted⟩ :=
        ih (call.perform w).2
      obtain ⟨part, hpart, hadded⟩ := accepted_perform call w
      refine ⟨congrArg (call :: ·) hcalls, fun scratch => ?_, part :: parts,
        .cons ⟨hpart, hadded⟩ hparts, ?_⟩
      · obtain ⟨hresult, hsink⟩ := call.perform_scratch w.sink scratch w.scratch
        have hlater := hscratch (call.perform ⟨w.sink, scratch⟩).2.scratch
        rw [← hsink] at hlater
        simp only [run, hresult, hsink, hlater]
      · rw [List.flatten_cons, ← List.append_assoc, ← hadded]
        exact haccepted

end Writer

end RespWire

import RespWire.Proofs.BodyLength
import RespWire.Proofs.Destination
import RespWire.Proofs.Expecting

/-!
# Reads in step

Alike readers give the same answers, but for one thing: a line that is longer
than the limit. A read that takes no line of its own is therefore strictly in
step on alike readers. Whatever becomes of it on one of them becomes of it on
the other, down to the size that a body is refused for.
-/

namespace RespWire

open Step (Agree Steady)

namespace Reader

/-- Alike readers, of which nothing different may come. -/
def strictly : Lockstep Reader where
  same := Alike
  follows _ _ := True
  apart _ _ _ := False
  follows_refl _ := trivial
  follows_trans _ _ := trivial
  apart_of_follows _ h := h
  tooLarge_of_apart h := h.elim

end Reader

/-- As for readers, with the same octets gathered. -/
def Draft.strictly : Lockstep Draft where
  same := Alike
  follows _ _ := True
  apart _ _ _ := False
  follows_refl _ := trivial
  follows_trans _ _ := trivial
  apart_of_follows _ h := h
  tooLarge_of_apart h := h.elim

namespace Reader

variable {α : Type}

/-- A read that is refused for no size. -/
def Unsized (m : Read α) : Prop :=
  ∀ r, r.feed.Calm →
    ∀ size limit, (m r).1 ≠ .error (.violation (.tooLarge size limit))

/-- What is steady and is refused for no size is strictly in step. -/
theorem strict_of_unsized {m : Read α} (hm : Steady lockstep m)
    (hsize : Unsized m) :
    Steady strictly m := by
  intro a b h
  have hagree := hm a b h
  have hleft := hsize a h.calm_left
  generalize m a = x at hagree hleft
  generalize m b = y at hagree
  cases hagree with
  | same hsame => exact Agree.same (l := strictly) hsame trivial
  | apart hapart =>
      obtain ⟨size, size', limit, hlarge, -⟩ := hapart.tooLarge
      exact absurd (congrArg Except.error hlarge) (hleft size limit)

/-! ## Octets and numbers -/

theorem strict_expect (k : Kind) : Steady strictly (expect k) := by
  intro a b h
  rcases expect_alike k h with ⟨a', b', ha, hb, halike, -⟩ |
    ⟨e, a', b', ha, hb, halike, -⟩
  · rw [ha, hb]
    exact Agree.same (l := strictly) halike trivial
  · rw [ha, hb]
    exact Agree.same (l := strictly) halike trivial

theorem unsized_takeForm (form : Bytes) : Unsized (takeForm form) := by
  intro r h size limit
  obtain ⟨seen, hlook, -⟩ := lookAhead_calm form.length h
  rw [takeForm_eq, Step.bind_of_ok hlook]
  split <;> exact nofun

theorem strict_takeForm (form : Bytes) : Steady strictly (takeForm form) :=
  strict_of_unsized (steady_takeForm form) (unsized_takeForm form)

theorem strict_number : Steady strictly number := by
  refine strict_of_unsized steady_number fun r h size limit => ?_
  obtain ⟨after, hrun, -⟩ := number_run h
  rw [hrun]
  exact NumberLine.result_ne_tooLarge _ size limit

theorem strict_lineEnd : Steady strictly lineEnd := by
  refine strict_of_unsized steady_lineEnd fun r h size limit => ?_
  obtain ⟨after, hrun, -⟩ := lineEnd_run h
  rw [hrun]
  split <;> exact nofun

theorem strict_checkSize (size : Nat) : Steady strictly (checkSize size) := by
  intro a b h
  rw [checkSize_apply, checkSize_apply, sizeFault?_congr h.limits]
  cases sizeFault? b.options size <;> exact Agree.same (l := strictly) h trivial

theorem strict_remainingLength : Steady strictly remainingLength :=
  strict_of_unsized steady_remainingLength fun _ _ _ _ => nofun

/-! ## Headers and scalars -/

theorem strict_header (a : Aggregate) : Steady strictly (header a) := by
  refine (strict_takeForm _).bind fun streamed => ?_
  split
  · exact .pure _
  · refine (strict_expect _).bind fun _ => ?_
    refine Steady.bind (strict_number.mapFault fun _ _ => rfl) fun n => ?_
    split
    · exact .fail _
    · exact .pure _

theorem strict_integer : Steady strictly integer :=
  (strict_expect _).bind fun _ => strict_number.bind fun _ => .pure _

theorem strict_close : Steady strictly close :=
  (strict_expect _).bind fun _ => strict_lineEnd

theorem strict_boolean : Steady strictly boolean := by
  refine strict_of_unsized steady_boolean fun r h size limit => ?_
  cases hf : Kind.boolean.mismatch? r.remaining with
  | some f =>
      rw [boolean, Step.bind_of_error (expect_of_mismatch h hf)]
      exact fun heq =>
        Kind.mismatch?_ne_tooLarge hf size limit (Except.error.inj heq)
  | none =>
      obtain ⟨s, hs⟩ := Kind.mismatch?_eq_none_iff.mp hf
      obtain ⟨mid, hmid, hcalm, -⟩ := expect_run h hs
      obtain ⟨after, hlook, -⟩ := lookAhead_calm 3 hcalm
      rw [boolean, Step.bind_of_ok hmid, Step.bind_of_ok hlook]
      generalize mid.remaining.take 3 = bs
      match bs with
      | [] | [_] | [_, _] | _ :: _ :: _ :: _ :: _ => exact nofun
      | [x, y, z] =>
          simp only
          split
          · split <;> exact nofun
          · exact nofun

theorem strict_null : Steady strictly null := by
  refine strict_of_unsized steady_null fun r h size limit => ?_
  cases hform : Kind.nullAhead? r.remaining with
  | some form =>
      obtain ⟨after, hrun, -⟩ := null_of_nullAhead? h hform
      rw [hrun]
      exact nofun
  | none =>
      cases hf : Kind.null.mismatch? r.remaining with
      | some f =>
          obtain ⟨after, hrun, -⟩ := null_of_mismatch h hform hf
          rw [hrun]
          exact fun heq =>
            Kind.mismatch?_ne_tooLarge hf size limit (Except.error.inj heq)
      | none =>
          obtain ⟨s, hs⟩ := Kind.mismatch?_eq_none_iff.mp hf
          have hlook := ahead_lookAhead h 1
          obtain ⟨mid, hmid, hcalm, -⟩ :=
            expect_run hlook.calm (hlook.remaining.trans hs)
          obtain ⟨after, hline, -⟩ := lineEnd_run hcalm
          rw [null_of_lead h hs, Step.bind_of_ok hmid, hline]
          split <;> exact nofun

end Reader

namespace Gather

open Reader
  (strict_expect strict_number strict_lineEnd strict_checkSize strict_takeForm
    strict_remainingLength)

variable {α : Type}

/-! ## Reads that gather -/

theorem strict_ofRead {m : Read α} (hm : Steady Reader.strictly m) :
    Steady Draft.strictly (ofRead m) := by
  intro d e h
  have hx := hm d.reader e.reader h.reader
  simp only [ofRead]
  generalize m d.reader = x at hx
  generalize m e.reader = y at hx
  cases hx with
  | same hsame =>
      exact Agree.same (l := Draft.strictly) ⟨hsame, h.gathered⟩ trivial
  | apart hapart => exact hapart.elim

theorem strict_atomically {m : Gather α} (hm : Steady Draft.strictly m) :
    Steady Draft.strictly (atomically m) := by
  intro d e h
  have hx := hm d e h
  simp only [atomically, h.gathered]
  generalize m d = x at hx
  generalize m e = y at hx
  cases hx with
  | apart hapart => exact hapart.elim
  | @same result d' e' hsame =>
      cases result with
      | ok a => exact .same hsame trivial
      | error f =>
          simp only [hsame.gathered]
          exact Agree.same (l := Draft.strictly) ⟨hsame.reader, rfl⟩ trivial

theorem strict_bodyFrom (n : Nat) : Steady Draft.strictly (bodyFrom n) := by
  intro d e h
  have hagree := steady_bodyFrom n d e h
  obtain ⟨r, -, -, -, hbody⟩ := bodyFrom_calm n d h.reader.calm_left
  generalize hx : bodyFrom n d = x at hagree
  generalize bodyFrom n e = y at hagree
  cases hagree with
  | same hsame => exact .same hsame trivial
  | apart hapart =>
      obtain ⟨size, size', limit, rfl, -⟩ :=
        Draft.lockstep.tooLarge_of_apart hapart
      rw [hbody] at hx
      split at hx <;> cases hx

theorem strict_counted (k : Kind) : Steady Draft.strictly (counted k) := by
  refine (strict_ofRead (strict_expect k)).bind fun _ => ?_
  refine (strict_ofRead strict_number).bind fun n => ?_
  split
  · exact .fail _
  · have hbody : Steady Draft.strictly (body n.toNat) :=
      (strict_ofRead (strict_checkSize _)).bind fun _ =>
        (strict_bodyFrom _).bind fun _ => strict_ofRead strict_lineEnd
    exact hbody.bind fun _ => .pure _

theorem strict_blob (role : Role) : Steady Draft.strictly (blob role) := by
  refine strict_atomically
    ((strict_ofRead (strict_takeForm _)).bind fun streamed => ?_)
  split
  · exact .pure _
  · exact (strict_counted _).bind fun _ => .pure _

theorem strict_chunk : Steady Draft.strictly chunk := by
  refine (strict_ofRead (strict_takeForm _)).bind fun last => ?_
  split
  · exact .pure _
  · exact (strict_atomically (strict_counted _)).bind fun _ => .pure _

theorem strict_chunks : Steady Draft.strictly chunks := by
  refine strict_atomically
    ((strict_ofRead strict_remainingLength).bind fun budget => ?_)
  refine Steady.bind (Steady.collect (strict_chunk.bind fun last => ?_) _)
    fun _ => .pure _
  split
  · exact .pure _
  · exact .pure _

/-- The body of a verbatim string is judged by its octets alone. -/
theorem strict_verbatim : Steady Draft.strictly verbatim := by
  intro d e h
  have hagree := strict_counted .verbatim d e h
  have happends := appends_counted .verbatim d
  generalize hx : counted .verbatim d = x at hagree happends
  generalize hy : counted .verbatim e = y at hagree
  cases hagree with
  | apart hapart => exact hapart.elim
  | @same result d' e' hsame =>
      obtain ⟨body, hbody⟩ := happends
      obtain ⟨r, g⟩ := d'
      obtain ⟨r', g'⟩ := e'
      have hgathered : g = g' := hsame.gathered
      subst hgathered
      rw [← show d.gathered ++ body = g from hbody] at hx hy
      rw [h.gathered] at hy
      rw [verbatim_of_counted hx, verbatim_of_counted hy, h.gathered]
      exact Agree.same (l := Draft.strictly) ⟨hsame.reader, rfl⟩ trivial

end Gather

namespace Reader

/-- A call that asks for a kind whose values are no line. -/
theorem strict_make {call : Call} {k : Kind} (hcall : call.wants = some k)
    (hline : k.onLine = false) : Steady Draft.strictly call.make := by
  cases call with
  | header a =>
      exact (Gather.strict_ofRead (strict_header a)).bind fun _ => .pure _
  | blob role => exact (Gather.strict_blob role).bind fun _ => .pure _
  | chunk => exact Gather.strict_chunk.bind fun _ => .pure _
  | chunks => exact Gather.strict_chunks.bind fun _ => .pure _
  | verbatim => exact Gather.strict_verbatim.bind fun _ => .pure _
  | boolean => exact (Gather.strict_ofRead strict_boolean).bind fun _ => .pure _
  | integer => exact (Gather.strict_ofRead strict_integer).bind fun _ => .pure _
  | close => exact (Gather.strict_ofRead strict_close).bind fun _ => .pure _
  | null => exact (Gather.strict_ofRead strict_null).bind fun _ => .pure _
  | simple | bigNumber | double => cases hcall; cases hline
  | peek | value | skip => cases hcall

end Reader

end RespWire

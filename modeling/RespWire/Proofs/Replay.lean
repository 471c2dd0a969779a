import RespWire.Proofs.Destination
import RespWire.Proofs.Steady

/-!
# A run is decided by the octets to come

A caller asks one thing after the other of a reader, goes on after failures,
and may look ahead as often as it likes in between. `run` records what it sees
of each request: the answer, the destination, and the octets still to come
before and after. `run_agree` compares two such runs from readers that are
alike, whatever each of them holds, however the rest arrives and wherever
either caller looks ahead once more: they see the same.

They do so up to the first line that is refused for its size. There both are
refused and both destinations are as they were, but what was taken of the line
and the size reported are left to the portions, so the comparison ends.
-/

namespace RespWire

/-- What is asked of a reader and its destination. -/
inductive Request where
  | call (c : Reader.Call)
  /-- Another size limit. -/
  | sizeLimit (limit : Int)
  /-- Other options. -/
  | options (o : Options)
  /-- Another destination, which holds these octets. -/
  | destination (octets : Bytes)

namespace Request

/-- Does what is asked. -/
def serve : Request → Gather Reader.Answer
  | call c => c.make
  | sizeLimit limit =>
      fun d => (.ok .done, { d with reader := d.reader.setSizeLimit limit })
  | options o =>
      fun d => (.ok .done, { d with reader := d.reader.setOptions o })
  | destination octets => fun d => (.ok .done, { d with gathered := octets })

end Request

/-- What a caller sees of one request. -/
structure Sight where
  before : Bytes
  result : Except Fault Reader.Answer
  gathered : Bytes
  after : Bytes

/-- What a caller sees of its requests. Where it asks for nothing it looks
ahead once more, and what that answers is not recorded. -/
def run : List (Option Request) → Draft → List Sight
  | [], _ => []
  | none :: later, d => run later (Reader.Call.peek.make d).2
  | some q :: later, d =>
      let (result, after) := q.serve d
      ⟨d.reader.remaining, result, after.gathered, after.reader.remaining⟩ ::
        run later after

/-- Two records of the same requests that agree up to the first line refused
for its size, the refusal itself included. -/
inductive Sight.Agree : List Sight → List Sight → Prop where
  | nil : Agree [] []
  | same (s : Sight) {xs ys : List Sight} (h : Agree xs ys) :
      Agree (s :: xs) (s :: ys)
  | apart {before gathered after after' : Bytes} {e e' : Fault}
      (xs ys : List Sight) (h : Reader.ApartInLine before e after e' after') :
      Agree (⟨before, .error e, gathered, after⟩ :: xs)
        (⟨before, .error e', gathered, after'⟩ :: ys)

namespace Draft

theorem peek_calm {d : Draft} (h : d.reader.feed.Calm) :
    ∃ result r, Reader.Call.peek.make d = (result, ⟨r, d.gathered⟩) ∧
      Reader.Ahead d.reader r := by
  obtain ⟨r, hpeek, hahead⟩ := Reader.peek_calm h
  have hread : Gather.ofRead Reader.peek d =
      (Kind.ofFront d.reader.remaining, ⟨r, d.gathered⟩) :=
        Gather.ofRead_of_run hpeek
  cases hfront : Kind.ofFront d.reader.remaining with
  | ok k => exact ⟨_, r, Step.bind_of_ok (hfront ▸ hread), hahead⟩
  | error e => exact ⟨_, r, Step.bind_of_error (hfront ▸ hread), hahead⟩

theorem Alike.peek_left {d e : Draft} (h : d.Alike e) :
    (Reader.Call.peek.make d).2.Alike e := by
  obtain ⟨result, r, hpeek, hahead⟩ := peek_calm h.reader.calm_left
  rw [hpeek]
  exact ⟨h.reader.ahead hahead (.refl h.reader.calm_right), h.gathered⟩

theorem Alike.peek_right {d e : Draft} (h : d.Alike e) :
    d.Alike (Reader.Call.peek.make e).2 := by
  obtain ⟨result, r, hpeek, hahead⟩ := peek_calm h.reader.calm_right
  rw [hpeek]
  exact ⟨h.reader.ahead (.refl h.reader.calm_left) hahead, h.gathered⟩

/-- One request, served to alike readers. -/
theorem Alike.serve {d e : Draft} (h : d.Alike e) (q : Request) :
    (∃ result d' e', q.serve d = (result, d') ∧ q.serve e = (result, e') ∧
      d'.Alike e') ∨
    (∃ f d' f' e', q.serve d = (.error f, d') ∧ q.serve e = (.error f', e') ∧
      d'.gathered = e'.gathered ∧
      Reader.ApartInLine d.reader.remaining f d'.reader.remaining f'
        e'.reader.remaining) := by
  have hr := h.reader
  cases q with
  | call c =>
      have hx := Reader.steady_make c d e h
      simp only [Request.serve]
      have hrestores := Reader.restores_make c d
      have hrestores' := Reader.restores_make c e
      generalize c.make d = x at hx hrestores
      generalize c.make e = y at hx hrestores'
      cases hx with
      | same hsame _ => exact Or.inl ⟨_, _, _, rfl, rfl, hsame⟩
      | apart hapart =>
          refine Or.inr ⟨_, _, _, _, rfl, rfl, ?_, hapart.1⟩
          rw [hrestores _ _ rfl, hrestores' _ _ rfl, h.gathered]
  | sizeLimit limit =>
      have hdepth : d.reader.options.maxDepth = e.reader.options.maxDepth :=
        congrArg Limits.depth hr.limits
      exact Or.inl ⟨_, _, _, rfl, rfl, ⟨hr.calm_left, hr.calm_right,
        congrArg (Limits.mk _) hdepth, hr.remaining⟩, h.gathered⟩
  | options o =>
      exact Or.inl
        ⟨_, _, _, rfl, rfl, ⟨hr.calm_left, hr.calm_right, rfl, hr.remaining⟩,
          h.gathered⟩
  | destination octets => exact Or.inl ⟨_, _, _, rfl, rfl, hr, rfl⟩

end Draft

/-- Two runs of the same requests from alike readers agree, wherever either of
them looks ahead once more. -/
theorem run_agree {xs ys : List (Option Request)} {d e : Draft} (h : d.Alike e)
    (hrequests : xs.filterMap id = ys.filterMap id) :
    Sight.Agree (run xs d) (run ys e) := by
  induction xs generalizing ys d e with
  | nil =>
      induction ys generalizing e with
      | nil => exact .nil
      | cons y ys ih =>
          cases y with
          | none => exact ih h.peek_right hrequests
          | some q => simp at hrequests
  | cons x xs ih =>
      cases x with
      | none => exact ih h.peek_left hrequests
      | some q =>
          induction ys generalizing e with
          | nil => simp at hrequests
          | cons y ys ihy =>
              cases y with
              | none => exact ihy h.peek_right hrequests
              | some q' =>
                  simp only [List.filterMap_cons, id_eq,
                    List.cons.injEq] at hrequests
                  obtain ⟨rfl, hlater⟩ := hrequests
                  rcases h.serve q with ⟨result, d', e', hd, he, halike⟩ |
                    ⟨f, d', f', e', hd, he, hgathered, hapart⟩
                  · rw [run, run, hd, he]
                    simp only [← h.reader.remaining, ← halike.gathered,
                      ← halike.reader.remaining]
                    exact .same _ (ih halike hlater)
                  · rw [run, run, hd, he]
                    simp only [← h.reader.remaining, ← hgathered]
                    exact .apart _ _ hapart

/-- A value in one piece that is all held, and the same octets to come one by
one, with an interruption between them: a long line is refused after reading
on. -/
theorem run_agree_in_pieces :
    let whole : Reader :=
      ⟨⟨[], none⟩, { sizeLimit := 2 },
        Bytes.ofChars "$1\r\na\r\n+abcd\r\n".toList⟩
    let trickle : Reader :=
      ⟨⟨[.piece (Bytes.ofChars "1\r\na\r".toList),
        .failure ⟨.interrupted, "signal"⟩,
          .piece (Bytes.ofChars "\n+abcd\r\n".toList)], some 1⟩,
        { sizeLimit := 2, bufferSize := 3 }, Bytes.ofChars "$".toList⟩
    let requests := [.call .value, .destination [1], .call (.simple .string)]
    Draft.Alike ⟨whole, []⟩ ⟨trickle, []⟩ ∧
      Sight.Agree (run (requests.map some) ⟨whole, []⟩)
        (run (none :: none :: requests.map some) ⟨trickle, []⟩) := by
  intro whole trickle requests
  have halike : Draft.Alike ⟨whole, []⟩ ⟨trickle, []⟩ :=
    ⟨⟨by decide, by decide, by decide, by decide⟩, rfl⟩
  exact ⟨halike, run_agree halike rfl⟩

end RespWire

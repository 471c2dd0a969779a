import RespWire.Reader.Basic

/-!
# Gathering

Reads of octets do not answer them but append them to a destination that the
caller brings, so that many values can be read into one. While such a read
runs, its state is a draft: the reader and what the destination holds so far.
A read that fails midway has appended octets that belong to no value; run
`atomically`, it takes them back.
-/

namespace RespWire

/-- A reader together with the octets gathered so far by the reads that append
to a destination. -/
structure Draft where
  reader : Reader
  gathered : Bytes := []
  deriving DecidableEq, Repr

/-- A read that appends to a destination. -/
abbrev Gather (α : Type) := Step Draft α

namespace Gather

/-- A read that leaves the destination alone. -/
def ofRead {α : Type} (m : Read α) : Gather α := fun d =>
  match m d.reader with
  | (a, r) => (a, { d with reader := r })

instance : MonadLift (Step Reader) (Step Draft) := ⟨ofRead⟩

/-- Appends to the destination. -/
def push (octets : Bytes) : Gather Unit := fun d =>
  (.ok (), { d with gathered := d.gathered ++ octets })

/-- The length of the destination. -/
def mark : Gather Nat := fun d => (.ok d.gathered.length, d)

/-- What was appended since the destination had length `start`. -/
def since (start : Nat) : Gather Bytes :=
  fun d => (.ok (d.gathered.drop start), d)

/-- Cuts the destination back to a length. -/
def cutBack (length : Nat) : Gather Unit := fun d =>
  (.ok (), { d with gathered := d.gathered.take length })

/-- A read that, when it fails, leaves the destination as it found it. -/
def atomically {α : Type} (m : Gather α) : Gather α := fun d =>
  match m d with
  | (.ok a, after) => (.ok a, after)
  | (.error e, after) =>
      (.error e,
        { after with gathered := after.gathered.take d.gathered.length })

/-- Runs a read on a destination of its own and answers what it gathered. -/
def collected {α : Type} (m : Gather α) : Read (α × Bytes) := fun r =>
  match m ⟨r, []⟩ with
  | (.ok a, d) => (.ok (a, d.gathered), d.reader)
  | (.error e, d) => (.error e, d.reader)

/-- Runs a read for its effect on the reader and drops what it gathers. -/
def dropped {α : Type} (m : Gather α) : Read α := do
  let (a, _) ← m.collected
  return a

section Runs

variable {α : Type} {result : Except Fault α}

theorem ofRead_of_run {m : Read α} {d : Draft} {after : Reader}
    (h : m d.reader = (result, after)) :
    ofRead m d = (result, ⟨after, d.gathered⟩) := by
  rw [ofRead, h]

theorem dropped_of_run {m : Gather α} {r : Reader} {after : Draft}
    (h : m ⟨r, []⟩ = (result, after)) :
    m.dropped r = (result, after.reader) := by
  rw [dropped, Step.bind_apply, collected, h]
  cases result <;> rfl

/-- What stays in a destination when a failure takes back what was gathered. -/
def kept (result : Except Fault α) (octets : Bytes) : Bytes :=
  match result with
  | .ok _ => octets
  | .error _ => []

theorem kept_map {β : Type} (result : Except Fault α) (f : α → β)
    (octets : Bytes) :
    kept (result.map f) octets = kept result octets := by
  cases result <;> rfl

theorem atomically_of_run {m : Gather α} {d : Draft} {after : Reader}
    {octets : Bytes} (h : m d = (result, ⟨after, d.gathered ++ octets⟩)) :
    atomically m d = (result, ⟨after, d.gathered ++ kept result octets⟩) := by
  rw [atomically, h]
  cases result with
  | ok a => rfl
  | error e => simp only [List.take_left, kept, List.append_nil]

end Runs

end Gather

end RespWire

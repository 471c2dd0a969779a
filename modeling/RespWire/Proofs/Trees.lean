import RespWire.Proofs.DoubleText

/-!
# Values as trees

A value is taken apart into its children: the elements of a sequence, and keys
and values in turn for a pairing. Everything that the coding of a value needs
to know about its shape is said of a value and its children alone, so that an
induction has one case for all aggregates.

`parts` lists a value and all that is nested in it. Conditions on the contents
are conditions on every part: texts of simple values stay on their line,
announced numbers fit, and what a size limit is applied to is within the limit.
-/

namespace RespWire

namespace Value

/-- Keys and values in the order in which they are written. -/
def flat (pairs : List (Value × Value)) : List Value :=
  pairs.flatMap fun x => [x.1, x.2]

theorem mem_flat {c : Value} {pairs : List (Value × Value)} :
    c ∈ flat pairs ↔ ∃ x ∈ pairs, c = x.1 ∨ c = x.2 := by
  simp [flat, List.mem_flatMap]

theorem flatMap_flat {β : Type} (f : Value → List β)
    (pairs : List (Value × Value)) :
    (flat pairs).flatMap f = pairs.flatMap fun x => f x.1 ++ f x.2 := by
  simp [flat, List.flatMap_assoc]

/-- The values directly in a value, in the order in which they are written. -/
def children : Value → List Value
  | .sequence _ items => items
  | .pairing _ pairs => flat pairs
  | _ => []

mutual

/-- How deep aggregates nest. A value that holds none has no height. -/
def height : Value → Nat
  | .sequence _ items => itemsHeight items
  | .pairing _ pairs => pairsHeight pairs
  | _ => 0

def itemsHeight : List Value → Nat
  | [] => 0
  | v :: vs => max (height v + 1) (itemsHeight vs)

def pairsHeight : List (Value × Value) → Nat
  | [] => 0
  | (k, v) :: rest => max (height k + 1) (max (height v + 1) (pairsHeight rest))

end

mutual

/-- A value and all that is nested in it. -/
def parts : Value → List Value
  | .sequence s items => .sequence s items :: itemsParts items
  | .pairing p pairs => .pairing p pairs :: pairsParts pairs
  | v => [v]

def itemsParts : List Value → List Value
  | [] => []
  | v :: vs => parts v ++ itemsParts vs

def pairsParts : List (Value × Value) → List Value
  | [] => []
  | (k, v) :: rest => parts k ++ (parts v ++ pairsParts rest)

end

mutual

/-- The value with each double as it is read back. -/
def canonical : Value → Value
  | .sequence s items => .sequence s (itemsCanonical items)
  | .pairing p pairs => .pairing p (pairsCanonical pairs)
  | .double x => .double x.canonical
  | v => v

def itemsCanonical : List Value → List Value
  | [] => []
  | v :: vs => canonical v :: itemsCanonical vs

def pairsCanonical : List (Value × Value) → List (Value × Value)
  | [] => []
  | (k, v) :: rest => (canonical k, canonical v) :: pairsCanonical rest

end

/-- The text of a simple value. -/
def line? : Value → Option Bytes
  | .simple _ line => some line
  | _ => none

/-- The number that is written in front of what it counts. -/
def announced? : Value → Option Nat
  | .sequence _ items => some items.length
  | .pairing _ pairs => some pairs.length
  | .blob _ octets => some octets.length
  | .verbatim format text => some (format.octets ++ ':'.toUInt8 :: text).length
  | _ => none

/-- The octets to which a size limit is applied. -/
def limited? : Value → Option Bytes
  | .blob _ octets => some octets
  | .simple _ line => some line
  | .verbatim format text => some (format.octets ++ ':'.toUInt8 :: text)
  | .bigNumber n => some (Decimal.ofInt n)
  | .double x => some x.wireText
  | _ => none

/-- Whether the texts of all simple values stay on their lines. -/
def OneLine (v : Value) : Prop :=
  ∀ u ∈ v.parts, ∀ line ∈ u.line?, Bytes.cr ∉ line ∧ Bytes.lf ∉ line

/-- Whether all announced numbers are below the greatest that can be read. -/
def Countable (v : Value) : Prop :=
  ∀ u ∈ v.parts, ∀ n ∈ u.announced?, n < 2 ^ 63

/-- Whether all of a value is within the size limit. -/
def Fits (l : Limits) (v : Value) : Prop :=
  ∀ u ∈ v.parts, ∀ octets ∈ u.limited?, l.Admits octets.length

instance (v : Value) : Decidable v.OneLine :=
  inferInstanceAs
    (Decidable
      (∀ u ∈ v.parts, ∀ line ∈ u.line?, Bytes.cr ∉ line ∧ Bytes.lf ∉ line))

instance (v : Value) : Decidable v.Countable :=
  inferInstanceAs (Decidable (∀ u ∈ v.parts, ∀ n ∈ u.announced?, n < 2 ^ 63))

instance (l : Limits) (v : Value) : Decidable (v.Fits l) :=
  inferInstanceAs
    (Decidable (∀ u ∈ v.parts, ∀ octets ∈ u.limited?, l.Admits octets.length))

/-! ## By children -/

theorem itemsHeight_le_iff {vs : List Value} {n : Nat} :
    itemsHeight vs ≤ n ↔ ∀ c ∈ vs, c.height < n := by
  induction vs with
  | nil => exact ⟨fun _ => nofun, fun _ => Nat.zero_le n⟩
  | cons v vs ih => rw [itemsHeight, Nat.max_le, ih, List.forall_mem_cons]; rfl

theorem pairsHeight_eq (pairs : List (Value × Value)) :
    pairsHeight pairs = itemsHeight (flat pairs) := by
  induction pairs with
  | nil => rfl
  | cons x pairs ih =>
      rw [pairsHeight, ih]
      rfl

theorem height_le_iff {v : Value} {n : Nat} :
    v.height ≤ n ↔ ∀ c ∈ v.children, c.height < n := by
  cases v with
  | sequence s items => exact itemsHeight_le_iff
  | pairing p pairs =>
      rw [height, pairsHeight_eq]
      exact itemsHeight_le_iff
  | _ => exact ⟨fun _ => nofun, fun _ => Nat.zero_le n⟩

theorem height_lt_of_mem {v c : Value} (h : c ∈ v.children) :
    c.height < v.height :=
  height_le_iff.mp (Nat.le_refl _) c h

/-- To prove something of every value, prove it of a value all of whose children
have it. -/
@[elab_as_elim]
theorem inductionOn {P : Value → Prop} (v : Value)
    (h : ∀ v : Value, (∀ c ∈ v.children, P c) → P v) : P v := by
  generalize hn : v.height = n
  induction n using Nat.strongRecOn generalizing v with
  | _ n ih => exact h v fun c hc => ih c.height (hn ▸ height_lt_of_mem hc) c rfl

theorem itemsParts_eq (vs : List Value) : itemsParts vs = vs.flatMap parts := by
  induction vs with
  | nil => rfl
  | cons v vs ih => rw [itemsParts, ih, List.flatMap_cons]

theorem pairsParts_eq (pairs : List (Value × Value)) :
    pairsParts pairs = (flat pairs).flatMap parts := by
  induction pairs with
  | nil => rfl
  | cons x pairs ih =>
      rw [pairsParts, ih]
      rfl

theorem parts_eq (v : Value) : v.parts = v :: v.children.flatMap parts := by
  cases v with
  | sequence s items => rw [parts, itemsParts_eq]; rfl
  | pairing p pairs => rw [parts, pairsParts_eq]; rfl
  | _ => rfl

theorem mem_parts_iff {u v : Value} :
    u ∈ v.parts ↔ u = v ∨ ∃ c ∈ v.children, u ∈ c.parts := by
  rw [parts_eq, List.mem_cons, List.mem_flatMap]

theorem mem_parts_self (v : Value) : v ∈ v.parts :=
  mem_parts_iff.mpr (Or.inl rfl)

theorem mem_parts_of_mem {u v c : Value} (hc : c ∈ v.children)
    (hu : u ∈ c.parts) :
    u ∈ v.parts :=
  mem_parts_iff.mpr (Or.inr ⟨c, hc, hu⟩)

theorem OneLine.child {v c : Value} (h : v.OneLine) (hc : c ∈ v.children) :
    c.OneLine :=
  fun u hu => h u (mem_parts_of_mem hc hu)

theorem Countable.child {v c : Value} (h : v.Countable) (hc : c ∈ v.children) :
    c.Countable :=
  fun u hu => h u (mem_parts_of_mem hc hu)

theorem Fits.child {l : Limits} {v c : Value} (h : v.Fits l)
    (hc : c ∈ v.children) : c.Fits l :=
  fun u hu => h u (mem_parts_of_mem hc hu)

theorem itemsCanonical_eq (vs : List Value) :
    itemsCanonical vs = vs.map canonical := by
  induction vs with
  | nil => rfl
  | cons v vs ih => rw [itemsCanonical, ih, List.map_cons]

theorem pairsCanonical_eq (pairs : List (Value × Value)) :
    pairsCanonical pairs = pairs.map fun x =>
      (x.1.canonical, x.2.canonical) := by
  induction pairs with
  | nil => rfl
  | cons x pairs ih => rw [pairsCanonical, ih, List.map_cons]

end Value

end RespWire

/-!
# Reader options

What a reader puts up with from its peer. The defaults suit a typical client;
an untrusted source deserves tighter ones.
-/

namespace RespWire

/-- The size limit that stands in for a configured limit of zero, 32 MiB. -/
def defaultSizeLimit : Nat := 1 <<< 25

/-- How deep aggregates may nest unless configured otherwise. -/
def defaultMaxDepth : Nat := 256

/-- How many octets are asked of the source at a time unless configured
otherwise. -/
def defaultBufferSize : Nat := 4096

/-- The configuration of a reader. -/
structure Options where
  /-- The most octets in one blob, chunk or line, framing not counted. Zero
  stands for the default, a negative number for no limit. -/
  sizeLimit : Int := 0
  /-- How deep aggregates may nest. -/
  maxDepth : Nat := defaultMaxDepth
  /-- How many octets are asked of the source at a time; zero counts as one. -/
  bufferSize : Nat := defaultBufferSize
  deriving DecidableEq, Repr

/-- What a configuration makes a reader refuse, whatever the size of its
fills. -/
structure Limits where
  /-- The most octets in one blob, chunk or line, if there is a bound. -/
  size? : Option Nat
  /-- How deep aggregates may nest. -/
  depth : Nat
  deriving DecidableEq, Repr

/-- Whether so many octets may stand in one blob, chunk or line. -/
def Limits.Admits (l : Limits) (n : Nat) : Prop := ∀ limit ∈ l.size?, n ≤ limit

instance (l : Limits) (n : Nat) : Decidable (l.Admits n) :=
  inferInstanceAs (Decidable (∀ limit ∈ l.size?, n ≤ limit))

namespace Options

/-- The size limit in force, if there is one. -/
def effectiveLimit? (o : Options) : Option Nat :=
  if o.sizeLimit = 0 then some defaultSizeLimit
  else if o.sizeLimit < 0 then none
  else some o.sizeLimit.toNat

/-- The limits in force. -/
def limits (o : Options) : Limits := ⟨o.effectiveLimit?, o.maxDepth⟩

/-- How many octets a fill asks for. -/
def fillSize (o : Options) : Nat := max 1 o.bufferSize

theorem fillSize_pos (o : Options) : 0 < o.fillSize := Nat.le_max_left ..

end Options

end RespWire

import RespWire.Fault

/-!
# Feeds

Where a reader gets its octets from. A feed is the list of what is still to
arrive: pieces of data, and failures between them. Every call on the feed
meets the front of the list and nothing else, so a feed says not only which
octets come but also in which portions, and where the source falters.
-/

namespace RespWire

/-- What a call on a feed meets. An empty piece is the end of the input as a
call sees it: there is nothing to hand out, now. -/
inductive Arrival where
  | piece (octets : Bytes)
  | failure (e : IoFailure)
  deriving DecidableEq, Repr

/-- What is still to arrive, in order. -/
structure Feed where
  arrivals : List Arrival := []
  /-- The most octets that one call hands out, if there is a bound. -/
  portion : Option Nat := none
  deriving DecidableEq, Repr

namespace Feed

/-- One call that asks for up to `n` octets. A piece that is not used up stays
in front; after the last arrival every call gets nothing. -/
def read (f : Feed) (n : Nat) : Except IoFailure Bytes × Feed :=
  match f.arrivals with
  | [] => (.ok [], f)
  | .failure e :: later => (.error e, { f with arrivals := later })
  | .piece octets :: later =>
      let given := min n (f.portion.getD n)
      let rest := octets.drop given
      (.ok (octets.take given),
        { f with
          arrivals := if rest.isEmpty then later else .piece rest :: later })

/-- Whether an arrival is an interruption, after which a call is repeated. -/
def isInterruption : Arrival → Bool
  | .failure e => e.kind == .interrupted
  | .piece _ => false

/-- The feed once the interruptions in front are over. -/
def afterInterruptions (f : Feed) : Feed :=
  { f with arrivals := f.arrivals.dropWhile isInterruption }

/-- The octets of an arrival. -/
def octetsOf : Arrival → Bytes
  | .piece octets => octets
  | .failure _ => []

/-- All octets that have not been handed out. -/
def unread (f : Feed) : Bytes := f.arrivals.flatMap octetsOf

/-- The feed of a single piece of data. -/
def ofBytes (octets : Bytes) : Feed :=
  ⟨if octets.isEmpty then [] else [.piece octets], none⟩

/-- Adds octets behind everything else. Behind a piece they join it, so that a
call may get old and new octets together. -/
def extend (f : Feed) (octets : Bytes) : Feed :=
  if octets.isEmpty then f else { f with arrivals := go f.arrivals }
where
  go : List Arrival → List Arrival
    | [] => [.piece octets]
    | [.piece before] => [.piece (before ++ octets)]
    | arrival :: later => arrival :: go later

end Feed

end RespWire

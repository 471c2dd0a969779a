import RespWire.Feed
import RespWire.Options
import RespWire.Step

/-!
# Readers

A reader looks ahead: it holds octets that the feed has handed out and that
no read has taken yet, and it asks the feed for more only when a read has to
see more than it holds. The octets held, followed by those that the feed has
not handed out, are what is still to come, `Reader.remaining`. Looking ahead
moves octets from the feed to the reader and changes nothing about them; only
`consume` takes any away.
-/

namespace RespWire

/-- The state of a reader. -/
structure Reader where
  feed : Feed
  options : Options := {}
  /-- Octets that were handed out and not yet taken. -/
  buffer : Bytes := []
  deriving DecidableEq, Repr

/-- A read. -/
abbrev Read (α : Type) := Step Reader α

namespace Reader

/-- The octets still to come. -/
def remaining (r : Reader) : Bytes := r.buffer ++ r.feed.unread

/-- Exchanges the feed and drops the octets held. The options stay. -/
def reset (r : Reader) (feed : Feed) : Reader :=
  { r with feed := feed, buffer := [] }

/-- Exchanges the options. The octets held stay. -/
def setOptions (r : Reader) (options : Options) : Reader :=
  { r with options := options }

/-- Exchanges the size limit. -/
def setSizeLimit (r : Reader) (limit : Int) : Reader :=
  r.setOptions { r.options with sizeLimit := limit }

/-- One call on the feed itself, past the octets held. -/
def readFeed (r : Reader) (n : Nat) : Except IoFailure Bytes × Reader :=
  match r.feed.read n with
  | (got, feed) => (got, { r with feed := feed })

/-- Asks the feed once, interruptions apart, and holds what it hands out. The
answer is how much that was; nothing means the end of the input. -/
def fill : Read Nat := fun r =>
  match r.feed.afterInterruptions.read r.options.fillSize with
  | (.ok got, feed) =>
      (.ok got.length, { r with feed := feed, buffer := r.buffer ++ got })
  | (.error e, feed) => (.error (.io e), { r with feed := feed })

/-- Whether fewer than `n` octets are held. -/
def lacks (r : Reader) (n : Nat) : Bool := (r.buffer.take n).length < n

/-- Fills until `n` octets are held or the input ends. Every fill but the last
adds an octet, so `n` tries are enough. -/
def await (n : Nat) : Nat → Read Unit
  | 0 => pure ()
  | tries + 1 => fun r =>
      if r.lacks n then
        match fill r with
        | (.ok 0, r) => (.ok (), r)
        | (.ok _, r) => await n tries r
        | (.error e, r) => (.error e, r)
      else (.ok (), r)

/-- The next `n` octets, or as many as there are before the input ends. -/
def lookAhead (n : Nat) : Read Bytes := do
  await n n
  fun r => (.ok (r.buffer.take n), r)

/-- The octets held, after a fill where none were. No octets means the end of
the input. -/
def held : Read Bytes := fun r =>
  if r.buffer.isEmpty then
    match fill r with
    | (.ok _, r) => (.ok r.buffer, r)
    | (.error e, r) => (.error e, r)
  else (.ok r.buffer, r)

/-- Takes `n` of the octets held. -/
def consume (n : Nat) : Read Unit :=
  fun r => (.ok (), { r with buffer := r.buffer.drop n })

/-- The number of octets still to come. -/
def remainingLength : Read Nat := fun r => (.ok r.remaining.length, r)

def getOptions : Read Options := fun r => (.ok r.options, r)

end Reader

end RespWire

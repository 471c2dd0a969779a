import RespWire.Link
import RespWire.Value.Inspect
import RespWire.Proofs.Calm
import RespWire.Proofs.Lockstep
import RespWire.Proofs.Alike
import RespWire.Proofs.Portions
import RespWire.Proofs.Peek
import RespWire.Proofs.Steady
import RespWire.Proofs.Destination
import RespWire.Proofs.Replay
import RespWire.Proofs.Accepts
import RespWire.Proofs.Grammar
import RespWire.Proofs.Holding
import RespWire.Proofs.Languages
import RespWire.Proofs.Gathering
import RespWire.Proofs.Parsing
import RespWire.Proofs.Numerals
import RespWire.Proofs.Rounding
import RespWire.Proofs.DoubleText
import RespWire.Proofs.Skipping
import RespWire.Proofs.Trees
import RespWire.Proofs.Written
import RespWire.Proofs.Refusing
import RespWire.Proofs.RoundTrip
import RespWire.Proofs.Framing
import RespWire.Proofs.Misplaced
import RespWire.Proofs.StreamDepth
import RespWire.Proofs.BreakingOff
import RespWire.Proofs.CutShort
import RespWire.Proofs.Truncated
import RespWire.Proofs.Tracking
import RespWire.Proofs.Waiting
import RespWire.Proofs.Failing
import RespWire.Proofs.Lagging
import RespWire.Proofs.Faltering
import RespWire.Proofs.Consuming
import RespWire.Proofs.EndOfInput
import RespWire.Proofs.Matching
import RespWire.Proofs.Counterparts
import RespWire.Proofs.Followers
import RespWire.Proofs.Tightened
import RespWire.Proofs.Delivered
import RespWire.Proofs.Appended
import RespWire.Proofs.Accounting
import RespWire.Proofs.Piecewise
import RespWire.Proofs.Decoded
import RespWire.Proofs.Rereading
import RespWire.Proofs.InOrder
import RespWire.Proofs.Ending
import RespWire.Proofs.NumberLine
import RespWire.Proofs.LineLimit
import RespWire.Proofs.Contents
import RespWire.Proofs.BodyLength
import RespWire.Proofs.Decomposing
import RespWire.Proofs.Expecting
import RespWire.Proofs.InStep
import RespWire.Proofs.LookedAhead
import RespWire.Proofs.KindFaults
import RespWire.Proofs.Dispatching
import RespWire.Proofs.WrongKind
import RespWire.Proofs.GuardedReads
import RespWire.Proofs.GuardedGathers
import RespWire.Proofs.GuardedValues
import RespWire.Proofs.GuardedRuns

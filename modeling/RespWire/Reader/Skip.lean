import RespWire.Value.Decode

/-!
# Skipping values

Passing over a value without building it. A shallow skip passes one header or
one scalar, and leaves what is nested in an aggregate, or streamed after the
header of a blob, to be skipped on its own; a deep skip passes all of it.
Skipping checks what is passed as reading does, but it takes any value wherever
it stands, chunks and closes included.
-/

namespace RespWire

namespace Reader

/-- Passes one chunk of a streamed blob; the answer is whether it was the
last. -/
def skipChunk : Read Bool := do
  if ← takeForm Marker.lastChunk then return true
  else
    let _ ← (Gather.counted .chunk).dropped
    return false

/-- A chunk that may be followed by more, or none for the last. -/
def skipChunk? : Read (Option Unit) := do
  if ← skipChunk then return none else return some ()

/-- Passes all chunks of a streamed blob. -/
def skipChunks : Read Unit := do
  let budget ← remainingLength
  let _ ← skipChunk?.collect (budget + 1)

/-- A skip that has to pass something, told apart by whether it was a close. -/
def skipElement? (item : Read Kind) : Read (Option Unit) := do
  if (← nested item) = .close then return none else return some ()

/-- Passes the elements that a header announces: so many, each as wide as the
aggregate makes it, or all up to a close. -/
def skipElements (a : Aggregate) (item : Read Kind) : Length → Read Unit
  | .known n => do
      let _ ← (nested item).times (n * a.width)
  | .streamed => do
      let budget ← remainingLength
      let _ ← (skipElement? item).collect (budget + 1)

/-- A line that holds a big number, checked and not converted. -/
def checkedBigNumberLine (text : Bytes) : Except Fault Unit :=
  (bigNumberLine text).map fun _ => ()

/-- Passes what starts with so many levels left, itself included. -/
def skipWithin (deep : Bool) : Nat → Read Kind
  | 0 => tooDeep
  | levels + 1 => do
      let k ← peek
      match k with
      | .aggregate a =>
          let n ← header a
          if deep then skipElements a (skipWithin deep levels) n
      | .blob role =>
          if ← takeStreamHeader (.blob role) then
            if deep then skipChunks
          else
            let _ ← (Gather.counted (.blob role)).dropped
      | .chunk =>
          if deep then skipChunks
          else
            let _ ← skipChunk
      | .simple role =>
          expect (.simple role)
          Gather.line.dropped
      | .verbatim =>
          let _ ← Gather.verbatim.dropped
      | .bigNumber => lineOf .bigNumber checkedBigNumberLine
      | .boolean =>
          let _ ← boolean
      | .double =>
          let _ ← double
      | .integer =>
          let _ ← integer
      | .null => null
      | .close => close
      return k

/-- Passes the next value and answers its kind. -/
def skip (deep : Bool) : Read Kind := do
  skipWithin deep ((← getOptions).maxDepth + 1)

end Reader

end RespWire

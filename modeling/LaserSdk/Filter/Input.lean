import LaserSdk.Lib.Checks
import LaserSdk.Filter.Json
/-!
# The pass before a decoder

Before CBOR and Avro are decoded a pass over the bytes checks their nesting
and counts their values, so that a few bytes cannot make the decoder build a
large tree. This is what the passes share, and the one for CBOR.
-/

namespace LaserSdk.Filter

open Lib

structure Input where
  bytes : List UInt8
  /-- The values that may still come. -/
  remainingValues : Nat
  deriving DecidableEq, Repr

/-- The depth a decoder goes to. -/
def DecodeLimits.depth (limits : DecodeLimits) : Nat := min limits.maxDepth maxFilterParseDepth

namespace Input

def new (bytes : List UInt8) (limits : DecodeLimits) : Input := ⟨bytes, max limits.maxPayloadBytes 1⟩

def finish (input : Input) : Except FaultReason Unit := refuseIf (input.bytes ≠ []) .malformed

def take (input : Input) (count : Nat) : Except FaultReason (List UInt8 × Input) :=
  if count ≤ input.bytes.length then
    .ok (input.bytes.take count, { input with bytes := input.bytes.drop count })
  else .error .malformed

def visit (limits : DecodeLimits) (input : Input) (depth : Nat) : Except FaultReason Input :=
  if depth > limits.depth then .error .tooDeep
  else if input.remainingValues = 0 then .error .tooLarge
  else .ok { input with remainingValues := input.remainingValues - 1 }

/-- A loop over `count` values. -/
def times (count : Nat) (step : Input → Except FaultReason Input) (input : Input) : Except FaultReason Input :=
  match count with
  | 0 => .ok input
  | count + 1 => do
    let input ← step input
    times count step input

/-- The number that follows a head, in big-endian order. -/
def bigEndian (bytes : List UInt8) : Nat := bytes.foldl (fun value byte => value * 256 + byte.toNat) 0

/-- The argument of a head: in the head itself or in the bytes after it. -/
def argument (input : Input) (info : Nat) : Except FaultReason (Nat × Input) :=
  if info ≥ 24 then do
    refuseIf (info > 27) .malformed
    let (bytes, input) ← input.take (2 ^ (info - 24))
    return (bigEndian bytes, input)
  else .ok (info, input)

/-- One item. A `usize` has 64 bits here. The fuel covers the depth: a visit
fails before it is spent. -/
def cbor (limits : DecodeLimits) (fuel depth : Nat) (input : Input) : Except FaultReason Input :=
  match fuel with
  | 0 => .error .tooDeep
  | fuel + 1 => do
    let input ← input.visit limits depth
    let (head, input) ← input.take 1
    let major := (head.headD 0).toNat / 32
    let info := (head.headD 0).toNat % 32
    refuseIf (major = 6 ∨ info = 31) .malformed
    let (value, input) ← input.argument info
    if major = 2 ∨ major = 3 then do
      let (_, input) ← input.take value
      return input
    else if major = 4 ∨ major = 5 then do
      let count := value * (if major = 5 then 2 else 1)
      refuseIf (count ≥ 2 ^ 64) .malformed
      refuseIf (count > input.bytes.length) .malformed
      times count (cbor limits fuel (depth + 1)) input
    else return input

end Input

/-- How the decoder of the CBOR crate fails. -/
inductive CborError where
  | recursionLimitExceeded
  | other
  deriving DecidableEq, Repr

section

-- The crate's decoder is given a recursion limit and returns the value with
-- the bytes it left.
variable (fromReader : List UInt8 → Nat → Except CborError (Value × List UInt8))

def decodeCbor (payload : List UInt8) (limits : DecodeLimits) : Except FaultReason Value := do
  refuseIf (payload.length > limits.maxPayloadBytes) .tooLarge
  let checked ← (Input.new payload limits).cbor limits (limits.depth + 2) 0
  checked.finish
  match fromReader payload (limits.depth + 2) with
  | .error .recursionLimitExceeded => .error .tooDeep
  | .error .other => .error .malformed
  | .ok (value, bytes) => do
    refuseIf (bytes ≠ []) .malformed
    return value

end

end LaserSdk.Filter

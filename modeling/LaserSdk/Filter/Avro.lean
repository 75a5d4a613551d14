import LaserSdk.Filter.Input
/-!
# Decoding an Avro payload

A pass over the bytes follows the writer schema, the Avro crate decodes them,
and the decoded value is converted to the JSON value that filters read, as far
as their paths need it.
-/

namespace LaserSdk.Filter

open Lib

/-! ## Schemas and the pass -/

/-- A schema as the pass reads it. `number` stands for every kind written as
one integer (int, long, enum, dates, times and timestamps), `sized` for those
written with their length (bytes, string, decimals and ids in bytes), `fixed`
for those of a fixed size. -/
inductive AvroSchema where
  | null
  | boolean
  | number
  | float
  | double
  | sized
  | fixed (size : Nat)
  | union (variants : List AvroSchema)
  | record (fields : List (String × AvroSchema))
  | ref (name : String)
  | array (items : AvroSchema)
  | map (types : AvroSchema)
  deriving Repr

namespace Input

/-- The next bytes of a number of seven bits each, the lowest first. Ten bytes
reach the top bit of a `u64`. -/
def varint (left shift result : Nat) (input : Input) : Except FaultReason (Nat × Input) :=
  match left with
  | 0 => .error .malformed
  | left + 1 => do
    let (bytes, input) ← input.take 1
    let byte := (bytes.headD 0).toNat
    refuseIf (shift = 63 ∧ byte > 1) .malformed
    let result := result + byte % 128 * 2 ^ shift
    if byte < 128 then return (result, input)
    varint left (shift + 7) result input

/-- A zigzag number: the lowest bit is the sign. -/
def long (input : Input) : Except FaultReason (Int × Input) := do
  let (raw, input) ← input.varint 10 0 0
  return (if raw % 2 = 0 then (raw / 2 : Int) else -(raw / 2 : Int) - 1, input)

/-- `usize::try_from`. -/
def size (value : Int) : Except FaultReason Nat := if value < 0 then .error .malformed else .ok value.toNat

def sized (input : Input) : Except FaultReason Input := do
  let (value, input) ← input.long
  let count ← size value
  let (_, input) ← input.take count
  return input

/-- Where a block with a size must end, in bytes left. -/
def blockEnd (count : Int) (input : Input) : Except FaultReason (Option Nat × Input) :=
  if count < 0 then do
    let (value, input) ← input.long
    let bytes ← size value
    refuseIf (input.bytes.length < bytes) .malformed
    return (some (input.bytes.length - bytes), input)
  else .ok (none, input)

/-- The blocks of an array or a map. Each starts with its count, and a count of
zero ends them, so there are no more than bytes. -/
def blocks (item : Input → Except FaultReason Input) (keyed : Bool) (fuel : Nat) (input : Input) : Except FaultReason Input :=
  match fuel with
  | 0 => .error .malformed
  | fuel + 1 => do
    let (count, input) ← input.long
    if count = 0 then return input
    let (blockEnd, input) ← input.blockEnd count
    -- `checked_abs` fails on the least `i64` alone.
    refuseIf (count = -2 ^ 63) .tooLarge
    refuseIf (count.natAbs > input.remainingValues) .tooLarge
    let step := fun input : Input => if keyed then input.sized >>= item else item input
    let input ← times count.natAbs step input
    refuseIf (∃ left ∈ blockEnd, input.bytes.length ≠ left) .malformed
    blocks item keyed fuel input

/-- The fields of a record, one after another. -/
def each {α : Type} (step : α → Input → Except FaultReason Input) : List α → Input → Except FaultReason Input
  | [], input => .ok input
  | item :: rest, input => do
    let input ← step item input
    each step rest input

def littleEndian (bytes : List UInt8) : Nat := bytes.foldr (fun byte value => byte.toNat + 256 * value) 0

/-- A float of these bytes is finite: not all bits of its exponent are set. -/
def finiteFloat (bytes : List UInt8) : Bool := littleEndian bytes / 2 ^ 23 % 2 ^ 8 ≠ 2 ^ 8 - 1

def finiteDouble (bytes : List UInt8) : Bool := littleEndian bytes / 2 ^ 52 % 2 ^ 11 ≠ 2 ^ 11 - 1

section

variable (limits : DecodeLimits) (names : String → Option AvroSchema)

/-- One value of a schema. Every visit uses up one of the remaining values, so
these bound the fuel. -/
def avro (fuel : Nat) (schema : AvroSchema) (depth : Nat) (input : Input) : Except FaultReason Input :=
  match fuel with
  | 0 => .error .tooLarge
  | fuel + 1 => do
    let input ← input.visit limits depth
    match schema with
    | .null => return input
    | .boolean => do
      let (bytes, input) ← input.take 1
      refuseIf ((bytes.headD 0).toNat > 1) .malformed
      return input
    | .number => do
      let (_, input) ← input.long
      return input
    | .float => do
      let (bytes, input) ← input.take 4
      refuseIf (finiteFloat bytes = false) .malformed
      return input
    | .double => do
      let (bytes, input) ← input.take 8
      refuseIf (finiteDouble bytes = false) .malformed
      return input
    | .sized => input.sized
    | .fixed size => do
      let (_, input) ← input.take size
      return input
    | .union variants => do
      let (value, input) ← input.long
      let index ← size value
      match variants[index]? with
      | some variant => avro fuel variant (depth + 1) input
      | none => .error .malformed
    | .record fields => each (fun field => avro fuel field.2 (depth + 1)) fields input
    | .ref name =>
      match names name with
      | some schema => avro fuel schema depth input
      | none => .error .malformed
    | .array items => blocks (avro fuel items (depth + 1)) false (input.bytes.length + 1) input
    | .map types => blocks (avro fuel types (depth + 1)) true (input.bytes.length + 1) input

/-- The pass over a payload. -/
def scanAvro (schema : AvroSchema) (payload : List UInt8) : Except FaultReason Unit := do
  let input := new payload limits
  let input ← avro limits names (input.remainingValues + 1) schema 0 input
  input.finish

end

end Input

/-! ## Values -/

/-- A decoded value. `logical` is any kind that has no physical value here. -/
inductive Avro where
  | null
  | boolean (value : Bool)
  | int (value : Int)
  | long (value : Int)
  | float (value : F64)
  | double (value : F64)
  | string (text : String)
  | enum (index : Nat) (text : String)
  | bytes (bytes : List UInt8)
  | fixed (size : Nat) (bytes : List UInt8)
  | union (index : Nat) (value : Avro)
  | record (fields : List (String × Avro))
  | map (fields : List (String × Avro))
  | array (values : List Avro)
  | logical
  deriving Repr

def number (value : F64) : Except FaultReason Value :=
  if value.isFinite then .ok (.number (.float value)) else .error .malformed

def bytesValue (bytes : List UInt8) : Value := .array (bytes.map fun byte => .number (.integer byte.toNat))

/-- The trie for a member of an object. -/
def PathTrie.selected (paths : PathTrie) (key : String) : Option PathTrie :=
  if paths.whole then some .everything else paths.child key

/-- The trie for an item of an array, by its position. -/
def PathTrie.selectedAt (paths : PathTrie) (index : Nat) : Option PathTrie :=
  if paths.whole then some .everything
  else if index < 2 ^ 32 then paths.index (.ofNat index)
  else none

mutual

/-- The JSON value of a decoded one. Members off the paths are not converted,
and arrays keep the positions of what they keep. -/
def avroValue (paths : PathTrie) : Avro → Except FaultReason Value
  | .null => .ok .null
  | .boolean value => .ok (.bool value)
  | .int value | .long value => .ok (.number (.integer value))
  | .float value | .double value => number value
  | .string text | .enum _ text => .ok (.string text)
  | .bytes bytes | .fixed _ bytes => .ok (bytesValue bytes)
  | .union _ value => avroValue paths value
  | .record fields | .map fields => (avroFields paths [] fields).map .object
  | .array values => (avroItems paths 0 [] values).map .array
  | .logical => .error .malformed

def avroFields (paths : PathTrie) (object : List (String × Value)) :
    List (String × Avro) → Except FaultReason (List (String × Value))
  | [] => .ok object
  | (key, value) :: rest =>
    match paths.selected key with
    | some child => do
      let value ← avroValue child value
      avroFields paths (mapInsert object key value) rest
    | none => avroFields paths object rest

def avroItems (paths : PathTrie) (index : Nat) (kept : List Value) : List Avro → Except FaultReason (List Value)
  | [] => .ok kept
  | value :: rest =>
    match paths.selectedAt index with
    | some child => do
      let value ← avroValue child value
      avroItems paths (index + 1) (resize kept index .null ++ [value]) rest
    | none => avroItems paths (index + 1) kept rest

end

section

-- The Avro crate's reader for the writer schema.
variable (readValue : List UInt8 → Option Avro) (names : String → Option AvroSchema)

/-- The Avro part of `decode_paths`, once the writer schema is found. -/
def decodeAvroPaths (schema : AvroSchema) (payload : List UInt8) (limits : DecodeLimits) (paths : PathTrie) :
    Except FaultReason Value := do
  refuseIf (payload.length > limits.maxPayloadBytes) .tooLarge
  Input.scanAvro limits names schema payload
  match readValue payload with
  | some value => avroValue paths value
  | none => .error .malformed

end

end LaserSdk.Filter

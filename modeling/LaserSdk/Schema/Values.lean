import Mathlib.Data.Nat.Log
import LaserSdk.Lib.TwosComplement
import LaserSdk.Schema.Validate
/-!
# Typed values

A typed value is checked for its canonical form alone and against a logical
type. Struct fields follow their ids, map entries follow the bytes of their
keys, and a decimal is minimal two's complement. Floats are their bits.
-/

namespace LaserSdk.Schema

open LaserSdk.Lib

def maxValueBytes : Nat := 8 * 1024 * 1024

def microsPerDay : Int64 := 86400000000

structure DecimalValue where
  unscaled : List UInt8
  precision : UInt8
  scale : UInt8
  deriving DecidableEq, Repr

mutual

inductive TypedValue where
  | null
  | boolean (value : Bool)
  | int (value : Int32)
  | long (value : Int64)
  | float (bits : UInt32)
  | double (bits : UInt64)
  | decimal (value : DecimalValue)
  | date (value : Int32)
  | timeMicros (value : Int64)
  | timestampMicros (value : Int64)
  | timestampTzMicros (value : Int64)
  | string (value : String)
  | uuid (bytes : List UInt8)
  | fixed (bytes : List UInt8)
  | binary (bytes : List UInt8)
  | struct (values : List FieldValue)
  | list (values : List TypedValue)
  | map (entries : List MapEntry)

structure FieldValue where
  fieldId : UInt32
  value : TypedValue

structure MapEntry where
  key : TypedValue
  value : TypedValue

end

/-! ## Decimals -/

/-- `i128::from_be_bytes`. -/
def i128FromBeBytes (bytes : List UInt8) : Int := (BitVec.ofNat 128 (beNat bytes)).toInt

/-- The unscaled bytes with their sign carried to sixteen bytes. -/
def signExtend (unscaled : List UInt8) : List UInt8 :=
  let fill : UInt8 := if unscaled.headD 0 &&& 0x80 = 0 then 0 else 0xff
  List.replicate (16 - unscaled.length) fill ++ unscaled

def DecimalValue.unscaledInt (value : DecimalValue) : Int := i128FromBeBytes (signExtend value.unscaled)

/-- A first byte that only repeats the sign of the second. -/
def padded : List UInt8 → Bool
  | first :: second :: _ => (first == 0 && second &&& 0x80 == 0) || (first == 0xff && second &&& 0x80 != 0)
  | _ => false

def validateDecimal (value : DecimalValue) : Except InvalidError Unit := do
  validatePrecisionScale value.precision value.scale
  refuseIf (value.unscaled.isEmpty ∨ value.unscaled.length > 16)
    ⟨s!"decimal unscaled value must contain 1..=16 bytes, got {value.unscaled.length}"⟩
  refuseIf (padded value.unscaled = true) ⟨"decimal unscaled bytes are not minimal two's complement"⟩
  let unscaled := value.unscaledInt
  let digits := if unscaled = 0 then 1 else Nat.log 10 unscaled.natAbs + 1
  refuseIf (digits > value.precision.toNat)
    ⟨s!"decimal value has {digits} digits, exceeds precision {value.precision}"⟩

/-! ## Canonical values -/

/-- `validate_float` on the bits of a finite width: not finite, or the negative
zero. -/
def validateFloat (notFinite negativeZero : Bool) : Except InvalidError Unit := do
  refuseIf (notFinite = true) ⟨"floating-point value must be finite"⟩
  refuseIf (negativeZero = true) ⟨"negative zero is not a canonical floating-point value"⟩

def validateF32 (bits : UInt32) : Except InvalidError Unit :=
  validateFloat (bits >>> 23 &&& 0xff == 0xff) (bits == 0x80000000)

def validateF64 (bits : UInt64) : Except InvalidError Unit :=
  validateFloat (bits >>> 52 &&& 0x7ff == 0x7ff) (bits == 0x8000000000000000)

def validateTime (value : Int64) : Except InvalidError Unit :=
  refuseIf (value < 0 ∨ microsPerDay ≤ value) ⟨s!"time value {value} is outside one day in microseconds"⟩

def validateUuid (bytes : List UInt8) : Except InvalidError Unit :=
  refuseIf (bytes.length ≠ 16) ⟨s!"UUID must be 16 bytes, got {bytes.length}"⟩

def canonicalMapKey : TypedValue → Except InvalidError (List UInt8)
  | .boolean value => return [0, flagByte value]
  | .int value => return 1 :: beBytes 4 value.toUInt32.toNat
  | .long value => return 2 :: beBytes 8 value.toUInt64.toNat
  | .decimal value => return 3 :: value.precision :: value.scale :: value.unscaled
  | .date value => return 4 :: beBytes 4 value.toUInt32.toNat
  | .timeMicros value => return 5 :: beBytes 8 value.toUInt64.toNat
  | .timestampMicros value => return 6 :: beBytes 8 value.toUInt64.toNat
  | .timestampTzMicros value => return 7 :: beBytes 8 value.toUInt64.toNat
  | .string value => return 8 :: textBytes value
  | .uuid bytes => return 9 :: bytes
  | .fixed bytes => return 10 :: bytes
  | .binary bytes => return 11 :: bytes
  | _ => throw ⟨"map key must be a deterministic non-floating primitive"⟩

/-- A value without parts. -/
def validateLeaf : TypedValue → Except InvalidError Unit
  | .string value => refuseIf (value.utf8ByteSize > maxValueBytes)
    ⟨s!"string value is {value.utf8ByteSize} bytes, exceeds cap {maxValueBytes}"⟩
  | .float bits => validateF32 bits
  | .double bits => validateF64 bits
  | .decimal value => validateDecimal value
  | .timeMicros value => validateTime value
  | .uuid bytes => validateUuid bytes
  | .fixed bytes => refuseIf (bytes.length > maxFixedBytes.toNat)
    ⟨s!"binary value is {bytes.length} bytes, exceeds cap {maxFixedBytes}"⟩
  | .binary bytes => refuseIf (bytes.length > maxValueBytes)
    ⟨s!"binary value is {bytes.length} bytes, exceeds cap {maxValueBytes}"⟩
  | _ => return ()

/-- `what` is `fields`, `values` or `entries` of a struct, list or map. -/
def validateCount (length : Nat) (kind what : String) : Except InvalidError Unit :=
  refuseIf (length > maxLogicalSchemaFields) ⟨s!"{kind} carries {length} {what}, exceeds cap {maxLogicalSchemaFields}"⟩

/-- The keys of a map ascend. -/
def validateKeyOrder (previous : Option (List UInt8)) (key : List UInt8) : Except InvalidError Unit :=
  refuseIf (∃ before ∈ previous, key ≤ before) ⟨"map entries must be strictly ordered by canonical key"⟩

mutual

def validateTypedValue : TypedValue → Nat → Except InvalidError Unit
  | .struct values, depth => do
    validateDepth depth
    validateCount values.length "struct" "fields"
    validateFieldValues values depth 0
  | .list values, depth => do
    validateDepth depth
    validateCount values.length "list" "values"
    validateValues values depth
  | .map entries, depth => do
    validateDepth depth
    validateCount entries.length "map" "entries"
    validateEntries entries depth none
  | value, depth => do
    validateDepth depth
    validateLeaf value

def validateFieldValue : FieldValue → Nat → UInt32 → Except InvalidError Unit
  | ⟨fieldId, value⟩, depth, previousId => do
    refuseIf (fieldId = 0 ∨ fieldId ≤ previousId) ⟨"struct field values must have strictly increasing positive field IDs"⟩
    validateTypedValue value (depth + 1)

def validateFieldValues : List FieldValue → Nat → UInt32 → Except InvalidError Unit
  | [], _, _ => return ()
  | field :: rest, depth, previousId => do
    validateFieldValue field depth previousId
    validateFieldValues rest depth field.fieldId

def validateValues : List TypedValue → Nat → Except InvalidError Unit
  | [], _ => return ()
  | value :: rest, depth => do
    validateTypedValue value (depth + 1)
    validateValues rest depth

def validateEntry : MapEntry → Nat → Option (List UInt8) → Except InvalidError (List UInt8)
  | ⟨key, value⟩, depth, previous => do
    validateTypedValue key (depth + 1)
    validateTypedValue value (depth + 1)
    let bytes ← canonicalMapKey key
    validateKeyOrder previous bytes
    return bytes

def validateEntries : List MapEntry → Nat → Option (List UInt8) → Except InvalidError Unit
  | [], _, _ => return ()
  | entry :: rest, depth, previous => do
    let bytes ← validateEntry entry depth previous
    validateEntries rest depth (some bytes)

end

def TypedValue.validateCanonical (value : TypedValue) : Except InvalidError Unit := validateTypedValue value 1

/-! ## Values of a type -/

def typeMismatch : InvalidError := ⟨"typed value does not match logical type"⟩

/-- A canonical value without parts against its type. -/
def validateScalar : TypedValue → LogicalType → Except InvalidError Unit
  | .boolean _, .boolean | .int _, .int | .long _, .long | .date _, .date | .timestampMicros _, .timestampMicros
  | .timestampTzMicros _, .timestampTzMicros | .string _, .string | .binary _, .binary => return ()
  | .float bits, .float => validateF32 bits
  | .double bits, .double => validateF64 bits
  | .decimal value, .decimal precision scale => do
    validateDecimal value
    refuseIf (value.precision ≠ precision ∨ value.scale ≠ scale)
      ⟨s!"decimal type mismatch: value is ({value.precision}, {value.scale}), schema is ({precision}, {scale})"⟩
  | .timeMicros value, .timeMicros => validateTime value
  | .uuid bytes, .uuid => validateUuid bytes
  | .fixed bytes, .fixed length =>
    refuseIf (bytes.length ≠ length.toNat) ⟨s!"fixed value is {bytes.length} bytes, expected {length}"⟩
  | _, _ => throw typeMismatch

mutual

def TypedValue.validateAgainst : TypedValue → LogicalType → Bool → Except InvalidError Unit
  | .null, _, required => refuseIf (required = true) ⟨"required value is null"⟩
  | .struct values, logicalType, _ => do
    TypedValue.validateCanonical (.struct values)
    match logicalType with
    | .struct fields => do
      refuseIf (values.length ≠ fields.length)
        ⟨s!"struct carries {values.length} values, schema has {fields.length} fields"⟩
      validateStructValue values fields
    | _ => throw typeMismatch
  | .list values, logicalType, _ => do
    TypedValue.validateCanonical (.list values)
    match logicalType with
    | .list _ elementRequired element => validateElements values element elementRequired
    | _ => throw typeMismatch
  | .map entries, logicalType, _ => do
    TypedValue.validateCanonical (.map entries)
    match logicalType with
    | .map _ key _ valueRequired value => validateMap entries key value valueRequired none
    | _ => throw typeMismatch
  | value, logicalType, _ => do
    value.validateCanonical
    validateScalar value logicalType

def FieldValue.validateAgainst : FieldValue → LogicalField → Except InvalidError Unit
  | ⟨fieldId, value⟩, field => do
    refuseIf (fieldId ≠ field.id) ⟨s!"struct field id {fieldId} appears where {field.id} is required"⟩
    value.validateAgainst field.fieldType field.required

/-- The loop of `validate_struct_value` over the values and the fields. -/
def validateStructValue : List FieldValue → List LogicalField → Except InvalidError Unit
  | value :: values, fields =>
    match fields with
    | [] => return ()
    | field :: fields => do
      value.validateAgainst field
      validateStructValue values fields
  | [], _ => return ()

def validateElements : List TypedValue → LogicalType → Bool → Except InvalidError Unit
  | [], _, _ => return ()
  | value :: rest, element, required => do
    value.validateAgainst element required
    validateElements rest element required

def MapEntry.validateAgainst : MapEntry → LogicalType → LogicalType → Bool → Option (List UInt8) →
    Except InvalidError (List UInt8)
  | ⟨key, value⟩, keyType, valueType, valueRequired, previous => do
    key.validateAgainst keyType true
    value.validateAgainst valueType valueRequired
    let bytes ← canonicalMapKey key
    validateKeyOrder previous bytes
    return bytes

def validateMap : List MapEntry → LogicalType → LogicalType → Bool → Option (List UInt8) → Except InvalidError Unit
  | [], _, _, _, _ => return ()
  | entry :: rest, keyType, valueType, valueRequired, previous => do
    let bytes ← entry.validateAgainst keyType valueType valueRequired previous
    validateMap rest keyType valueType valueRequired (some bytes)

end

/-! ## What is accepted -/

section

variable {depth : Nat}

theorem validateCount_ok {length : Nat} {kind what : String} {u : Unit} :
    validateCount length kind what = .ok u ↔ length ≤ maxLogicalSchemaFields := by
  simp [validateCount]

theorem validateFieldValues_ok {values : List FieldValue} {previousId : UInt32} {u : Unit} :
    validateFieldValues values depth previousId = .ok u ↔
      (previousId :: values.map (·.fieldId)).IsChain (· < ·) ∧ ∀ field ∈ values, validateTypedValue field.value (depth + 1) = .ok () := by
  induction values generalizing previousId with
  | nil => simp [validateFieldValues]
  | cons field rest ih =>
    obtain ⟨fieldId, value⟩ := field
    have hpositive : ¬(fieldId = 0 ∨ fieldId ≤ previousId) ↔ previousId < fieldId := by
      rw [not_or]
      constructor
      · rintro ⟨-, hlt⟩
        exact UInt32.not_le.1 hlt
      · intro hlt
        refine ⟨?_, UInt32.not_le.2 hlt⟩
        rintro rfl
        exact absurd hlt (by simp)
    simp only [validateFieldValues, validateFieldValue, bind_ok, refuseIf_ok, ih, hpositive, List.map_cons,
      List.isChain_cons_cons, List.forall_mem_cons, exists_const]
    grind

theorem validateValues_ok {values : List TypedValue} {u : Unit} :
    validateValues values depth = .ok u ↔ ∀ value ∈ values, validateTypedValue value (depth + 1) = .ok () := by
  induction values with
  | nil => simp [validateValues]
  | cons value rest ih =>
    simp only [validateValues, bind_ok, ih, List.forall_mem_cons]
    grind

theorem struct_ok {values : List FieldValue} {u : Unit} : validateTypedValue (.struct values) depth = .ok u ↔
    depth ≤ maxLogicalSchemaDepth ∧ values.length ≤ maxLogicalSchemaFields ∧
      (0 :: values.map (·.fieldId)).IsChain (· < ·) ∧ ∀ field ∈ values, validateTypedValue field.value (depth + 1) = .ok () := by
  simp only [validateTypedValue, bind_ok, validateDepth_ok, validateCount_ok, validateFieldValues_ok, exists_const]

theorem list_ok {values : List TypedValue} {u : Unit} : validateTypedValue (.list values) depth = .ok u ↔
    depth ≤ maxLogicalSchemaDepth ∧ values.length ≤ maxLogicalSchemaFields ∧
      ∀ value ∈ values, validateTypedValue value (depth + 1) = .ok () := by
  simp only [validateTypedValue, bind_ok, validateDepth_ok, validateCount_ok, validateValues_ok, exists_const]

end

end LaserSdk.Schema

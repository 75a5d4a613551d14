import Mathlib
import LaserSdk.Schema.Validate
/-!
# The TypeScript validator

The TypeScript client checks a logical schema with its own walk and encodes
the canonical bytes with its own encoder. Both walks ask for the same room and
nearly the same rules. They differ in four places: the depth of lists and
maps, the control characters and the blanks of names, and a cap on the
canonical bytes. The strings are Unicode scalar strings, where UTF-16 and UTF-8
hold the same characters.
-/

namespace LaserSdk.Schema.Typescript

open LaserSdk.Lib

/-! ## The walk -/

/-- The blanks of `String.prototype.trim`: WhiteSpace and LineTerminator. -/
def blanks : List Nat :=
  [0x09, 0x0A, 0x0B, 0x0C, 0x0D, 0x20, 0xA0, 0x1680, 0x2000, 0x2001, 0x2002, 0x2003, 0x2004, 0x2005, 0x2006, 0x2007,
    0x2008, 0x2009, 0x200A, 0x2028, 0x2029, 0x202F, 0x205F, 0x3000, 0xFEFF]

def isBlank (c : Char) : Bool := blanks.contains c.toNat

def hasControlCharacter (value : String) : Bool :=
  value.toList.any fun character => decide (character.toNat < 32) || decide (character.toNat = 127)

/-- The checks of one item before its type is visited. -/
def visitItem (id : UInt32) (name : String) (doc : Option String) (w : Walk) (names : List String) (allowProvenance : Bool) :
    Except InvalidError (Walk × List String) := do
  let allowed := allowProvenance && provenancePair id name
  refuseIf (id ≤ 0 ∨ id ∈ w.ids ∨ (provenanceFieldIdStart ≤ id ∧ allowed = false))
    ⟨s!"field id {id} is invalid or duplicated"⟩
  refuseIf (name = "" ∨ name.utf8ByteSize > maxFieldNameBytes ∨ trim isBlank name ≠ name ∨ hasControlCharacter name = true ∨
      name ∈ names ∨ (provenanceFields.any (·.2 == name) ∧ allowed = false))
    ⟨s!"field name `{name}` is invalid, duplicated, or reserved"⟩
  refuseIf (∃ text ∈ doc, text.utf8ByteSize > maxFieldDocBytes) ⟨"field documentation exceeds cap"⟩
  let estimatedSize := w.encodedSize + (name.utf8ByteSize + docBytes doc + 16)
  refuseIf (estimatedSize > maxLogicalSchemaBytes) ⟨"logical schema exceeds its byte cap"⟩
  refuseIf (w.fieldCount + 1 > maxLogicalSchemaFields) ⟨"logical schema field count exceeds cap"⟩
  return (⟨id :: w.ids, w.fieldCount + 1, estimatedSize⟩, name :: names)

def nestedId (value : UInt32) (w : Walk) : Except InvalidError Walk := do
  refuseIf (value ≤ 0 ∨ provenanceFieldIdStart ≤ value ∨ value ∈ w.ids) ⟨"nested field id is invalid or duplicated"⟩
  refuseIf (w.fieldCount + 1 > maxLogicalSchemaFields) ⟨"logical schema field count exceeds cap"⟩
  return { w with ids := value :: w.ids, fieldCount := w.fieldCount + 1 }

def checkDepth (depth : Nat) : Except InvalidError Unit :=
  refuseIf (depth > maxLogicalSchemaDepth) ⟨"logical schema depth exceeds cap"⟩

mutual

def visitType : LogicalType → Nat → Walk → Except InvalidError Walk
  | .decimal precision scale, _, w => do
    refuseIf (precision < 1 ∨ maxDecimalPrecision < precision ∨ precision < scale) ⟨"decimal precision or scale is invalid"⟩
    return w
  | .fixed length, _, w => do
    refuseIf (length < 1 ∨ maxFixedBytes < length) ⟨"fixed length is invalid"⟩
    return w
  | .struct fields, depth, w => do
    checkDepth (depth + 1)
    visitEach fields (depth + 1) w [] false
  | .list elementId _ element, depth, w => do
    let w ← nestedId elementId w
    visitType element (depth + 1) w
  | .map keyId key valueId _ value, depth, w => do
    let w ← nestedId keyId w
    let w ← nestedId valueId w
    refuseIf (key.acceptsMapKey = false) ⟨"map key type is not supported"⟩
    let w ← visitType key (depth + 1) w
    visitType value (depth + 1) w
  | _, _, w => return w

def visitField : LogicalField → Nat → Walk → List String → Bool → Except InvalidError (Walk × List String)
  | ⟨id, name, _, fieldType, doc⟩, depth, w, names, allowProvenance => do
    let (w, names) ← visitItem id name doc w names allowProvenance
    let w ← visitType fieldType depth w
    return (w, names)

/-- The loop of `visit` over the items of one struct. -/
def visitEach : List LogicalField → Nat → Walk → List String → Bool → Except InvalidError Walk
  | [], _, w, _, _ => return w
  | item :: items, depth, w, names, allowProvenance => do
    let (w, names) ← visitField item depth w names allowProvenance
    visitEach items depth w names allowProvenance

end

def validateFieldShape (fields : List LogicalField) (allowTopLevelProvenance : Bool) : Except InvalidError Walk := do
  checkDepth 1
  visitEach fields 1 .new [] allowTopLevelProvenance

def validateSchemaShape (schema : LogicalSchema) : Except InvalidError Unit := do
  refuseIf (schema.schema.id.value = 0 ∨ schema.schema.version = 0 ∨ schema.fields = [])
    ⟨"logical schema identity, version, and fields must be nonzero"⟩
  let _ ← validateFieldShape schema.fields false

/-! ## The encoder -/

def encodeText (value : String) : List UInt8 := beBytes 4 (textBytes value).length ++ textBytes value

def encodeDoc : Option String → List UInt8
  | none => [0]
  | some doc => 1 :: encodeText doc

mutual

def encodeFingerprintType : LogicalType → List UInt8
  | .decimal precision scale => [5, precision, scale]
  | .fixed length => 12 :: beBytes 4 length.toNat
  | .struct fields => 14 :: (beBytes 4 fields.length ++ encodeItems fields)
  | .list elementId elementRequired element =>
    15 :: (beBytes 4 elementId.toNat ++ flagByte elementRequired :: encodeFingerprintType element)
  | .map keyId key valueId valueRequired value =>
    16 :: (beBytes 4 keyId.toNat ++ (encodeFingerprintType key ++
      (beBytes 4 valueId.toNat ++ flagByte valueRequired :: encodeFingerprintType value)))
  | .boolean => [0]
  | .int => [1]
  | .long => [2]
  | .float => [3]
  | .double => [4]
  | .date => [6]
  | .timeMicros => [7]
  | .timestampMicros => [8]
  | .timestampTzMicros => [9]
  | .string => [10]
  | .uuid => [11]
  | .binary => [13]

def encodeItem : LogicalField → List UInt8
  | ⟨id, name, required, fieldType, doc⟩ =>
    beBytes 4 id.toNat ++ flagByte required :: (encodeText name ++ (encodeDoc doc ++ encodeFingerprintType fieldType))

/-- The loop over the items of a field list. -/
def encodeItems : List LogicalField → List UInt8
  | [] => []
  | item :: items => encodeItem item ++ encodeItems items

end

def encodeFingerprintFields (fields : List LogicalField) : List UInt8 := beBytes 4 fields.length ++ encodeItems fields

/-- The bytes the encoder collects for a schema. -/
def canonicalBytes (schema : LogicalSchema) : List UInt8 :=
  LogicalSchema.fingerprintDomain ++
    (beBytes 16 schema.schema.id.value ++ (beBytes 4 schema.schema.version.toNat ++ encodeFingerprintFields schema.fields))

def logicalSchemaCanonicalFingerprintBytes (schema : LogicalSchema) : Except InvalidError (List UInt8) := do
  validateSchemaShape schema
  refuseIf ((canonicalBytes schema).length > maxLogicalSchemaBytes) ⟨"logical schema canonical bytes exceed cap"⟩
  return canonicalBytes schema

section

variable (sha256 : List UInt8 → List UInt8)

def logicalSchemaComputeFingerprint (schema : LogicalSchema) : Except InvalidError (List UInt8) := do
  let bytes ← logicalSchemaCanonicalFingerprintBytes schema
  return sha256 bytes

def validateLogicalSchema (schema : LogicalSchema) : Except InvalidError Unit := do
  validateSchemaShape schema
  let expected ← logicalSchemaComputeFingerprint sha256 schema
  refuseIf (expected ≠ schema.schema.fingerprint) ⟨"logical schema fingerprint does not match canonical bytes"⟩

end

/-! ## What the walk checks -/

def ItemName (name : String) : Prop :=
  name ≠ "" ∧ name.utf8ByteSize ≤ maxFieldNameBytes ∧ trim isBlank name = name ∧ hasControlCharacter name = false

theorem u32_le_zero {n : UInt32} : n ≤ 0 ↔ n = 0 := by
  simp only [UInt32.le_iff_toNat_le, ← UInt32.toNat_inj]
  exact Nat.le_zero

theorem u32_lt_one {n : UInt32} : n < 1 ↔ n = 0 := by
  simp only [UInt32.lt_iff_toNat_lt, ← UInt32.toNat_inj]
  exact Nat.lt_one_iff

theorem u8_lt_one {n : UInt8} : n < 1 ↔ n = 0 := by
  simp only [UInt8.lt_iff_toNat_lt, ← UInt8.toNat_inj]
  exact Nat.lt_one_iff

theorem doc_within {doc : Option String} : (¬∃ text ∈ doc, text.utf8ByteSize > maxFieldDocBytes) ↔
    docBytes doc ≤ maxFieldDocBytes := by
  cases doc with
  | none => simp [docBytes]
  | some text => simp [docBytes]

theorem visitItem_ok {id : UInt32} {name : String} {doc : Option String} {w w' : Walk} {names names' : List String} :
    visitItem id name doc w names false = .ok (w', names') ↔
      (ItemName name ∧ ¬Reserved name ∧ name ∉ names ∧ docBytes doc ≤ maxFieldDocBytes) ∧ names' = name :: names ∧
        w.Room [id] (name.utf8ByteSize + docBytes doc + 16) ∧ w' = w.after [id] (name.utf8ByteSize + docBytes doc + 16) := by
  simp only [visitItem, bind_ok, refuseIf_ok, pure_ok, exists_const, room_singleton, Bool.false_and, and_true, Prod.mk.injEq,
    u32_le_zero, not_or, Nat.not_lt, doc_within, Reserved, UserId, ItemName, Bool.not_eq_true, Decidable.not_not]
  constructor
  · rintro ⟨⟨hid, hfresh, huser⟩, ⟨hempty, hlength, htrim, hcontrol, hnames, hreserved⟩, hdoc, hsize, hcount, rfl, rfl⟩
    exact ⟨⟨⟨hempty, hlength, htrim, hcontrol⟩, hreserved, hnames, hdoc⟩, rfl, ⟨⟨hid, huser⟩, hfresh, hcount, hsize⟩, rfl⟩
  · rintro ⟨⟨⟨hempty, hlength, htrim, hcontrol⟩, hreserved, hnames, hdoc⟩, rfl, ⟨⟨hid, huser⟩, hfresh, hcount, hsize⟩, rfl⟩
    exact ⟨⟨hid, hfresh, huser⟩, ⟨hempty, hlength, htrim, hcontrol, hnames, hreserved⟩, hdoc, hsize, hcount, rfl, rfl⟩

theorem nestedId_ok (id : UInt32) : Walk.Takes (nestedId id) True [id] 0 := by
  intro w w' hw
  simp only [nestedId, true_and, bind_ok, refuseIf_ok, pure_ok, exists_const, room_singleton, Nat.add_zero, hw.2, and_true, UserId,
    u32_le_zero, not_or, Nat.not_lt, and_assoc, Walk.after, List.reverse_singleton, List.singleton_append,
    List.length_singleton, eq_comm (a := w')]

theorem checkDepth_ok {depth : Nat} {u : Unit} : checkDepth depth = .ok u ↔ depth ≤ maxLogicalSchemaDepth := by
  simp [checkDepth]

mutual

theorem visitType_ok (t : LogicalType) (depth : Nat) :
    Walk.Takes (visitType t depth) (t.Local ItemName False depth) t.ids t.size := by
  intro w w' hw
  cases t with
  | decimal precision scale =>
    simp only [visitType, bind_ok, refuseIf_ok, pure_ok, exists_const, u8_lt_one, LogicalType.Local, LogicalType.ids,
      LogicalType.size, Walk.after_nil, Walk.room_nil hw, true_and, eq_comm (a := w')]
  | fixed length =>
    simp only [visitType, bind_ok, refuseIf_ok, pure_ok, exists_const, u32_lt_one, LogicalType.Local, LogicalType.ids,
      LogicalType.size, Walk.after_nil, Walk.room_nil hw, true_and, eq_comm (a := w')]
  | struct fields =>
    simp only [visitType, bind_ok, checkDepth_ok, exists_const, LogicalType.Local, LogicalType.ids, LogicalType.size,
      visitEach_ok fields (depth + 1) w w' [] hw, and_assoc]
  | list elementId elementRequired element =>
    have hparts := (nestedId_ok elementId).andThen (visitType_ok element (depth + 1))
    rw [visitType]
    exact hparts.congr (by simp [LogicalType.Local]) rfl (Nat.zero_add _) w w' hw
  | map keyId key valueId valueRequired value =>
    have hkey : ∀ u, refuseIf (key.acceptsMapKey = false) (⟨"map key type is not supported"⟩ : InvalidError) = .ok u ↔
        key.acceptsMapKey = true := by
      simp
    have hparts := (nestedId_ok keyId).andThen ((nestedId_ok valueId).andThen
      (((visitType_ok key (depth + 1)).andThen (visitType_ok value (depth + 1))).guarded hkey))
    rw [visitType]
    exact hparts.congr (by simp [LogicalType.Local]) rfl (by simp [LogicalType.size]) w w' hw
  | _ =>
    simp only [visitType, pure_ok, LogicalType.Local, LogicalType.ids, LogicalType.size, Walk.after_nil, Walk.room_nil hw,
      true_and, eq_comm (a := w')]

theorem visitField_ok (field : LogicalField) (depth : Nat) (w w' : Walk) (names names' : List String) :
    visitField field depth w names false = .ok (w', names') ↔ field.Local ItemName False depth names ∧
      names' = field.name :: names ∧ w.Room field.ids field.size ∧ w' = w.after field.ids field.size := by
  cases field with
  | mk id name required fieldType doc =>
    simp only [LogicalField.Local, LogicalField.ids, LogicalField.size]
    rw [Walk.room_cons, Walk.after_cons w id fieldType.ids]
    simp only [visitField, bind_ok, pure_ok, Prod.exists, Prod.mk.injEq]
    constructor
    · rintro ⟨w₁, names₁, hitem, w₂, htype, rfl, rfl⟩
      obtain ⟨⟨hname, hreserved, hnames, hdoc⟩, rfl, hroom, rfl⟩ := visitItem_ok.1 hitem
      obtain ⟨hlocal, hroom', rfl⟩ := (visitType_ok fieldType _ _ _ hroom.within).1 htype
      exact ⟨⟨hname, hreserved, hnames, hdoc, hlocal⟩, rfl, ⟨hroom, hroom'⟩, rfl⟩
    · rintro ⟨⟨hname, hreserved, hnames, hdoc, hlocal⟩, rfl, ⟨hroom, hroom'⟩, rfl⟩
      exact ⟨_, _, visitItem_ok.2 ⟨⟨hname, hreserved, hnames, hdoc⟩, rfl, hroom, rfl⟩, _,
        (visitType_ok fieldType _ _ _ hroom.within).2 ⟨hlocal, hroom', rfl⟩, rfl, rfl⟩

theorem visitEach_ok (fields : List LogicalField) (depth : Nat) (w w' : Walk) (names : List String) (hw : w.Within) :
    visitEach fields depth w names false = .ok w' ↔ EachLocal ItemName False fields depth names ∧
      w.Room (eachIds fields) (eachSize fields) ∧ w' = w.after (eachIds fields) (eachSize fields) := by
  cases fields with
  | nil =>
    simp only [visitEach, pure_ok, EachLocal, eachIds, eachSize, Walk.after_nil, Walk.room_nil hw, true_and,
      eq_comm (a := w')]
  | cons field rest =>
    simp only [visitEach, bind_ok, EachLocal, eachIds, eachSize, Prod.exists]
    rw [Walk.room_append, Walk.after_append]
    constructor
    · rintro ⟨w₁, names₁, hfield, hrest⟩
      obtain ⟨hlocal, rfl, hroom, rfl⟩ := (visitField_ok field depth w w₁ names names₁).1 hfield
      obtain ⟨hlocals, hroom', rfl⟩ := (visitEach_ok rest depth _ _ _ hroom.within).1 hrest
      exact ⟨⟨hlocal, hlocals⟩, ⟨hroom, hroom'⟩, rfl⟩
    · rintro ⟨⟨hlocal, hlocals⟩, ⟨hroom, hroom'⟩, rfl⟩
      exact ⟨_, _, (visitField_ok field depth w _ names _).2 ⟨hlocal, rfl, hroom, rfl⟩,
        (visitEach_ok rest depth _ _ _ hroom.within).2 ⟨hlocals, hroom', rfl⟩⟩

end

theorem validateSchemaShape_ok {schema : LogicalSchema} {u : Unit} : validateSchemaShape schema = .ok u ↔
    (schema.schema.id.value ≠ 0 ∧ schema.schema.version ≠ 0 ∧ schema.fields ≠ []) ∧
      EachLocal ItemName False schema.fields 1 [] ∧ Walk.new.Room (eachIds schema.fields) (eachSize schema.fields) := by
  have hnew : Walk.new.Within := ⟨by decide, by decide⟩
  have hdepth : 1 ≤ maxLogicalSchemaDepth := by decide
  simp only [validateSchemaShape, validateFieldShape, bind_ok, refuseIf_ok, pure_ok, checkDepth_ok, exists_const, hdepth,
    true_and, not_or, visitEach_ok schema.fields 1 _ _ _ hnew, and_assoc, exists_eq, and_true, exists_and_left]

/-! ## The encoders agree -/

theorem encodeText_eq {value : String} {x : List UInt8} (h : Schema.encodeText value = .ok x) : x = encodeText value := by
  simp only [Schema.encodeText, bind_ok, lengthBytes_ok, pure_ok] at h
  obtain ⟨_, ⟨-, rfl⟩, rfl⟩ := h
  simp [encodeText]

theorem encodeDoc_eq {doc : Option String} {x : List UInt8} (h : Schema.encodeDoc doc = .ok x) : x = encodeDoc doc := by
  cases doc with
  | none => exact (pure_ok.1 h).symm
  | some text =>
    obtain ⟨y, hy, hx⟩ := bind_ok.1 h
    rw [← pure_ok.1 hx, encodeText_eq hy, encodeDoc]

mutual

theorem encodeType_eq (t : LogicalType) (x : List UInt8) (h : encodeLogicalType t = .ok x) : x = encodeFingerprintType t := by
  cases t with
  | struct fields =>
    simp only [encodeLogicalType, bind_ok, lengthBytes_ok, pure_ok] at h
    obtain ⟨_, ⟨-, rfl⟩, y, hy, rfl⟩ := h
    rw [encodeEach_eq fields y hy, encodeFingerprintType]
  | list elementId elementRequired element =>
    simp only [encodeLogicalType, bind_ok, pure_ok] at h
    obtain ⟨y, hy, rfl⟩ := h
    rw [encodeType_eq element y hy, encodeFingerprintType]
  | map keyId key valueId valueRequired value =>
    simp only [encodeLogicalType, bind_ok, pure_ok] at h
    obtain ⟨y, hy, z, hz, rfl⟩ := h
    rw [encodeType_eq key y hy, encodeType_eq value z hz, encodeFingerprintType]
  | _ => exact (pure_ok.1 h).symm

theorem encodeField_eq (field : LogicalField) (x : List UInt8) (h : encodeField field = .ok x) : x = encodeItem field := by
  cases field with
  | mk id name required fieldType doc =>
    simp only [encodeField, bind_ok, pure_ok] at h
    obtain ⟨n, hn, d, hd, y, hy, rfl⟩ := h
    rw [encodeText_eq hn, encodeDoc_eq hd, encodeType_eq fieldType y hy, encodeItem]

theorem encodeEach_eq (fields : List LogicalField) (x : List UInt8) (h : encodeEach fields = .ok x) : x = encodeItems fields := by
  cases fields with
  | nil => exact (pure_ok.1 h).symm
  | cons field rest =>
    simp only [encodeEach, bind_ok, pure_ok] at h
    obtain ⟨y, hy, z, hz, rfl⟩ := h
    rw [encodeField_eq field y hy, encodeEach_eq rest z hz, encodeItems]

end

/-- What the two encoders write is one string of bytes. -/
theorem canonical_eq {schema : LogicalSchema} {bytes : List UInt8} (h : schema.canonicalFingerprintBytes = .ok bytes) :
    bytes = canonicalBytes schema := by
  obtain ⟨fields, hfields, rfl⟩ := LogicalSchema.canonicalFingerprintBytes_ok h
  simp only [encodeFields, bind_ok, lengthBytes_ok, pure_ok] at hfields
  obtain ⟨_, ⟨-, rfl⟩, y, hy, rfl⟩ := hfields
  rw [encodeEach_eq schema.fields y hy, canonicalBytes, encodeFingerprintFields]

/-! ## Where the two walks differ -/

mutual

/-- The names of all fields in a type. -/
def names : LogicalType → List String
  | .struct fields => eachNames fields
  | .list _ _ element => names element
  | .map _ key _ _ value => names key ++ names value
  | _ => []

def fieldNames : LogicalField → List String
  | ⟨_, name, _, fieldType, _⟩ => name :: names fieldType

def eachNames : List LogicalField → List String
  | [] => []
  | field :: rest => fieldNames field ++ eachNames rest

end

mutual

/-- How many structs, lists and maps a type puts inside each other. -/
def nesting : LogicalType → Nat
  | .struct fields => eachNesting fields + 1
  | .list _ _ element => nesting element + 1
  | .map _ key _ _ value => max (nesting key) (nesting value) + 1
  | _ => 0

def fieldNesting : LogicalField → Nat
  | ⟨_, _, _, fieldType, _⟩ => nesting fieldType

def eachNesting : List LogicalField → Nat
  | [] => 0
  | field :: rest => max (fieldNesting field) (eachNesting rest)

end

section

variable {A B : String → Prop} {capped : Prop}

mutual

/-- A second rule for names is one about all names. -/
theorem local_and (t : LogicalType) (depth : Nat) :
    t.Local (fun name => A name ∧ B name) capped depth ↔ t.Local A capped depth ∧ ∀ name ∈ names t, B name := by
  cases t with
  | struct fields => simp only [LogicalType.Local, names, eachLocal_and fields (depth + 1) [], and_assoc]
  | list elementId elementRequired element =>
    simp only [LogicalType.Local, names, local_and element (depth + 1), and_assoc]
  | map keyId key valueId valueRequired value =>
    simp only [LogicalType.Local, names, local_and key (depth + 1), local_and value (depth + 1), List.mem_append, or_imp,
      forall_and]
    tauto
  | _ => simp [LogicalType.Local, names]

theorem fieldLocal_and (field : LogicalField) (depth : Nat) (seen : List String) :
    field.Local (fun name => A name ∧ B name) capped depth seen ↔
      field.Local A capped depth seen ∧ ∀ name ∈ fieldNames field, B name := by
  cases field with
  | mk id name required fieldType doc =>
    simp only [LogicalField.Local, fieldNames, local_and fieldType depth, List.mem_cons, forall_eq_or_imp]
    tauto

theorem eachLocal_and (fields : List LogicalField) (depth : Nat) (seen : List String) :
    EachLocal (fun name => A name ∧ B name) capped fields depth seen ↔
      EachLocal A capped fields depth seen ∧ ∀ name ∈ eachNames fields, B name := by
  cases fields with
  | nil => simp [EachLocal, eachNames]
  | cons field rest =>
    simp only [EachLocal, eachNames, fieldLocal_and field depth seen, eachLocal_and rest depth (field.name :: seen),
      List.mem_append, or_imp, forall_and]
    tauto

end

mutual

/-- Counting lists and maps against the depth bounds the nesting. -/
theorem local_capped (t : LogicalType) (depth : Nat) (hdepth : depth ≤ maxLogicalSchemaDepth) :
    t.Local A True depth ↔ t.Local A False depth ∧ depth + nesting t ≤ maxLogicalSchemaDepth := by
  cases t with
  | struct fields =>
    simp only [LogicalType.Local, nesting]
    constructor
    · rintro ⟨hnext, h⟩
      obtain ⟨h, hrest⟩ := (eachLocal_capped fields (depth + 1) [] hnext).1 h
      exact ⟨⟨hnext, h⟩, by omega⟩
    · rintro ⟨⟨hnext, h⟩, hnesting⟩
      exact ⟨hnext, (eachLocal_capped fields (depth + 1) [] hnext).2 ⟨h, by omega⟩⟩
  | list elementId elementRequired element =>
    simp only [LogicalType.Local, nesting, true_imp_iff, false_imp_iff, true_and]
    constructor
    · rintro ⟨hnext, h⟩
      obtain ⟨h, hrest⟩ := (local_capped element (depth + 1) hnext).1 h
      exact ⟨h, by omega⟩
    · rintro ⟨h, hnesting⟩
      exact ⟨by omega, (local_capped element (depth + 1) (by omega)).2 ⟨h, by omega⟩⟩
  | map keyId key valueId valueRequired value =>
    simp only [LogicalType.Local, nesting, true_imp_iff, false_imp_iff, true_and]
    constructor
    · rintro ⟨haccepts, hnext, hkey, hvalue⟩
      obtain ⟨hkey, _⟩ := (local_capped key (depth + 1) hnext).1 hkey
      obtain ⟨hvalue, _⟩ := (local_capped value (depth + 1) hnext).1 hvalue
      exact ⟨⟨haccepts, hkey, hvalue⟩, by omega⟩
    · rintro ⟨⟨haccepts, hkey, hvalue⟩, hnesting⟩
      exact ⟨haccepts, by omega, (local_capped key (depth + 1) (by omega)).2 ⟨hkey, by omega⟩,
        (local_capped value (depth + 1) (by omega)).2 ⟨hvalue, by omega⟩⟩
  | _ => simp [LogicalType.Local, nesting, hdepth]

theorem fieldLocal_capped (field : LogicalField) (depth : Nat) (seen : List String) (hdepth : depth ≤ maxLogicalSchemaDepth) :
    field.Local A True depth seen ↔
      field.Local A False depth seen ∧ depth + fieldNesting field ≤ maxLogicalSchemaDepth := by
  cases field with
  | mk id name required fieldType doc =>
    simp only [LogicalField.Local, fieldNesting, local_capped fieldType depth hdepth, and_assoc]

theorem eachLocal_capped (fields : List LogicalField) (depth : Nat) (seen : List String) (hdepth : depth ≤ maxLogicalSchemaDepth) :
    EachLocal A True fields depth seen ↔
      EachLocal A False fields depth seen ∧ depth + eachNesting fields ≤ maxLogicalSchemaDepth := by
  cases fields with
  | nil => simp [EachLocal, eachNesting, hdepth]
  | cons field rest =>
    simp only [EachLocal, eachNesting, fieldLocal_capped field depth seen hdepth,
      eachLocal_capped rest depth (field.name :: seen) hdepth]
    constructor
    · rintro ⟨⟨hfield, _⟩, hrest, _⟩
      exact ⟨⟨hfield, hrest⟩, by omega⟩
    · rintro ⟨⟨hfield, hrest⟩, hnesting⟩
      exact ⟨⟨hfield, by omega⟩, hrest, by omega⟩

end

theorem eachLocal_congr (h : ∀ name, A name ↔ B name) {fields : List LogicalField} {depth : Nat} {seen : List String} :
    EachLocal A capped fields depth seen ↔ EachLocal B capped fields depth seen := by
  rw [show A = B from funext fun name => propext (h name)]

end

/-! ## Names -/

/-- Neither end of the text is such a character. -/
def EndsWithout (blank : Char → Bool) (text : String) : Prop :=
  (∀ c ∈ text.toList.head?, blank c = false) ∧ ∀ c ∈ text.toList.getLast?, blank c = false

theorem trim_eq_self {blank : Char → Bool} {text : String} : trim blank text = text ↔ EndsWithout blank text := by
  rw [← String.toList_inj]
  simp only [trim, String.toList_ofList, EndsWithout]
  generalize text.toList = l
  constructor
  · intro h
    have hfirst : l.dropWhile blank = l := by
      refine (List.dropWhile_suffix _).eq_of_length_le ?_
      calc l.length = ((l.dropWhile blank).rdropWhile blank).length := by rw [h]
        _ ≤ (l.dropWhile blank).length := (List.rdropWhile_prefix _ _).length_le
    rw [hfirst] at h
    refine ⟨fun c hc => ?_, fun c hc => ?_⟩
    · cases l with
      | nil => cases hc
      | cons x xs =>
        obtain rfl : x = c := Option.some.inj hc
        have hx := (List.dropWhile_eq_self_iff.1 hfirst) (by simp)
        simpa using hx
    · obtain ⟨hne, rfl⟩ := List.mem_getLast?_eq_getLast hc
      simpa using (List.rdropWhile_eq_self_iff.1 h) hne
  · rintro ⟨hhead, hlast⟩
    have hfirst : l.dropWhile blank = l := by
      cases l with
      | nil => rfl
      | cons x xs => exact List.dropWhile_cons_of_neg (by simpa using hhead x rfl)
    rw [hfirst, List.rdropWhile_eq_self_iff]
    intro hne
    simpa using hlast _ (List.getLast?_eq_some_getLast hne)

/-- The characters both clients trim. -/
def isSharedBlank (c : Char) : Bool := (whitespace.erase 0x85).contains c.toNat

theorem contains_of_perm {l l' : List Nat} {extra : Nat} (h : l.Perm (extra :: l')) (n : Nat) :
    l.contains n = (l'.contains n || n == extra) := by
  rw [Bool.eq_iff_iff]
  simp only [List.contains_iff_mem, h.mem_iff, List.mem_cons, Bool.or_eq_true, beq_iff_eq]
  exact Or.comm

theorem isWhitespace_eq (c : Char) : isWhitespace c = (isSharedBlank c || c.toNat == 0x85) := by
  have hperm : whitespace.Perm (0x85 :: whitespace.erase 0x85) := by decide
  exact contains_of_perm hperm c.toNat

theorem isBlank_eq (c : Char) : isBlank c = (isSharedBlank c || c.toNat == 0xFEFF) := by
  have hperm : blanks.Perm (0xFEFF :: whitespace.erase 0x85) := by decide
  exact contains_of_perm hperm c.toNat

/-- The rules for names both clients have. -/
def SharedName (name : String) : Prop :=
  name ≠ "" ∧ name.utf8ByteSize ≤ maxFieldNameBytes ∧ EndsWithout isSharedBlank name ∧ hasControlCharacter name = false

/-- No control character past ASCII, U+0080 to U+009F. -/
def NoC1 (name : String) : Prop := ∀ c ∈ name.toList, ¬(0x80 ≤ c.toNat ∧ c.toNat ≤ 0x9F)

/-- No zero width no-break space U+FEFF at either end. -/
def NoBomEnds (name : String) : Prop := EndsWithout (·.toNat == 0xFEFF) name

theorem endsWithout_or {a b : Char → Bool} {text : String} :
    EndsWithout (fun c => a c || b c) text ↔ EndsWithout a text ∧ EndsWithout b text := by
  simp only [EndsWithout, Bool.or_eq_false_iff]
  constructor
  · rintro ⟨hhead, hlast⟩
    exact ⟨⟨fun c hc => (hhead c hc).1, fun c hc => (hlast c hc).1⟩, fun c hc => (hhead c hc).2, fun c hc => (hlast c hc).2⟩
  · rintro ⟨⟨hhead, hlast⟩, hhead', hlast'⟩
    exact ⟨fun c hc => ⟨hhead c hc, hhead' c hc⟩, fun c hc => ⟨hlast c hc, hlast' c hc⟩⟩

theorem control_iff {name : String} :
    name.toList.any isControl = false ↔ hasControlCharacter name = false ∧ NoC1 name := by
  simp only [hasControlCharacter, NoC1, List.any_eq_false, ← forall_and, isControl, Bool.or_eq_true, decide_eq_true_eq]
  refine forall_congr' fun c => imp_congr_right fun _ => ?_
  omega

theorem fieldName_iff (name : String) : FieldName name ↔ SharedName name ∧ NoC1 name := by
  have hends : EndsWithout isWhitespace name ↔
      EndsWithout isSharedBlank name ∧ EndsWithout (fun c => c.toNat == 0x85) name := by
    rw [← endsWithout_or, funext isWhitespace_eq]
  -- U+0085 is such a control character, so the rest of the rule covers it.
  have hnext : NoC1 name → EndsWithout (fun c => c.toNat == 0x85) name := by
    refine fun h => ⟨fun c hc => ?_, fun c hc => ?_⟩
    · have := h c (List.mem_of_mem_head? hc)
      simp only [beq_eq_false_iff_ne]
      omega
    · have := h c (List.mem_of_getLast? hc)
      simp only [beq_eq_false_iff_ne]
      omega
  simp only [FieldName, SharedName, trim_eq_self, hends, control_iff]
  tauto

theorem itemName_iff (name : String) : ItemName name ↔ SharedName name ∧ NoBomEnds name := by
  have hends : EndsWithout isBlank name ↔ EndsWithout isSharedBlank name ∧ NoBomEnds name := by
    rw [NoBomEnds, ← endsWithout_or, funext isBlank_eq]
  simp only [ItemName, SharedName, trim_eq_self, hends]
  tauto

/-! ## Main theorem -/

/-- What both clients ask of a schema: the rules of the two walks, with names
and depth as far as they agree, and the fingerprint of the canonical bytes. -/
structure SharedRules (sha256 : List UInt8 → List UInt8) (schema : LogicalSchema) : Prop where
  nonzero : schema.schema.id.value ≠ 0 ∧ schema.schema.version ≠ 0 ∧ schema.fields ≠ []
  tree : EachLocal SharedName False schema.fields 1 []
  room : Walk.new.Room (eachIds schema.fields) (eachSize schema.fields)
  fingerprint : schema.schema.fingerprint = sha256 (canonicalBytes schema)

/-- Rust's own rules: lists and maps count against the depth, and no name has
a control character past ASCII. -/
def RustRules (schema : LogicalSchema) : Prop :=
  1 + eachNesting schema.fields ≤ maxLogicalSchemaDepth ∧ ∀ name ∈ eachNames schema.fields, NoC1 name

/-- TypeScript's own rules: the canonical bytes are capped, and U+FEFF counts
as a blank. -/
def TypescriptRules (schema : LogicalSchema) : Prop :=
  (canonicalBytes schema).length ≤ maxLogicalSchemaBytes ∧ ∀ name ∈ eachNames schema.fields, NoBomEnds name

theorem rustShape_iff {schema : LogicalSchema} {u : Unit} : schema.validateShape = .ok u ↔
    ((schema.schema.id.value ≠ 0 ∧ schema.schema.version ≠ 0 ∧ schema.fields ≠ []) ∧
      EachLocal SharedName False schema.fields 1 [] ∧ Walk.new.Room (eachIds schema.fields) (eachSize schema.fields)) ∧
      RustRules schema := by
  have hdepth : 1 ≤ maxLogicalSchemaDepth := by decide
  rw [LogicalSchema.validateShape_ok, eachLocal_congr fieldName_iff, eachLocal_and, eachLocal_capped _ _ _ hdepth, RustRules]
  tauto

theorem typescriptShape_iff {schema : LogicalSchema} {u : Unit} : validateSchemaShape schema = .ok u ↔
    ((schema.schema.id.value ≠ 0 ∧ schema.schema.version ≠ 0 ∧ schema.fields ≠ []) ∧
      EachLocal SharedName False schema.fields 1 [] ∧ Walk.new.Room (eachIds schema.fields) (eachSize schema.fields)) ∧
      ∀ name ∈ eachNames schema.fields, NoBomEnds name := by
  rw [validateSchemaShape_ok, eachLocal_congr itemName_iff, eachLocal_and]
  tauto

theorem rust_canonical {sha256 : List UInt8 → List UInt8} {schema : LogicalSchema} (h : SharedRules sha256 schema)
    (hown : RustRules schema) : schema.validateShape = .ok () ∧
      schema.canonicalFingerprintBytes = .ok (canonicalBytes schema) := by
  have hshape : schema.validateShape = .ok () := rustShape_iff.2 ⟨⟨h.nonzero, h.tree, h.room⟩, hown⟩
  obtain ⟨bytes, hbytes⟩ := LogicalSchema.canonicalFingerprintBytes_total hshape
  exact ⟨hshape, canonical_eq hbytes ▸ hbytes⟩

theorem typescript_canonical {sha256 : List UInt8 → List UInt8} {schema : LogicalSchema} (h : SharedRules sha256 schema)
    (hown : TypescriptRules schema) : validateSchemaShape schema = .ok () ∧
      logicalSchemaCanonicalFingerprintBytes schema = .ok (canonicalBytes schema) := by
  have hshape : validateSchemaShape schema = .ok () := typescriptShape_iff.2 ⟨⟨h.nonzero, h.tree, h.room⟩, hown.2⟩
  refine ⟨hshape, ?_⟩
  simp only [logicalSchemaCanonicalFingerprintBytes, bind_ok, refuseIf_ok, pure_ok, exists_const, and_true, Nat.not_lt]
  exact ⟨(), hshape, hown.1⟩

theorem rust_accepts_iff {sha256 : List UInt8 → List UInt8} {schema : LogicalSchema} {u : Unit} :
    schema.validate sha256 = .ok u ↔ SharedRules sha256 schema ∧ RustRules schema := by
  simp only [LogicalSchema.validate, LogicalSchema.computeFingerprint, bind_ok, refuseIf_ok, pure_ok, Decidable.not_not]
  constructor
  · rintro ⟨_, hshape, _, ⟨bytes, hbytes, rfl⟩, hprint⟩
    obtain ⟨⟨hnonzero, htree, hroom⟩, hown⟩ := rustShape_iff.1 hshape
    exact ⟨⟨hnonzero, htree, hroom, by rw [hprint, canonical_eq hbytes]⟩, hown⟩
  · rintro ⟨hshared, hown⟩
    obtain ⟨hshape, hbytes⟩ := rust_canonical hshared hown
    exact ⟨(), hshape, _, ⟨_, hbytes, rfl⟩, hshared.fingerprint⟩

theorem typescript_accepts_iff {sha256 : List UInt8 → List UInt8} {schema : LogicalSchema} {u : Unit} :
    validateLogicalSchema sha256 schema = .ok u ↔ SharedRules sha256 schema ∧ TypescriptRules schema := by
  simp only [validateLogicalSchema, logicalSchemaComputeFingerprint, bind_ok, refuseIf_ok, pure_ok, Decidable.not_not]
  constructor
  · rintro ⟨_, hshape, _, ⟨bytes, hbytes, rfl⟩, hprint⟩
    obtain ⟨⟨hnonzero, htree, hroom⟩, hown⟩ := typescriptShape_iff.1 hshape
    simp only [logicalSchemaCanonicalFingerprintBytes, bind_ok, refuseIf_ok, pure_ok, exists_const, Nat.not_lt] at hbytes
    obtain ⟨-, -, hcap, rfl⟩ := hbytes
    exact ⟨⟨hnonzero, htree, hroom, hprint.symm⟩, hcap, hown⟩
  · rintro ⟨hshared, hown⟩
    obtain ⟨hshape, hbytes⟩ := typescript_canonical hshared hown
    exact ⟨(), hshape, _, ⟨_, hbytes, rfl⟩, hshared.fingerprint.symm⟩

/-- Both clients accept or both refuse, and an accepted schema has one string
of canonical bytes. -/
def Agree (sha256 : List UInt8 → List UInt8) (schema : LogicalSchema) : Prop :=
  (schema.validate sha256 = .ok () ↔ validateLogicalSchema sha256 schema = .ok ()) ∧
    (schema.validate sha256 = .ok () → ∃ bytes, schema.canonicalFingerprintBytes = .ok bytes ∧
      logicalSchemaCanonicalFingerprintBytes schema = .ok bytes)

/-- The clients agree on a schema exactly when it breaks a rule both have, or
each client's own rules hold of it together. -/
theorem clients_agree_iff (sha256 : List UInt8 → List UInt8) (schema : LogicalSchema) :
    Agree sha256 schema ↔ (SharedRules sha256 schema → (RustRules schema ↔ TypescriptRules schema)) := by
  rw [Agree, rust_accepts_iff, typescript_accepts_iff]
  constructor
  · rintro ⟨hagree, -⟩ hshared
    simpa only [hshared, true_and] using hagree
  · intro hown
    have hagree : SharedRules sha256 schema ∧ RustRules schema ↔ SharedRules sha256 schema ∧ TypescriptRules schema :=
      and_congr_right hown
    refine ⟨hagree, fun h => ⟨canonicalBytes schema, (rust_canonical h.1 h.2).2, ?_⟩⟩
    exact (typescript_canonical h.1 (hagree.1 h).2).2

/-- A text inside lists that are `levels` deep. -/
def nestedLists : Nat → UInt32 → LogicalType
  | 0, _ => .string
  | levels + 1, id => .list id true (nestedLists levels (id + 1))

/-- SHA-256 of the canonical bytes of `deepSchema`. -/
def deepSha256 : List UInt8 :=
  [137, 104, 52, 78, 124, 33, 152, 192, 6, 248, 66, 252, 7, 87, 166, 225, 129, 223, 163, 132, 136, 155, 231, 127, 137, 136,
    150, 42, 74, 76, 221, 150]

/-- One field, sixteen lists deep. -/
def deepSchema : LogicalSchema := ⟨⟨⟨1, LogicalSchemaId.one_fits⟩, 1, deepSha256⟩, [⟨1, "a", true, nestedLists 16 2, none⟩]⟩

/-- Rust refuses the lists at the depth cap that TypeScript accepts. -/
theorem deep_lists_disagree :
    deepSchema.validate (fun _ => deepSha256) = .error ⟨"logical schema depth 17 exceeds cap 16"⟩ ∧
      validateLogicalSchema (fun _ => deepSha256) deepSchema = .ok () ∧ ¬Agree (fun _ => deepSha256) deepSchema := by
  have hrust : deepSchema.validate (fun _ => deepSha256) = .error ⟨"logical schema depth 17 exceeds cap 16"⟩ := by
    decide +kernel
  have hts : validateLogicalSchema (fun _ => deepSha256) deepSchema = .ok () := by decide +kernel
  refine ⟨hrust, hts, fun h => ?_⟩
  rw [Agree, hrust] at h
  exact absurd (h.1.2 hts) (by simp)

end LaserSdk.Schema.Typescript

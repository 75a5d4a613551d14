import Mathlib.Data.List.DropRight
import LaserSdk.Lib.Text
import LaserSdk.Schema.Types
/-!
# Validation and the fingerprint

`validateShape` walks the field tree once. It threads the ids seen so far,
their count and an estimate of the encoded size through nested structs, lists
and maps. The canonical bytes and the fingerprint exist for an accepted shape
only. SHA-256 is a parameter.
-/

namespace LaserSdk.Schema

open LaserSdk.Lib

/-! ## Names -/

/-- `str::trim` for a set of blanks. -/
def trim (blank : Char → Bool) (text : String) : String :=
  String.ofList ((text.toList.dropWhile blank).rdropWhile blank)

/-- The Unicode property White_Space. -/
def whitespace : List Nat :=
  [0x09, 0x0A, 0x0B, 0x0C, 0x0D, 0x20, 0x85, 0xA0, 0x1680, 0x2000, 0x2001, 0x2002, 0x2003, 0x2004, 0x2005, 0x2006,
    0x2007, 0x2008, 0x2009, 0x200A, 0x2028, 0x2029, 0x202F, 0x205F, 0x3000]

/-- `char::is_whitespace`. -/
def isWhitespace (c : Char) : Bool := whitespace.contains c.toNat

def validateFieldName (name : String) : Except InvalidError Unit := do
  refuseIf (name = "") ⟨"field name must not be empty"⟩
  refuseIf (name.utf8ByteSize > maxFieldNameBytes)
    ⟨s!"field name is {name.utf8ByteSize} bytes, exceeds cap {maxFieldNameBytes}"⟩
  refuseIf (trim isWhitespace name ≠ name ∨ name.toList.any isControl)
    ⟨s!"field name `{name}` contains surrounding whitespace or control characters"⟩

/-! ## The walk -/

/-- What the walk has seen: the ids, how many fields and nested ids it
counted, and the estimated size. -/
structure Walk where
  ids : List UInt32
  fieldCount : Nat
  encodedSize : Nat

def Walk.new : Walk := ⟨[], 0, 0⟩

def provenancePair (id : UInt32) (name : String) : Bool :=
  provenanceFields.any fun reserved => reserved.1 == id && reserved.2 == name

def validateFieldIdentity (id : UInt32) (name : String) (w : Walk) (names : List String) (allowProvenance : Bool) :
    Except InvalidError (Walk × List String) := do
  let allowed := allowProvenance && provenancePair id name
  refuseIf (id = 0 ∨ (provenanceFieldIdStart ≤ id ∧ allowed = false)) ⟨s!"field id {id} is not in the user field range"⟩
  refuseIf (id ∈ w.ids) ⟨s!"duplicate field id {id}"⟩
  validateFieldName name
  refuseIf (provenanceFields.any (·.2 == name) ∧ allowed = false) ⟨s!"field name `{name}` is reserved for provenance"⟩
  refuseIf (name ∈ names) ⟨s!"duplicate field name `{name}` in one struct"⟩
  return ({ w with ids := id :: w.ids }, name :: names)

def countField (w : Walk) : Except InvalidError Walk := do
  refuseIf (w.fieldCount + 1 > maxLogicalSchemaFields)
    ⟨s!"logical schema field count exceeds cap {maxLogicalSchemaFields}"⟩
  return { w with fieldCount := w.fieldCount + 1 }

def validateNestedId (id : UInt32) (label : String) (w : Walk) : Except InvalidError Walk := do
  refuseIf (id = 0 ∨ provenanceFieldIdStart ≤ id) ⟨s!"{label} id {id} is not in the user field range"⟩
  refuseIf (id ∈ w.ids) ⟨s!"duplicate {label} id {id}"⟩
  countField { w with ids := id :: w.ids }

def validateDepth (depth : Nat) : Except InvalidError Unit :=
  refuseIf (depth > maxLogicalSchemaDepth) ⟨s!"logical schema depth {depth} exceeds cap {maxLogicalSchemaDepth}"⟩

def validatePrecisionScale (precision scale : UInt8) : Except InvalidError Unit :=
  refuseIf (precision = 0 ∨ maxDecimalPrecision < precision ∨ precision < scale)
    ⟨s!"decimal precision and scale ({precision}, {scale}) are invalid"⟩

def docBytes (doc : Option String) : Nat := doc.elim 0 (·.utf8ByteSize)

/-- The size estimate of a field, added with a checked `usize` addition. -/
def addSize (name : String) (doc : Option String) (w : Walk) : Except InvalidError Walk := do
  refuseIf (docBytes doc > maxFieldDocBytes)
    ⟨s!"field `{name}` documentation is {docBytes doc} bytes, exceeds cap {maxFieldDocBytes}"⟩
  let encodedSize := w.encodedSize + (name.utf8ByteSize + docBytes doc + 16)
  refuseIf (2 ^ 64 ≤ encodedSize) ⟨"logical schema size overflow"⟩
  refuseIf (encodedSize > maxLogicalSchemaBytes) ⟨s!"logical schema exceeds cap {maxLogicalSchemaBytes} bytes"⟩
  return { w with encodedSize := encodedSize }

mutual

def validateLogicalType : LogicalType → Nat → Walk → Except InvalidError Walk
  | .decimal precision scale, _, w => do
    validatePrecisionScale precision scale
    return w
  | .fixed length, _, w => do
    refuseIf (length = 0 ∨ maxFixedBytes < length) ⟨s!"fixed length {length} is outside 1..={maxFixedBytes}"⟩
    return w
  | .struct fields, depth, w => do
    validateDepth (depth + 1)
    validateEach fields (depth + 1) w [] false
  | .list elementId _ element, depth, w => do
    let w ← validateNestedId elementId "list element" w
    validateDepth (depth + 1)
    validateLogicalType element (depth + 1) w
  | .map keyId key valueId _ value, depth, w => do
    let w ← validateNestedId keyId "map key" w
    let w ← validateNestedId valueId "map value" w
    refuseIf (key.acceptsMapKey = false) ⟨"map key type must be a deterministic non-floating primitive"⟩
    validateDepth (depth + 1)
    let w ← validateLogicalType key (depth + 1) w
    validateLogicalType value (depth + 1) w
  | _, _, w => return w

def validateField : LogicalField → Nat → Walk → List String → Bool → Except InvalidError (Walk × List String)
  | ⟨id, name, _, fieldType, doc⟩, depth, w, names, allowProvenance => do
    let (w, names) ← validateFieldIdentity id name w names allowProvenance
    let w ← countField w
    let w ← addSize name doc w
    let w ← validateLogicalType fieldType depth w
    return (w, names)

/-- The loop over the fields of one struct, with the names inserted so far. -/
def validateEach : List LogicalField → Nat → Walk → List String → Bool → Except InvalidError Walk
  | [], _, w, _, _ => return w
  | field :: rest, depth, w, names, allowProvenance => do
    let (w, names) ← validateField field depth w names allowProvenance
    validateEach rest depth w names allowProvenance

end

def validateStructFields (fields : List LogicalField) (depth : Nat) (w : Walk) (allowProvenance : Bool) :
    Except InvalidError Walk := do
  validateDepth depth
  validateEach fields depth w [] allowProvenance

namespace LogicalSchema

def validateShape (schema : LogicalSchema) : Except InvalidError Unit := do
  refuseIf (schema.schema.id.value = 0) ⟨"logical schema id must be nonzero"⟩
  refuseIf (schema.schema.version = 0) ⟨"logical schema version must be nonzero"⟩
  refuseIf (schema.fields.isEmpty) ⟨"logical schema must contain a field"⟩
  let _ ← validateStructFields schema.fields 1 .new false

/-- `AGDX-SCHEMA-V1` and a zero byte. -/
def fingerprintDomain : List UInt8 := [65, 71, 68, 88, 45, 83, 67, 72, 69, 77, 65, 45, 86, 49, 0]

def canonicalFingerprintBytes (schema : LogicalSchema) : Except InvalidError (List UInt8) := do
  schema.validateShape
  let fields ← encodeFields schema.fields
  return fingerprintDomain ++ (beBytes 16 schema.schema.id.value ++ (beBytes 4 schema.schema.version.toNat ++ fields))

section

variable (sha256 : List UInt8 → List UInt8)

def computeFingerprint (schema : LogicalSchema) : Except InvalidError (List UInt8) := do
  let bytes ← schema.canonicalFingerprintBytes
  return sha256 bytes

def validate (schema : LogicalSchema) : Except InvalidError Unit := do
  schema.validateShape
  let computed ← schema.computeFingerprint sha256
  refuseIf (schema.schema.fingerprint ≠ computed) ⟨"logical schema fingerprint does not match its canonical bytes"⟩

end

end LogicalSchema

/-! ## What the walk checks

The walk accepts a tree when its ids fit beside those seen before (`Room`) and
every part of it follows the rules of its place (`Local`). The rule for names
and whether lists and maps count against the depth are left open. -/

mutual

/-- The ids of a type in the order of the walk. -/
def LogicalType.ids : LogicalType → List UInt32
  | .struct fields => eachIds fields
  | .list elementId _ element => elementId :: element.ids
  | .map keyId key valueId _ value => keyId :: valueId :: (key.ids ++ value.ids)
  | _ => []

def LogicalField.ids : LogicalField → List UInt32
  | ⟨id, _, _, fieldType, _⟩ => id :: fieldType.ids

def eachIds : List LogicalField → List UInt32
  | [] => []
  | field :: rest => field.ids ++ eachIds rest

end

mutual

/-- The estimated size of a type: names, docs and 16 bytes for each field. -/
def LogicalType.size : LogicalType → Nat
  | .struct fields => eachSize fields
  | .list _ _ element => element.size
  | .map _ key _ _ value => key.size + value.size
  | _ => 0

def LogicalField.size : LogicalField → Nat
  | ⟨_, name, _, fieldType, doc⟩ => name.utf8ByteSize + docBytes doc + 16 + fieldType.size

def eachSize : List LogicalField → Nat
  | [] => 0
  | field :: rest => field.size + eachSize rest

end

section

variable (nameOk : String → Prop) (capped : Prop)

/-- A name that no field of a user schema may have. -/
def Reserved (name : String) : Prop := provenanceFields.any (·.2 == name) = true

mutual

def LogicalType.Local : LogicalType → Nat → Prop
  | .decimal precision scale, _ => ¬(precision = 0 ∨ maxDecimalPrecision < precision ∨ precision < scale)
  | .fixed length, _ => ¬(length = 0 ∨ maxFixedBytes < length)
  | .struct fields, depth => depth + 1 ≤ maxLogicalSchemaDepth ∧ EachLocal fields (depth + 1) []
  | .list _ _ element, depth => (capped → depth + 1 ≤ maxLogicalSchemaDepth) ∧ element.Local (depth + 1)
  | .map _ key _ _ value, depth => key.acceptsMapKey = true ∧ (capped → depth + 1 ≤ maxLogicalSchemaDepth) ∧
    key.Local (depth + 1) ∧ value.Local (depth + 1)
  | _, _ => True

def LogicalField.Local : LogicalField → Nat → List String → Prop
  | ⟨_, name, _, fieldType, doc⟩, depth, names => nameOk name ∧ ¬Reserved name ∧ name ∉ names ∧
    docBytes doc ≤ maxFieldDocBytes ∧ fieldType.Local depth

def EachLocal : List LogicalField → Nat → List String → Prop
  | [], _, _ => True
  | field :: rest, depth, names => field.Local depth names ∧ EachLocal rest depth (field.name :: names)

end

end

def UserId (id : UInt32) : Prop := ¬(id = 0 ∨ provenanceFieldIdStart ≤ id)

namespace Walk

/-- The walk after a part with these ids and this size. -/
def after (w : Walk) (ids : List UInt32) (size : Nat) : Walk :=
  ⟨ids.reverse ++ w.ids, w.fieldCount + ids.length, w.encodedSize + size⟩

def Within (w : Walk) : Prop := w.fieldCount ≤ maxLogicalSchemaFields ∧ w.encodedSize ≤ maxLogicalSchemaBytes

/-- There is room for a part with these ids and this size. -/
structure Room (w : Walk) (ids : List UInt32) (size : Nat) : Prop where
  user : ∀ id ∈ ids, UserId id
  fresh : ∀ id ∈ ids, id ∉ w.ids
  distinct : ids.Nodup
  within : (w.after ids size).Within

@[simp] theorem after_nil (w : Walk) : w.after [] 0 = w := by simp [after]

theorem after_append (w : Walk) (ids ids' : List UInt32) (size size' : Nat) :
    w.after (ids ++ ids') (size + size') = (w.after ids size).after ids' size' := by
  simp [after, Nat.add_assoc]

theorem room_nil {w : Walk} (hw : w.Within) : w.Room [] 0 :=
  ⟨by simp, by simp, List.nodup_nil, by simpa using hw⟩

/-- Two parts after each other fit when the second fits after the first. -/
theorem room_append {w : Walk} {ids ids' : List UInt32} {size size' : Nat} :
    w.Room (ids ++ ids') (size + size') ↔ w.Room ids size ∧ (w.after ids size).Room ids' size' := by
  constructor
  · rintro ⟨huser, hfresh, hdistinct, hwithin⟩
    obtain ⟨hnodup, hnodup', hcross⟩ := List.nodup_append.1 hdistinct
    rw [after_append] at hwithin
    refine ⟨⟨fun id h => huser id (List.mem_append_left _ h), fun id h => hfresh id (List.mem_append_left _ h), hnodup, ?_⟩,
      ⟨fun id h => huser id (List.mem_append_right _ h), fun id h hseen => ?_, hnodup', hwithin⟩⟩
    · simp only [Within, after] at hwithin ⊢
      omega
    · rcases List.mem_append.1 hseen with hseen | hseen
      · exact hcross id (List.mem_reverse.1 hseen) id h rfl
      · exact hfresh id (List.mem_append_right _ h) hseen
  · rintro ⟨hfirst, hsecond⟩
    refine ⟨fun id h => ?_, fun id h => ?_, ?_, by rw [after_append]; exact hsecond.within⟩
    · rcases List.mem_append.1 h with h | h
      · exact hfirst.user id h
      · exact hsecond.user id h
    · rcases List.mem_append.1 h with h | h
      · exact hfirst.fresh id h
      · exact fun hseen => hsecond.fresh id h (List.mem_append_right _ hseen)
    · refine List.nodup_append.2 ⟨hfirst.distinct, hsecond.distinct, fun a ha b hb hab => ?_⟩
      exact hsecond.fresh b hb (List.mem_append_left _ (List.mem_reverse.2 (hab ▸ ha)))

theorem room_cons {w : Walk} {id : UInt32} {ids : List UInt32} {size size' : Nat} :
    w.Room (id :: ids) (size + size') ↔ w.Room [id] size ∧ (w.after [id] size).Room ids size' :=
  @room_append w [id] ids size size'

theorem after_cons (w : Walk) (id : UInt32) (ids : List UInt32) (size size' : Nat) :
    w.after (id :: ids) (size + size') = (w.after [id] size).after ids size' :=
  after_append w [id] ids size size'

/-- A part of the walk that is passed if it is allowed and there is room for
its ids and its size, which it takes. -/
def Takes (part : Walk → Except InvalidError Walk) (allowed : Prop) (ids : List UInt32) (size : Nat) : Prop :=
  ∀ w w', w.Within → (part w = .ok w' ↔ allowed ∧ w.Room ids size ∧ w' = w.after ids size)

section

variable {part later : Walk → Except InvalidError Walk} {allowed allowed' : Prop} {ids ids' : List UInt32} {size size' : Nat}

theorem Takes.congr (h : Takes part allowed ids size) (hallowed : allowed ↔ allowed') (hids : ids = ids') (hsize : size = size') :
    Takes part allowed' ids' size' := by
  subst hids hsize
  intro w w' hw
  rw [h w w' hw, hallowed]

/-- A check that does not look at the walk. -/
theorem Takes.guarded (h : Takes part allowed ids size) {check : Except InvalidError Unit} {checked : Prop}
    (hcheck : ∀ u, check = .ok u ↔ checked) : Takes (fun w => check >>= fun _ => part w) (checked ∧ allowed) ids size := by
  intro w w' hw
  simp only [bind_ok, hcheck, exists_const, h w w' hw, and_assoc]

/-- Two parts after each other. -/
theorem Takes.andThen (h : Takes part allowed ids size) (hlater : Takes later allowed' ids' size') :
    Takes (fun w => part w >>= later) (allowed ∧ allowed') (ids ++ ids') (size + size') := by
  intro w w' hw
  rw [bind_ok, room_append, after_append]
  constructor
  · rintro ⟨w₁, hpart, hrest⟩
    obtain ⟨hallowed, hroom, rfl⟩ := (h w w₁ hw).1 hpart
    obtain ⟨hallowed', hroom', rfl⟩ := (hlater _ _ hroom.within).1 hrest
    exact ⟨⟨hallowed, hallowed'⟩, ⟨hroom, hroom'⟩, rfl⟩
  · rintro ⟨⟨hallowed, hallowed'⟩, ⟨hroom, hroom'⟩, rfl⟩
    exact ⟨_, (h w _ hw).2 ⟨hallowed, hroom, rfl⟩, (hlater _ _ hroom.within).2 ⟨hallowed', hroom', rfl⟩⟩

end

end Walk

/-! ## What each step of the walk does -/

/-- The rule for names. -/
def FieldName (name : String) : Prop :=
  name ≠ "" ∧ name.utf8ByteSize ≤ maxFieldNameBytes ∧ trim isWhitespace name = name ∧ name.toList.any isControl = false

theorem validateFieldName_ok {name : String} {u : Unit} : validateFieldName name = .ok u ↔ FieldName name := by
  simp [validateFieldName, FieldName]

theorem validateDepth_ok {depth : Nat} {u : Unit} : validateDepth depth = .ok u ↔ depth ≤ maxLogicalSchemaDepth := by
  simp [validateDepth]

theorem room_singleton {w : Walk} {id : UInt32} {size : Nat} : w.Room [id] size ↔
    UserId id ∧ id ∉ w.ids ∧ w.fieldCount + 1 ≤ maxLogicalSchemaFields ∧ w.encodedSize + size ≤ maxLogicalSchemaBytes := by
  constructor
  · rintro ⟨huser, hfresh, -, hcount, hsize⟩
    exact ⟨huser id (by simp), hfresh id (by simp), hcount, hsize⟩
  · rintro ⟨huser, hfresh, hcount, hsize⟩
    exact ⟨by simpa using huser, by simpa using hfresh, by simp, hcount, hsize⟩

theorem validateNestedId_ok (id : UInt32) (label : String) : Walk.Takes (validateNestedId id label) True [id] 0 := by
  intro w w' hw
  simp only [validateNestedId, true_and, countField, bind_ok, refuseIf_ok, pure_ok, exists_const, room_singleton, Nat.add_zero, hw.2,
    and_true, UserId, Nat.not_lt, and_assoc, Walk.after, List.reverse_singleton, List.singleton_append, List.length_singleton,
    eq_comm (a := w')]

/-- A field up to its type: its name, id, docs and size. -/
theorem fieldHead_ok {id : UInt32} {name : String} {doc : Option String} {w w' : Walk} {names names' : List String}  :
    (∃ w₁, validateFieldIdentity id name w names false = .ok (w₁, names') ∧
        ∃ w₂, countField w₁ = .ok w₂ ∧ addSize name doc w₂ = .ok w') ↔
      (FieldName name ∧ ¬Reserved name ∧ name ∉ names ∧ docBytes doc ≤ maxFieldDocBytes) ∧ names' = name :: names ∧
        w.Room [id] (name.utf8ByteSize + docBytes doc + 16) ∧ w' = w.after [id] (name.utf8ByteSize + docBytes doc + 16) := by
  simp only [validateFieldIdentity, countField, addSize, bind_ok, refuseIf_ok, pure_ok, exists_const, room_singleton,
    validateFieldName_ok, Bool.false_and, and_true, Prod.mk.injEq, Nat.not_lt, Nat.not_le, Reserved, UserId]
  constructor
  · rintro ⟨_, ⟨hid, hfresh, hname, hreserved, hnames, rfl, rfl⟩, _, ⟨hcount, rfl⟩, hdoc, -, hsize, rfl⟩
    exact ⟨⟨hname, hreserved, hnames, hdoc⟩, rfl, ⟨hid, hfresh, hcount, hsize⟩, rfl⟩
  · rintro ⟨⟨hname, hreserved, hnames, hdoc⟩, rfl, ⟨hid, hfresh, hcount, hsize⟩, rfl⟩
    refine ⟨_, ⟨hid, hfresh, hname, hreserved, hnames, rfl, rfl⟩, _, ⟨hcount, rfl⟩, hdoc, ?_, hsize, rfl⟩
    -- The sum is far below the largest `usize`.
    exact Nat.lt_of_le_of_lt hsize (by decide)

-- One case per kind of type; the walk before each part is the one `Room` is asked about.
mutual

theorem validateLogicalType_ok (t : LogicalType) (depth : Nat) :
    Walk.Takes (validateLogicalType t depth) (t.Local FieldName True depth) t.ids t.size := by
  intro w w' hw
  cases t with
  | decimal precision scale =>
    simp only [validateLogicalType, validatePrecisionScale, bind_ok, refuseIf_ok, pure_ok, exists_const, LogicalType.Local,
      LogicalType.ids, LogicalType.size, Walk.after_nil, Walk.room_nil hw, true_and, eq_comm (a := w')]
  | fixed length =>
    simp only [validateLogicalType, bind_ok, refuseIf_ok, pure_ok, exists_const, LogicalType.Local, LogicalType.ids,
      LogicalType.size, Walk.after_nil, Walk.room_nil hw, true_and, eq_comm (a := w')]
  | struct fields =>
    simp only [validateLogicalType, bind_ok, validateDepth_ok, exists_const, LogicalType.Local, LogicalType.ids,
      LogicalType.size, validateEach_ok fields (depth + 1) w w' [] hw, and_assoc]
  | list elementId elementRequired element =>
    have hparts := (validateNestedId_ok elementId "list element").andThen
      ((validateLogicalType_ok element (depth + 1)).guarded (@validateDepth_ok (depth + 1)))
    rw [validateLogicalType]
    exact hparts.congr (by simp [LogicalType.Local]) rfl (Nat.zero_add _) w w' hw
  | map keyId key valueId valueRequired value =>
    have hkey : ∀ u, refuseIf (key.acceptsMapKey = false)
        (⟨"map key type must be a deterministic non-floating primitive"⟩ : InvalidError) = .ok u ↔ key.acceptsMapKey = true := by
      simp
    have hparts := (validateNestedId_ok keyId "map key").andThen ((validateNestedId_ok valueId "map value").andThen
      ((((validateLogicalType_ok key (depth + 1)).andThen (validateLogicalType_ok value (depth + 1))).guarded
        (@validateDepth_ok (depth + 1))).guarded hkey))
    rw [validateLogicalType]
    exact hparts.congr (by simp [LogicalType.Local]) rfl (by simp [LogicalType.size]) w w' hw
  | _ =>
    simp only [validateLogicalType, pure_ok, LogicalType.Local, LogicalType.ids, LogicalType.size, Walk.after_nil,
      Walk.room_nil hw, true_and, eq_comm (a := w')]

theorem validateField_ok (field : LogicalField) (depth : Nat) (w w' : Walk) (names names' : List String) :
    validateField field depth w names false = .ok (w', names') ↔ field.Local FieldName True depth names ∧
      names' = field.name :: names ∧ w.Room field.ids field.size ∧ w' = w.after field.ids field.size := by
  cases field with
  | mk id name required fieldType doc =>
    simp only [LogicalField.Local, LogicalField.ids, LogicalField.size]
    rw [Walk.room_cons, Walk.after_cons w id fieldType.ids]
    have hhead := @fieldHead_ok id name doc w
    simp only [validateField, bind_ok, pure_ok, Prod.exists, Prod.mk.injEq]
    constructor
    · rintro ⟨w₁, names₁, hidentity, w₂, hcount, w₃, hsize, w₄, htype, rfl, rfl⟩
      obtain ⟨⟨hname, hreserved, hnames, hdoc⟩, rfl, hroom, rfl⟩ := hhead.1 ⟨w₁, hidentity, w₂, hcount, hsize⟩
      obtain ⟨hlocal, hroom', rfl⟩ := (validateLogicalType_ok fieldType _ _ _ hroom.within).1 htype
      exact ⟨⟨hname, hreserved, hnames, hdoc, hlocal⟩, rfl, ⟨hroom, hroom'⟩, rfl⟩
    · rintro ⟨⟨hname, hreserved, hnames, hdoc, hlocal⟩, rfl, ⟨hroom, hroom'⟩, rfl⟩
      obtain ⟨w₁, hidentity, w₂, hcount, hsize⟩ := hhead.2 ⟨⟨hname, hreserved, hnames, hdoc⟩, rfl, hroom, rfl⟩
      exact ⟨w₁, _, hidentity, w₂, hcount, _, hsize, _,
        (validateLogicalType_ok fieldType _ _ _ hroom.within).2 ⟨hlocal, hroom', rfl⟩, rfl, rfl⟩

theorem validateEach_ok (fields : List LogicalField) (depth : Nat) (w w' : Walk) (names : List String) (hw : w.Within) :
    validateEach fields depth w names false = .ok w' ↔ EachLocal FieldName True fields depth names ∧
      w.Room (eachIds fields) (eachSize fields) ∧ w' = w.after (eachIds fields) (eachSize fields) := by
  cases fields with
  | nil =>
    simp only [validateEach, pure_ok, EachLocal, eachIds, eachSize, Walk.after_nil, Walk.room_nil hw, true_and,
      eq_comm (a := w')]
  | cons field rest =>
    simp only [validateEach, bind_ok, EachLocal, eachIds, eachSize, Prod.exists]
    rw [Walk.room_append, Walk.after_append]
    constructor
    · rintro ⟨w₁, names₁, hfield, hrest⟩
      obtain ⟨hlocal, rfl, hroom, rfl⟩ := (validateField_ok field depth w w₁ names names₁).1 hfield
      obtain ⟨hlocals, hroom', rfl⟩ := (validateEach_ok rest depth _ _ _ hroom.within).1 hrest
      exact ⟨⟨hlocal, hlocals⟩, ⟨hroom, hroom'⟩, rfl⟩
    · rintro ⟨⟨hlocal, hlocals⟩, ⟨hroom, hroom'⟩, rfl⟩
      exact ⟨_, _, (validateField_ok field depth w _ names _).2 ⟨hlocal, rfl, hroom, rfl⟩,
        (validateEach_ok rest depth _ _ _ hroom.within).2 ⟨hlocals, hroom', rfl⟩⟩

end

/-! ## Accepted schemas have canonical bytes -/

section

variable {nameOk : String → Prop} {capped : Prop}

theorem encodeText_total {value : String} (h : value.utf8ByteSize < 256 ^ 4) : ∃ x, encodeText value = .ok x := by
  simp only [encodeText, bind_ok, pure_ok, lengthBytes_ok]
  exact ⟨_, _, ⟨h, rfl⟩, rfl⟩

theorem encodeDoc_total {doc : Option String} (h : docBytes doc ≤ maxFieldDocBytes) : ∃ x, encodeDoc doc = .ok x := by
  cases doc with
  | none => exact ⟨_, rfl⟩
  | some text =>
    obtain ⟨x, hx⟩ := encodeText_total (Nat.lt_of_le_of_lt h (by decide))
    exact ⟨_, by simp only [encodeDoc, hx]; rfl⟩

theorem length_le_eachIds (fields : List LogicalField) : fields.length ≤ (eachIds fields).length := by
  induction fields with
  | nil => simp [eachIds]
  | cons field rest ih =>
    obtain ⟨id, name, required, fieldType, doc⟩ := field
    simp only [eachIds, LogicalField.ids, List.length_cons, List.length_append, List.cons_append]
    omega

theorem lengthBytes_total {fields : List LogicalField} (h : (eachIds fields).length ≤ maxLogicalSchemaFields) (what : String) :
    lengthBytes fields.length what = .ok (beBytes 4 fields.length) := by
  have hfields := (length_le_eachIds fields).trans h
  exact lengthBytes_ok.2 ⟨Nat.lt_of_le_of_lt hfields (by decide), rfl⟩

mutual

theorem encodeLogicalType_total (hname : ∀ name, nameOk name → name.utf8ByteSize ≤ maxFieldNameBytes) (t : LogicalType)
    (depth : Nat) (h : t.Local nameOk capped depth) (hids : t.ids.length ≤ maxLogicalSchemaFields) :
    ∃ x, encodeLogicalType t = .ok x := by
  cases t with
  | struct fields =>
    simp only [LogicalType.Local, LogicalType.ids] at h hids
    obtain ⟨x, hx⟩ := encodeEach_total hname fields _ _ h.2 hids
    exact ⟨_, by simp only [encodeLogicalType, hx, lengthBytes_total hids]; rfl⟩
  | list elementId elementRequired element =>
    simp only [LogicalType.Local, LogicalType.ids, List.length_cons] at h hids
    obtain ⟨x, hx⟩ := encodeLogicalType_total hname element _ h.2 (by omega)
    exact ⟨_, by simp only [encodeLogicalType, hx]; rfl⟩
  | map keyId key valueId valueRequired value =>
    simp only [LogicalType.Local, LogicalType.ids, List.length_cons, List.length_append] at h hids
    obtain ⟨x, hx⟩ := encodeLogicalType_total hname key _ h.2.2.1 (by omega)
    obtain ⟨y, hy⟩ := encodeLogicalType_total hname value _ h.2.2.2 (by omega)
    exact ⟨_, by simp only [encodeLogicalType, hx, hy]; rfl⟩
  | _ => exact ⟨_, rfl⟩

theorem encodeField_total (hname : ∀ name, nameOk name → name.utf8ByteSize ≤ maxFieldNameBytes) (field : LogicalField)
    (depth : Nat) (names : List String) (h : field.Local nameOk capped depth names)
    (hids : field.ids.length ≤ maxLogicalSchemaFields) : ∃ x, encodeField field = .ok x := by
  cases field with
  | mk id name required fieldType doc =>
    simp only [LogicalField.Local, LogicalField.ids, List.length_cons] at h hids
    obtain ⟨hok, -, -, hdoc, hlocal⟩ := h
    obtain ⟨n, hn⟩ := encodeText_total (Nat.lt_of_le_of_lt (hname name hok) (by decide))
    obtain ⟨d, hd⟩ := encodeDoc_total hdoc
    obtain ⟨x, hx⟩ := encodeLogicalType_total hname fieldType _ hlocal (by omega)
    exact ⟨_, by simp only [encodeField, hn, hd, hx]; rfl⟩

theorem encodeEach_total (hname : ∀ name, nameOk name → name.utf8ByteSize ≤ maxFieldNameBytes) (fields : List LogicalField)
    (depth : Nat) (names : List String) (h : EachLocal nameOk capped fields depth names)
    (hids : (eachIds fields).length ≤ maxLogicalSchemaFields) : ∃ x, encodeEach fields = .ok x := by
  cases fields with
  | nil => exact ⟨_, rfl⟩
  | cons field rest =>
    simp only [EachLocal, eachIds, List.length_append] at h hids
    obtain ⟨x, hx⟩ := encodeField_total hname field _ _ h.1 (by omega)
    obtain ⟨y, hy⟩ := encodeEach_total hname rest _ _ h.2 (by omega)
    exact ⟨_, by simp only [encodeEach, hx, hy]; rfl⟩

end

theorem encodeFields_total (hname : ∀ name, nameOk name → name.utf8ByteSize ≤ maxFieldNameBytes) {fields : List LogicalField}
    {depth : Nat} {names : List String} (h : EachLocal nameOk capped fields depth names) {w : Walk} {size : Nat}
    (hroom : w.Room (eachIds fields) size) : ∃ x, encodeFields fields = .ok x := by
  have hids : (eachIds fields).length ≤ maxLogicalSchemaFields := (Nat.le_add_left _ _).trans hroom.within.1
  obtain ⟨x, hx⟩ := encodeEach_total hname fields _ _ h hids
  exact ⟨_, by simp only [encodeFields, hx, lengthBytes_total hids]; rfl⟩

end

namespace LogicalSchema

theorem validateShape_ok {schema : LogicalSchema} {u : Unit} : schema.validateShape = .ok u ↔
    (schema.schema.id.value ≠ 0 ∧ schema.schema.version ≠ 0 ∧ schema.fields ≠ []) ∧
      EachLocal FieldName True schema.fields 1 [] ∧ Walk.new.Room (eachIds schema.fields) (eachSize schema.fields) := by
  have hnew : Walk.new.Within := ⟨by decide, by decide⟩
  have hdepth : 1 ≤ maxLogicalSchemaDepth := by decide
  simp only [validateShape, validateStructFields, bind_ok, refuseIf_ok, pure_ok, validateDepth_ok, exists_const, hdepth,
    true_and, List.isEmpty_iff, validateEach_ok schema.fields 1 _ _ _ hnew, and_assoc, exists_eq, and_true, exists_and_left]

/-! ## The fingerprint identifies the schema -/

/-- Two schemas with the same content: id, version and field tree. -/
def SameContent (a b : LogicalSchema) : Prop :=
  a.schema.id = b.schema.id ∧ a.schema.version = b.schema.version ∧ a.fields = b.fields

theorem LogicalSchemaId.ext_value {a b : LogicalSchemaId} (h : a.value = b.value) : a = b := by
  cases a
  cases b
  cases h
  rfl

theorem canonicalFingerprintBytes_ok {schema : LogicalSchema} {bytes : List UInt8}
    (h : schema.canonicalFingerprintBytes = .ok bytes) : ∃ fields, encodeFields schema.fields = .ok fields ∧
      bytes = fingerprintDomain ++ (beBytes 16 schema.schema.id.value ++ (beBytes 4 schema.schema.version.toNat ++ fields)) := by
  simp only [canonicalFingerprintBytes, bind_ok, pure_ok] at h
  obtain ⟨_, -, fields, hfields, hbytes⟩ := h
  exact ⟨fields, hfields, hbytes.symm⟩

theorem canonicalFingerprintBytes_inj {a b : LogicalSchema} {bytes : List UInt8}
    (ha : a.canonicalFingerprintBytes = .ok bytes) (hb : b.canonicalFingerprintBytes = .ok bytes) : SameContent a b := by
  obtain ⟨fx, hfx, rfl⟩ := canonicalFingerprintBytes_ok ha
  obtain ⟨fy, hfy, h⟩ := canonicalFingerprintBytes_ok hb
  obtain ⟨hid, hrest⟩ := beBytes_selfDelimiting 16 _ _ _ _ ⟨a.schema.id.fits, rfl⟩ ⟨b.schema.id.fits, rfl⟩ _ _
    (List.append_cancel_left h)
  obtain ⟨hversion, rfl⟩ := u32_ends hrest
  exact ⟨LogicalSchemaId.ext_value hid, hversion, encodeFields_selfDelimiting.injective hfx hfy⟩

theorem canonicalFingerprintBytes_total {schema : LogicalSchema} (h : schema.validateShape = .ok ()) :
    ∃ bytes, schema.canonicalFingerprintBytes = .ok bytes := by
  obtain ⟨-, hlocal, hroom⟩ := validateShape_ok.1 h
  obtain ⟨fields, hfields⟩ := encodeFields_total (fun _ hname => hname.2.1) hlocal hroom
  exact ⟨_, by simp only [canonicalFingerprintBytes, h, hfields]; rfl⟩

/-- Equal canonical bytes of accepted schemas come from one content, and so
do equal fingerprints when SHA-256 keeps their canonical bytes apart. -/
theorem fingerprint_identifies (sha256 : List UInt8 → List UInt8) (a b : LogicalSchema) (ha : a.validateShape = .ok ())
    (hb : b.validateShape = .ok ()) :
    (a.canonicalFingerprintBytes = b.canonicalFingerprintBytes → SameContent a b) ∧
      ((∀ x y, a.canonicalFingerprintBytes = .ok x → b.canonicalFingerprintBytes = .ok y → sha256 x = sha256 y → x = y) →
        a.computeFingerprint sha256 = b.computeFingerprint sha256 → SameContent a b) := by
  obtain ⟨x, hx⟩ := canonicalFingerprintBytes_total ha
  obtain ⟨y, hy⟩ := canonicalFingerprintBytes_total hb
  refine ⟨fun h => canonicalFingerprintBytes_inj hx (h ▸ hx), fun hsha h => ?_⟩
  simp only [computeFingerprint, hx, hy] at h
  obtain rfl := hsha x y hx hy (Except.ok.inj h)
  exact canonicalFingerprintBytes_inj hx hy

/-- One list of texts, with or without an empty doc. -/
def tagged (doc : Option String) : LogicalSchema :=
  ⟨⟨⟨1, LogicalSchemaId.one_fits⟩, 1, []⟩, [⟨1, "tags", true, .list 2 false .string, doc⟩]⟩

/-- SHA-256 on the canonical bytes of the two schemas, 60 and 64 bytes long. -/
def taggedSha256 (bytes : List UInt8) : List UInt8 :=
  if bytes.length = 60 then
    [129, 176, 117, 220, 8, 41, 63, 0, 219, 143, 61, 7, 88, 2, 131, 56, 4, 32, 182, 174, 29, 34, 232, 129, 100, 198, 126,
      247, 222, 112, 204, 153]
  else
    [5, 174, 16, 43, 226, 141, 145, 151, 66, 113, 191, 188, 243, 185, 238, 179, 55, 10, 115, 59, 18, 252, 112, 6, 161, 192,
      174, 195, 147, 1, 190, 227]

/-- An empty doc and no doc are told apart. -/
theorem empty_doc_identified : (tagged none).validateShape = .ok () ∧ (tagged (some "")).validateShape = .ok () ∧
    (tagged none).canonicalFingerprintBytes ≠ (tagged (some "")).canonicalFingerprintBytes ∧
    (tagged none).computeFingerprint taggedSha256 ≠ (tagged (some "")).computeFingerprint taggedSha256 := by
  have hdiffer : ¬SameContent (tagged none) (tagged (some "")) := by simp [SameContent, tagged]
  have hsha : ∀ x y, (tagged none).canonicalFingerprintBytes = .ok x →
      (tagged (some "")).canonicalFingerprintBytes = .ok y → taggedSha256 x = taggedSha256 y → x = y := by
    rintro _ _ ⟨⟩ ⟨⟩ h
    exact absurd h (by decide +kernel)
  obtain ⟨hbytes, hfingerprint⟩ := fingerprint_identifies taggedSha256 (tagged none) (tagged (some "")) rfl rfl
  exact ⟨rfl, rfl, fun h => hdiffer (hbytes h), fun h => hdiffer (hfingerprint hsha h)⟩

end LogicalSchema

end LaserSdk.Schema

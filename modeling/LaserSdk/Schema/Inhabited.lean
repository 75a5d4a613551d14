import Mathlib
import LaserSdk.Schema.Values
/-!
# Types without values

A schema is accepted with the fields of a struct in any order of their ids. A
struct value must list its fields in the order of the type and also by
ascending id. So a type has a value exactly when the ids of every struct in it
ascend.
-/

namespace LaserSdk.Schema

open LaserSdk.Lib

/-! ## The types in a schema -/

mutual

/-- A type and the types inside it. -/
def LogicalType.types : LogicalType → List LogicalType
  | .struct fields => .struct fields :: eachTypes fields
  | .list elementId elementRequired element => .list elementId elementRequired element :: element.types
  | .map keyId key valueId valueRequired value => .map keyId key valueId valueRequired value :: (key.types ++ value.types)
  | logicalType => [logicalType]

def LogicalField.types : LogicalField → List LogicalType
  | ⟨_, _, _, fieldType, _⟩ => fieldType.types

def eachTypes : List LogicalField → List LogicalType
  | [] => []
  | field :: rest => field.types ++ eachTypes rest

end

/-- The ids of a struct ascend. -/
def IdsAscend : LogicalType → Prop
  | .struct fields => (fields.map (·.id)).Pairwise (· < ·)
  | _ => True

/-- A non-null value is accepted for the type. -/
def HasValue (logicalType : LogicalType) : Prop := ∃ v : TypedValue, v ≠ .null ∧ v.validateAgainst logicalType true = .ok ()

theorem mem_types_self (t : LogicalType) : t ∈ t.types := by
  cases t <;> simp [LogicalType.types]

/-! ## A value of a type -/

mutual

/-- The smallest value: empty lists and maps, nulls where they are allowed. -/
def sample : LogicalType → TypedValue
  | .boolean => .boolean false
  | .int => .int 0
  | .long => .long 0
  | .float => .float 0
  | .double => .double 0
  | .decimal precision scale => .decimal ⟨[0], precision, scale⟩
  | .date => .date 0
  | .timeMicros => .timeMicros 0
  | .timestampMicros => .timestampMicros 0
  | .timestampTzMicros => .timestampTzMicros 0
  | .string => .string ""
  | .uuid => .uuid (List.replicate 16 0)
  | .fixed length => .fixed (List.replicate length.toNat 0)
  | .binary => .binary []
  | .struct fields => .struct (sampleFields fields)
  | .list _ _ _ => .list []
  | .map _ _ _ _ _ => .map []

def sampleField : LogicalField → FieldValue
  | ⟨id, _, required, fieldType, _⟩ => ⟨id, if required then sample fieldType else .null⟩

def sampleFields : List LogicalField → List FieldValue
  | [] => []
  | field :: rest => sampleField field :: sampleFields rest

end

theorem sampleFields_ids (fields : List LogicalField) : (sampleFields fields).map (·.fieldId) = fields.map (·.id) := by
  induction fields with
  | nil => rfl
  | cons field rest ih =>
    obtain ⟨id, name, required, fieldType, doc⟩ := field
    rw [sampleFields, List.map_cons, List.map_cons, ih]
    rfl

theorem sample_ne_null (t : LogicalType) : sample t ≠ .null := by
  cases t <;> simp [sample]

/-- What the walk has checked of a type at a depth. -/
structure Fits (t : LogicalType) (depth : Nat) : Prop where
  checked : t.Local FieldName True depth
  count : t.ids.length ≤ maxLogicalSchemaFields
  positive : ∀ id ∈ t.ids, id ≠ 0

/-- The same of a list of fields. -/
structure EachFits (fields : List LogicalField) (depth : Nat) : Prop where
  checked : ∃ names, EachLocal FieldName True fields depth names
  count : (eachIds fields).length ≤ maxLogicalSchemaFields
  positive : ∀ id ∈ eachIds fields, id ≠ 0

theorem EachFits.head {field : LogicalField} {rest : List LogicalField} {depth : Nat} (h : EachFits (field :: rest) depth) :
    Fits field.fieldType depth ∧ field.id ≠ 0 := by
  obtain ⟨id, name, required, fieldType, doc⟩ := field
  obtain ⟨names, hlocal⟩ := h.checked
  have hcount := h.count
  have hpositive := h.positive
  simp only [eachIds, LogicalField.ids, List.length_append, List.length_cons, List.mem_append, List.mem_cons] at hcount hpositive
  have hnested : fieldType.ids.length ≤ maxLogicalSchemaFields := by omega
  refine ⟨⟨hlocal.1.2.2.2.2, hnested, fun id hid => hpositive id (.inl (.inr hid))⟩, hpositive id (.inl (.inl rfl))⟩

theorem EachFits.tail {field : LogicalField} {rest : List LogicalField} {depth : Nat} (h : EachFits (field :: rest) depth) :
    EachFits rest depth := by
  obtain ⟨names, hlocal⟩ := h.checked
  have hcount := h.count
  simp only [eachIds, List.length_append] at hcount
  refine ⟨⟨_, hlocal.2⟩, by omega, fun id hid => h.positive id ?_⟩
  simp only [eachIds, List.mem_append]
  exact .inr hid

theorem Fits.fields {fields : List LogicalField} {depth : Nat} (h : Fits (.struct fields) depth) :
    depth + 1 ≤ maxLogicalSchemaDepth ∧ EachFits fields (depth + 1) :=
  ⟨h.checked.1, ⟨[], h.checked.2⟩, h.count, h.positive⟩

theorem EachFits.length_le {fields : List LogicalField} {depth : Nat} (h : EachFits fields depth) :
    fields.length ≤ maxLogicalSchemaFields :=
  (length_le_eachIds fields).trans h.count

theorem EachFits.chain {fields : List LogicalField} {depth : Nat} (h : EachFits fields depth)
    (hascend : (fields.map (·.id)).Pairwise (· < ·)) : (0 :: fields.map (·.id)).IsChain (· < ·) := by
  cases fields with
  | nil => exact .singleton 0
  | cons field rest =>
    refine .cons_cons ?_ (List.isChain_iff_pairwise.2 hascend)
    have hid := h.head.2
    exact UInt32.pos_iff_ne_zero.2 hid

/-! ## The value is accepted -/

theorem validateDecimal_zero {precision scale : UInt8} {depth : Nat} (h : Fits (.decimal precision scale) depth) :
    validateDecimal ⟨[0], precision, scale⟩ = .ok () := by
  have hprecision : ¬(precision = 0 ∨ maxDecimalPrecision < precision ∨ precision < scale) := h.checked
  have hzero : DecimalValue.unscaledInt ⟨[0], precision, scale⟩ = 0 := by
    show i128FromBeBytes (signExtend [0]) = 0
    decide
  have hdigits : 1 ≤ precision.toNat := by
    have hne : precision ≠ 0 := fun heq => hprecision (.inl heq)
    exact UInt8.lt_iff_toNat_lt.1 (UInt8.pos_iff_ne_zero.2 hne)
  simp only [validateDecimal, validatePrecisionScale, bind_ok, refuseIf_ok, hzero, if_pos]
  exact ⟨(), hprecision, (), by decide, (), by decide, by omega⟩

mutual

theorem sample_canonical (t : LogicalType) (depth d : Nat) (hfits : Fits t depth) (hbound : depth ≤ maxLogicalSchemaDepth)
    (hascend : ∀ s ∈ t.types, IdsAscend s) (hd : d ≤ depth) : validateTypedValue (sample t) d = .ok () := by
  have hdepth : d ≤ maxLogicalSchemaDepth := by omega
  cases t with
  | struct fields =>
    obtain ⟨hnext, heach⟩ := hfits.fields
    have hids : (fields.map (·.id)).Pairwise (· < ·) := hascend _ (mem_types_self _)
    rw [sample, struct_ok, sampleFields_ids]
    refine ⟨hdepth, ?_, heach.chain hids, ?_⟩
    · have hlength := congrArg List.length (sampleFields_ids fields)
      rw [List.length_map, List.length_map] at hlength
      exact hlength ▸ heach.length_le
    · exact sampleFields_canonical fields (depth + 1) (d + 1) heach hnext
        (fun s hs => hascend s (List.mem_cons_of_mem _ hs)) (by omega)
  | list elementId elementRequired element =>
    rw [sample, list_ok]
    exact ⟨hdepth, by decide, by simp⟩
  | map keyId key valueId valueRequired value =>
    simp only [sample, validateTypedValue, bind_ok, validateDepth_ok, validateCount_ok, exists_const]
    exact ⟨hdepth, by decide, rfl⟩
  | decimal precision scale =>
    simp only [sample, validateTypedValue, bind_ok, validateDepth_ok, validateLeaf, exists_const]
    exact ⟨hdepth, validateDecimal_zero hfits⟩
  | fixed length =>
    have hlength : ¬(length = 0 ∨ maxFixedBytes < length) := hfits.checked
    simp only [sample, validateTypedValue, bind_ok, validateDepth_ok, validateLeaf, refuseIf_ok, exists_const,
      List.length_replicate, Nat.not_lt]
    exact ⟨hdepth, UInt32.le_iff_toNat_le.1 (UInt32.not_lt.1 fun h => hlength (.inr h))⟩
  | _ =>
    simp only [sample, validateTypedValue, bind_ok, validateDepth_ok, exists_const]
    exact ⟨hdepth, rfl⟩

theorem sampleFields_canonical (fields : List LogicalField) (depth d : Nat) (hfits : EachFits fields depth)
    (hbound : depth ≤ maxLogicalSchemaDepth) (hascend : ∀ s ∈ eachTypes fields, IdsAscend s) (hd : d ≤ depth) :
    ∀ field ∈ sampleFields fields, validateTypedValue field.value d = .ok () := by
  cases fields with
  | nil => simp [sampleFields]
  | cons field rest =>
    rw [eachTypes] at hascend
    have hrest := sampleFields_canonical rest depth d hfits.tail hbound
      (fun s hs => hascend s (List.mem_append_right _ hs)) hd
    rw [sampleFields, List.forall_mem_cons]
    refine ⟨?_, hrest⟩
    have hhead := hfits.head.1
    cases field with
    | mk id name required fieldType doc =>
      cases required with
      | true =>
        exact sample_canonical fieldType depth d hhead hbound (fun s hs => hascend s (List.mem_append_left _ hs)) hd
      | false =>
        show validateTypedValue .null d = .ok ()
        simp only [validateTypedValue, bind_ok, validateDepth_ok, exists_const]
        exact ⟨by omega, rfl⟩

end

mutual

theorem sample_against (t : LogicalType) (depth : Nat) (hfits : Fits t depth) (hlow : 1 ≤ depth)
    (hbound : depth ≤ maxLogicalSchemaDepth) (hascend : ∀ s ∈ t.types, IdsAscend s) :
    (sample t).validateAgainst t true = .ok () := by
  have hcanonical : (sample t).validateCanonical = .ok () := sample_canonical t depth 1 hfits hbound hascend hlow
  cases t with
  | struct fields =>
    obtain ⟨hnext, heach⟩ := hfits.fields
    have hlength : (sampleFields fields).length = fields.length := by
      simpa using congrArg List.length (sampleFields_ids fields)
    rw [sample] at hcanonical ⊢
    rw [TypedValue.validateAgainst, hcanonical, ok_bind]
    simp only [bind_ok, refuseIf_ok, not_not]
    exact ⟨(), hlength, sampleFields_against fields (depth + 1) heach (by omega) hnext
      (fun s hs => hascend s (List.mem_cons_of_mem _ hs))⟩
  | list elementId elementRequired element =>
    rw [sample] at hcanonical ⊢
    rw [TypedValue.validateAgainst, hcanonical, ok_bind]
    rfl
  | map keyId key valueId valueRequired value =>
    rw [sample] at hcanonical ⊢
    rw [TypedValue.validateAgainst, hcanonical, ok_bind]
    rfl
  | decimal precision scale =>
    rw [sample] at hcanonical ⊢
    simp only [TypedValue.validateAgainst, hcanonical, ok_bind, validateScalar, validateDecimal_zero hfits]
    simp
  | fixed length =>
    rw [sample] at hcanonical ⊢
    simp only [TypedValue.validateAgainst, hcanonical, ok_bind, validateScalar]
    simp
  | _ =>
    rw [sample] at hcanonical ⊢
    simp only [TypedValue.validateAgainst, hcanonical, ok_bind]
    rfl

theorem sampleFields_against (fields : List LogicalField) (depth : Nat) (hfits : EachFits fields depth) (hlow : 1 ≤ depth)
    (hbound : depth ≤ maxLogicalSchemaDepth) (hascend : ∀ s ∈ eachTypes fields, IdsAscend s) :
    validateStructValue (sampleFields fields) fields = .ok () := by
  cases fields with
  | nil => rfl
  | cons field rest =>
    rw [eachTypes] at hascend
    have hrest := sampleFields_against rest depth hfits.tail hlow hbound
      (fun s hs => hascend s (List.mem_append_right _ hs))
    have hhead := hfits.head.1
    rw [sampleFields, validateStructValue]
    cases field with
    | mk id name required fieldType doc =>
      have hvalue : (sampleField ⟨id, name, required, fieldType, doc⟩).validateAgainst ⟨id, name, required, fieldType, doc⟩ =
          .ok () := by
        simp only [sampleField, FieldValue.validateAgainst, bind_ok, refuseIf_ok, not_not, exists_const]
        refine ⟨trivial, ?_⟩
        cases required with
        | true => exact sample_against fieldType depth hhead hlow hbound (fun s hs => hascend s (List.mem_append_left _ hs))
        | false => simp [TypedValue.validateAgainst]
      simp only [hvalue, ok_bind, hrest]

end

/-! ## Every type of a schema -/

mutual

/-- A type inside a checked one was checked at a depth of its own. -/
theorem fits_of_mem (t : LogicalType) (depth : Nat) (hfits : Fits t depth) (hlow : 1 ≤ depth)
    (hbound : depth ≤ maxLogicalSchemaDepth) (s : LogicalType) (hs : s ∈ t.types) :
    ∃ depth, 1 ≤ depth ∧ depth ≤ maxLogicalSchemaDepth ∧ Fits s depth := by
  cases t with
  | struct fields =>
    rcases List.mem_cons.1 hs with rfl | hs
    · exact ⟨depth, hlow, hbound, hfits⟩
    · obtain ⟨hnext, heach⟩ := hfits.fields
      exact fits_of_mem_each fields (depth + 1) heach (by omega) hnext s hs
  | list elementId elementRequired element =>
    rcases List.mem_cons.1 hs with rfl | hs
    · exact ⟨depth, hlow, hbound, hfits⟩
    · obtain ⟨hnext, hlocal⟩ := hfits.checked
      have hcount := hfits.count
      have hpositive := hfits.positive
      simp only [LogicalType.ids, List.length_cons, List.mem_cons] at hcount hpositive
      exact fits_of_mem element (depth + 1) ⟨hlocal, by omega, fun id hid => hpositive id (.inr hid)⟩ (by omega)
        (hnext trivial) s hs
  | map keyId key valueId valueRequired value =>
    rcases List.mem_cons.1 hs with rfl | hs
    · exact ⟨depth, hlow, hbound, hfits⟩
    · obtain ⟨-, hnext, hkey, hvalue⟩ := hfits.checked
      have hcount := hfits.count
      have hpositive := hfits.positive
      simp only [LogicalType.ids, List.length_cons, List.length_append, List.mem_cons, List.mem_append] at hcount hpositive
      rcases List.mem_append.1 hs with hs | hs
      · exact fits_of_mem key (depth + 1) ⟨hkey, by omega, fun id hid => hpositive id (.inr (.inr (.inl hid)))⟩ (by omega)
          (hnext trivial) s hs
      · exact fits_of_mem value (depth + 1) ⟨hvalue, by omega, fun id hid => hpositive id (.inr (.inr (.inr hid)))⟩ (by omega)
          (hnext trivial) s hs
  | _ =>
    obtain rfl := List.mem_singleton.1 hs
    exact ⟨depth, hlow, hbound, hfits⟩

theorem fits_of_mem_each (fields : List LogicalField) (depth : Nat) (hfits : EachFits fields depth) (hlow : 1 ≤ depth)
    (hbound : depth ≤ maxLogicalSchemaDepth) (s : LogicalType) (hs : s ∈ eachTypes fields) :
    ∃ depth, 1 ≤ depth ∧ depth ≤ maxLogicalSchemaDepth ∧ Fits s depth := by
  cases fields with
  | nil => cases hs
  | cons field rest =>
    have hhead := hfits.head.1
    cases field with
    | mk id name required fieldType doc =>
      rcases List.mem_append.1 hs with hs | hs
      · exact fits_of_mem fieldType depth hhead hlow hbound s hs
      · exact fits_of_mem_each rest depth hfits.tail hlow hbound s hs

end

mutual

/-- The types inside a type inside are inside. -/
theorem types_trans (t s : LogicalType) (hs : s ∈ t.types) : s.types ⊆ t.types := by
  cases t with
  | struct fields =>
    rcases List.mem_cons.1 hs with rfl | hs
    · exact fun _ h => h
    · exact fun r hr => List.mem_cons_of_mem _ (eachTypes_trans fields s hs hr)
  | list elementId elementRequired element =>
    rcases List.mem_cons.1 hs with rfl | hs
    · exact fun _ h => h
    · exact fun r hr => List.mem_cons_of_mem _ (types_trans element s hs hr)
  | map keyId key valueId valueRequired value =>
    rcases List.mem_cons.1 hs with rfl | hs
    · exact fun _ h => h
    · rcases List.mem_append.1 hs with hs | hs
      · exact fun r hr => List.mem_cons_of_mem _ (List.mem_append_left _ (types_trans key s hs hr))
      · exact fun r hr => List.mem_cons_of_mem _ (List.mem_append_right _ (types_trans value s hs hr))
  | _ =>
    obtain rfl := List.mem_singleton.1 hs
    exact fun _ h => h

theorem eachTypes_trans (fields : List LogicalField) (s : LogicalType) (hs : s ∈ eachTypes fields) :
    s.types ⊆ eachTypes fields := by
  cases fields with
  | nil => cases hs
  | cons field rest =>
    cases field with
    | mk id name required fieldType doc =>
      rcases List.mem_append.1 hs with hs | hs
      · exact fun r hr => List.mem_append_left _ (types_trans fieldType s hs hr)
      · exact fun r hr => List.mem_append_right _ (eachTypes_trans rest s hs hr)

end

/-- The values of a struct have the ids of its fields. -/
theorem validateStructValue_ids {values : List FieldValue} {fields : List LogicalField} {u : Unit}
    (hlength : values.length = fields.length) (h : validateStructValue values fields = .ok u) :
    values.map (·.fieldId) = fields.map (·.id) := by
  induction values generalizing fields with
  | nil => rw [List.length_eq_zero_iff.1 hlength.symm]; rfl
  | cons value values ih =>
    cases fields with
    | nil => cases hlength
    | cons field fields =>
      obtain ⟨fieldId, value⟩ := value
      simp only [validateStructValue, FieldValue.validateAgainst, bind_ok, refuseIf_ok, not_not] at h
      obtain ⟨-, ⟨-, hid, -⟩, hrest⟩ := h
      rw [List.map_cons, List.map_cons, ih (Nat.succ.inj hlength) hrest, ← hid]

/-- A struct with a value lists its fields by ascending id. -/
theorem idsAscend_of_hasValue {t : LogicalType} (h : HasValue t) : IdsAscend t := by
  obtain ⟨v, hnull, hv⟩ := h
  cases t with
  | struct fields =>
    cases v with
    | null => exact (hnull rfl).elim
    | struct values =>
      simp only [TypedValue.validateAgainst, bind_ok, refuseIf_ok, not_not] at hv
      obtain ⟨_, hcanonical, _, hlength, hids⟩ := hv
      obtain ⟨-, -, hchain, -⟩ := struct_ok.1 hcanonical
      rw [validateStructValue_ids hlength hids] at hchain
      exact (List.isChain_iff_pairwise.1 hchain).tail
    | _ =>
      simp only [TypedValue.validateAgainst, bind_ok] at hv
      obtain ⟨-, -, hmismatch⟩ := hv
      cases hmismatch
  | _ => trivial

theorem validate_shape {sha256 : List UInt8 → List UInt8} {schema : LogicalSchema} (h : schema.validate sha256 = .ok ()) :
    schema.validateShape = .ok () := by
  simp only [LogicalSchema.validate, bind_ok] at h
  obtain ⟨_, hshape, -⟩ := h
  exact hshape

theorem eachFits_of_shape {schema : LogicalSchema} (h : schema.validateShape = .ok ()) : EachFits schema.fields 1 := by
  obtain ⟨-, hlocal, hroom⟩ := LogicalSchema.validateShape_ok.1 h
  refine ⟨⟨[], hlocal⟩, ?_, fun id hid hzero => hroom.user id hid (.inl hzero)⟩
  have hcount := hroom.within.1
  simpa [Walk.after, Walk.new] using hcount

/-- In an accepted schema every type has a value exactly when every struct
lists its fields by ascending id. -/
theorem types_have_values_iff (sha256 : List UInt8 → List UInt8) (schema : LogicalSchema)
    (h : schema.validate sha256 = .ok ()) :
    (∀ t ∈ eachTypes schema.fields, HasValue t) ↔ ∀ t ∈ eachTypes schema.fields, IdsAscend t := by
  have hfits := eachFits_of_shape (validate_shape h)
  constructor
  · exact fun hvalues t ht => idsAscend_of_hasValue (hvalues t ht)
  · intro hascend t ht
    obtain ⟨depth, hlow, hbound, hdepth⟩ := fits_of_mem_each schema.fields 1 hfits (by decide) (by decide) t ht
    exact ⟨sample t, sample_ne_null t, sample_against t depth hdepth hlow hbound fun s hs =>
      hascend s (eachTypes_trans schema.fields t ht hs)⟩

/-- A point with two required numbers under the given ids. -/
def pointSchema (x y : UInt32) (fingerprint : List UInt8) : LogicalSchema :=
  ⟨⟨⟨1, LogicalSchemaId.one_fits⟩, 1, fingerprint⟩,
    [⟨1, "point", true, .struct [⟨x, "x", true, .long, none⟩, ⟨y, "y", true, .long, none⟩], none⟩]⟩

/-- SHA-256 of the canonical bytes of the point with ids 2 and 3. -/
def ascendingDigest : List UInt8 :=
  [144, 200, 203, 195, 122, 124, 85, 178, 105, 167, 62, 231, 238, 179, 184, 165, 15, 135, 246, 55, 229, 17, 120, 171, 76,
    232, 200, 60, 110, 11, 40, 195]

/-- SHA-256 of the canonical bytes of the point with ids 3 and 2. -/
def descendingDigest : List UInt8 :=
  [132, 132, 40, 139, 97, 129, 98, 62, 230, 36, 49, 141, 47, 33, 239, 203, 88, 254, 29, 151, 65, 70, 244, 2, 30, 88, 241,
    102, 157, 110, 90, 246]

theorem ascending_point_has_values :
    (pointSchema 2 3 ascendingDigest).validate (fun _ => ascendingDigest) = .ok () ∧
      ∀ t ∈ eachTypes (pointSchema 2 3 ascendingDigest).fields, HasValue t := by
  have haccepted : (pointSchema 2 3 ascendingDigest).validate (fun _ => ascendingDigest) = .ok () := rfl
  refine ⟨haccepted, (types_have_values_iff _ _ haccepted).2 ?_⟩
  simp [pointSchema, eachTypes, LogicalField.types, LogicalType.types, IdsAscend]

/-- The point with descending ids is accepted and has no value. -/
theorem descending_point_has_no_value :
    (pointSchema 3 2 descendingDigest).validate (fun _ => descendingDigest) = .ok () ∧
      ∃ t ∈ eachTypes (pointSchema 3 2 descendingDigest).fields, ¬ HasValue t := by
  refine ⟨rfl, _, List.mem_append_left _ (mem_types_self _), fun hvalue => ?_⟩
  have hascend := idsAscend_of_hasValue hvalue
  simp [IdsAscend] at hascend

end LaserSdk.Schema

import LaserSdk.Lib.Bytes
import LaserSdk.Lib.Checks
/-!
# Logical schemas

The types of a logical schema and the bytes its fingerprint is taken over. The
bytes are a plain concatenation: a tag for each type, big-endian numbers, and
texts and field lists after their lengths. Each part tells where it ends, so
no separator is needed.
-/

namespace LaserSdk.Schema

open LaserSdk.Lib

structure InvalidError where
  message : String
  deriving DecidableEq, Repr

def maxLogicalSchemaDepth : Nat := 16

def maxLogicalSchemaFields : Nat := 4096

def maxLogicalSchemaBytes : Nat := 1048576

def maxFieldNameBytes : Nat := 255

def maxFieldDocBytes : Nat := 4096

def maxFixedBytes : UInt32 := 1048576

def maxDecimalPrecision : UInt8 := 38

def provenanceFieldIdStart : UInt32 := 2000000000

def provenanceFields : List (UInt32 × String) :=
  [(2000000001, "__laser_cluster_incarnation"), (2000000002, "__laser_source_incarnation"),
    (2000000003, "__laser_stream_id"), (2000000004, "__laser_topic_id"), (2000000005, "__laser_partition_id"),
    (2000000006, "__laser_offset"), (2000000007, "__laser_row_ordinal"), (2000000008, "__laser_projection_id"),
    (2000000009, "__laser_projection_version"), (2000000010, "__laser_destination_id"),
    (2000000011, "__laser_destination_generation"), (2000000012, "__laser_original_payload"),
    (2000000013, "__laser_original_content_type"), (2000000014, "__laser_original_schema_id")]

/-- The identity of a schema family, a `u128`. -/
structure LogicalSchemaId where
  value : Nat
  fits : value < 256 ^ 16
  deriving DecidableEq

theorem LogicalSchemaId.one_fits : 1 < 256 ^ 16 := by decide

mutual

inductive LogicalType where
  | boolean
  | int
  | long
  | float
  | double
  | decimal (precision scale : UInt8)
  | date
  | timeMicros
  | timestampMicros
  | timestampTzMicros
  | string
  | uuid
  | fixed (length : UInt32)
  | binary
  | struct (fields : List LogicalField)
  | list (elementId : UInt32) (elementRequired : Bool) (element : LogicalType)
  | map (keyId : UInt32) (key : LogicalType) (valueId : UInt32) (valueRequired : Bool) (value : LogicalType)

structure LogicalField where
  id : UInt32
  name : String
  required : Bool
  fieldType : LogicalType
  doc : Option String

end

def LogicalType.acceptsMapKey : LogicalType → Bool
  | .boolean | .int | .long | .decimal _ _ | .date | .timeMicros | .timestampMicros | .timestampTzMicros
  | .string | .uuid | .fixed _ | .binary => true
  | _ => false

structure LogicalSchemaRef where
  id : LogicalSchemaId
  version : UInt32
  fingerprint : List UInt8

structure LogicalSchema where
  schema : LogicalSchemaRef
  fields : List LogicalField

/-! ## The canonical bytes -/

def textBytes (text : String) : List UInt8 := text.toUTF8.data.toList

def flagByte (flag : Bool) : UInt8 := if flag then 1 else 0

/-- A count or length as a `u32`, where it fits. -/
def lengthBytes (length : Nat) (what : String) : Except InvalidError (List UInt8) := do
  refuseIf (2 ^ 32 ≤ length) ⟨s!"logical schema {what} does not fit u32"⟩
  return beBytes 4 length

def encodeText (value : String) : Except InvalidError (List UInt8) := do
  let length ← lengthBytes value.utf8ByteSize "text length"
  return length ++ textBytes value

def encodeDoc : Option String → Except InvalidError (List UInt8)
  | some doc => do
    let text ← encodeText doc
    return 1 :: text
  | none => return [0]

mutual

def encodeLogicalType : LogicalType → Except InvalidError (List UInt8)
  | .boolean => return [0]
  | .int => return [1]
  | .long => return [2]
  | .float => return [3]
  | .double => return [4]
  | .decimal precision scale => return [5, precision, scale]
  | .date => return [6]
  | .timeMicros => return [7]
  | .timestampMicros => return [8]
  | .timestampTzMicros => return [9]
  | .string => return [10]
  | .uuid => return [11]
  | .fixed length => return 12 :: beBytes 4 length.toNat
  | .binary => return [13]
  | .struct fields => do
    let count ← lengthBytes fields.length "field count"
    let each ← encodeEach fields
    return 14 :: (count ++ each)
  | .list elementId elementRequired element => do
    let element ← encodeLogicalType element
    return 15 :: (beBytes 4 elementId.toNat ++ flagByte elementRequired :: element)
  | .map keyId key valueId valueRequired value => do
    let key ← encodeLogicalType key
    let value ← encodeLogicalType value
    return 16 :: (beBytes 4 keyId.toNat ++ (key ++ (beBytes 4 valueId.toNat ++ flagByte valueRequired :: value)))

def encodeField : LogicalField → Except InvalidError (List UInt8)
  | ⟨id, name, required, fieldType, doc⟩ => do
    let name ← encodeText name
    let doc ← encodeDoc doc
    let fieldType ← encodeLogicalType fieldType
    return beBytes 4 id.toNat ++ flagByte required :: (name ++ (doc ++ fieldType))

/-- The loop over the fields. -/
def encodeEach : List LogicalField → Except InvalidError (List UInt8)
  | [] => return []
  | field :: rest => do
    let field ← encodeField field
    let rest ← encodeEach rest
    return field ++ rest

end

def encodeFields (fields : List LogicalField) : Except InvalidError (List UInt8) := do
  let count ← lengthBytes fields.length "field count"
  let each ← encodeEach fields
  return count ++ each

/-! ## Each part tells where it ends -/

theorem lengthBytes_ok {length : Nat} {what : String} {x : List UInt8} :
    lengthBytes length what = .ok x ↔ length < 256 ^ 4 ∧ x = beBytes 4 length := by
  have hwidth : 2 ^ 32 = 256 ^ 4 := rfl
  simp only [lengthBytes, bind_ok, refuseIf_ok, pure_ok, exists_const, Nat.not_le, eq_comm (a := x), hwidth]

@[simp] theorem length_textBytes (text : String) : (textBytes text).length = text.utf8ByteSize := by
  simp [textBytes, ByteArray.size_data]

theorem textBytes_inj {a b : String} (h : textBytes a = textBytes b) : a = b := by
  simp only [textBytes, Array.toList_inj] at h
  exact String.toByteArray_inj.1 (ByteArray.ext h)

theorem encodeText_selfDelimiting : SelfDelimiting fun value x => encodeText value = .ok x := by
  intro a b x y ha hb r s h
  simp only [encodeText, bind_ok, lengthBytes_ok, pure_ok] at ha hb
  obtain ⟨_, ⟨hla, rfl⟩, rfl⟩ := ha
  obtain ⟨_, ⟨hlb, rfl⟩, rfl⟩ := hb
  rw [← length_textBytes] at hla hlb
  obtain ⟨hbytes, hrest⟩ :=
    sized_selfDelimiting 4 (textBytes a) (textBytes b) _ _ ⟨hla, by simp⟩ ⟨hlb, by simp⟩ r s h
  exact ⟨textBytes_inj hbytes, hrest⟩

theorem encodeDoc_selfDelimiting : SelfDelimiting fun doc x => encodeDoc doc = .ok x := by
  intro a b x y ha hb r s h
  cases a with
  | none =>
    obtain rfl := pure_ok.1 ha
    cases b with
    | none =>
      obtain rfl := pure_ok.1 hb
      exact ⟨rfl, (List.cons.inj h).2⟩
    | some b =>
      obtain ⟨text, -, hy⟩ := bind_ok.1 hb
      obtain rfl := pure_ok.1 hy
      exact absurd (List.cons.inj h).1 (by decide)
  | some a =>
    obtain ⟨text, htext, hx⟩ := bind_ok.1 ha
    obtain rfl := pure_ok.1 hx
    cases b with
    | none =>
      obtain rfl := pure_ok.1 hb
      exact absurd (List.cons.inj h).1 (by decide)
    | some b =>
      obtain ⟨text', htext', hy⟩ := bind_ok.1 hb
      obtain rfl := pure_ok.1 hy
      obtain ⟨rfl, hrest⟩ := encodeText_selfDelimiting a b _ _ htext htext' r s (List.cons.inj h).2
      exact ⟨rfl, hrest⟩

theorem u32_ends {a b : UInt32} {r s : List UInt8} (h : beBytes 4 a.toNat ++ r = beBytes 4 b.toNat ++ s) :
    a = b ∧ r = s := by
  obtain ⟨hab, hrest⟩ := beBytes_selfDelimiting 4 _ _ _ _ ⟨a.toNat_lt, rfl⟩ ⟨b.toNat_lt, rfl⟩ r s h
  exact ⟨UInt32.toNat_inj.1 hab, hrest⟩

theorem flag_ends {a b : Bool} {r s : List UInt8} (h : flagByte a :: r = flagByte b :: s) : a = b ∧ r = s := by
  obtain ⟨hab, hrest⟩ := List.cons.inj h
  refine ⟨?_, hrest⟩
  cases a <;> cases b <;> first | rfl | exact absurd hab (by decide)

/-- The tag each type starts with. -/
def LogicalType.tag : LogicalType → UInt8
  | .boolean => 0
  | .int => 1
  | .long => 2
  | .float => 3
  | .double => 4
  | .decimal _ _ => 5
  | .date => 6
  | .timeMicros => 7
  | .timestampMicros => 8
  | .timestampTzMicros => 9
  | .string => 10
  | .uuid => 11
  | .fixed _ => 12
  | .binary => 13
  | .struct _ => 14
  | .list _ _ _ => 15
  | .map _ _ _ _ _ => 16

/-- A type that is its tag. -/
def LogicalType.plain : LogicalType → Bool
  | .decimal _ _ | .fixed _ | .struct _ | .list _ _ _ | .map _ _ _ _ _ => false
  | _ => true

theorem plain_of_tag {t t' : LogicalType} (hplain : t.plain = true) (htag : t.tag = t'.tag) : t = t' := by
  cases t <;> first | cases hplain; done | cases t' <;> first | rfl | simp [LogicalType.tag] at htag

theorem encode_tag {t : LogicalType} {x : List UInt8} (h : encodeLogicalType t = .ok x) : ∃ rest, x = t.tag :: rest := by
  cases t <;> simp only [encodeLogicalType, bind_ok, pure_ok] at h <;> grind [LogicalType.tag]

theorem plain_ends {t t' : LogicalType} {x y r s : List UInt8} (hplain : t.plain = true) (htag : t.tag = t'.tag)
    (hx : encodeLogicalType t = .ok x) (hy : encodeLogicalType t' = .ok y) (h : x ++ r = y ++ s) : t = t' ∧ r = s := by
  obtain rfl := plain_of_tag hplain htag
  obtain rfl := Except.ok.inj (hx.symm.trans hy)
  exact ⟨rfl, List.append_cancel_left h⟩

-- By induction on the first tree; the second is read off the same bytes.
mutual

theorem encodeLogicalType_ends (t t' : LogicalType) (x y : List UInt8) (hx : encodeLogicalType t = .ok x)
    (hy : encodeLogicalType t' = .ok y) (r s : List UInt8) (h : x ++ r = y ++ s) : t = t' ∧ r = s := by
  have htag : t.tag = t'.tag := by
    obtain ⟨_, rfl⟩ := encode_tag hx
    obtain ⟨_, rfl⟩ := encode_tag hy
    exact (List.cons.inj h).1
  cases t with
  | decimal precision scale =>
    cases t' with
    | decimal precision' scale' =>
      obtain rfl := pure_ok.1 hx
      obtain rfl := pure_ok.1 hy
      simpa [and_assoc] using h
    | _ => simp [LogicalType.tag] at htag
  | fixed length =>
    cases t' with
    | fixed length' =>
      obtain rfl := pure_ok.1 hx
      obtain rfl := pure_ok.1 hy
      obtain ⟨rfl, hrest⟩ := u32_ends (List.cons.inj h).2
      exact ⟨rfl, hrest⟩
    | _ => simp [LogicalType.tag] at htag
  | struct fields =>
    cases t' with
    | struct fields' =>
      simp only [encodeLogicalType, bind_ok, lengthBytes_ok, pure_ok] at hx hy
      obtain ⟨_, ⟨hn, rfl⟩, each, heach, rfl⟩ := hx
      obtain ⟨_, ⟨hn', rfl⟩, each', heach', rfl⟩ := hy
      simp only [List.cons_append, List.append_assoc] at h
      obtain ⟨hlen, hrest⟩ := beBytes_selfDelimiting 4 _ _ _ _ ⟨hn, rfl⟩ ⟨hn', rfl⟩ _ _ (List.cons.inj h).2
      obtain ⟨rfl, hrest⟩ := encodeEach_ends fields fields' hlen each each' heach heach' r s hrest
      exact ⟨rfl, hrest⟩
    | _ => simp [LogicalType.tag] at htag
  | list elementId elementRequired element =>
    cases t' with
    | list elementId' elementRequired' element' =>
      simp only [encodeLogicalType, bind_ok, pure_ok] at hx hy
      obtain ⟨x, hx, rfl⟩ := hx
      obtain ⟨y, hy, rfl⟩ := hy
      simp only [List.cons_append, List.append_assoc] at h
      obtain ⟨rfl, hflag⟩ := u32_ends (List.cons.inj h).2
      obtain ⟨rfl, helement⟩ := flag_ends hflag
      obtain ⟨rfl, hrest⟩ := encodeLogicalType_ends element element' x y hx hy r s helement
      exact ⟨rfl, hrest⟩
    | _ => simp [LogicalType.tag] at htag
  | map keyId key valueId valueRequired value =>
    cases t' with
    | map keyId' key' valueId' valueRequired' value' =>
      simp only [encodeLogicalType, bind_ok, pure_ok] at hx hy
      obtain ⟨kx, hkx, vx, hvx, rfl⟩ := hx
      obtain ⟨ky, hky, vy, hvy, rfl⟩ := hy
      simp only [List.cons_append, List.append_assoc] at h
      obtain ⟨rfl, hkey⟩ := u32_ends (List.cons.inj h).2
      obtain ⟨rfl, hvalueId⟩ := encodeLogicalType_ends key key' kx ky hkx hky _ _ hkey
      obtain ⟨rfl, hflag⟩ := u32_ends hvalueId
      obtain ⟨rfl, hvalue⟩ := flag_ends hflag
      obtain ⟨rfl, hrest⟩ := encodeLogicalType_ends value value' vx vy hvx hvy r s hvalue
      exact ⟨rfl, hrest⟩
    | _ => simp [LogicalType.tag] at htag
  | _ => exact plain_ends rfl htag hx hy h

theorem encodeField_ends (field field' : LogicalField) (x y : List UInt8) (hx : encodeField field = .ok x)
    (hy : encodeField field' = .ok y) (r s : List UInt8) (h : x ++ r = y ++ s) : field = field' ∧ r = s := by
  cases field with
  | mk id name required fieldType doc =>
    obtain ⟨id', name', required', fieldType', doc'⟩ := field'
    simp only [encodeField, bind_ok, pure_ok] at hx hy
    obtain ⟨nx, hnx, dx, hdx, tx, htx, rfl⟩ := hx
    obtain ⟨ny, hny, dy, hdy, ty, hty, rfl⟩ := hy
    simp only [List.cons_append, List.append_assoc] at h
    obtain ⟨rfl, hflag⟩ := u32_ends h
    obtain ⟨rfl, hname⟩ := flag_ends hflag
    obtain ⟨rfl, hdoc⟩ := encodeText_selfDelimiting name name' nx ny hnx hny _ _ hname
    obtain ⟨rfl, htype⟩ := encodeDoc_selfDelimiting doc doc' dx dy hdx hdy _ _ hdoc
    obtain ⟨rfl, hrest⟩ := encodeLogicalType_ends fieldType fieldType' tx ty htx hty r s htype
    exact ⟨rfl, hrest⟩

theorem encodeEach_ends (fields fields' : List LogicalField) (hlen : fields.length = fields'.length) (x y : List UInt8)
    (hx : encodeEach fields = .ok x) (hy : encodeEach fields' = .ok y) (r s : List UInt8) (h : x ++ r = y ++ s) :
    fields = fields' ∧ r = s := by
  cases fields with
  | nil =>
    obtain rfl := List.length_eq_zero_iff.1 hlen.symm
    obtain rfl := pure_ok.1 hx
    obtain rfl := pure_ok.1 hy
    exact ⟨rfl, h⟩
  | cons field rest =>
    cases fields' with
    | nil => cases hlen
    | cons field' rest' =>
      simp only [encodeEach, bind_ok, pure_ok] at hx hy
      obtain ⟨fx, hfx, rx, hrx, rfl⟩ := hx
      obtain ⟨fy, hfy, ry, hry, rfl⟩ := hy
      simp only [List.append_assoc] at h
      obtain ⟨rfl, hfields⟩ := encodeField_ends field field' fx fy hfx hfy _ _ h
      obtain ⟨rfl, hrest⟩ := encodeEach_ends rest rest' (Nat.succ.inj hlen) rx ry hrx hry r s hfields
      exact ⟨rfl, hrest⟩

end

theorem encodeFields_selfDelimiting : SelfDelimiting fun fields x => encodeFields fields = .ok x := by
  intro fields fields' x y hx hy r s h
  simp only [encodeFields, bind_ok, lengthBytes_ok, pure_ok] at hx hy
  obtain ⟨_, ⟨hn, rfl⟩, each, heach, rfl⟩ := hx
  obtain ⟨_, ⟨hn', rfl⟩, each', heach', rfl⟩ := hy
  simp only [List.append_assoc] at h
  obtain ⟨hlen, h⟩ := beBytes_selfDelimiting 4 _ _ _ _ ⟨hn, rfl⟩ ⟨hn', rfl⟩ _ _ h
  exact encodeEach_ends fields fields' hlen each each' heach heach' r s h

end LaserSdk.Schema

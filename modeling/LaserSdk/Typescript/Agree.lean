import LaserSdk.Filter.Glob
import LaserSdk.Filter.Prune
import LaserSdk.Typescript.Eval
/-!
# Both clients compare alike

Every value, literal and predicate of the Rust client has a counterpart of
units, big integers and numbers. We prove that a predicate judges a value as
its counterpart judges the counterpart of the value. The integers are those of
the types of the source, 64 bits, so that both clients find the same doubles.
-/

namespace LaserSdk.Typescript

open LaserSdk.Lib
open LaserSdk.Filter (F64 CmpOp Truth truthOf FaultReason Coerce TimestampFormat TextMatch FilterCodec DecodeLimits)

/-! ## Counterparts -/

mutual

def JsonValue.ofRust : Filter.Value → JsonValue
  | .null => .null
  | .bool value => .bool value
  | .number (.integer value) => .bigint value
  | .number (.float value) => .number value
  | .string text => .string (jsText text)
  | .array items => .array (ofRustItems items)
  | .object fields => .map (ofRustFields fields)

def ofRustItems : List Filter.Value → List JsonValue
  | [] => []
  | item :: rest => .ofRust item :: ofRustItems rest

def ofRustFields : List (String × Filter.Value) → List (JsString × JsonValue)
  | [] => []
  | (key, value) :: rest => (jsText key, .ofRust value) :: ofRustFields rest

end

mutual

def TypedValue.ofRust : Filter.TypedValue → TypedValue
  | .null => .null
  | .boolean value => .boolean value
  | .int value => .int value
  | .long value => .long value
  | .double value => .double value
  | .string value => .string (jsText value)
  | .list items => .list (ofRustTyped items)
  | .other text => .other (jsText text)

def ofRustTyped : List Filter.TypedValue → List TypedValue
  | [] => []
  | item :: rest => .ofRust item :: ofRustTyped rest

end

mutual

def Literal.ofRust : Filter.Literal → Literal
  | .null => .null
  | .bool value => .bool value
  | .int value => .int value
  | .float value => .float value
  | .text value => .text (jsText value)
  | .list items => .list (ofRustLiterals items)

def ofRustLiterals : List Filter.Literal → List Literal
  | [] => []
  | item :: rest => .ofRust item :: ofRustLiterals rest

end

def Scalar.ofRust : Filter.Scalar → Scalar
  | .null => .null
  | .bool value => .bool value
  | .int value => .int value
  | .float value => .float value
  | .text value => .text (jsText value)
  | .composite => .composite

def Comparable.ofRust : Filter.Comparable → Comparable
  | .instant micros => .instant micros
  | .decimal number => .decimal (.widened number)

mutual

def CoercedLiteral.ofRust : Filter.CoercedLiteral → CoercedLiteral
  | .instant micros => .comparable (.instant micros)
  | .decimal decimal => .comparable (.decimal (.widened decimal))
  | .list items => .list (ofRustCoerced items)

def ofRustCoerced : List Filter.CoercedLiteral → List CoercedLiteral
  | [] => []
  | item :: rest => .ofRust item :: ofRustCoerced rest

end

/-! ## The types of the source -/

/-- An `i64` or a `u64`. -/
def Fits64 (value : Int) : Prop := -2 ^ 63 ≤ value ∧ value < 2 ^ 64

theorem Fits64.natAbs_lt {value : Int} (h : Fits64 value) : value.natAbs < 2 ^ 128 := by
  unfold Fits64 at h
  omega

mutual

/-- Every number of the value is one of its type. -/
def Fits : Filter.Value → Prop
  | .number (.integer value) => Fits64 value
  | .number (.float value) => IsDouble value
  | .array items => FitsItems items
  | .object fields => FitsFields fields
  | .null | .bool _ | .string _ => True

def FitsItems : List Filter.Value → Prop
  | [] => True
  | item :: rest => Fits item ∧ FitsItems rest

def FitsFields : List (String × Filter.Value) → Prop
  | [] => True
  | (_, value) :: rest => Fits value ∧ FitsFields rest

end

mutual

def FitsLiteral : Filter.Literal → Prop
  | .int value => Fits64 value
  | .list items => FitsLiterals items
  | .null | .bool _ | .float _ | .text _ => True

def FitsLiterals : List Filter.Literal → Prop
  | [] => True
  | item :: rest => FitsLiteral item ∧ FitsLiterals rest

end

def FitsScalar : Filter.Scalar → Prop
  | .int value => Fits64 value
  | _ => True

theorem fits_of_mem {items : List Filter.Value} (h : FitsItems items) : ∀ item ∈ items, Fits item := by
  induction items with
  | nil => simp
  | cons item rest ih =>
    intro other hother
    rcases List.mem_cons.1 hother with rfl | hrest
    · exact h.1
    · exact ih h.2 other hrest

theorem fits_of_lookup {fields : List (String × Filter.Value)} (h : FitsFields fields) {key : String} {value : Filter.Value}
    (hlookup : fields.lookup key = some value) : Fits value := by
  induction fields with
  | nil => cases hlookup
  | cons field rest ih =>
    obtain ⟨name, held⟩ := field
    rw [List.lookup_cons] at hlookup
    split at hlookup
    · cases hlookup
      exact h.1
    · exact ih h.2 hlookup

theorem fitsScalar_scalarOf {value : Filter.Value} (h : Fits value) : FitsScalar (Filter.scalarOf value) := by
  cases value with
  | number number =>
    cases number with
    | integer value => exact h
    | float value => trivial
  | _ => trivial

/-! ## Paths -/

theorem jsText_inj {text other : String} : jsText text = jsText other ↔ text = other := by
  rw [jsText, jsText, utf16_inj, String.toList_inj]

theorem jsText_beq (text other : String) : (jsText text == jsText other) = (text == other) := by
  rw [Bool.eq_iff_iff, beq_iff_eq, beq_iff_eq, jsText_inj]

theorem ofRustItems_eq (items : List Filter.Value) : ofRustItems items = items.map .ofRust := by
  induction items with
  | nil => rfl
  | cons item rest ih => rw [ofRustItems, ih, List.map_cons]

theorem lookup_ofRustFields (fields : List (String × Filter.Value)) (key : String) :
    (ofRustFields fields).lookup (jsText key) = (fields.lookup key).map .ofRust := by
  induction fields with
  | nil => rfl
  | cons field rest ih =>
    obtain ⟨name, value⟩ := field
    rw [ofRustFields, List.lookup_cons, List.lookup_cons, jsText_beq, ih]
    split <;> rfl

theorem resolveSegments_ofRust (value : Filter.Value) (segments : List Filter.PathSegment) :
    resolveSegments (.ofRust value) (segments.map .ofRust) = (Filter.resolveSegments value segments).map .ofRust := by
  induction segments generalizing value with
  | nil => rfl
  | cons segment rest ih =>
    cases segment with
    | key key =>
      cases value with
      | object fields =>
        show ((ofRustFields fields).lookup (jsText key)).bind _ = _
        rw [lookup_ofRustFields, Filter.resolveSegments]
        cases fields.lookup key with
        | none => rfl
        | some value => exact ih value
      | number number => cases number <;> rfl
      | _ => rfl
    | index index =>
      cases value with
      | array items =>
        show (ofRustItems items)[index.toNat]?.bind _ = _
        rw [ofRustItems_eq, List.getElem?_map, Filter.resolveSegments]
        cases items[index.toNat]? with
        | none => rfl
        | some value => exact ih value
      | number number => cases number <;> rfl
      | _ => rfl

/-- A path resolves to the counterpart of the field. -/
theorem resolve_ofRust (value : Filter.Value) (path : Filter.FieldPath) :
    resolve (.ofRust value) (.ofRust path) = (Filter.resolve value path).map .ofRust :=
  resolveSegments_ofRust value path.segments

theorem fits_resolveSegments {value field : Filter.Value} (h : Fits value) {segments : List Filter.PathSegment}
    (hfield : Filter.resolveSegments value segments = some field) : Fits field := by
  induction segments generalizing value with
  | nil =>
    cases hfield
    exact h
  | cons segment rest ih =>
    unfold Filter.resolveSegments at hfield
    split at hfield
    · obtain ⟨inner, hlookup, hrest⟩ := Option.bind_eq_some_iff.1 hfield
      exact ih (fits_of_lookup h hlookup) hrest
    · obtain ⟨inner, hitem, hrest⟩ := Option.bind_eq_some_iff.1 hfield
      exact ih (fits_of_mem h inner (List.mem_of_getElem? hitem)) hrest
    · cases hfield

/-! ## Texts -/

theorem isPrefixOf_jsText (needle text : String) :
    (jsText needle).isPrefixOf (jsText text) = needle.toList.isPrefixOf text.toList := by
  rw [Bool.eq_iff_iff, List.isPrefixOf_iff_prefix, List.isPrefixOf_iff_prefix]
  exact prefix_utf16

theorem isSuffixOf_jsText (needle text : String) :
    (jsText needle).isSuffixOf (jsText text) = needle.toList.isSuffixOf text.toList := by
  rw [Bool.eq_iff_iff, List.isSuffixOf_iff_suffix, List.isSuffixOf_iff_suffix]
  exact suffix_utf16

theorem any_tails_prefix {α : Type} [BEq α] [LawfulBEq α] (text needle : List α) :
    text.tails.any (needle.isPrefixOf ·) = true ↔ needle <:+: text := by
  rw [List.any_eq_true, List.infix_iff_prefix_suffix]
  constructor
  · rintro ⟨rest, hrest, hprefix⟩
    exact ⟨rest, List.isPrefixOf_iff_prefix.1 hprefix, (List.mem_tails _ _).1 hrest⟩
  · rintro ⟨rest, hprefix, hrest⟩
    exact ⟨rest, (List.mem_tails _ _).2 hrest, List.isPrefixOf_iff_prefix.2 hprefix⟩

theorem includes_jsText (text needle : String) : includes (jsText text) (jsText needle) = Filter.containsText text needle := by
  rw [Bool.eq_iff_iff, includes, Filter.containsText, any_tails_prefix, any_tails_prefix]
  exact infix_utf16

/-- The order of the code points is the order of the texts. -/
theorem compareCodes_eq (left right : List Char) :
    compareCodes (left.map Char.toNat) (right.map Char.toNat) =
      if left < right then -1 else if left = right then 0 else 1 := by
  induction left generalizing right with
  | nil =>
    cases right with
    | nil => rfl
    | cons d right => simp [compareCodes]
  | cons c left ih =>
    cases right with
    | nil => simp [compareCodes]
    | cons d right =>
      rw [List.map_cons, List.map_cons, compareCodes, ih]
      by_cases heq : c = d
      · subst heq
        simp
      · have hne : c.toNat ≠ d.toNat := fun h => heq (Char.toNat_inj.1 h)
        have hlt : c.toNat < d.toNat ↔ c < d := Iff.rfl
        simp [hne, heq, hlt, List.cons_lt_cons_iff]

theorem compareCodePoints_jsText (left right : String) :
    compareCodePoints (jsText left) (jsText right) = ofOrdering (compare left right) := by
  have horder : compare left right = if left < right then .lt else if left = right then .eq else .gt := rfl
  rw [compareCodePoints, jsText, jsText, codePoints_utf16, codePoints_utf16, compareCodes_eq, horder]
  simp only [String.toList_inj, ← String.lt_iff]
  split_ifs <;> rfl

/-! ## Scalars -/

theorem ofOrdering_beq_zero (order : Ordering) : (ofOrdering order == 0) = (order == .eq) := by
  cases order <;> rfl

theorem orderTruth_ofOrdering (op : CmpOp) (order : Ordering) :
    orderTruth op (ofOrdering order) = truthOf (Filter.orderingTruth op order) := by
  cases op <;> cases order <;> rfl

theorem scalarOf_ofRust (value : Filter.Value) : scalarOf (.ofRust value) = .ofRust (Filter.scalarOf value) := by
  cases value with
  | number number => cases number <;> rfl
  | _ => rfl

theorem scalarCmp_ofRust {scalar : Filter.Scalar} {literal : Filter.Literal} (hscalar : FitsScalar scalar)
    (hliteral : FitsLiteral literal) :
    scalarCmp (.ofRust scalar) (.ofRust literal) = (Filter.scalarCmp scalar literal).map ofOrdering := by
  cases scalar with
  | int left =>
    cases literal with
    | int right => exact congrArg some (compareBigInt_eq left right)
    | float right =>
      simp only [Scalar.ofRust, Literal.ofRust, scalarCmp, Filter.scalarCmp, exactDouble_eq (Fits64.natAbs_lt hscalar)]
      cases Filter.exactDouble left with
      | none => rfl
      | some left => exact compareDouble_eq left right
    | _ => rfl
  | float left =>
    cases literal with
    | float right => exact compareDouble_eq left right
    | int right =>
      simp only [Scalar.ofRust, Literal.ofRust, scalarCmp, Filter.scalarCmp, exactDouble_eq (Fits64.natAbs_lt hliteral)]
      cases Filter.exactDouble right with
      | none => rfl
      | some right => exact compareDouble_eq left right
    | _ => rfl
  | text left =>
    cases literal with
    | text right => exact congrArg some (compareCodePoints_jsText left right)
    | _ => rfl
  | _ => cases literal <;> rfl

theorem scalarEq_ofRust {scalar : Filter.Scalar} {literal : Filter.Literal} (hscalar : FitsScalar scalar)
    (hliteral : FitsLiteral literal) : scalarEq (.ofRust scalar) (.ofRust literal) = Filter.scalarEq scalar literal := by
  have hcmp : (scalarCmp (.ofRust scalar) (.ofRust literal)).map (· == 0) =
      (Filter.scalarCmp scalar literal).map (· == .eq) := by
    rw [scalarCmp_ofRust hscalar hliteral, Option.map_map]
    apply Option.map_congr
    intro order _
    exact ofOrdering_beq_zero order
  cases scalar with
  | bool left =>
    cases literal with
    | bool right => rfl
    | _ => exact hcmp
  | text left =>
    cases literal with
    | text right => exact congrArg some (jsText_beq left right)
    | _ => exact hcmp
  | _ => cases literal <;> exact hcmp

theorem inTruth_ofRust {scalar : Filter.Scalar} (hscalar : FitsScalar scalar) (unknown : Bool) {items : List Filter.Literal}
    (hitems : FitsLiterals items) :
    inTruth (.ofRust scalar) unknown (ofRustLiterals items) = Filter.inTruth scalar unknown items := by
  induction items generalizing unknown with
  | nil => rfl
  | cons item rest ih =>
    rw [ofRustLiterals, inTruth, Filter.inTruth, scalarEq_ofRust hscalar hitems.1]
    cases Filter.scalarEq scalar item with
    | none => exact ih true hitems.2
    | some equal =>
      cases equal with
      | true => rfl
      | false => exact ih unknown hitems.2

theorem any_elements_ofRust {items : List Filter.Value} (hitems : FitsItems items) {literal : Filter.Literal}
    (hliteral : FitsLiteral literal) :
    ((ofRustItems items).any fun element => scalarEq (scalarOf element) (.ofRust literal) == some true) =
      items.any fun element => Filter.scalarEq (Filter.scalarOf element) literal == some true := by
  induction items with
  | nil => rfl
  | cons element rest ih =>
    rw [ofRustItems, List.any_cons, List.any_cons, ih hitems.2, scalarOf_ofRust,
      scalarEq_ofRust (fitsScalar_scalarOf hitems.1) hliteral]

section

variable {scalar : Filter.Scalar} {literal : Filter.Literal} {found : Option Filter.Value}

theorem containsTruth_ofRust (hliteral : FitsLiteral literal) (hfound : ∀ value, found = some value → Fits value) :
    compareOp (.ofRust scalar) (found.map .ofRust) .contains (.ofRust literal) =
      Filter.compareOp scalar found .contains literal := by
  cases scalar with
  | text text =>
    cases literal with
    | text needle => exact congrArg truthOf (includes_jsText text needle)
    | _ => rfl
  | composite =>
    cases found with
    | none => cases literal <;> rfl
    | some value =>
      cases value with
      | array items =>
        have hany := any_elements_ofRust (show FitsItems items from hfound _ rfl) hliteral
        cases literal <;> exact congrArg truthOf hany
      | number number => cases number <;> cases literal <;> rfl
      | _ => cases literal <;> rfl
  | _ => cases literal <;> rfl

theorem compareOp_ofRust (hscalar : FitsScalar scalar) (hliteral : FitsLiteral literal)
    (hfound : ∀ value, found = some value → Fits value) (op : CmpOp) :
    compareOp (.ofRust scalar) (found.map .ofRust) op (.ofRust literal) = Filter.compareOp scalar found op literal := by
  cases op with
  | eq =>
    rw [compareOp, Filter.compareOp, scalarEq_ofRust hscalar hliteral]
    cases Filter.scalarEq scalar literal <;> rfl
  | ne =>
    rw [compareOp, Filter.compareOp, scalarEq_ofRust hscalar hliteral]
    cases Filter.scalarEq scalar literal <;> rfl
  | lt =>
    rw [compareOp, Filter.compareOp, scalarCmp_ofRust hscalar hliteral]
    cases Filter.scalarCmp scalar literal with
    | none => rfl
    | some order => exact orderTruth_ofOrdering .lt order
  | lte =>
    rw [compareOp, Filter.compareOp, scalarCmp_ofRust hscalar hliteral]
    cases Filter.scalarCmp scalar literal with
    | none => rfl
    | some order => exact orderTruth_ofOrdering .lte order
  | gt =>
    rw [compareOp, Filter.compareOp, scalarCmp_ofRust hscalar hliteral]
    cases Filter.scalarCmp scalar literal with
    | none => rfl
    | some order => exact orderTruth_ofOrdering .gt order
  | gte =>
    rw [compareOp, Filter.compareOp, scalarCmp_ofRust hscalar hliteral]
    cases Filter.scalarCmp scalar literal with
    | none => rfl
    | some order => exact orderTruth_ofOrdering .gte order
  | «in» =>
    cases literal with
    | list items => exact inTruth_ofRust hscalar false hliteral
    | _ => rfl
  | contains => exact containsTruth_ofRust hliteral hfound
  | prefixed =>
    cases scalar with
    | text text =>
      cases literal with
      | text start => exact congrArg truthOf (isPrefixOf_jsText start text)
      | _ => rfl
    | _ => cases literal <;> rfl

theorem compareScalar_ofRust (hscalar : FitsScalar scalar) (hliteral : FitsLiteral literal)
    (hfound : ∀ value, found = some value → Fits value) (op : CmpOp) :
    compareScalar (.ofRust scalar) (found.map .ofRust) op (.ofRust literal) =
      Filter.compareScalar scalar found op literal := by
  have hop := compareOp_ofRust hscalar hliteral hfound op
  cases scalar with
  | null => cases literal <;> rfl
  | _ =>
    cases literal with
    | null => rfl
    | _ => exact hop

end

theorem isArray_ofRust (found : Option Filter.Value) :
    isArray (found.map .ofRust) = found.any fun | .array _ => true | _ => false := by
  cases found with
  | none => rfl
  | some value =>
    cases value with
    | number number => cases number <;> rfl
    | _ => rfl

mutual

theorem comparable_ofRust (scalar : Filter.Scalar) (found : Option Filter.Value) (op : CmpOp) :
    (literal : Filter.Literal) → comparable (.ofRust scalar) (found.map .ofRust) op (.ofRust literal) =
      Filter.comparable scalar found op literal
  | .null => rfl
  | .list items => by
    rw [Literal.ofRust, comparable, Filter.comparable, anyComparable_ofRust scalar found op items]
    cases scalar <;> rfl
  | .bool value => by
    cases scalar with
    | composite => exact congrArg (op == .contains && ·) (isArray_ofRust found)
    | _ => rfl
  | .text value => by
    cases scalar with
    | composite => exact congrArg (op == .contains && ·) (isArray_ofRust found)
    | _ => rfl
  | .int value => by
    cases scalar with
    | composite => exact congrArg (op == .contains && ·) (isArray_ofRust found)
    | _ => rfl
  | .float value => by
    cases scalar with
    | composite => exact congrArg (op == .contains && ·) (isArray_ofRust found)
    | _ => rfl

theorem anyComparable_ofRust (scalar : Filter.Scalar) (found : Option Filter.Value) (op : CmpOp) :
    (items : List Filter.Literal) → anyComparable (.ofRust scalar) (found.map .ofRust) op (ofRustLiterals items) =
      Filter.anyComparable scalar found op items
  | [] => rfl
  | item :: rest => by
    rw [ofRustLiterals, anyComparable, Filter.anyComparable, comparable_ofRust scalar found op item,
      anyComparable_ofRust scalar found op rest]

end

theorem missingTruth_ofRust (op : CmpOp) (literal : Filter.Literal) :
    missingTruth op (.ofRust literal) = Filter.missingTruth op literal := by
  cases literal <;> cases op <;> rfl

/-! ## Coerced values -/

theorem ordering_ofRust (comparable : Filter.Comparable) (target : Filter.CoercedLiteral) :
    (Comparable.ofRust comparable).ordering (.ofRust target) = (comparable.cmp target).map ofOrdering := by
  cases comparable with
  | instant left =>
    cases target with
    | instant right => exact congrArg some (compareBigInt_eq left right)
    | _ => rfl
  | decimal left =>
    cases target with
    | decimal right => exact congrArg some (compare_widened left right)
    | _ => rfl

theorem any_ordering_ofRust (comparable : Filter.Comparable) (items : List Filter.CoercedLiteral) :
    ((ofRustCoerced items).any fun item => (Comparable.ofRust comparable).ordering item == some 0) =
      items.any fun item => comparable.cmp item == some .eq := by
  induction items with
  | nil => rfl
  | cons item rest ih =>
    have hitem : ((Comparable.ofRust comparable).ordering (.ofRust item) == some 0) = (comparable.cmp item == some .eq) := by
      rw [ordering_ofRust]
      cases comparable.cmp item with
      | none => rfl
      | some order => cases order <;> rfl
    rw [ofRustCoerced, List.any_cons, List.any_cons, hitem, ih]

theorem compareCoerced_ofRust (comparable : Filter.Comparable) (op : CmpOp) (literal : Filter.CoercedLiteral) :
    compareCoerced (.ofRust comparable) op (.ofRust literal) = Filter.compareCoerced comparable op literal := by
  cases op with
  | «in» =>
    cases literal with
    | list items => exact congrArg truthOf (any_ordering_ofRust comparable items)
    | _ =>
      simp only [compareCoerced, Filter.compareCoerced, CoercedLiteral.ofRust]
      cases (Comparable.ofRust comparable).ordering _ <;> cases comparable.cmp _ <;> rfl
  | _ =>
    simp only [compareCoerced, Filter.compareCoerced, ordering_ofRust]
    cases comparable.cmp literal with
    | none => rfl
    | some order => cases order <;> rfl

theorem comparableLiteral_ofRust (coerce : Coerce) (value : Filter.TypedValue) :
    comparableLiteral coerce (.ofRust value) = (Filter.comparableLiteral coerce value).map .ofRust := by
  cases coerce with
  | timestamp format =>
    cases value with
    | string text =>
      simp only [TypedValue.ofRust, comparableLiteral, Filter.comparableLiteral, jsText, microsFromText_utf16, Option.map_map]
      rfl
    | int number =>
      simp only [TypedValue.ofRust, comparableLiteral, Filter.comparableLiteral, microsFromInteger_eq, Option.map_map]
      rfl
    | long number =>
      simp only [TypedValue.ofRust, comparableLiteral, Filter.comparableLiteral, microsFromInteger_eq, Option.map_map]
      rfl
    | _ => rfl
  | number =>
    cases value with
    | string text =>
      simp only [TypedValue.ofRust, comparableLiteral, Filter.comparableLiteral, jsText, parse_utf16, Option.map_map]
      rfl
    | int number => exact congrArg (fun decimal => some (Comparable.decimal decimal)) (fromInteger_eq number)
    | long number => exact congrArg (fun decimal => some (Comparable.decimal decimal)) (fromInteger_eq number)
    | _ => rfl

theorem timestampOfValue_ofRust (format : TimestampFormat) (value : Filter.Value) :
    timestampOfValue format (.ofRust value) =
      match format, value with
      | format, .string text => format.microsFromText text
      | .rfc3339, _ => none
      | format, .number (.integer value) => format.microsFromInteger value
      | _, _ => none := by
  cases value with
  | string text => exact microsFromText_utf16 format text
  | number number =>
    cases number with
    | integer value =>
      have hmicros := microsFromInteger_eq format value
      cases format <;> first | rfl | exact hmicros
    | float value => cases format <;> rfl
  | _ => cases format <;> rfl

theorem coerceValue_ofRust {host : Filter.Host} {js : JsHost} (hsame : SameDigits host.doubleText js.toExponential)
    (coerce : Coerce) {value : Filter.Value} (hfits : Fits value) :
    coerceValue js coerce (.ofRust value) = (Filter.coerceValue host coerce value).map .ofRust := by
  cases coerce with
  | timestamp format =>
    unfold coerceValue Filter.coerceValue
    dsimp only
    rw [timestampOfValue_ofRust, Option.map_map]
    rfl
  | number =>
    cases value with
    | string text =>
      simp only [JsonValue.ofRust, coerceValue, Filter.coerceValue, jsText, parse_utf16, Option.map_map]
      rfl
    | number number =>
      cases number with
      | integer value => exact congrArg (fun decimal => some (Comparable.decimal decimal)) (fromInteger_eq value)
      | float value =>
        simp only [JsonValue.ofRust, coerceValue, Filter.coerceValue, Filter.numberDecimal, fromF64_eq hsame hfits, Option.map_map]
        rfl
    | _ => rfl

/-! ## Compiling literals -/

mutual

/-- The integers of a literal are those of its types. -/
def FitsTyped : Filter.TypedValue → Prop
  | .int value | .long value => Fits64 value
  | .list items => FitsAllTyped items
  | .null | .boolean _ | .double _ | .string _ | .other _ => True

def FitsAllTyped : List Filter.TypedValue → Prop
  | [] => True
  | item :: rest => FitsTyped item ∧ FitsAllTyped rest

end

mutual

theorem compileLiteral_ofRust : {value : Filter.TypedValue} → {literal : Filter.Literal} →
    Filter.compileLiteral value = .ok literal → FitsTyped value →
    compileLiteral (.ofRust value) = .ok (.ofRust literal) ∧ FitsLiteral literal
  | .null, literal, h, _ => by
    cases h
    exact ⟨rfl, trivial⟩
  | .boolean value, literal, h, _ => by
    cases h
    exact ⟨rfl, trivial⟩
  | .int value, literal, h, hfits => by
    cases h
    exact ⟨rfl, hfits⟩
  | .long value, literal, h, hfits => by
    cases h
    exact ⟨rfl, hfits⟩
  | .double value, literal, h, _ => by
    cases h
    exact ⟨rfl, trivial⟩
  | .string value, literal, h, _ => by
    cases h
    exact ⟨rfl, trivial⟩
  | .list items, literal, h, hfits => by
    obtain ⟨literals, hliterals, rfl⟩ := map_ok.1 h
    obtain ⟨hcompile, hlist⟩ := compileLiterals_ofRust hliterals hfits
    refine ⟨?_, hlist⟩
    rw [TypedValue.ofRust, compileLiteral, hcompile]
    rfl
  | .other text, literal, h, _ => by cases h

theorem compileLiterals_ofRust : {items : List Filter.TypedValue} → {literals : List Filter.Literal} →
    Filter.compileLiterals items = .ok literals → FitsAllTyped items →
    compileLiterals (ofRustTyped items) = .ok (ofRustLiterals literals) ∧ FitsLiterals literals
  | [], literals, h, _ => by
    cases h
    exact ⟨rfl, trivial⟩
  | item :: rest, literals, h, hfits => by
    simp only [Filter.compileLiterals, bind_ok, pure_ok] at h
    obtain ⟨first, hfirst, others, hothers, rfl⟩ := h
    obtain ⟨hitem, hfitsFirst⟩ := compileLiteral_ofRust hfirst hfits.1
    obtain ⟨hrest, hfitsRest⟩ := compileLiterals_ofRust hothers hfits.2
    refine ⟨?_, hfitsFirst, hfitsRest⟩
    rw [ofRustTyped, compileLiterals, hitem, hrest]
    rfl

end

section

variable {host : Filter.Host}

/-- A literal that is no list. -/
theorem compileComparable_ofRust {coerce : Coerce} {value : Filter.TypedValue} {literal : Filter.CoercedLiteral}
    (hlist : ∀ items, value ≠ .list items) (h : Filter.compileCoercedLiteral host coerce value = .ok literal) :
    compileCoercedLiteral coerce (.ofRust value) = .ok (.ofRust literal) := by
  have hjs : ∀ items, TypedValue.ofRust value ≠ .list items := by
    cases value with
    | list items => exact absurd rfl (hlist items)
    | _ => exact fun _ => nofun
  rw [Filter.compileCoercedLiteral] at h
  · rw [compileCoercedLiteral, comparableLiteral_ofRust]
    · split at h
      · rename_i micros hcomparable
        cases h
        rw [hcomparable]
        rfl
      · rename_i decimal hcomparable
        cases h
        rw [hcomparable]
        rfl
      · cases h
    · exact hjs
  · exact hlist

mutual

theorem compileCoercedLiteral_ofRust {coerce : Coerce} : {value : Filter.TypedValue} → {literal : Filter.CoercedLiteral} →
    Filter.compileCoercedLiteral host coerce value = .ok literal →
    compileCoercedLiteral coerce (.ofRust value) = .ok (.ofRust literal)
  | .list items, literal, h => by
    obtain ⟨literals, hliterals, rfl⟩ := map_ok.1 h
    rw [TypedValue.ofRust, compileCoercedLiteral, compileCoercedLiterals_ofRust hliterals]
    rfl
  | .null, literal, h => compileComparable_ofRust nofun h
  | .boolean value, literal, h => compileComparable_ofRust nofun h
  | .int value, literal, h => compileComparable_ofRust nofun h
  | .long value, literal, h => compileComparable_ofRust nofun h
  | .double value, literal, h => compileComparable_ofRust nofun h
  | .string value, literal, h => compileComparable_ofRust nofun h
  | .other text, literal, h => compileComparable_ofRust nofun h

theorem compileCoercedLiterals_ofRust {coerce : Coerce} : {items : List Filter.TypedValue} →
    {literals : List Filter.CoercedLiteral} → Filter.compileCoercedLiterals host coerce items = .ok literals →
    compileCoercedLiterals coerce (ofRustTyped items) = .ok (ofRustCoerced literals)
  | [], literals, h => by
    cases h
    rfl
  | item :: rest, literals, h => by
    simp only [Filter.compileCoercedLiterals, bind_ok, pure_ok] at h
    obtain ⟨first, hfirst, others, hothers, rfl⟩ := h
    rw [ofRustTyped, compileCoercedLiterals, compileCoercedLiteral_ofRust hfirst, compileCoercedLiterals_ofRust hothers]
    rfl

end

end

/-! ## Text predicates -/

def TextPredicate.ofRust (predicate : Filter.TextPredicate) : TextPredicate :=
  ⟨jsText predicate.field, predicate.kind, jsText predicate.pattern, predicate.caseInsensitive⟩

def GlobToken.ofRust : Filter.GlobToken → GlobToken
  | .anyRun => .run
  | .anyOne => .one
  | .literal character => .literal character.toNat

theorem globTokensFrom_ofRust (pattern : List Char) :
    globTokensFrom (pattern.map Char.toNat) = (Filter.globTokens pattern).map fun tokens => tokens.map .ofRust := by
  have hne {c d : Char} (h : c ≠ d) : c.toNat ≠ d.toNat := fun heq => h (Char.toNat_inj.1 heq)
  have hcons (token : Filter.GlobToken) (tokens : Option (List Filter.GlobToken)) :
      (tokens.map fun tokens => tokens.map GlobToken.ofRust).map (GlobToken.ofRust token :: ·) =
        (tokens.map (token :: ·)).map fun tokens => tokens.map GlobToken.ofRust := by
    cases tokens <;> rfl
  induction pattern using Filter.globTokens.induct with
  | case1 => rfl
  | case2 => rfl
  | case3 c rest ih =>
    rw [List.map_cons, List.map_cons, globTokensFrom, if_neg (by decide), if_neg (by decide), if_pos rfl, ih]
    exact hcons (.literal c) _
  | case4 rest ih =>
    rw [List.map_cons, globTokensFrom.eq_def]
    dsimp only
    rw [if_pos rfl, ih]
    exact hcons .anyRun _
  | case5 rest ih =>
    rw [List.map_cons, globTokensFrom.eq_def]
    dsimp only
    rw [if_neg (by decide), if_pos rfl, ih]
    exact hcons .anyOne _
  | case6 c rest hslash hrun hone ih =>
    rw [List.map_cons, globTokensFrom.eq_def]
    dsimp only
    rw [if_neg (hne hrun), if_neg (hne hone), if_neg (hne hslash), ih, Filter.globTokens]
    · exact hcons (.literal c) _
    · exact hslash
    · exact hrun
    · exact hone

/-- The tokens of both clients match the same texts. -/
theorem globMatches_ofRust (tokens : List Filter.GlobToken) (text : List Char) :
    GlobMatches (tokens.map .ofRust) (text.map Char.toNat) ↔ Filter.TokensMatch (fun c => [c]) tokens text := by
  induction tokens generalizing text with
  | nil => exact List.map_eq_nil_iff
  | cons token tokens ih =>
    cases token with
    | anyRun =>
      constructor
      · rintro ⟨skipped, rest, htext, h⟩
        obtain ⟨run, behind, rfl, rfl, rfl⟩ := List.map_eq_append_iff.1 htext
        exact ⟨run, behind, rfl, (ih behind).1 h⟩
      · rintro ⟨run, rest, rfl, h⟩
        exact ⟨run.map Char.toNat, rest.map Char.toNat, List.map_append, (ih rest).2 h⟩
    | anyOne =>
      constructor
      · rintro ⟨character, rest, htext, h⟩
        obtain ⟨c, behind, rfl, rfl, rfl⟩ := List.map_eq_cons_iff.1 htext
        exact ⟨c, behind, rfl, (ih behind).1 h⟩
      · rintro ⟨c, rest, rfl, h⟩
        exact ⟨c.toNat, rest.map Char.toNat, rfl, (ih rest).2 h⟩
    | literal d =>
      constructor
      · rintro ⟨rest, htext, h⟩
        obtain ⟨c, behind, rfl, hc, rfl⟩ := List.map_eq_cons_iff.1 htext
        obtain rfl := Char.toNat_inj.1 hc
        exact ⟨behind, rfl, (ih behind).1 h⟩
      · rintro ⟨rest, rfl, h⟩
        exact ⟨rest.map Char.toNat, rfl, (ih rest).2 h⟩

/-- A text predicate without case folding and without a regular expression. -/
def Plain (predicate : Filter.TextPredicate) : Prop := predicate.caseInsensitive = false ∧ predicate.kind ≠ .regex

section

variable {host : Filter.Host} (js : JsHost)

/-- A matcher that judges every text alike. -/
def MatchesAlike (host : Filter.Host) (matcher : Filter.TextMatcher) (other : TextMatcher) : Prop :=
  ∀ text, other.matches js (jsText text) = matcher.matches host text

theorem glob_matches_alike (hregex : Filter.StandardRegex host) {predicate : Filter.TextPredicate}
    {matcher : Filter.TextMatcher} (hkind : predicate.kind = .glob) (hcase : predicate.caseInsensitive = false)
    (h : Filter.TextMatcher.compile host predicate = .ok matcher) :
    ∃ other, TextMatcher.of js (.ofRust predicate) = .ok other ∧ MatchesAlike js host matcher other := by
  obtain ⟨field, kind, pattern, caseInsensitive⟩ := predicate
  dsimp only at hkind hcase
  subst hkind hcase
  obtain ⟨tokens, htokens, rfl⟩ := Filter.compile_glob_parts h
  have hunits : globTokens (jsText pattern) = some (tokens.map .ofRust) := by
    rw [globTokens, jsText, codePoints_utf16, globTokensFrom_ofRust, htokens]
    rfl
  have hfolded : (tokens.map GlobToken.ofRust).flatMap (foldedToken js false) = tokens.map .ofRust := by
    have hone : foldedToken js false = fun token => [token] := by
      funext token
      cases token <;> rfl
    rw [hone, List.flatMap_singleton']
  refine ⟨⟨.glob, false, jsText pattern, some (GlobProgram.ofTokens (tokens.map .ofRust)), none⟩, ?_, ?_⟩
  · simp only [TextMatcher.of, TextMatcher.new, TextPredicate.ofRust, hunits, hfolded]
    rfl
  · intro text
    have hspell : Filter.literalText host false = fun c => [c] := by
      funext c
      rfl
    have hrust := @Filter.isMatch_glob host hregex false tokens text
    rw [hspell] at hrust
    rw [Bool.eq_iff_iff]
    refine Iff.trans ?_ hrust.symm
    show (GlobProgram.ofTokens (tokens.map .ofRust)).matches (jsText text) = true ↔ _
    rw [GlobProgram.matches, matchesFrom_ofTokens, jsText, codePoints_utf16]
    exact globMatches_ofRust tokens text.toList

theorem plain_matches_alike (hregex : Filter.StandardRegex host) {predicate : Filter.TextPredicate}
    {matcher : Filter.TextMatcher} (hplain : Plain predicate)
    (h : Filter.TextMatcher.compile host predicate = .ok matcher) :
    ∃ other, TextMatcher.of js (.ofRust predicate) = .ok other ∧ MatchesAlike js host matcher other := by
  by_cases hglob : predicate.kind = .glob
  · exact glob_matches_alike js hregex hglob hplain.1 h
  · obtain ⟨field, kind, pattern, caseInsensitive⟩ := predicate
    obtain ⟨hcase, hkind⟩ := hplain
    dsimp only at hcase hkind hglob
    subst hcase
    have hmatcher : matcher = ⟨kind, pattern, false, .plain pattern⟩ := by
      simp only [Filter.TextMatcher.compile, bind_ok, pure_ok] at h
      obtain ⟨_, -, program, hprogram, rfl⟩ := h
      cases kind with
      | glob => exact absurd rfl hglob
      | regex => exact absurd rfl hkind
      | _ =>
        cases hprogram
        rfl
    refine ⟨⟨kind, false, jsText pattern, none, none⟩, ?_, ?_⟩
    · simp [TextMatcher.of, TextMatcher.new, TextPredicate.ofRust, hglob, hkind]
    · intro text
      rw [hmatcher]
      cases kind with
      | equals => exact jsText_beq text pattern
      | prefixed => exact isPrefixOf_jsText pattern text
      | suffix => exact isSuffixOf_jsText pattern text
      | contains => exact includes_jsText text pattern
      | glob => exact absurd rfl hglob
      | regex => exact absurd rfl hkind

end

end LaserSdk.Typescript

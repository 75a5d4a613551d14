import LaserSdk.Filter.Expr
/-!
# Comparing one value

The truth of one comparison between a value of the payload or a header and a
literal, and whether the two have kinds that can be compared at all.
-/

namespace LaserSdk.Filter

inductive Truth where
  | isMatch
  | noMatch
  | unknown
  deriving DecidableEq, Repr

def truthOf (matched : Bool) : Truth := if matched then .isMatch else .noMatch

inductive CoercedLiteral where
  | instant (micros : Int)
  | decimal (decimal : ExactDecimal)
  | list (items : List CoercedLiteral)
  deriving Repr

inductive Comparable where
  | instant (micros : Int)
  | decimal (decimal : ExactDecimal)
  deriving DecidableEq, Repr

/-! ## Scalars -/

def scalarOf : Value → Scalar
  | .null => .null
  | .bool value => .bool value
  | .number (.integer value) => .int value
  | .number (.float value) => .float value
  | .string text => .text text
  | .array _ | .object _ => .composite

def scalarCmp (scalar : Scalar) (literal : Literal) : Option Ordering :=
  match scalar, literal with
  | .int left, .int right => some (compare left right)
  | .float left, .float right => left.partialCmp right
  | .int left, .float right => (exactDouble left).bind (·.partialCmp right)
  | .float left, .int right => (exactDouble right).bind left.partialCmp
  | .text left, .text right => some (compare left right)
  | _, _ => none

def scalarEq (scalar : Scalar) (literal : Literal) : Option Bool :=
  match scalar, literal with
  | .bool left, .bool right => some (left == right)
  | .text left, .text right => some (left == right)
  | scalar, literal => (scalarCmp scalar literal).map (· == .eq)

def orderingTruth (op : CmpOp) (ordering : Ordering) : Bool :=
  match op with
  | .lt => ordering == .lt
  | .lte => ordering != .gt
  | .gt => ordering == .gt
  | _ => ordering != .lt

/-- The loop of `in` over the items. -/
def inTruth (scalar : Scalar) (unknown : Bool) : List Literal → Truth
  | [] => if unknown then .unknown else .noMatch
  | item :: rest =>
    match scalarEq scalar item with
    | some true => .isMatch
    | some false => inTruth scalar unknown rest
    | none => inTruth scalar true rest

def compareOp (scalar : Scalar) (field : Option Value) (op : CmpOp) (literal : Literal) : Truth :=
  match op with
  | .eq => ((scalarEq scalar literal).map truthOf).getD .unknown
  | .ne => ((scalarEq scalar literal).map fun equal => truthOf (!equal)).getD .unknown
  | .lt | .lte | .gt | .gte => ((scalarCmp scalar literal).map fun o => truthOf (orderingTruth op o)).getD .unknown
  | .in =>
    match literal with
    | .list items => inTruth scalar false items
    | _ => .unknown
  | .contains =>
    match scalar, literal, field with
    | .text text, .text needle, _ => truthOf (containsText text needle)
    | .composite, literal, some (.array elements) =>
      truthOf (elements.any fun element => scalarEq (scalarOf element) literal == some true)
    | _, _, _ => .unknown
  | .prefixed =>
    match scalar, literal with
    | .text text, .text start => truthOf (start.toList.isPrefixOf text.toList)
    | _, _ => .unknown

def compareScalar (scalar : Scalar) (field : Option Value) (op : CmpOp) (literal : Literal) : Truth :=
  match scalar, literal with
  | .null, .null => truthOf (op == .eq)
  | .null, _ => .unknown
  | _, .null => truthOf (op == .ne)
  | _, _ => compareOp scalar field op literal

mutual

/-- Whether the value's kind can be compared with the literal's kind at all. -/
def comparable (scalar : Scalar) (field : Option Value) (op : CmpOp) : Literal → Bool
  | .null => true
  | .list items => scalar == .null || anyComparable scalar field op items
  | .text _ =>
    match scalar with
    | .null | .text _ => true
    | .composite => op == .contains && field.any fun | .array _ => true | _ => false
    | _ => false
  | .bool _ =>
    match scalar with
    | .null | .bool _ => true
    | .composite => op == .contains && field.any fun | .array _ => true | _ => false
    | _ => false
  | .int _ | .float _ =>
    match scalar with
    | .null | .int _ | .float _ => true
    | .composite => op == .contains && field.any fun | .array _ => true | _ => false
    | _ => false

def anyComparable (scalar : Scalar) (field : Option Value) (op : CmpOp) : List Literal → Bool
  | [] => false
  | item :: rest => comparable scalar field op item || anyComparable scalar field op rest

end

/-- A missing field is unknown, except for the null tests. -/
def missingTruth (op : CmpOp) (literal : Literal) : Truth :=
  match op, literal with
  | .eq, .null => .isMatch
  | .ne, .null => .noMatch
  | _, _ => .unknown

/-! ## Coerced values -/

def Comparable.cmp (comparable : Comparable) (literal : CoercedLiteral) : Option Ordering :=
  match comparable, literal with
  | .instant left, .instant right => some (compare left right)
  | .decimal left, .decimal right => some (left.cmp right)
  | _, _ => none

def compareCoerced (comparable : Comparable) (op : CmpOp) (literal : CoercedLiteral) : Truth :=
  match op, literal with
  | .in, .list items => truthOf (items.any fun item => comparable.cmp item == some .eq)
  | op, literal =>
    match comparable.cmp literal with
    | none => .unknown
    | some ordering =>
      match op with
      | .eq => truthOf (ordering == .eq)
      | .ne => truthOf (ordering != .eq)
      | .lt | .lte | .gt | .gte => truthOf (orderingTruth op ordering)
      | .in | .contains | .prefixed => .unknown

def numberDecimal (host : Host) : Number → Option ExactDecimal
  | .integer value => some (.fromInteger value)
  | .float value => if value.isFinite then ExactDecimal.parse (host.doubleText value) else none

def coerceValue (host : Host) (coerce : Coerce) (field : Value) : Option Comparable :=
  match coerce with
  | .timestamp format =>
    (match format, field with
      | format, .string text => format.microsFromText text
      | .rfc3339, _ => none
      | format, .number (.integer value) => format.microsFromInteger value
      | _, _ => none).map .instant
  | .number =>
    (match field with
      | .string text => ExactDecimal.parse text
      | .number number => numberDecimal host number
      | _ => none).map .decimal

end LaserSdk.Filter

import Mathlib
/-!
# Values

Doubles, JSON values as the decoder builds them, header values and the
literals of a filter. A double is its sign, mantissa and exponent, so that
comparing two of them is exact.
-/

namespace LaserSdk.Filter

/-! ## Doubles -/

inductive F64 where
  | nan
  | infinite (negative : Bool)
  /-- `mantissa * 2 ^ exponent`. -/
  | finite (mantissa : Int) (exponent : Int)
  deriving DecidableEq, Repr

namespace F64

def isFinite : F64 → Bool
  | finite _ _ => true
  | _ => false

/-- Both mantissas at the smaller exponent. -/
def partialCmp : F64 → F64 → Option Ordering
  | nan, _ | _, nan => none
  | infinite left, infinite right =>
    some (if left = right then .eq else if left then .lt else .gt)
  | infinite negative, finite _ _ => some (if negative then .lt else .gt)
  | finite _ _, infinite negative => some (if negative then .gt else .lt)
  | finite m e, finite m' e' =>
    some (compare (m * 2 ^ (e - min e e').toNat) (m' * 2 ^ (e' - min e e').toNat))

end F64

/-- Trailing zero bits of an unsigned number of `width` bits. -/
def trailingZeros : (width : Nat) → Nat → Nat
  | 0, _ => 0
  | width + 1, n => if n % 2 = 1 then 0 else 1 + trailingZeros width (n / 2)

/-- The bits from the highest one down. -/
def significantBits (n : Nat) : Nat := if n = 0 then 0 else n.log2 + 1

/-- The double equal to an integer, if there is one. -/
def exactDouble (value : Int) : Option F64 :=
  let magnitude := value.natAbs
  let bits := significantBits magnitude
  if bits ≤ 53 ∨ trailingZeros 128 magnitude ≥ bits - 53 then some (.finite value 0) else none

/-! ## JSON values -/

inductive Number where
  /-- An `i64` or a `u64`. -/
  | integer (value : Int)
  /-- A finite double. -/
  | float (value : F64)
  deriving DecidableEq, Repr

inductive Value where
  | null
  | bool (value : Bool)
  | number (number : Number)
  | string (text : String)
  | array (items : List Value)
  | object (fields : List (String × Value))
  deriving Repr

/-- Insert into a map: a present key keeps its place and gets the new value. -/
def mapInsert {α : Type} (fields : List (String × α)) (key : String) (value : α) : List (String × α) :=
  if fields.any (·.1 == key) then fields.map fun field => if field.1 == key then (key, value) else field
  else fields ++ [(key, value)]

theorem lookup_map_replace {α : Type} (fields : List (String × α)) (key : String) (value : α) (other : String) :
    (fields.map fun field => if field.1 == key then (key, value) else field).lookup other =
      if other = key then (fields.lookup key).map fun _ => value else fields.lookup other := by
  induction fields with
  | nil => simp
  | cons field rest ih =>
    obtain ⟨name, held⟩ := field
    rw [List.map_cons]
    by_cases hname : name = key
    · subst hname
      by_cases h : other = name
      · simp [h]
      · simpa [List.lookup_cons, h, beq_false_of_ne h] using ih
    · simp only [beq_false_of_ne hname, Bool.false_eq_true, if_false, List.lookup_cons, ih]
      by_cases h : other = key
      · subst h
        simp [beq_false_of_ne (Ne.symm hname)]
      · simp [h]

theorem lookup_mapInsert {α : Type} (fields : List (String × α)) (key : String) (value : α) (other : String) :
    (mapInsert fields key value).lookup other = if other = key then some value else fields.lookup other := by
  unfold mapInsert
  split
  · rename_i hpresent
    rw [lookup_map_replace]
    by_cases h : other = key
    · obtain ⟨field, hfield, hkey⟩ := List.any_eq_true.1 hpresent
      have hsome : (fields.lookup key).isSome = true :=
        List.lookup_isSome_iff.2 ⟨field, hfield, beq_iff_eq.2 (beq_iff_eq.1 hkey).symm⟩
      obtain ⟨held, hheld⟩ := Option.isSome_iff_exists.1 hsome
      simp [h, hheld]
    · simp [h]
  · rename_i hpresent
    have hnone : fields.lookup key = none := by
      refine List.lookup_eq_none_iff.2 fun field hfield => ?_
      have hkey := List.any_eq_false.1 (Bool.eq_false_iff.2 hpresent) field hfield
      exact bne_iff_ne.2 fun h => hkey (beq_iff_eq.2 h.symm)
    rw [List.lookup_append]
    by_cases h : other = key
    · simp [h, hnone]
    · simp [List.lookup_cons, beq_false_of_ne h, h]

/-! ## Headers and literals -/

inductive HeaderValue where
  | bool (value : Bool)
  | int (value : Int)
  | uint (value : Nat)
  | float (value : F64)
  | string (value : String)
  | raw (bytes : List UInt8)
  deriving DecidableEq, Repr

structure Header where
  key : String
  value : HeaderValue
  deriving DecidableEq, Repr

inductive CmpOp where
  | eq | ne | lt | lte | gt | gte | in | contains | prefixed
  deriving DecidableEq, Repr

/-- A typed literal. `other` is any kind a filter refuses, with its text. -/
inductive TypedValue where
  | null
  | boolean (value : Bool)
  | int (value : Int)
  | long (value : Int)
  | double (value : F64)
  | string (value : String)
  | list (items : List TypedValue)
  | other (text : String)
  deriving Repr

inductive Literal where
  | null
  | bool (value : Bool)
  | int (value : Int)
  | float (value : F64)
  | text (value : String)
  | list (items : List Literal)
  deriving Repr

/-- A value read from the payload or a header, ready to compare. -/
inductive Scalar where
  | null
  | bool (value : Bool)
  | int (value : Int)
  | float (value : F64)
  | text (value : String)
  | composite
  deriving DecidableEq, Repr

end LaserSdk.Filter

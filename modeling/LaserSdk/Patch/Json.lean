import Mathlib
import LaserSdk.Lib.Sorted
/-!
# State documents

JSON values as both engines hold them. A JavaScript object and a Rust map
know no order of their members, so a `Canonical` value lists them by key and
two documents are the same exactly when they are equal. A patch never looks
into the numbers it carries, so they are of any type where nothing depends on
them, and otherwise the integers both engines hold alike.
-/

namespace LaserSdk.Patch

open Lib

inductive Json (ν : Type := Int) where
  | null
  | bool (value : Bool)
  | number (value : ν)
  | string (text : String)
  | array (items : List (Json ν))
  | object (members : List (String × Json ν))
  deriving Repr

/-! ## Canonical values -/

mutual

def Json.Canonical : Json → Prop
  | .array items => CanonicalItems items
  | .object members => SortedKeys members ∧ CanonicalMembers members
  | _ => True

def CanonicalItems : List Json → Prop
  | [] => True
  | item :: rest => item.Canonical ∧ CanonicalItems rest

def CanonicalMembers : List (String × Json) → Prop
  | [] => True
  | (_, value) :: rest => value.Canonical ∧ CanonicalMembers rest

end

theorem canonicalMembers_iff {members : List (String × Json)} :
    CanonicalMembers members ↔ ∀ member ∈ members, member.2.Canonical := by
  induction members with
  | nil => simp [CanonicalMembers]
  | cons member rest ih => simp [CanonicalMembers, ih]

/-! ## Equality -/

section

variable {ν : Type} [DecidableEq ν]

mutual

def Json.same : Json ν → Json ν → Bool
  | .null, .null => true
  | .bool a, .bool b => a == b
  | .number a, .number b => a == b
  | .string a, .string b => a == b
  | .array a, .array b => sameItems a b
  | .object a, .object b => sameMembers a b
  | _, _ => false

def sameItems : List (Json ν) → List (Json ν) → Bool
  | [], [] => true
  | a :: as, b :: bs => a.same b && sameItems as bs
  | _, _ => false

def sameMembers : List (String × Json ν) → List (String × Json ν) → Bool
  | [], [] => true
  | (k, a) :: as, (l, b) :: bs => k == l && a.same b && sameMembers as bs
  | _, _ => false

end

mutual

theorem Json.same_iff (a b : Json ν) : a.same b = true ↔ a = b := by
  cases a <;> cases b <;> simp [Json.same, sameItems_iff, sameMembers_iff]

theorem sameItems_iff (as bs : List (Json ν)) : sameItems as bs = true ↔ as = bs := by
  cases as <;> cases bs <;> simp [sameItems, Json.same_iff, sameItems_iff]

theorem sameMembers_iff (as bs : List (String × Json ν)) : sameMembers as bs = true ↔ as = bs := by
  cases as <;> cases bs <;> simp [sameMembers, Json.same_iff, sameMembers_iff, Prod.ext_iff, and_assoc]

end

instance : DecidableEq (Json ν) := fun a b => decidable_of_iff _ (Json.same_iff a b)

end

/-! ## Limits -/

def maxStatePatchOps : Nat := 256

def maxStateDocumentBytes : Nat := 8 * 1024 * 1024

def maxExactJsonInteger : Nat := 9007199254740991

mutual

/-- Every integer is exact in both languages. -/
def Json.exact : Json → Bool
  | .number value => value.natAbs ≤ maxExactJsonInteger
  | .array items => exactItems items
  | .object members => exactMembers members
  | _ => true

def exactItems : List Json → Bool
  | [] => true
  | item :: rest => item.exact && exactItems rest

def exactMembers : List (String × Json) → Bool
  | [] => true
  | (_, value) :: rest => value.exact && exactMembers rest

end

/-- The bytes of one character of a JSON string. -/
def charBytes (c : Char) : Nat :=
  if c = '"' || c = '\\' || c = '\n' || c = '\r' || c = '\t' || c.toNat = 8 || c.toNat = 12 then 2
  else if c.toNat < 32 then 6
  else c.utf8Size

def stringBytes (text : String) : Nat := (text.toList.map charBytes).sum + 2

mutual

/-- The bytes of the JSON text, which both serializers write alike. -/
def Json.bytes : Json → Nat
  | .null => 4
  | .bool value => if value then 4 else 5
  | .number value => (toString value).length
  | .string text => stringBytes text
  | .array items => itemsBytes items + 2
  | .object members => membersBytes members + 2

/-- Items with the commas between them. -/
def itemsBytes : List Json → Nat
  | [] => 0
  | [item] => item.bytes
  | item :: next :: rest => item.bytes + 1 + itemsBytes (next :: rest)

def membersBytes : List (String × Json) → Nat
  | [] => 0
  | [(key, value)] => stringBytes key + 1 + value.bytes
  | (key, value) :: next :: rest => stringBytes key + 1 + value.bytes + 1 + membersBytes (next :: rest)

end

end LaserSdk.Patch

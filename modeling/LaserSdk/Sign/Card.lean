import LaserSdk.Lib.Sorted
import LaserSdk.Lib.Utf8
import LaserSdk.Sign.Registry
import Mathlib.Data.String.Basic
/-!
# Signed cards

A card is signed as a detached JWS over its JSON text. The text is what the
serializer writes for the value, with the keys of an object in the order of the
map that holds them; only a number that is no integer is refused. The
serializer and the Ed25519 check are parameters.
-/

namespace LaserSdk.Sign

open LaserSdk.Lib

/-! ## Values -/

inductive Number where
  | posInt (value : UInt64)
  | negInt (value : Int64)
  /-- The bits of a double. -/
  | float (bits : UInt64)
  deriving DecidableEq, Repr

/-- `serde_json::Value`. -/
inductive JsonValue where
  | null
  | bool (value : Bool)
  | number (value : Number)
  | string (text : String)
  | array (items : List JsonValue)
  | object (members : List (String × JsonValue))
  deriving Repr

namespace Number

def isI64 : Number → Bool
  | .posInt value => value.toNat < 2 ^ 63
  | .negInt _ => true
  | .float _ => false

def isU64 : Number → Bool
  | .posInt _ => true
  | _ => false

/-- The integer of a number, if it is one. -/
def integer? : Number → Option Int
  | .posInt value => some value.toNat
  | .negInt value => some value.toInt
  | .float _ => none

end Number

/-- The nested induction of values. -/
theorem JsonValue.induction {motive : JsonValue → Prop} (null : motive .null) (bool : ∀ value, motive (.bool value))
    (number : ∀ value, motive (.number value)) (string : ∀ text, motive (.string text))
    (array : ∀ items, (∀ item ∈ items, motive item) → motive (.array items))
    (object : ∀ members, (∀ member ∈ members, motive member.2) → motive (.object members)) (value : JsonValue) :
    motive value := by
  refine @JsonValue.rec motive (fun items => ∀ item ∈ items, motive item)
    (fun members => ∀ member ∈ members, motive member.2) (fun member => motive member.2) null bool number string array
    object ?_ ?_ ?_ ?_ ?_ value
  · simp
  · intro item items hitem hitems
    exact List.forall_mem_cons.2 ⟨hitem, hitems⟩
  · simp
  · intro member members hmember hmembers
    exact List.forall_mem_cons.2 ⟨hmember, hmembers⟩
  · intro key value hvalue
    exact hvalue

mutual

/-- An object is a `BTreeMap`: its keys are sorted by their bytes, which is the
order of their characters. -/
def JsonValue.Sorted : JsonValue → Prop
  | .array items => SortedItems items
  | .object members => SortedKeys members ∧ SortedMembers members
  | _ => True

def SortedItems : List JsonValue → Prop
  | [] => True
  | item :: rest => item.Sorted ∧ SortedItems rest

def SortedMembers : List (String × JsonValue) → Prop
  | [] => True
  | (_, value) :: rest => value.Sorted ∧ SortedMembers rest

end

/-! ## The text -/

mutual

def assertNoFloats : JsonValue → Except LaserError Unit
  | .number number =>
    if !number.isI64 && !number.isU64 then
      .error (.signature "card canonicalization does not cover non-integer numbers")
    else .ok ()
  | .array items => assertItems items
  | .object members => assertMembers members
  | _ => .ok ()

def assertItems : List JsonValue → Except LaserError Unit
  | [] => .ok ()
  | item :: rest => do
    assertNoFloats item
    assertItems rest

def assertMembers : List (String × JsonValue) → Except LaserError Unit
  | [] => .ok ()
  | (_, value) :: rest => do
    assertNoFloats value
    assertMembers rest

end

def jcsBytes (toVec : JsonValue → Except String Bytes) (value : JsonValue) : Except LaserError Bytes := do
  assertNoFloats value
  (toVec value).mapError fun error => .codec s!"canonicalize: {error}"

def withoutSignatures : JsonValue → JsonValue
  | .object members => .object (eraseKey "signatures" members)
  | card => card

/-! ## The serializer -/

def hexByte (digit : Nat) : UInt8 := if digit < 10 then .ofNat (48 + digit) else .ofNat (87 + digit)

/-- The escape table of `serde_json`, byte by byte. -/
def escapeByte (byte : UInt8) : Bytes :=
  if byte = 8 then [92, 98]
  else if byte = 9 then [92, 116]
  else if byte = 10 then [92, 110]
  else if byte = 12 then [92, 102]
  else if byte = 13 then [92, 114]
  else if byte < 32 then [92, 117, 48, 48, hexByte (byte.toNat / 16), hexByte (byte.toNat % 16)]
  else if byte = 34 then [92, 34]
  else if byte = 92 then [92, 92]
  else [byte]

def quoted (text : String) : Bytes := 34 :: text.toUTF8.toList.flatMap escapeByte ++ [34]

def boolText (value : Bool) : Bytes := if value then [116, 114, 117, 101] else [102, 97, 108, 115, 101]

/-- Texts with commas between them. -/
def joined : List Bytes → Bytes
  | [] => []
  | text :: rest => text ++ rest.flatMap (44 :: ·)

/-- What `serde_json::to_vec` writes for a value: no white space, the members of
an object in the order of its map, integers with all their digits. -/
structure Compact (toVec : JsonValue → Except String Bytes) : Prop where
  null : toVec .null = .ok [110, 117, 108, 108]
  bool : ∀ value, toVec (.bool value) = .ok (boolText value)
  integer : ∀ number n, number.integer? = some n → toVec (.number number) = .ok (toString n).toUTF8.toList
  string : ∀ text, toVec (.string text) = .ok (quoted text)
  array : ∀ items texts, List.Forall₂ (fun item text => toVec item = .ok text) items texts →
    toVec (.array items) = .ok (91 :: joined texts ++ [93])
  object : ∀ members texts, List.Forall₂ (fun member text => toVec member.2 = .ok text) members texts →
    toVec (.object members) = .ok (123 :: joined (List.zipWith (fun member text => quoted member.1 ++ 58 :: text) members
      texts) ++ [125])

/-! ## The signature -/

/-- `jws_signing_input` for any protected header. -/
def jwsSigningInputOf (protectedHeader payload : Bytes) : Bytes := protectedHeader ++ 46 :: base64url payload

def valueOf (byte : UInt8) : Except LaserError Nat :=
  if 65 ≤ byte ∧ byte ≤ 90 then .ok (byte.toNat - 65)
  else if 97 ≤ byte ∧ byte ≤ 122 then .ok (byte.toNat - 97 + 26)
  else if 48 ≤ byte ∧ byte ≤ 57 then .ok (byte.toNat - 48 + 52)
  else if byte = 45 then .ok 62
  else if byte = 95 then .ok 63
  else .error (.signature "invalid base64url")

def base64urlDecode : Bytes → Except LaserError Bytes
  | [] => .ok []
  | [_] => .error (.signature "truncated base64url")
  | [a, b] => do
    let index := (← valueOf a) * 64 + (← valueOf b)
    let index := index * 4096
    return [UInt8.ofNat (index / 65536)]
  | [a, b, c] => do
    let index := ((← valueOf a) * 64 + (← valueOf b)) * 64 + (← valueOf c)
    let index := index * 64
    return [UInt8.ofNat (index / 65536), UInt8.ofNat (index / 256)]
  | a :: b :: c :: d :: rest => do
    let index := (((← valueOf a) * 64 + (← valueOf b)) * 64 + (← valueOf c)) * 64 + (← valueOf d)
    let rest ← base64urlDecode rest
    return UInt8.ofNat (index / 65536) :: UInt8.ofNat (index / 256) :: UInt8.ofNat index :: rest

/-- The texts of a card signature, as their bytes. -/
structure AgentCardSignature where
  protectedHeader : Bytes
  signature : Bytes
  deriving DecidableEq, Repr

def verifyCard (crypto : Crypto) (toVec : JsonValue → Except String Bytes) (card : JsonValue)
    (signature : AgentCardSignature) (verifying : Bytes) : Except LaserError Unit := do
  let payload ← jcsBytes toVec (withoutSignatures card)
  let input := jwsSigningInputOf signature.protectedHeader payload
  let decoded ← base64urlDecode signature.signature
  if decoded.length ≠ signatureBytes then .error (.signature "card signature is not 64 bytes")
  else if crypto.verify verifying input decoded then .ok ()
  else .error (.signature "card signature does not verify")

end LaserSdk.Sign

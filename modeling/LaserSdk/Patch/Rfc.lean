import LaserSdk.Patch.Json
import LaserSdk.Patch.Pointer
/-!
# The Rust side

`apply_json_patch` hands a patch to the `json_patch` crate between checks of
the shared limits. The crate is taken to do what RFC 6902 says, which leaves
one thing open: what is left when a patch takes the whole document away.
-/

namespace LaserSdk.Patch

open Lib

variable {ν : Type}

/-! ## Containers -/

def isDigit (c : Char) : Bool := '0' ≤ c && c ≤ '9'

/-- An array index: decimal digits without a leading zero. -/
def decimalIndex (token : String) : Option Nat :=
  match token.toList with
  | [] => none
  | c :: rest =>
    if (c = '0' && rest.isEmpty) || (c ≠ '0' && isDigit c && rest.all isDigit) then
      some ((c :: rest).foldl (fun value digit => value * 10 + (digit.toNat - '0'.toNat)) 0)
    else none

/-- What a token addresses in a container. -/
def child : Json ν → String → Option (Json ν)
  | .object members, token => members.lookup token
  | .array items, token => (decimalIndex token).bind (items[·]?)
  | _, _ => none

/-- The container with another value where the token points. -/
def setChild : Json ν → String → Json ν → Json ν
  | .object members, token, value => .object (insertKey token value members)
  | .array items, token, value =>
    match decimalIndex token with
    | some index => .array (items.set index value)
    | none => .array items
  | other, _, _ => other

/-! ## RFC 6902 -/

inductive Operation (ν : Type := Int) where
  | add (path : List String) (value : Json ν)
  | remove (path : List String)
  | replace (path : List String) (value : Json ν)
  | move (source path : List String)
  | copy (source path : List String)
  | test (path : List String) (value : Json ν)
  deriving DecidableEq, Repr

/-- What a library that follows RFC 6902 may still choose: what is left when
the root is removed, if it allows that, and how it words a refusal. -/
structure Crate (ν : Type := Int) where
  rootRemoved : Option (Json ν)
  refusal : String

def resolve (document : Json ν) (path : List String) : Option (Json ν) := path.foldlM child document

/-- Change the container that the last token is looked up in. -/
def atParent {α : Type} (change : Json ν → String → Option (Json ν × α)) : Json ν → List String → Option (Json ν × α)
  | _, [] => none
  | container, [token] => change container token
  | container, token :: next :: rest =>
    match child container token with
    | some inner =>
      match atParent change inner (next :: rest) with
      | some (inner, extra) => some (setChild container token inner, extra)
      | none => none
    | none => none

/-- A member is added or replaced, an item is inserted, `-` is the end. -/
def addChild (value : Json ν) : Json ν → String → Option (Json ν × Unit)
  | .object members, token => some (.object (insertKey token value members), ())
  | .array items, token =>
    let index := if token = "-" then some items.length else (decimalIndex token).filter (· ≤ items.length)
    index.map fun index => (.array (items.insertIdx index value), ())
  | _, _ => none

/-- The container without the value, and the value. -/
def removeChild : Json ν → String → Option (Json ν × Json ν)
  | .object members, token => (members.lookup token).map fun value => (.object (eraseKey token members), value)
  | .array items, token =>
    (decimalIndex token).bind fun index => items[index]?.map fun value => (.array (items.eraseIdx index), value)
  | _, _ => none

def addAt (document : Json ν) (path : List String) (value : Json ν) : Option (Json ν) :=
  if path.isEmpty then some value else (atParent (addChild value) document path).map (·.1)

def removeAt (crate : Crate ν) (document : Json ν) (path : List String) : Option (Json ν × Json ν) :=
  if path.isEmpty then crate.rootRemoved.map (·, document) else atParent removeChild document path

def replaceAt (document : Json ν) : List String → Json ν → Option (Json ν)
  | [], value => some value
  | token :: rest, value =>
    match child document token with
    | some inner => (replaceAt inner rest value).map (setChild document token)
    | none => none

def applyOperation [DecidableEq ν] (crate : Crate ν) (document : Json ν) : Operation ν → Option (Json ν)
  | .add path value => addAt document path value
  | .remove path => (removeAt crate document path).map (·.1)
  | .replace path value => replaceAt document path value
  | .move source path =>
    -- A value cannot be moved into one of its children.
    if source <+: path ∧ source ≠ path then none
    else (removeAt crate document source).bind fun (document, value) => addAt document path value
  | .copy source path => (resolve document source).bind fun value => addAt document path value
  | .test path value => (resolve document path).bind fun target => if target = value then some document else none

def patch [DecidableEq ν] (crate : Crate ν) (document : Json ν) (operations : List (Operation ν)) : Option (Json ν) :=
  operations.foldlM (applyOperation crate) document

/-! ## The form of a patch -/

def decodePath (members : List (String × Json ν)) (name : String) : Option (List String) :=
  match members.lookup name with
  | some (.string text) => parsePointer text
  | _ => none

def decodeOperation : Json ν → Option (Operation ν)
  | .object members =>
    match members.lookup "op", decodePath members "path" with
    | some (.string "add"), some path => (members.lookup "value").map (.add path ·)
    | some (.string "remove"), some path => some (.remove path)
    | some (.string "replace"), some path => (members.lookup "value").map (.replace path ·)
    | some (.string "move"), some path => (decodePath members "from").map (.move · path)
    | some (.string "copy"), some path => (decodePath members "from").map (.copy · path)
    | some (.string "test"), some path => (members.lookup "value").map (.test path ·)
    | _, _ => none
  | _ => none

def decodeOperations : List (Json ν) → Option (List (Operation ν))
  | [] => some []
  | raw :: rest =>
    match decodeOperation raw, decodeOperations rest with
    | some operation, some operations => some (operation :: operations)
    | _, _ => none

def decodePatch : Json ν → Option (List (Operation ν))
  | .array raws => decodeOperations raws
  | _ => none

def pointer (path : List String) : Json := .string (printPointer path)

/-- An operation as the crate writes it. -/
def Operation.encode : Operation → Json
  | .add path value => .object [("op", .string "add"), ("path", pointer path), ("value", value)]
  | .remove path => .object [("op", .string "remove"), ("path", pointer path)]
  | .replace path value => .object [("op", .string "replace"), ("path", pointer path), ("value", value)]
  | .move source path => .object [("from", pointer source), ("op", .string "move"), ("path", pointer path)]
  | .copy source path => .object [("from", pointer source), ("op", .string "copy"), ("path", pointer path)]
  | .test path value => .object [("op", .string "test"), ("path", pointer path), ("value", value)]

end LaserSdk.Patch

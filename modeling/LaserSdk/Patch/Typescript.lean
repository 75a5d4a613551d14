import LaserSdk.Patch.Rfc
/-!
# The TypeScript client's patch engine

The client has an engine of its own. It walks to the parent of a path and
writes through the reference it finds there, which is read here as the
document with that container changed. An array is shorter than the largest
exact integer, so an index past it is past the end.
-/

namespace LaserSdk.Patch.Typescript

open Lib

def arrayIndex (token : String) (length : Nat) (allowEnd : Bool) : Except String Nat :=
  if token = "-" && allowEnd then pure length
  else
    match decimalIndex token with
    | none => throw ("invalid JSON Patch array index `" ++ token ++ "`")
    | some index =>
      if index < (if allowEnd then length + 1 else length) then pure index
      else throw ("JSON Patch array index `" ++ token ++ "` is out of bounds")

def objectOf (value : Json) (path : String) : Except String (List (String × Json)) :=
  match value with
  | .object members => pure members
  | _ => throw ("JSON Patch path `" ++ path ++ "` does not address a container")

def missing (path : String) : String := "JSON Patch path `" ++ path ++ "` does not exist"

/-- One step of a walk. -/
def stepInto (path : String) (current : Json) (token : String) : Except String Json :=
  match current with
  | .array items => do
    let index ← arrayIndex token items.length false
    pure (items.getD index .null)
  | current => do
    let members ← objectOf current path
    match members.lookup token with
    | some value => pure value
    | none => throw (missing path)

def valueAt (document : Json) (path : String) : Except String Json := do
  let tokens ← decodePointer path
  tokens.foldlM (stepInto path) document

/-- Walk to the parent and change it, as `parentAt` and a write through its
result do. -/
def parentAt {α : Type} (path : String) (change : Json → String → Except String (Json × α)) :
    Json → List String → Except String (Json × α)
  | _, [] => throw "the document root has no parent"
  | container, [token] => change container token
  | container, token :: next :: rest => do
    let inner ← stepInto path container token
    let (inner, extra) ← parentAt path change inner (next :: rest)
    pure (setChild container token inner, extra)

def addInto (path : String) (value parent : Json) (token : String) : Except String (Json × Unit) :=
  match parent with
  | .array items => do
    let index ← arrayIndex token items.length true
    pure (.array (items.insertIdx index value), ())
  | parent => do
    let members ← objectOf parent path
    pure (.object (insertKey token value members), ())

def addValue (document : Json) (path : String) (value : Json) : Except String Json := do
  let tokens ← decodePointer path
  if tokens.isEmpty then pure value
  else
    let (document, _) ← parentAt path (addInto path value) document tokens
    pure document

def removeFrom (path : String) (parent : Json) (token : String) : Except String (Json × Json) :=
  match parent with
  | .array items => do
    let index ← arrayIndex token items.length false
    pure (.array (items.eraseIdx index), items.getD index .null)
  | parent => do
    let members ← objectOf parent path
    match members.lookup token with
    | some value => pure (.object (eraseKey token members), value)
    | none => throw (missing path)

/-- The document without the value, and the value. -/
def removeValue (document : Json) (path : String) : Except String (Json × Json) := do
  let tokens ← decodePointer path
  if tokens.isEmpty then pure (.null, document) else parentAt path (removeFrom path) document tokens

mutual

def equalJson : Json → Json → Bool
  | .null, .null => true
  | .bool a, .bool b => a == b
  | .number a, .number b => a == b
  | .string a, .string b => a == b
  | .array a, .array b => a.length == b.length && everyItem a b
  | .object a, .object b => a.length == b.length && everyMember a b
  | _, _ => false

def everyItem : List Json → List Json → Bool
  | value :: left, other :: right => equalJson value other && everyItem left right
  | _, _ => true

def everyMember : List (String × Json) → List (String × Json) → Bool
  | [], _ => true
  | (key, value) :: left, right =>
    (match right.lookup key with
      | some other => equalJson value other
      | none => false) && everyMember left right

end

def patchObject (value : Json) : Except String (List (String × Json)) :=
  match value with
  | .object members => pure members
  | _ => throw "each JSON Patch operation must be an object"

/-- The text of a member, if it is one. -/
def stringMember (operation : List (String × Json)) (name : String) : Option String :=
  match operation.lookup name with
  | some (.string text) => some text
  | _ => none

def requireValue (operation : List (String × Json)) (op : String) : Except String Json :=
  match operation.lookup "value" with
  | some value => pure value
  | none => throw ("JSON Patch " ++ op ++ " requires `value`")

def requireFrom (operation : List (String × Json)) (op : String) : Except String String :=
  match stringMember operation "from" with
  | some source => pure source
  | none => throw ("JSON Patch " ++ op ++ " requires `from`")

/-- One operation of the patch. -/
def applyOperation (result raw : Json) : Except String Json := do
  let operation ← patchObject raw
  match stringMember operation "op", stringMember operation "path" with
  | some op, some path =>
    match op with
    | "add" => do
      let value ← requireValue operation "add"
      addValue result path value
    | "remove" => do
      let (document, _) ← removeValue result path
      pure document
    | "replace" => do
      let value ← requireValue operation "replace"
      let _ ← valueAt result path
      let (document, _) ← removeValue result path
      addValue document path value
    | "move" => do
      let source ← requireFrom operation "move"
      if (source.toList ++ ['/']).isPrefixOf path.toList then throw "JSON Patch cannot move a value into its child"
      else
        let (document, value) ← removeValue result source
        addValue document path value
    | "copy" => do
      let source ← requireFrom operation "copy"
      let value ← valueAt result source
      addValue result path value
    | "test" => do
      let value ← requireValue operation "test"
      let target ← valueAt result path
      if equalJson target value then pure result else throw ("JSON Patch test failed at `" ++ path ++ "`")
    | op => throw ("unknown JSON Patch operation `" ++ op ++ "`")
  | _, _ => throw "a JSON Patch operation requires string `op` and `path`"

end LaserSdk.Patch.Typescript

import LaserSdk.Filter.Compare
/-!
# Decoding a JSON payload

The tokenizer delivers a payload as a tree of events. One visitor builds the
whole value, the other only what lies on the paths a filter reads. Both run
behind the same size and depth checks on the raw bytes.
-/

namespace LaserSdk.Filter

inductive FaultReason where
  | missingSchema | schemaNotAllowed | schemaMismatch | malformed | tooLarge | tooDeep | foreignCodec | typeMismatch
  deriving DecidableEq, Repr

structure DecodeLimits where
  maxPayloadBytes : Nat
  maxDepth : Nat
  deriving DecidableEq, Repr

def maxFilterParseDepth : Nat := 127

/-- What the tokenizer delivers. An object may repeat a key. -/
inductive Raw where
  | null
  | bool (value : Bool)
  | integer (value : Int)
  | float (value : F64)
  | string (text : String)
  | array (items : List Raw)
  | object (entries : List (String × Raw))
  deriving Repr

/-! ## Depth -/

mutual

/-- The scan outside strings, with the containers open so far. -/
def depthWithin (maxDepth depth : Nat) : List UInt8 → Bool
  | [] => true
  | byte :: rest =>
    if byte = 34 then stringWithin maxDepth depth rest
    else if byte = 91 ∨ byte = 123 then
      if depth + 1 > maxDepth then false else depthWithin maxDepth (depth + 1) rest
    else if byte = 93 ∨ byte = 125 then depthWithin maxDepth (depth - 1) rest
    else depthWithin maxDepth depth rest

/-- The scan inside a string: a backslash skips the next byte. -/
def stringWithin (maxDepth depth : Nat) : List UInt8 → Bool
  | [] => true
  | byte :: rest =>
    if byte = 34 then depthWithin maxDepth depth rest
    else if byte = 92 then
      match rest with
      | [] => true
      | _ :: rest => stringWithin maxDepth depth rest
    else stringWithin maxDepth depth rest

end

def jsonDepthWithin (payload : List UInt8) (maxDepth : Nat) : Bool := depthWithin maxDepth 0 payload

/-! ## Paths -/

/-- The payload paths a filter reads. -/
inductive PathTrie where
  | node (whole : Bool) (indices : List (UInt32 × PathTrie)) (keys : List (String × PathTrie))
  deriving Repr

namespace PathTrie

def whole : PathTrie → Bool
  | node whole _ _ => whole

def indices : PathTrie → List (UInt32 × PathTrie)
  | node _ indices _ => indices

def keys : PathTrie → List (String × PathTrie)
  | node _ _ keys => keys

def empty : PathTrie := node false [] []

def everything : PathTrie := node true [] []

def child (paths : PathTrie) (key : String) : Option PathTrie := paths.keys.lookup key

def index (paths : PathTrie) (index : UInt32) : Option PathTrie := paths.indices.lookup index

/-- Change the first child under `key`, or push a new one. -/
def modify {α : Type} [DecidableEq α] (children : List (α × PathTrie)) (key : α) (f : PathTrie → PathTrie) :
    List (α × PathTrie) :=
  match children with
  | [] => [(key, f empty)]
  | (name, child) :: rest => if name = key then (name, f child) :: rest else (name, child) :: modify rest key f

def insertSegments (paths : PathTrie) : List PathSegment → PathTrie
  | [] => everything
  | segment :: rest =>
    if paths.whole then paths
    else match segment with
      | .key key => node paths.whole paths.indices (modify paths.keys key (insertSegments · rest))
      | .index index => node paths.whole (modify paths.indices index (insertSegments · rest)) paths.keys

def insert (paths : PathTrie) (path : FieldPath) : PathTrie := paths.insertSegments path.segments

end PathTrie

mutual

def collectPaths (paths : PathTrie) : FilterExpr → Except InvalidError PathTrie
  | .all children | .any children => collectPathsAll paths children
  | .not child => collectPaths paths child
  | .pred predicate => (FieldPath.parse predicate.field).map paths.insert
  | .predAs coerced => (FieldPath.parse coerced.pred.field).map paths.insert
  | .present path | .absent path => .ok (paths.insert path)
  | .text predicate => (FieldPath.parse predicate.field).map paths.insert
  | .header _ | .headerText _ => .ok paths

def collectPathsAll (paths : PathTrie) : List FilterExpr → Except InvalidError PathTrie
  | [] => .ok paths
  | child :: rest => do
    let paths ← collectPaths paths child
    collectPathsAll paths rest

end

/-! ## Building values -/

def numberValue (value : F64) : Value := if value.isFinite then .number (.float value) else .null

mutual

/-- The whole value. A repeated key keeps its last value. -/
def build : Raw → Value
  | .null => .null
  | .bool value => .bool value
  | .integer value => .number (.integer value)
  | .float value => numberValue value
  | .string text => .string text
  | .array items => .array (buildItems items)
  | .object entries => .object (buildEntries [] entries)

def buildItems : List Raw → List Value
  | [] => []
  | item :: rest => build item :: buildItems rest

def buildEntries (object : List (String × Value)) : List (String × Raw) → List (String × Value)
  | [] => object
  | (key, value) :: rest => buildEntries (mapInsert object key (build value)) rest

end

/-- `Vec::resize`: cut to `length` or fill up to it. -/
def resize {α : Type} (items : List α) (length : Nat) (fill : α) : List α :=
  items.take length ++ List.replicate (length - items.length) fill

/-- `u32::saturating_add(1)`. -/
def nextIndex (index : UInt32) : UInt32 := if index = 4294967295 then index else index + 1

mutual

/-- Only the values on the paths. A string off them is dropped, and so is
every other value where only deeper paths are read, but arrays keep their
positions. -/
def prune (paths : PathTrie) : Raw → Value
  -- A whole node hands over to `build`, which differs on the last three.
  | .null => .null
  | .bool value => .bool value
  | .integer value => .number (.integer value)
  | .float value => numberValue value
  | .string text => if paths.whole then build (.string text) else .null
  | .array items => if paths.whole then build (.array items) else .array (pruneItems paths 0 [] items)
  | .object entries => if paths.whole then build (.object entries) else .object (pruneEntries paths [] entries)

def pruneItems (paths : PathTrie) (index : UInt32) (kept : List Value) : List Raw → List Value
  | [] => kept
  | item :: rest =>
    match paths.index index with
    | some child => pruneItems paths (nextIndex index) (resize kept index.toNat .null ++ [prune child item]) rest
    | none => pruneItems paths (nextIndex index) kept rest

def pruneEntries (paths : PathTrie) (object : List (String × Value)) : List (String × Raw) → List (String × Value)
  | [] => object
  | (key, value) :: rest =>
    match paths.child key with
    | some child => pruneEntries paths (mapInsert object key (prune child value)) rest
    | none => pruneEntries paths object rest

end

theorem prune_whole {paths : PathTrie} (h : paths.whole = true) (raw : Raw) : prune paths raw = build raw := by
  cases raw <;> simp [prune, build, h]

section

variable (tokenize : List UInt8 → Option Raw)

def decodeJsonPaths (payload : List UInt8) (limits : DecodeLimits) (paths : PathTrie) : Except FaultReason Value :=
  if payload.length > limits.maxPayloadBytes then .error .tooLarge
  else if ¬ jsonDepthWithin payload (min limits.maxDepth maxFilterParseDepth) then .error .tooDeep
  else match tokenize payload with
    | some raw => .ok (prune paths raw)
    | none => .error .malformed

def decodeJson (payload : List UInt8) (limits : DecodeLimits) : Except FaultReason Value :=
  decodeJsonPaths tokenize payload limits .everything

end

/-- The value at a path. -/
def resolveSegments (value : Value) : List PathSegment → Option Value
  | [] => some value
  | segment :: rest =>
    match segment, value with
    | .key key, .object fields => (fields.lookup key).bind (resolveSegments · rest)
    | .index index, .array items => items[index.toNat]?.bind (resolveSegments · rest)
    | _, _ => none

def resolve (value : Value) (path : FieldPath) : Option Value := resolveSegments value path.segments

end LaserSdk.Filter

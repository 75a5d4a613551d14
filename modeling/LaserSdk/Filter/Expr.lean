import LaserSdk.Filter.Coerce
import LaserSdk.Filter.Text
/-!
# Filters

The expression of a consumer filter, its policies and its validation. The
node counter of the source is threaded through as a number.
-/

namespace LaserSdk.Filter

open LaserSdk.Lib

def filterOpVersion : Nat := 1

def filterEvaluatorVersion : Nat := 1

def maxFilterBytes : Nat := 8192

def maxFilterNodes : Nat := 128

def maxFilterDepth : Nat := 8

def maxFilterListItems : Nat := 64

structure Predicate where
  field : String
  op : CmpOp
  value : TypedValue
  deriving Repr

structure CoercedPredicate where
  pred : Predicate
  coerce : Coerce
  deriving Repr

structure HeaderPredicate where
  key : String
  op : CmpOp
  value : TypedValue
  deriving Repr

inductive FilterExpr where
  | all (children : List FilterExpr)
  | any (children : List FilterExpr)
  | not (child : FilterExpr)
  | pred (predicate : Predicate)
  | predAs (coerced : CoercedPredicate)
  | present (path : FieldPath)
  | absent (path : FieldPath)
  | header (header : HeaderPredicate)
  | text (predicate : TextPredicate)
  | headerText (predicate : TextPredicate)
  deriving Repr

inductive FilterCodec where
  | json | cbor | avro | protobuf | headersOnly | unknown
  deriving DecidableEq, Repr

inductive RecordPolicy where
  | reject
  | pass
  deriving DecidableEq, Repr

inductive FaultPolicy where
  | stop | pass | drop
  deriving DecidableEq, Repr

structure ConsumerFilter where
  v : Nat
  evaluatorVersion : Nat
  expr : FilterExpr
  codec : FilterCodec
  faultPolicy : FaultPolicy
  foreignPolicy : RecordPolicy
  mismatchPolicy : RecordPolicy
  schemaRefs : List Nat
  schemaStream : Option String
  deriving Repr

/-- A filter with the default policies. -/
def ConsumerFilter.new (expr : FilterExpr) (codec : FilterCodec) : ConsumerFilter :=
  ⟨filterOpVersion, filterEvaluatorVersion, expr, codec, .stop, .reject, .reject, [], none⟩

mutual

/-- Whether evaluating this node can require the decoded payload. -/
def FilterExpr.readsPayload : FilterExpr → Bool
  | .all children | .any children => anyReadsPayload children
  | .not child => child.readsPayload
  | .pred _ | .predAs _ | .present _ | .absent _ | .text _ => true
  | .header _ | .headerText _ => false

def anyReadsPayload : List FilterExpr → Bool
  | [] => false
  | child :: rest => child.readsPayload || anyReadsPayload rest

end

mutual

/-- Whether evaluating this node can require the record headers. -/
def FilterExpr.readsHeaders : FilterExpr → Bool
  | .all children | .any children => anyReadsHeaders children
  | .not child => child.readsHeaders
  | .header _ | .headerText _ => true
  | .pred _ | .predAs _ | .present _ | .absent _ | .text _ => false

def anyReadsHeaders : List FilterExpr → Bool
  | [] => false
  | child :: rest => child.readsHeaders || anyReadsHeaders rest

end

mutual

/-- The predicates that compile to a regular expression. -/
def regexPredicates : FilterExpr → Nat
  | .all children | .any children => regexPredicatesSum children
  | .not child => regexPredicates child
  | .text predicate | .headerText predicate => if predicate.kind = .regex ∨ predicate.kind = .glob then 1 else 0
  | .pred _ | .predAs _ | .present _ | .absent _ | .header _ => 0

def regexPredicatesSum : List FilterExpr → Nat
  | [] => 0
  | child :: rest => regexPredicates child + regexPredicatesSum rest

end

/-! ## Validation -/

def countNodes (nodes added : Nat) : Except InvalidError Nat := do
  refuseIf (nodes + added > maxFilterNodes) s!"filter has more than {maxFilterNodes} nodes"
  return nodes + added

def validateHeaderKey (key : String) : Except InvalidError Unit :=
  refuseIf (key = "" ∨ key.utf8ByteSize > maxFilterPathBytes) s!"header key must be 1..={maxFilterPathBytes} bytes"

def validateScalar : TypedValue → Except InvalidError Unit
  | .boolean _ | .int _ | .long _ => .ok ()
  | .double number => refuseIf (¬ number.isFinite) "a double literal must be finite"
  | .string text => refuseIf (text.utf8ByteSize > maxFilterStringBytes) s!"a string literal exceeds {maxFilterStringBytes}B"
  | _ => .error "supported literals are null, boolean, int, long, double, string, and list"

inductive LiteralSite where
  | payload
  | header
  deriving DecidableEq, Repr

def checkAll (check : TypedValue → Except InvalidError Unit) : List TypedValue → Except InvalidError Unit
  | [] => .ok ()
  | item :: rest => do
    check item
    checkAll check rest

def validateListItem (item : TypedValue) : Except InvalidError Unit :=
  match item with
  | .null | .list _ => .error "`in` list items must be non-null scalars"
  | item => validateScalar item

/-- The bounds of an `in` list, and the node count with its items. -/
def countListItems (items : List TypedValue) (nodes : Nat) : Except InvalidError Nat := do
  refuseIf (items = [] ∨ items.length > maxFilterListItems) s!"an `in` list needs 1..={maxFilterListItems} items"
  countNodes nodes items.length

def validateLiteral (op : CmpOp) (value : TypedValue) (site : LiteralSite) (nodes : Nat) : Except InvalidError Nat :=
  match value with
  | .null =>
    if (op = .eq ∨ op = .ne) ∧ site = .payload then .ok nodes
    else .error (match site with
      | .payload => "a null literal only supports eq and ne"
      | .header => "a header predicate cannot compare against null")
  | .list items =>
    if op = .in then do
      let nodes ← countListItems items nodes
      checkAll validateListItem items
      return nodes
    else .error "a list literal only supports `in`"
  | value =>
    match op, value with
    | .in, _ => .error "`in` expects a list literal"
    | .lt, .boolean _ | .lte, .boolean _ | .gt, .boolean _ | .gte, .boolean _ =>
      .error "ordered comparisons need a number or string literal"
    | .prefixed, .string text => (validateScalar (.string text)).map fun _ => nodes
    | .prefixed, _ => .error "`prefix` expects a string literal"
    | _, value => (validateScalar value).map fun _ => nodes

def coercedLiteralParses (coerce : Coerce) (value : TypedValue) : Bool :=
  match coerce, value with
  | .timestamp format, .string text => (format.microsFromText text).isSome
  | .timestamp format, .int number | .timestamp format, .long number => (format.microsFromInteger number).isSome
  | .number, .string text => (ExactDecimal.parse text).isSome
  | .number, .int _ | .number, .long _ => true
  | _, _ => false

def timestampFormatName : TimestampFormat → String
  | .rfc3339 => "rfc3339"
  | .epochSeconds => "epoch_seconds"
  | .epochMillis => "epoch_millis"
  | .epochMicros => "epoch_micros"

def coerceLabel : Coerce → String
  | .timestamp format => s!"timestamp ({timestampFormatName format})"
  | .number => "number"

section

variable (host : Host)

def validateCoercedItem (coerce : Coerce) (item : TypedValue) : Except InvalidError Unit :=
  refuseIf (¬ coercedLiteralParses coerce item)
    s!"literal {host.diagnosticText item} does not parse under the {coerceLabel coerce} coercion"

def validateCoerced (coerced : CoercedPredicate) (nodes : Nat) : Except InvalidError Nat :=
  match coerced.pred.op, coerced.pred.value with
  | .contains, _ | .prefixed, _ => .error "a coerced predicate supports eq, ne, lt, lte, gt, gte, and in"
  | .in, .list items => do
    let nodes ← countListItems items nodes
    checkAll (validateCoercedItem host coerced.coerce) items
    return nodes
  | .in, _ => .error "`in` expects a list literal"
  | _, .list _ => .error "a list literal only supports `in`"
  | _, value => (validateCoercedItem host coerced.coerce value).map fun _ => nodes

/-- The checks every node starts with. -/
def enterNode (depth nodes : Nat) : Except InvalidError Nat := do
  refuseIf (depth > maxFilterDepth) s!"filter nesting exceeds depth {maxFilterDepth}"
  countNodes nodes 1

mutual

/-- Check a node at `depth` and return the node count. -/
def validateNode (depth nodes : Nat) : FilterExpr → Except InvalidError Nat
  | .all children | .any children => do
    let nodes ← enterNode depth nodes
    refuseIf children.isEmpty "`all` and `any` need at least one child"
    validateNodes (depth + 1) nodes children
  | .not child => do
    let nodes ← enterNode depth nodes
    validateNode (depth + 1) nodes child
  | .pred predicate => do
    let nodes ← enterNode depth nodes
    let _ ← FieldPath.parse predicate.field
    validateLiteral predicate.op predicate.value .payload nodes
  | .predAs coerced => do
    let nodes ← enterNode depth nodes
    let _ ← FieldPath.parse coerced.pred.field
    validateCoerced host coerced nodes
  | .present _ | .absent _ => enterNode depth nodes
  | .header header => do
    let nodes ← enterNode depth nodes
    validateHeaderKey header.key
    validateLiteral header.op header.value .header nodes
  | .text predicate => do
    let nodes ← enterNode depth nodes
    let _ ← FieldPath.parse predicate.field
    let _ ← TextMatcher.compile host predicate
    return nodes
  | .headerText predicate => do
    let nodes ← enterNode depth nodes
    validateHeaderKey predicate.field
    let _ ← TextMatcher.compile host predicate
    return nodes

def validateNodes (depth nodes : Nat) : List FilterExpr → Except InvalidError Nat
  | [] => .ok nodes
  | child :: rest => do
    let nodes ← validateNode depth nodes child
    validateNodes depth nodes rest

end

/-- `encodedBytes` is the length of the filter's JSON encoding. -/
def ConsumerFilter.validate (encodedBytes : ConsumerFilter → Nat) (filter : ConsumerFilter) :
    Except InvalidError Unit := do
  refuseIf (filter.v ≠ filterOpVersion) s!"filter version {filter.v} is not supported, expected {filterOpVersion}"
  refuseIf (filter.evaluatorVersion ≠ filterEvaluatorVersion)
    s!"evaluator version {filter.evaluatorVersion} is not supported, expected {filterEvaluatorVersion}"
  refuseIf ((filter.codec = .avro ∨ filter.codec = .protobuf : Bool) = filter.schemaRefs.isEmpty)
    "Avro and Protobuf require schema_refs, other codecs require no schema_refs"
  refuseIf (¬ filter.schemaRefs.Pairwise (· < ·)) "schema_refs must be sorted and contain no duplicates"
  refuseIf (filter.schemaStream.isSome ∧ filter.schemaRefs = []) "schema_stream applies only to a filter with schema_refs"
  refuseIf (filter.schemaStream.any fun stream =>
      stream == "" || stream.toList.contains '/' || stream.toList.any fun c => c.toNat < 32 || (127 ≤ c.toNat && c.toNat < 160))
    "schema_stream must be a non-empty stream name without '/' or control characters"
  refuseIf (encodedBytes filter > maxFilterBytes) s!"filter is {encodedBytes filter}B, exceeds cap {maxFilterBytes}B"
  refuseIf (filter.codec = .unknown) "the filter codec is not supported by this build"
  refuseIf (filter.codec = .headersOnly ∧ filter.expr.readsPayload) "a headers_only filter cannot use payload predicates"
  let _ ← validateNode host 1 0 filter.expr
  refuseIf (regexPredicates filter.expr > maxRegexPredicates)
    s!"a filter holds at most {maxRegexPredicates} compiled text predicates (glob or regex)"

end

end LaserSdk.Filter

import LaserSdk.Filter.Json
/-!
# Evaluating a filter

A compiled filter is evaluated against one record: its headers and its
payload. The payload is decoded at most once, so a context holds the result
of that decoding and a payload predicate that finds it faulty ends the
evaluation with the fault. Beside the truth the evaluation keeps a flag that
some predicate met a value of a kind it cannot compare.
-/

namespace LaserSdk.Filter

/-! ## Compiling -/

inductive Node where
  | all (children : List Node)
  | any (children : List Node)
  | not (child : Node)
  | compare (path : FieldPath) (op : CmpOp) (literal : Literal)
  | coerced (path : FieldPath) (op : CmpOp) (coerce : Coerce) (literal : CoercedLiteral)
  | present (path : FieldPath)
  | absent (path : FieldPath)
  | header (key : String) (op : CmpOp) (literal : Literal)
  | text (path : FieldPath) (matcher : TextMatcher)
  | headerText (key : String) (matcher : TextMatcher)
  deriving Repr

mutual

def Node.readsPayload : Node → Bool
  | .all children | .any children => anyNodeReadsPayload children
  | .not child => child.readsPayload
  | .compare _ _ _ | .coerced _ _ _ _ | .present _ | .absent _ | .text _ _ => true
  | .header _ _ _ | .headerText _ _ => false

def anyNodeReadsPayload : List Node → Bool
  | [] => false
  | child :: rest => child.readsPayload || anyNodeReadsPayload rest

end

section

variable (host : Host)

mutual

def compileLiteral : TypedValue → Except InvalidError Literal
  | .null => .ok .null
  | .boolean value => .ok (.bool value)
  | .int value | .long value => .ok (.int value)
  | .double value => .ok (.float value)
  | .string value => .ok (.text value)
  | .list items => (compileLiterals items).map .list
  | .other text => .error s!"unsupported filter literal {text}"

def compileLiterals : List TypedValue → Except InvalidError (List Literal)
  | [] => .ok []
  | item :: rest => do
    let literal ← compileLiteral item
    let literals ← compileLiterals rest
    return literal :: literals

end

def comparableLiteral (coerce : Coerce) (value : TypedValue) : Option Comparable :=
  match coerce, value with
  | .timestamp format, .string text => (format.microsFromText text).map .instant
  | .timestamp format, .int number | .timestamp format, .long number => (format.microsFromInteger number).map .instant
  | .number, .string text => (ExactDecimal.parse text).map .decimal
  | .number, .int number | .number, .long number => some (.decimal (.fromInteger number))
  | _, _ => none

mutual

def compileCoercedLiteral (coerce : Coerce) : TypedValue → Except InvalidError CoercedLiteral
  | .list items => (compileCoercedLiterals coerce items).map .list
  | value =>
    match comparableLiteral coerce value with
    | some (.instant micros) => .ok (.instant micros)
    | some (.decimal decimal) => .ok (.decimal decimal)
    | none => .error s!"literal {host.diagnosticText value} does not parse under its coercion"

def compileCoercedLiterals (coerce : Coerce) : List TypedValue → Except InvalidError (List CoercedLiteral)
  | [] => .ok []
  | item :: rest => do
    let literal ← compileCoercedLiteral coerce item
    let literals ← compileCoercedLiterals coerce rest
    return literal :: literals

end

mutual

def compileNode : FilterExpr → Except InvalidError Node
  | .all children => (compileNodes children).map .all
  | .any children => (compileNodes children).map .any
  | .not child => (compileNode child).map .not
  | .pred predicate => do
    let path ← FieldPath.parse predicate.field
    let literal ← compileLiteral predicate.value
    return .compare path predicate.op literal
  | .predAs coerced => do
    let path ← FieldPath.parse coerced.pred.field
    let literal ← compileCoercedLiteral host coerced.coerce coerced.pred.value
    return .coerced path coerced.pred.op coerced.coerce literal
  | .present path => .ok (.present path)
  | .absent path => .ok (.absent path)
  | .header header => (compileLiteral header.value).map (.header header.key header.op)
  | .text predicate => do
    let path ← FieldPath.parse predicate.field
    let matcher ← TextMatcher.compile host predicate
    return .text path matcher
  | .headerText predicate => (TextMatcher.compile host predicate).map (.headerText predicate.field)

def compileNodes : List FilterExpr → Except InvalidError (List Node)
  | [] => .ok []
  | child :: rest => do
    let node ← compileNode child
    let nodes ← compileNodes rest
    return node :: nodes

end

end

/-! ## Records -/

structure FilterRecord where
  payload : List UInt8
  headers : List Header
  deriving DecidableEq, Repr

inductive ContentType where
  | any | raw | json | avro | protobuf | msgpack | cbor | bson | arrow | ref
  deriving DecidableEq, Repr

def ContentType.fromCode : Nat → Option ContentType
  | 0 => some .raw
  | 1 => some .json
  | 2 => some .msgpack
  | 3 => some .cbor
  | 4 => some .bson
  | 5 => some .avro
  | 6 => some .protobuf
  | 7 => some .arrow
  | 8 => some .ref
  | 255 => some .any
  | _ => none

def contentTypeKey : String := "agdx.ct"

/-- The last entry with a key wins. -/
def findHeader (headers : List Header) (key : String) : Option Header := headers.reverse.find? (·.key == key)

/-- The content type of a codec that decodes the payload. -/
def FilterCodec.contentType : FilterCodec → Option ContentType
  | .json => some .json
  | .cbor => some .cbor
  | .avro => some .avro
  | .protobuf => some .protobuf
  | .headersOnly | .unknown => none

/-- Whether the record's content type names another codec than the filter's.
`any` and unknown codes decode as usual. -/
def declaresForeignCodec (codec : FilterCodec) (headers : List Header) : Bool :=
  match findHeader headers contentTypeKey with
  | none => false
  | some header =>
    let code : Option Nat := match header.value with
      | .uint code => if code ≤ 255 then some code else none
      | .int code => if 0 ≤ code ∧ code ≤ 255 then some code.toNat else none
      | _ => none
    match code.bind ContentType.fromCode, codec.contentType with
    | none, _ | some .any, _ | _, none => false
    | some declared, some expected => declared != expected

/-- The decoders of a compiled filter: the JSON tokenizer, and for the other
codecs the decoder compiled with the filter's schemas. -/
structure Decoders where
  tokenize : List UInt8 → Option Raw
  decodePaths : FilterCodec → FilterRecord → DecodeLimits → PathTrie → Except FaultReason Value

def decodePayload (decoders : Decoders) (codec : FilterCodec) (record : FilterRecord) (limits : DecodeLimits)
    (paths : PathTrie) : Except FaultReason Value :=
  if declaresForeignCodec codec record.headers then .error .foreignCodec
  else match codec with
    | .json => decodeJsonPaths decoders.tokenize record.payload limits paths
    | .cbor | .avro | .protobuf => decoders.decodePaths codec record limits paths
    | .headersOnly | .unknown => .error .malformed

/-! ## Leaves -/

def headerScalar : HeaderValue → Scalar
  | .bool value => .bool value
  | .int value => .int value
  | .uint value => .int value
  | .float value => .float value
  | .string value => .text value
  | .raw bytes =>
    -- Raw bytes that spell UTF-8 compare as text.
    match String.fromUTF8? ⟨bytes.toArray⟩ with
    | some text => .text text
    | none => .composite

/-- The truth, and whether the header exists with a kind the predicate cannot
compare. -/
def headerTruth (headers : List Header) (key : String) (op : CmpOp) (literal : Literal) : Truth × Bool :=
  match findHeader headers key with
  | none => (.unknown, false)
  | some header =>
    let scalar := headerScalar header.value
    let truth := compareScalar scalar none op literal
    (truth, truth == .unknown && !comparable scalar none op literal)

def headerTextTruth (host : Host) (headers : List Header) (key : String) (matcher : TextMatcher) : Truth × Bool :=
  match findHeader headers key with
  | none => (.unknown, false)
  | some header =>
    match headerScalar header.value with
    | .text text => (truthOf (matcher.matches host text), false)
    | _ => (.unknown, true)

/-! The truth of a payload predicate over the field its path resolves to. -/

def compareTruth (field : Option Value) (op : CmpOp) (literal : Literal) : Truth × Bool :=
  match field with
  | none => (missingTruth op literal, false)
  | some field =>
    let scalar := scalarOf field
    let truth := compareScalar scalar (some field) op literal
    (truth, truth == .unknown && !comparable scalar (some field) op literal)

def coercedTruth (host : Host) (field : Option Value) (op : CmpOp) (coerce : Coerce) (literal : CoercedLiteral) :
    Truth × Bool :=
  match field with
  | none => (.unknown, false)
  | some field =>
    match coerceValue host coerce field with
    | some comparable => (compareCoerced comparable op literal, false)
    | none => (.unknown, match field with | .null => false | _ => true)

def textTruth (host : Host) (field : Option Value) (matcher : TextMatcher) : Truth × Bool :=
  match field with
  | none | some .null => (.unknown, false)
  | some (.string text) => (truthOf (matcher.matches host text), false)
  | some _ => (.unknown, true)

/-! ## The tree -/

/-- One record in front of a filter: its headers and its payload as decoded. -/
structure Context where
  host : Host
  headers : List Header
  payload : Except FaultReason Value

/-- How a pass over children ends: at a decisive child, or after the last one
with whether one was unknown. -/
inductive Pass where
  | decided
  | running (unknown : Bool)
  deriving DecidableEq, Repr

def negate : Truth → Truth
  | .isMatch => .noMatch
  | .noMatch => .isMatch
  | .unknown => .unknown

/-- A payload predicate, with the flag so far. -/
def Context.payloadTruth (ctx : Context) (mismatched : Bool) (judge : Value → Truth × Bool) :
    Except FaultReason Truth × Bool :=
  match ctx.payload with
  | .error reason => (.error reason, mismatched)
  | .ok value => (.ok (judge value).1, mismatched || (judge value).2)

/-- One child of a pass. -/
def stepPass (decisive : Truth) (unknown : Bool) (child : Except FaultReason Truth × Bool)
    (next : Bool → Bool → Except FaultReason Pass × Bool) : Except FaultReason Pass × Bool :=
  match child with
  | (.error reason, mismatched) => (.error reason, mismatched)
  | (.ok truth, mismatched) =>
    if truth = decisive then (.ok .decided, mismatched) else next (unknown || truth == .unknown) mismatched

/-- The pass over the children that read no payload, then the one over those
that do. -/
def joinPasses (decisive otherwise : Truth) (first : Except FaultReason Pass × Bool)
    (second : Bool → Bool → Except FaultReason Pass × Bool) : Except FaultReason Truth × Bool :=
  let ended : Except FaultReason Pass × Bool → Except FaultReason Truth × Bool
    | (.error reason, mismatched) => (.error reason, mismatched)
    | (.ok .decided, mismatched) => (.ok decisive, mismatched)
    | (.ok (.running unknown), mismatched) => (.ok (if unknown then .unknown else otherwise), mismatched)
  match first with
  | (.ok (.running unknown), mismatched) => ended (second unknown mismatched)
  | first => ended first

mutual

/-- The truth of a node, and the flag after it. `all` and `any` read their
children in two passes, so that headers can decide before the payload. -/
def Context.truth (ctx : Context) (mismatched : Bool) : Node → Except FaultReason Truth × Bool
  | .all children =>
    joinPasses .noMatch .isMatch (ctx.pass false .noMatch false mismatched children)
      fun unknown mismatched => ctx.pass true .noMatch unknown mismatched children
  | .any children =>
    joinPasses .isMatch .noMatch (ctx.pass false .isMatch false mismatched children)
      fun unknown mismatched => ctx.pass true .isMatch unknown mismatched children
  | .not child =>
    match ctx.truth mismatched child with
    | (truth, mismatched) => (truth.map negate, mismatched)
  | .header key op literal =>
    let (truth, mismatch) := headerTruth ctx.headers key op literal
    (.ok truth, mismatched || mismatch)
  | .headerText key matcher =>
    let (truth, mismatch) := headerTextTruth ctx.host ctx.headers key matcher
    (.ok truth, mismatched || mismatch)
  | .compare path op literal => ctx.payloadTruth mismatched fun value => compareTruth (resolve value path) op literal
  | .coerced path op coerce literal =>
    ctx.payloadTruth mismatched fun value => coercedTruth ctx.host (resolve value path) op coerce literal
  | .text path matcher => ctx.payloadTruth mismatched fun value => textTruth ctx.host (resolve value path) matcher
  | .present path => ctx.payloadTruth mismatched fun value => (truthOf (resolve value path).isSome, false)
  | .absent path => ctx.payloadTruth mismatched fun value => (truthOf (resolve value path).isNone, false)

/-- The children that read the payload, or those that do not, in order. -/
def Context.pass (ctx : Context) (reads : Bool) (decisive : Truth) (unknown mismatched : Bool) :
    List Node → Except FaultReason Pass × Bool
  | [] => (.ok (.running unknown), mismatched)
  | child :: rest =>
    if child.readsPayload = reads then
      stepPass decisive unknown (ctx.truth mismatched child) fun unknown mismatched =>
        ctx.pass reads decisive unknown mismatched rest
    else ctx.pass reads decisive unknown mismatched rest

end

/-! ## Verdicts -/

inductive Verdict where
  | selected | rejected | fault
  deriving DecidableEq, Repr

def FaultReason.isForeign : FaultReason → Bool
  | .foreignCodec | .missingSchema | .schemaNotAllowed | .schemaMismatch => true
  | _ => false

/-- The record policy that covers a reason, none for a decode fault. -/
def ConsumerFilter.recordPolicy (filter : ConsumerFilter) (reason : FaultReason) : Option RecordPolicy :=
  if reason.isForeign then some filter.foreignPolicy
  else if reason = .typeMismatch then some filter.mismatchPolicy
  else none

def ConsumerFilter.faulted (filter : ConsumerFilter) (reason : FaultReason) : Verdict × Option FaultReason :=
  match filter.recordPolicy reason with
  | some .reject => (.rejected, some reason)
  | some .pass | none => (.fault, some reason)

def ConsumerFilter.evaluated (filter : ConsumerFilter) (truth : Except FaultReason Truth) (mismatched : Bool) :
    Verdict × Option FaultReason :=
  match truth with
  | .ok .isMatch => (.selected, none)
  | .ok .noMatch => (.rejected, none)
  | .ok .unknown => if mismatched then filter.faulted .typeMismatch else (.rejected, none)
  | .error reason => filter.faulted reason

structure CompiledFilter where
  host : Host
  filter : ConsumerFilter
  root : Node
  paths : PathTrie
  decoders : Decoders

/-- Validate and compile. The decoders come with the filter's schemas. -/
def CompiledFilter.compile (host : Host) (encodedBytes : ConsumerFilter → Nat) (decoders : Decoders)
    (filter : ConsumerFilter) : Except InvalidError CompiledFilter := do
  filter.validate host encodedBytes
  let paths ← collectPaths .empty filter.expr
  let root ← compileNode host filter.expr
  return ⟨host, filter, root, paths, decoders⟩

def CompiledFilter.context (compiled : CompiledFilter) (record : FilterRecord) (limits : DecodeLimits) : Context :=
  ⟨compiled.host, record.headers,
    decodePayload compiled.decoders compiled.filter.codec record limits compiled.paths⟩

def CompiledFilter.evaluateWithFault (compiled : CompiledFilter) (record : FilterRecord) (limits : DecodeLimits) :
    Verdict × Option FaultReason :=
  match (compiled.context record limits).truth false compiled.root with
  | (truth, mismatched) => compiled.filter.evaluated truth mismatched

def CompiledFilter.evaluate (compiled : CompiledFilter) (record : FilterRecord) (limits : DecodeLimits) : Verdict :=
  (compiled.evaluateWithFault record limits).1

end LaserSdk.Filter

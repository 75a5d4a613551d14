import LaserSdk.Filter.Eval
import LaserSdk.Typescript.Glob
import LaserSdk.Typescript.Number
import LaserSdk.Typescript.Path
/-!
# The evaluator of the TypeScript client

The TypeScript client evaluates filters over JavaScript values: strings are
units, integers are big integers and objects are maps. A node keeps its children
in the order they are read in, those without the payload first, and an
exception carries the fault of the payload. The flag of a mismatch is a field
of the context, so that it is threaded through here.
-/

namespace LaserSdk.Typescript

open LaserSdk.Lib
open LaserSdk.Filter (F64 CmpOp Truth truthOf FaultReason Coerce TimestampFormat TextMatch RecordPolicy FilterCodec Verdict
  DecodeLimits)

/-- What the code takes from elsewhere. -/
structure JsHost where
  toLowerCase : JsString → JsString
  /-- `Number.prototype.toExponential`. -/
  toExponential : F64 → JsString
  /-- `RustRegex.compile`: the matcher of a pattern, or its error. -/
  compileRegex : JsString → Bool → Except JsString (JsString → Bool)

/-! ## Values -/

inductive JsonValue where
  | null
  | bool (value : Bool)
  | bigint (value : Int)
  | number (value : F64)
  | string (value : JsString)
  | array (items : List JsonValue)
  | map (entries : List (JsString × JsonValue))
  deriving Repr

inductive HeaderValueRef where
  | bool (value : Bool)
  | int (value : Int)
  | uint (value : Int)
  | float (value : F64)
  | string (value : JsString)
  | raw (value : List UInt8)
  deriving DecidableEq, Repr

structure HeaderRef where
  key : JsString
  value : HeaderValueRef
  deriving DecidableEq, Repr

structure FilterRecord where
  payload : List UInt8
  headers : List HeaderRef
  deriving DecidableEq, Repr

/-- `other` is any kind that a filter refuses. -/
inductive TypedValue where
  | null
  | boolean (value : Bool)
  | int (value : Int)
  | long (value : Int)
  | double (value : F64)
  | string (value : JsString)
  | list (items : List TypedValue)
  | other (kind : JsString)
  deriving Repr

inductive Literal where
  | null
  | bool (value : Bool)
  | int (value : Int)
  | float (value : F64)
  | text (value : JsString)
  | list (items : List Literal)
  deriving Repr

inductive Scalar where
  | null
  | bool (value : Bool)
  | int (value : Int)
  | float (value : F64)
  | text (value : JsString)
  | composite
  deriving DecidableEq, Repr

inductive Comparable where
  | instant (micros : Int)
  | decimal (decimal : ExactDecimal)
  deriving DecidableEq, Repr

inductive CoercedLiteral where
  | comparable (comparable : Comparable)
  | list (items : List CoercedLiteral)
  deriving Repr

/-! ## Strings -/

def startsWith (text needle : JsString) : Bool := needle.isPrefixOf text

def endsWith (text needle : JsString) : Bool := needle.isSuffixOf text

def includes (text needle : JsString) : Bool := text.tails.any (needle.isPrefixOf ·)

/-- `findLast` by key. -/
def findHeader (headers : List HeaderRef) (key : JsString) : Option HeaderRef := headers.reverse.find? (·.key == key)

/-- The loop of `compareCodePoints`. -/
def compareCodes : List Nat → List Nat → Int
  | [], [] => 0
  | [], _ :: _ => -1
  | _ :: _, [] => 1
  | left :: lefts, right :: rights =>
    if left ≠ right then if left < right then -1 else 1 else compareCodes lefts rights

def compareCodePoints (left right : JsString) : Int := compareCodes (codePoints left) (codePoints right)

/-- `String.fromCodePoint`. -/
def fromCodePoint (code : Nat) : JsString :=
  if code < 0x10000 then [UInt16.ofNat code]
  else [UInt16.ofNat (0xD800 + (code - 0x10000) / 0x400), UInt16.ofNat (0xDC00 + (code - 0x10000) % 0x400)]

/-! ## Text predicates -/

structure TextMatcher where
  kind : TextMatch
  caseInsensitive : Bool
  pattern : JsString
  glob : Option GlobProgram
  regex : Option (JsString → Bool)

section

variable (host : JsHost)

/-- The tokens one token becomes. -/
def foldedToken (caseInsensitive : Bool) (token : GlobToken) : List GlobToken :=
  match token, caseInsensitive with
  | .literal value, true => (codePoints (host.toLowerCase (fromCodePoint value))).map .literal
  | token, _ => [token]

def TextMatcher.new (kind : TextMatch) (source : JsString) (caseInsensitive : Bool) : Except JsString TextMatcher := do
  let regex ← if kind = .regex then (host.compileRegex source caseInsensitive).map some else .ok none
  let glob ←
    if kind = .glob then
      match globTokens source with
      | none => .error (jsText "the glob has a trailing escape")
      | some tokens => .ok (some (GlobProgram.ofTokens (tokens.flatMap (foldedToken host caseInsensitive))))
    else .ok none
  return ⟨kind, caseInsensitive, if caseInsensitive then host.toLowerCase source else source, glob, regex⟩

def TextMatcher.matches (matcher : TextMatcher) (text : JsString) : Bool :=
  match matcher.regex with
  | some regex => regex text
  | none =>
    let value := if matcher.caseInsensitive then host.toLowerCase text else text
    match matcher.kind with
    | .equals => value == matcher.pattern
    | .prefixed => startsWith value matcher.pattern
    | .suffix => endsWith value matcher.pattern
    | .contains => includes value matcher.pattern
    | .glob => matcher.glob.any (·.matches value)
    | .regex => false

end

/-! ## Comparing -/

def scalarOf : JsonValue → Scalar
  | .null => .null
  | .bool value => .bool value
  | .bigint value => .int value
  | .number value => .float value
  | .string value => .text value
  | .array _ | .map _ => .composite

def isArray : Option JsonValue → Bool
  | some (.array _) => true
  | _ => false

mutual

def comparable (scalar : Scalar) (found : Option JsonValue) (op : CmpOp) : Literal → Bool
  | .null => true
  | .list items => scalar == .null || anyComparable scalar found op items
  | .bool _ =>
    match scalar with
    | .null | .bool _ => true
    | scalar => scalar == .composite && op == .contains && isArray found
  | .text _ =>
    match scalar with
    | .null | .text _ => true
    | scalar => scalar == .composite && op == .contains && isArray found
  | .int _ | .float _ =>
    match scalar with
    | .null | .int _ | .float _ => true
    | scalar => scalar == .composite && op == .contains && isArray found

def anyComparable (scalar : Scalar) (found : Option JsonValue) (op : CmpOp) : List Literal → Bool
  | [] => false
  | item :: rest => comparable scalar found op item || anyComparable scalar found op rest

end

def scalarCmp (scalar : Scalar) (literal : Literal) : Option Int :=
  match scalar, literal with
  | .int left, .int right => some (compareBigInt left right)
  | .float left, .float right => compareDouble left right
  | .int left, .float right => (exactDouble left).bind (compareDouble · right)
  | .float left, .int right => (exactDouble right).bind (compareDouble left)
  | .text left, .text right => some (compareCodePoints left right)
  | _, _ => none

def scalarEq (scalar : Scalar) (literal : Literal) : Option Bool :=
  match scalar, literal with
  | .bool left, .bool right => some (left == right)
  | .text left, .text right => some (left == right)
  | scalar, literal => (scalarCmp scalar literal).map (· == 0)

/-- The loop of `in`. -/
def inTruth (scalar : Scalar) (unknown : Bool) : List Literal → Truth
  | [] => if unknown then .unknown else .noMatch
  | item :: rest =>
    match scalarEq scalar item with
    | some true => .isMatch
    | some false => inTruth scalar unknown rest
    | none => inTruth scalar true rest

/-- The truth of an ordered comparison, from a number below, equal to or above
zero. -/
def orderTruth (op : CmpOp) (ordering : Int) : Truth :=
  match op with
  | .lt => truthOf (ordering < 0)
  | .lte => truthOf (ordering ≤ 0)
  | .gt => truthOf (ordering > 0)
  | _ => truthOf (ordering ≥ 0)

/-- The switch of `compareScalar` over the operator. -/
def compareOp (scalar : Scalar) (found : Option JsonValue) (op : CmpOp) (literal : Literal) : Truth :=
  match op with
  | .eq =>
    match scalarEq scalar literal with
    | none => .unknown
    | some equal => truthOf equal
  | .ne =>
    match scalarEq scalar literal with
    | none => .unknown
    | some equal => truthOf (!equal)
  | .lt | .lte | .gt | .gte =>
    match scalarCmp scalar literal with
    | none => .unknown
    | some ordering => orderTruth op ordering
  | .in =>
    match literal with
    | .list items => inTruth scalar false items
    | _ => .unknown
  | .contains =>
    match scalar, literal, found with
    | .text text, .text needle, _ => truthOf (includes text needle)
    | .composite, literal, some (.array items) =>
      truthOf (items.any fun element => scalarEq (scalarOf element) literal == some true)
    | _, _, _ => .unknown
  | .prefixed =>
    match scalar, literal with
    | .text text, .text start => truthOf (startsWith text start)
    | _, _ => .unknown

def compareScalar (scalar : Scalar) (found : Option JsonValue) (op : CmpOp) (literal : Literal) : Truth :=
  match scalar, literal with
  | .null, .null => truthOf (op == .eq)
  | .null, _ => .unknown
  | _, .null => truthOf (op == .ne)
  | scalar, literal => compareOp scalar found op literal

def missingTruth (op : CmpOp) (literal : Literal) : Truth :=
  match literal, op with
  | .null, .eq => .isMatch
  | .null, .ne => .noMatch
  | _, _ => .unknown

/-- `ordering` of `compareCoerced`. -/
def Comparable.ordering (comparable : Comparable) (target : CoercedLiteral) : Option Int :=
  match comparable, target with
  | .instant left, .comparable (.instant right) => some (compareBigInt left right)
  | .decimal left, .comparable (.decimal right) => some (left.compare right)
  | _, _ => none

def compareCoerced (comparable : Comparable) (op : CmpOp) (literal : CoercedLiteral) : Truth :=
  match op, literal with
  | .in, .list items => truthOf (items.any fun item => comparable.ordering item == some 0)
  | op, literal =>
    match comparable.ordering literal with
    | none => .unknown
    | some result =>
      match op with
      | .eq => truthOf (result == 0)
      | .ne => truthOf (result != 0)
      | .lt | .lte | .gt | .gte => orderTruth op result
      | .in | .contains | .prefixed => .unknown

def timestampOfValue (format : TimestampFormat) (value : JsonValue) : Option Int :=
  match value with
  | .string text => timestampFormatMicrosFromText format text
  | value =>
    if format = .rfc3339 then none
    else
      match value with
      | .bigint value => timestampFormatMicrosFromInteger format value
      | _ => none

def coerceValue (host : JsHost) (coerce : Coerce) (value : JsonValue) : Option Comparable :=
  match coerce with
  | .timestamp format => (timestampOfValue format value).map .instant
  | .number =>
    (match value with
      | .string text => ExactDecimal.parse text
      | .bigint value => some (.fromInteger value)
      | .number value => ExactDecimal.fromF64 host.toExponential value
      | _ => none).map .decimal

/-- The loop of `resolve`. -/
def resolveSegments (value : JsonValue) : List PathSegment → Option JsonValue
  | [] => some value
  | segment :: rest =>
    match segment, value with
    | .key key, .map entries => (entries.lookup key).bind (resolveSegments · rest)
    | .index index, .array items => items[index]?.bind (resolveSegments · rest)
    | _, _ => none

def resolve (value : JsonValue) (path : FieldPath) : Option JsonValue := resolveSegments value path.segments

/-! ## Filters -/

structure Predicate where
  field : JsString
  op : CmpOp
  value : TypedValue
  deriving Repr

structure CoercedPredicate where
  pred : Predicate
  coerce : Coerce
  deriving Repr

structure HeaderPredicate where
  key : JsString
  op : CmpOp
  value : TypedValue
  deriving Repr

structure TextPredicate where
  field : JsString
  kind : TextMatch
  pattern : JsString
  caseInsensitive : Bool
  deriving DecidableEq, Repr

inductive FilterExpr where
  | all (children : List FilterExpr)
  | any (children : List FilterExpr)
  | not (child : FilterExpr)
  | pred (predicate : Predicate)
  | predAs (predicate : CoercedPredicate)
  | present (path : FieldPath)
  | absent (path : FieldPath)
  | header (predicate : HeaderPredicate)
  | text (predicate : TextPredicate)
  | headerText (predicate : TextPredicate)
  deriving Repr

/-- The policies are optional. -/
structure ConsumerFilter where
  expr : FilterExpr
  codec : FilterCodec
  foreignPolicy : Option RecordPolicy
  mismatchPolicy : Option RecordPolicy
  deriving Repr

/-- `all` and `any` keep their children in the order they are read in, and
whether one of them reads the payload. -/
inductive Node where
  | all (ordered : List Node) (readsPayload : Bool)
  | any (ordered : List Node) (readsPayload : Bool)
  | not (child : Node)
  | compare (path : FieldPath) (op : CmpOp) (literal : Literal)
  | coerced (path : FieldPath) (op : CmpOp) (coerce : Coerce) (literal : CoercedLiteral)
  | present (path : FieldPath)
  | absent (path : FieldPath)
  | header (key : JsString) (op : CmpOp) (literal : Literal)
  | text (path : FieldPath) (matcher : TextMatcher)
  | headerText (key : JsString) (matcher : TextMatcher)

def Node.readsPayload : Node → Bool
  | .all _ reads | .any _ reads => reads
  | .not child => child.readsPayload
  | .compare _ _ _ | .coerced _ _ _ _ | .present _ | .absent _ | .text _ _ => true
  | .header _ _ _ | .headerText _ _ => false

/-- The children that read no payload, then those that do. -/
def ordered (children : List Node) : List Node :=
  children.filter (fun child => !child.readsPayload) ++ children.filter (fun child => child.readsPayload)

/-! ### Compiling -/

mutual

def compileLiteral : TypedValue → Except JsString Literal
  | .null => .ok .null
  | .boolean value => .ok (.bool value)
  | .int value => .ok (.int value)
  | .long value => .ok (.int value)
  | .double value => .ok (.float value)
  | .string value => .ok (.text value)
  | .list items => (compileLiterals items).map .list
  | .other kind => .error (jsText "unsupported filter literal " ++ kind)

def compileLiterals : List TypedValue → Except JsString (List Literal)
  | [] => .ok []
  | item :: rest => do
    let literal ← compileLiteral item
    let literals ← compileLiterals rest
    return literal :: literals

end

def TypedValue.kind : TypedValue → JsString
  | .null => jsText "null"
  | .boolean _ => jsText "boolean"
  | .int _ => jsText "int"
  | .long _ => jsText "long"
  | .double _ => jsText "double"
  | .string _ => jsText "string"
  | .list _ => jsText "list"
  | .other kind => kind

def comparableLiteral (coerce : Coerce) (value : TypedValue) : Option Comparable :=
  match coerce, value with
  | .timestamp format, .string text => (timestampFormatMicrosFromText format text).map .instant
  | .timestamp format, .int number | .timestamp format, .long number =>
    (timestampFormatMicrosFromInteger format number).map .instant
  | .number, .string text => (ExactDecimal.parse text).map .decimal
  | .number, .int number | .number, .long number => some (.decimal (.fromInteger number))
  | _, _ => none

mutual

def compileCoercedLiteral (coerce : Coerce) : TypedValue → Except JsString CoercedLiteral
  | .list items => (compileCoercedLiterals coerce items).map .list
  | value =>
    match comparableLiteral coerce value with
    | some comparable => .ok (.comparable comparable)
    | none => .error (jsText "literal " ++ value.kind ++ jsText " does not parse under its coercion")

def compileCoercedLiterals (coerce : Coerce) : List TypedValue → Except JsString (List CoercedLiteral)
  | [] => .ok []
  | item :: rest => do
    let literal ← compileCoercedLiteral coerce item
    let literals ← compileCoercedLiterals coerce rest
    return literal :: literals

end

section

variable (host : JsHost)

/-- `TextMatcher.of`. -/
def TextMatcher.of (predicate : TextPredicate) : Except JsString TextMatcher :=
  TextMatcher.new host predicate.kind predicate.pattern predicate.caseInsensitive

mutual

def compileNode : FilterExpr → Except JsString Node
  | .all children => do
    let children ← compileNodes children
    return .all (ordered children) (children.any Node.readsPayload)
  | .any children => do
    let children ← compileNodes children
    return .any (ordered children) (children.any Node.readsPayload)
  | .not child => (compileNode child).map .not
  | .pred predicate => do
    let path ← FieldPath.parse predicate.field
    let literal ← compileLiteral predicate.value
    return .compare path predicate.op literal
  | .predAs predicate => do
    let path ← FieldPath.parse predicate.pred.field
    let literal ← compileCoercedLiteral predicate.coerce predicate.pred.value
    return .coerced path predicate.pred.op predicate.coerce literal
  | .present path => .ok (.present path)
  | .absent path => .ok (.absent path)
  | .header predicate => (compileLiteral predicate.value).map (.header predicate.key predicate.op)
  | .text predicate => do
    let path ← FieldPath.parse predicate.field
    let matcher ← TextMatcher.of host predicate
    return .text path matcher
  | .headerText predicate => (TextMatcher.of host predicate).map (.headerText predicate.field)

def compileNodes : List FilterExpr → Except JsString (List Node)
  | [] => .ok []
  | child :: rest => do
    let node ← compileNode child
    let nodes ← compileNodes rest
    return node :: nodes

end

end

/-! ## The payload -/

/-- The scan of `jsonDepthWithin`, with its flags. -/
def depthWithin (maxDepth depth : Nat) (inString escaped : Bool) : List UInt8 → Bool
  | [] => true
  | byte :: rest =>
    if inString then
      if escaped then depthWithin maxDepth depth true false rest
      else if byte = 0x5c then depthWithin maxDepth depth true true rest
      else if byte = 0x22 then depthWithin maxDepth depth false false rest
      else depthWithin maxDepth depth true false rest
    else if byte = 0x22 then depthWithin maxDepth depth true escaped rest
    else if byte = 0x5b ∨ byte = 0x7b then
      if depth + 1 > maxDepth then false else depthWithin maxDepth (depth + 1) false escaped rest
    else if byte = 0x5d ∨ byte = 0x7d then depthWithin maxDepth (max 0 (depth - 1)) false escaped rest
    else depthWithin maxDepth depth false escaped rest

def jsonDepthWithin (payload : List UInt8) (maxDepth : Nat) : Bool := depthWithin maxDepth 0 false false payload

/-- The parser of the JSON text of a payload, and `PayloadDecoders.decode` for
the other codecs. -/
structure PayloadDecoders where
  parseCanonicalJson : List UInt8 → Option JsonValue
  decode : FilterRecord → DecodeLimits → Except FaultReason JsonValue

def decodeJsonPayload (parseCanonicalJson : List UInt8 → Option JsonValue) (payload : List UInt8) (limits : DecodeLimits) :
    Except FaultReason JsonValue :=
  if payload.length > limits.maxPayloadBytes then .error .tooLarge
  else if !jsonDepthWithin payload limits.maxDepth then .error .tooDeep
  else match parseCanonicalJson payload with
    | some value => .ok value
    | none => .error .malformed

def contentTypeHeader : JsString := jsText "agdx.ct"

def codecContentTypes : FilterCodec → Option F64
  | .json => some (.finite 1 0)
  | .cbor => some (.finite 3 0)
  | .avro => some (.finite 5 0)
  | .protobuf => some (.finite 6 0)
  | .headersOnly | .unknown => none

def anyContentType : F64 := .finite 255 0

def knownContentTypes : List F64 := [0, 1, 2, 3, 4, 5, 6, 7, 8].map (.finite · 0) ++ [anyContentType]

def declaresForeignCodec (codec : FilterCodec) (headers : List HeaderRef) : Bool :=
  match findHeader headers contentTypeHeader, codecContentTypes codec with
  | none, _ | _, none => false
  | some header, some expected =>
    match header.value with
    | .uint value | .int value =>
      let code := numberOf value
      if code ∉ knownContentTypes ∨ code = anyContentType then false else code != expected
    | _ => false

def maxFilterParseDepth : Nat := 127

/-- `decoded`, under the limits of `context`. -/
def decodePayload (decoders : PayloadDecoders) (codec : FilterCodec) (record : FilterRecord) (limits : DecodeLimits) :
    Except FaultReason JsonValue :=
  let limits := { limits with maxDepth := min limits.maxDepth maxFilterParseDepth }
  if declaresForeignCodec codec record.headers then .error .foreignCodec
  else if codec = .json then decodeJsonPayload decoders.parseCanonicalJson record.payload limits
  else decoders.decode record limits

/-! ## The tree -/

structure Context where
  host : JsHost
  headers : List HeaderRef
  payload : Except FaultReason JsonValue

def headerScalar : HeaderValueRef → Scalar
  | .bool value => .bool value
  | .int value | .uint value => .int value
  | .float value => .float value
  | .string value => .text value
  | .raw value =>
    -- the strict decoder throws on anything but UTF-8
    match String.fromUTF8? ⟨value.toArray⟩ with
    | some text => .text (jsText text)
    | none => .composite

def Context.headerTruth (ctx : Context) (key : JsString) (op : CmpOp) (literal : Literal) : Truth × Bool :=
  match findHeader ctx.headers key with
  | none => (.unknown, false)
  | some header =>
    let scalar := headerScalar header.value
    let truth := compareScalar scalar none op literal
    (truth, truth == .unknown && !comparable scalar none op literal)

def Context.headerTextTruth (ctx : Context) (key : JsString) (matcher : TextMatcher) : Truth × Bool :=
  match findHeader ctx.headers key with
  | none => (.unknown, false)
  | some header =>
    match headerScalar header.value with
    | .text text => (truthOf (matcher.matches ctx.host text), false)
    | _ => (.unknown, true)

/-! The cases of `payloadTruth`, over the field that the path resolves to. -/

def compareTruth (found : Option JsonValue) (op : CmpOp) (literal : Literal) : Truth × Bool :=
  match found with
  | none => (missingTruth op literal, false)
  | some found =>
    let scalar := scalarOf found
    let truth := compareScalar scalar (some found) op literal
    (truth, truth == .unknown && !comparable scalar (some found) op literal)

def coercedTruth (host : JsHost) (found : Option JsonValue) (op : CmpOp) (coerce : Coerce) (literal : CoercedLiteral) :
    Truth × Bool :=
  match found with
  | none => (.unknown, false)
  | some found =>
    match coerceValue host coerce found with
    | none => (.unknown, match found with | .null => false | _ => true)
    | some comparable => (compareCoerced comparable op literal, false)

def textTruth (host : JsHost) (found : Option JsonValue) (matcher : TextMatcher) : Truth × Bool :=
  match found with
  | none | some .null => (.unknown, false)
  | some (.string text) => (truthOf (matcher.matches host text), false)
  | some _ => (.unknown, true)

def negate : Truth → Truth
  | .isMatch => .noMatch
  | .noMatch => .isMatch
  | .unknown => .unknown

/-- `noted` of a payload predicate, or the fault of the payload. -/
def Context.payloadTruth (ctx : Context) (mismatched : Bool) (judge : JsonValue → Truth × Bool) :
    Except FaultReason Truth × Bool :=
  match ctx.payload with
  | .error reason => (.error reason, mismatched)
  | .ok value => (.ok (judge value).1, mismatched || (judge value).2)

mutual

def Context.truth (ctx : Context) (mismatched : Bool) : Node → Except FaultReason Truth × Bool
  | .all ordered _ => ctx.combine .noMatch .isMatch false mismatched ordered
  | .any ordered _ => ctx.combine .isMatch .noMatch false mismatched ordered
  | .not child =>
    match ctx.truth mismatched child with
    | (truth, mismatched) => (truth.map negate, mismatched)
  | .header key op literal =>
    let (truth, mismatch) := ctx.headerTruth key op literal
    (.ok truth, mismatched || mismatch)
  | .headerText key matcher =>
    let (truth, mismatch) := ctx.headerTextTruth key matcher
    (.ok truth, mismatched || mismatch)
  | .compare path op literal => ctx.payloadTruth mismatched fun value => compareTruth (resolve value path) op literal
  | .coerced path op coerce literal =>
    ctx.payloadTruth mismatched fun value => coercedTruth ctx.host (resolve value path) op coerce literal
  | .text path matcher => ctx.payloadTruth mismatched fun value => textTruth ctx.host (resolve value path) matcher
  | .present path => ctx.payloadTruth mismatched fun value => (truthOf (resolve value path).isSome, false)
  | .absent path => ctx.payloadTruth mismatched fun value => (truthOf (resolve value path).isNone, false)

/-- The loop of `combine`, left by a decisive child or an exception. -/
def Context.combine (ctx : Context) (decisive otherwise : Truth) (unknown mismatched : Bool) :
    List Node → Except FaultReason Truth × Bool
  | [] => (.ok (if unknown then .unknown else otherwise), mismatched)
  | child :: rest =>
    match ctx.truth mismatched child with
    | (.error reason, mismatched) => (.error reason, mismatched)
    | (.ok truth, mismatched) =>
      if truth = decisive then (.ok decisive, mismatched)
      else ctx.combine decisive otherwise (unknown || truth == .unknown) mismatched rest

end

/-! ## Verdicts -/

def faultReasonIsForeign (reason : FaultReason) : Bool :=
  reason == .foreignCodec || reason == .missingSchema || reason == .schemaNotAllowed || reason == .schemaMismatch

structure CompiledFilter where
  host : JsHost
  filter : ConsumerFilter
  root : Node
  decoders : PayloadDecoders

namespace CompiledFilter

def recordPolicy (compiled : CompiledFilter) (reason : FaultReason) : Option RecordPolicy :=
  if faultReasonIsForeign reason then some (compiled.filter.foreignPolicy.getD .reject)
  else if reason = .typeMismatch then some (compiled.filter.mismatchPolicy.getD .reject)
  else none

/-- The end of `outcome`, with a reason. -/
def faulted (compiled : CompiledFilter) (reason : FaultReason) : Verdict × Option FaultReason :=
  if compiled.recordPolicy reason = some .reject then (.rejected, some reason) else (.fault, some reason)

def outcome (compiled : CompiledFilter) (ctx : Context) : Verdict × Option FaultReason :=
  match ctx.truth false compiled.root with
  | (.ok truth, mismatched) =>
    if truth = .isMatch then (.selected, none)
    else if truth = .noMatch ∨ !mismatched then (.rejected, none)
    else compiled.faulted .typeMismatch
  | (.error reason, _) => compiled.faulted reason

def context (compiled : CompiledFilter) (record : FilterRecord) (limits : DecodeLimits) : Context :=
  ⟨compiled.host, record.headers, decodePayload compiled.decoders compiled.filter.codec record limits⟩

def evaluateWithFault (compiled : CompiledFilter) (record : FilterRecord) (limits : DecodeLimits) :
    Verdict × Option FaultReason :=
  compiled.outcome (compiled.context record limits)

end CompiledFilter

end LaserSdk.Typescript

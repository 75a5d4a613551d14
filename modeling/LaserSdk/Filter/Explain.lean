import LaserSdk.Filter.HeadersDecide
/-!
# Explaining a verdict

A preview reports the truth of every node of a filter. Where the evaluation
stops at the first child that decides and reads the headers first, the
explanation folds every child in the order it was written. Both are the
strong Kleene value of the expression.
-/

namespace LaserSdk.Filter

open Lib

/-! ## Labels -/

/-- How the standard library writes a string in quotes and a double. -/
structure Texts where
  quoted : String → String
  double : F64 → String

def CmpOp.name : CmpOp → String
  | .eq => "eq"
  | .ne => "ne"
  | .lt => "lt"
  | .lte => "lte"
  | .gt => "gt"
  | .gte => "gte"
  | .in => "in"
  | .contains => "contains"
  | .prefixed => "prefix"

def TextMatch.name : TextMatch → String
  | .equals => "equals"
  | .prefixed => "prefix"
  | .suffix => "suffix"
  | .contains => "contains"
  | .glob => "glob"
  | .regex => "regex"

def escapedKey (key : String) : String :=
  String.join (key.toList.map fun character => (if isPathSpecial character then "\\" else "") ++ String.singleton character)

def PathSegment.text (first : Bool) : PathSegment → String
  | .key name => (if first then "" else ".") ++ escapedKey name
  | .index position => s!"[{position}]"

def FieldPath.text (path : FieldPath) : String :=
  match path.segments with
  | [] => ""
  | segment :: rest => segment.text true ++ String.join (rest.map (PathSegment.text false))

section

variable (texts : Texts)

mutual

def literalLabel : Literal → String
  | .null => "null"
  | .bool value => toString value
  | .int value => toString value
  | .float value => texts.double value
  | .text value => texts.quoted value
  | .list items => "[" ++ ", ".intercalate (literalLabels items) ++ "]"

def literalLabels : List Literal → List String
  | [] => []
  | item :: rest => literalLabel item :: literalLabels rest

end

def ExactDecimal.label (decimal : ExactDecimal) : String :=
  let digits (bytes : List UInt8) := texts.quoted (.ofList (bytes.map fun byte => Char.ofNat byte.toNat))
  "ExactDecimal \x7b negative: " ++ toString decimal.negative ++ ", integer: " ++ digits decimal.integer ++
    ", fraction: " ++ digits decimal.fraction ++ " \x7d"

mutual

def coercedLabel : CoercedLiteral → String
  | .instant micros => s!"{micros}us"
  | .decimal decimal => decimal.label texts
  | .list items => "[" ++ ", ".intercalate (coercedLabels items) ++ "]"

def coercedLabels : List CoercedLiteral → List String
  | [] => []
  | item :: rest => coercedLabel item :: coercedLabels rest

end

def coerceText : Coerce → String
  | .timestamp format => s!"timestamp({timestampFormatName format})"
  | .number => "number"

def TextMatcher.label (matcher : TextMatcher) : String :=
  if matcher.caseInsensitive then texts.quoted matcher.source ++ " ignoring case" else texts.quoted matcher.source

def leafLabel : Node → String
  | .compare path op literal => s!"{path.text} {op.name} {literalLabel texts literal}"
  | .coerced path op coerce literal => s!"{coerceText coerce}({path.text}) {op.name} {coercedLabel texts literal}"
  | .present path => s!"{path.text} is present"
  | .absent path => s!"{path.text} is absent"
  | .header key op literal => s!"header {key} {op.name} {literalLabel texts literal}"
  | .text path matcher => s!"{path.text} {matcher.kind.name} {matcher.label texts}"
  | .headerText key matcher => s!"header {key} {matcher.kind.name} {matcher.label texts}"
  | .all _ | .any _ | .not _ => ""

end

/-! ## The explanation -/

/-- `truth` is absent where the payload does not decode. -/
inductive ExplainNode where
  | node (label : String) (truth : Option Truth) (children : List ExplainNode)
  deriving Repr

def ExplainNode.truth : ExplainNode → Option Truth
  | node _ truth _ => truth

structure FilterExplanation where
  verdict : Verdict
  fault : Option FaultReason
  root : ExplainNode

def fold (truths : List Truth) (decisive otherwise : Truth) : Truth :=
  if truths.contains decisive then decisive
  else if truths.contains .unknown then .unknown
  else otherwise

/-- The truths of all nodes, if every one has its truth. -/
def collectTruths : List ExplainNode → Option (List Truth)
  | [] => some []
  | node :: rest => node.truth.bind fun truth => (collectTruths rest).map (truth :: ·)

/-- A leaf that reads the payload. -/
def Context.explainPayload (ctx : Context) (judge : Value → Truth × Bool) : Option Truth :=
  match ctx.payload with
  | .ok value => some (judge value).1
  | .error _ => none

mutual

def Context.explain (ctx : Context) (texts : Texts) : Node → ExplainNode
  | .all children =>
    let explained := ctx.explainAll texts children
    .node "all" ((collectTruths explained).map (fold · .noMatch .isMatch)) explained
  | .any children =>
    let explained := ctx.explainAll texts children
    .node "any" ((collectTruths explained).map (fold · .isMatch .noMatch)) explained
  | .not child =>
    let explained := ctx.explain texts child
    .node "not" (explained.truth.map negate) [explained]
  | .header key op literal =>
    .node (leafLabel texts (.header key op literal)) (some (headerTruth ctx.headers key op literal).1) []
  | .headerText key matcher =>
    .node (leafLabel texts (.headerText key matcher)) (some (headerTextTruth ctx.host ctx.headers key matcher).1) []
  | .compare path op literal =>
    .node (leafLabel texts (.compare path op literal))
      (ctx.explainPayload fun value => compareTruth (resolve value path) op literal) []
  | .coerced path op coerce literal =>
    .node (leafLabel texts (.coerced path op coerce literal))
      (ctx.explainPayload fun value => coercedTruth ctx.host (resolve value path) op coerce literal) []
  | .text path matcher =>
    .node (leafLabel texts (.text path matcher))
      (ctx.explainPayload fun value => textTruth ctx.host (resolve value path) matcher) []
  | .present path =>
    .node (leafLabel texts (.present path))
      (ctx.explainPayload fun value => (truthOf (resolve value path).isSome, false)) []
  | .absent path =>
    .node (leafLabel texts (.absent path))
      (ctx.explainPayload fun value => (truthOf (resolve value path).isNone, false)) []

def Context.explainAll (ctx : Context) (texts : Texts) : List Node → List ExplainNode
  | [] => []
  | child :: rest => ctx.explain texts child :: ctx.explainAll texts rest

end

def CompiledFilter.explain (compiled : CompiledFilter) (texts : Texts) (record : FilterRecord) (limits : DecodeLimits) :
    FilterExplanation :=
  let context := compiled.context record limits
  match context.truth false compiled.root with
  | (truth, mismatched) =>
    let (verdict, fault) := compiled.filter.evaluated truth mismatched
    ⟨verdict, fault, context.explain texts compiled.root⟩

/-! ## Strong Kleene logic -/

def kleeneAnd : Truth → Truth → Truth
  | .noMatch, _ => .noMatch
  | .isMatch, right => right
  | .unknown, .noMatch => .noMatch
  | .unknown, _ => .unknown

def kleeneOr (left right : Truth) : Truth := negate (kleeneAnd (negate left) (negate right))

mutual

/-- The value of an expression over the truths of its leaves. -/
def Node.kleene (leaf : Node → Truth) : Node → Truth
  | .all children => kleeneAll leaf children
  | .any children => kleeneAny leaf children
  | .not child => negate (child.kleene leaf)
  | node => leaf node

def kleeneAll (leaf : Node → Truth) : List Node → Truth
  | [] => .isMatch
  | child :: rest => kleeneAnd (child.kleene leaf) (kleeneAll leaf rest)

def kleeneAny (leaf : Node → Truth) : List Node → Truth
  | [] => .noMatch
  | child :: rest => kleeneOr (child.kleene leaf) (kleeneAny leaf rest)

end

/-- The truth of a leaf: a header predicate by the headers, a payload
predicate by the payload. -/
def Context.leaf (ctx : Context) : Node → Truth
  | .header key op literal => (headerTruth ctx.headers key op literal).1
  | .headerText key matcher => (headerTextTruth ctx.host ctx.headers key matcher).1
  | node => ctx.assign node

theorem connective_cons_and (truth : Truth) (values : List Truth) :
    connective .unknown .noMatch .isMatch (truth :: values) =
      kleeneAnd truth (connective .unknown .noMatch .isMatch values) := by
  unfold connective
  by_cases hno : Truth.noMatch ∈ values
  · cases truth <;> simp [hno, kleeneAnd]
  · by_cases hunknown : Truth.unknown ∈ values
    · cases truth <;> simp [hno, hunknown, kleeneAnd]
    · cases truth <;> simp [hno, hunknown, kleeneAnd]

theorem connective_cons_or (truth : Truth) (values : List Truth) :
    connective .unknown .isMatch .noMatch (truth :: values) =
      kleeneOr truth (connective .unknown .isMatch .noMatch values) := by
  unfold connective
  by_cases hmatch : Truth.isMatch ∈ values
  · cases truth <;> simp [hmatch, kleeneOr, kleeneAnd, negate]
  · by_cases hunknown : Truth.unknown ∈ values
    · cases truth <;> simp [hmatch, hunknown, kleeneOr, kleeneAnd, negate]
    · cases truth <;> simp [hmatch, hunknown, kleeneOr, kleeneAnd, negate]

namespace Context

variable (ctx : Context)

mutual

/-- The value the evaluation computes is the Kleene value. -/
theorem kleene_eq : (node : Node) → node.kleene ctx.leaf = ctx.value node
  | .all children => kleeneAll_eq children
  | .any children => kleeneAny_eq children
  | .not child => congrArg negate (kleene_eq child)
  | .header _ _ _ | .headerText _ _ | .compare _ _ _ | .coerced _ _ _ _ | .text _ _ | .present _ | .absent _ => rfl

theorem kleeneAll_eq : (children : List Node) →
    kleeneAll ctx.leaf children = connective .unknown .noMatch .isMatch (nodeValues ctx.host ctx.headers ctx.assign children)
  | [] => rfl
  | child :: rest => by
    rw [kleeneAll, kleene_eq child, kleeneAll_eq rest, nodeValues, connective_cons_and]
    rfl

theorem kleeneAny_eq : (children : List Node) →
    kleeneAny ctx.leaf children = connective .unknown .isMatch .noMatch (nodeValues ctx.host ctx.headers ctx.assign children)
  | [] => rfl
  | child :: rest => by
    rw [kleeneAny, kleene_eq child, kleeneAny_eq rest, nodeValues, connective_cons_or]
    rfl

end

/-! ## Agreement -/

/-- The payload decodes, or the node does not read it. -/
def available (node : Node) : Prop := (∃ payload, ctx.payload = .ok payload) ∨ node.readsPayload = false

mutual

theorem settled_of_headers : (node : Node) → node.readsPayload = false → node.settled ctx.value = true
  | .all children, h => by
    have hpass := settledPass_of_headers children h
    simp [Node.settled, hpass]
  | .any children, h => by
    have hpass := settledPass_of_headers children h
    simp [Node.settled, hpass]
  | .not child, h => settled_of_headers child h
  | .header _ _ _, _ => rfl
  | .headerText _ _, _ => rfl

theorem settledPass_of_headers : (children : List Node) → anyNodeReadsPayload children = false →
    ∀ reads decisive, settledPass ctx.value reads decisive children = true
  | [], _, _, _ => rfl
  | child :: rest, h, reads, decisive => by
    rw [anyNodeReadsPayload, Bool.or_eq_false_iff] at h
    have hchild := settled_of_headers child h.1
    have hrest := settledPass_of_headers rest h.2 reads decisive
    simp [settledPass, hchild, hrest]

end

theorem truth_eq_kleene {node : Node} (h : ctx.available node) (mismatched : Bool) :
    (ctx.truth mismatched node).1 = .ok (node.kleene ctx.leaf) := by
  rw [ctx.truth_fst, ctx.kleene_eq]
  rcases h with ⟨payload, hpayload⟩ | hheaders
  · simp only [unlessRead, hpayload]
  · rw [ctx.settled_of_headers node hheaders, unlessRead_true]

theorem explainPayload_eq {leaf : Node} {judge : Value → Truth × Bool} (h : ctx.available leaf)
    (hreads : leaf.readsPayload = true) (hjudge : ∀ payload, (judge payload).1 = leafTruth ctx.host payload leaf) :
    ctx.explainPayload judge = some (ctx.assign leaf) := by
  rcases h with ⟨payload, hpayload⟩ | hheaders
  · simp only [explainPayload, assign, hpayload, hjudge]
  · exact absurd (hreads.symm.trans hheaders) (by decide)

variable (texts : Texts)

mutual

theorem explain_truth : (node : Node) → ctx.available node → (ctx.explain texts node).truth = some (ctx.value node)
  | .all children, h => by
    rw [explain, ExplainNode.truth, explainAll_truths children h]
    simp [fold, value, Node.value, connective, nodeValues_eq_map]
  | .any children, h => by
    rw [explain, ExplainNode.truth, explainAll_truths children h]
    simp [fold, value, Node.value, connective, nodeValues_eq_map]
  | .not child, h => by
    rw [explain, ExplainNode.truth, explain_truth child h]
    rfl
  | .header _ _ _, _ => rfl
  | .headerText _ _, _ => rfl
  | .compare _ _ _, h => ctx.explainPayload_eq h rfl fun _ => rfl
  | .coerced _ _ _ _, h => ctx.explainPayload_eq h rfl fun _ => rfl
  | .text _ _, h => ctx.explainPayload_eq h rfl fun _ => rfl
  | .present _, h => ctx.explainPayload_eq h rfl fun _ => rfl
  | .absent _, h => ctx.explainPayload_eq h rfl fun _ => rfl

theorem explainAll_truths : (children : List Node) →
    (∃ payload, ctx.payload = .ok payload) ∨ anyNodeReadsPayload children = false →
    collectTruths (ctx.explainAll texts children) = some (children.map ctx.value)
  | [], _ => rfl
  | child :: rest, h => by
    rw [anyNodeReadsPayload, Bool.or_eq_false_iff] at h
    have hchild := explain_truth child (h.imp_right And.left)
    have hrest := explainAll_truths rest (h.imp_right And.right)
    simp [explainAll, collectTruths, hchild, hrest]

end

end Context

/-- Only a match selects. -/
theorem evaluated_selected {filter : ConsumerFilter} {truth : Truth} {mismatched : Bool} :
    (filter.evaluated (.ok truth) mismatched).1 = .selected ↔ truth = .isMatch := by
  cases truth with
  | isMatch => simp [ConsumerFilter.evaluated]
  | noMatch => simp [ConsumerFilter.evaluated]
  | unknown =>
    cases mismatched with
    | false => simp [ConsumerFilter.evaluated]
    | true =>
      simp only [ConsumerFilter.evaluated, if_true, faulted_eq]
      split <;> simp

mutual

/-- Compiling keeps which nodes read the payload. -/
theorem readsPayload_compile {host : Host} : {expr : FilterExpr} → {node : Node} → compileNode host expr = .ok node →
    node.readsPayload = expr.readsPayload
  | .all children, node, h => by
    obtain ⟨nodes, hnodes, rfl⟩ := map_ok.1 h
    exact anyReadsPayload_compile hnodes
  | .any children, node, h => by
    obtain ⟨nodes, hnodes, rfl⟩ := map_ok.1 h
    exact anyReadsPayload_compile hnodes
  | .not child, node, h => by
    obtain ⟨inner, hinner, rfl⟩ := map_ok.1 h
    have hchild := readsPayload_compile hinner
    exact hchild
  | .pred predicate, node, h => by
    simp only [compileNode, bind_ok, pure_ok] at h
    obtain ⟨path, -, literal, -, rfl⟩ := h
    rfl
  | .predAs coerced, node, h => by
    simp only [compileNode, bind_ok, pure_ok] at h
    obtain ⟨path, -, literal, -, rfl⟩ := h
    rfl
  | .present path, node, h => by
    cases h
    rfl
  | .absent path, node, h => by
    cases h
    rfl
  | .text predicate, node, h => by
    simp only [compileNode, bind_ok, pure_ok] at h
    obtain ⟨path, -, matcher, -, rfl⟩ := h
    rfl
  | .header predicate, node, h => by
    obtain ⟨literal, -, rfl⟩ := map_ok.1 h
    rfl
  | .headerText predicate, node, h => by
    obtain ⟨matcher, -, rfl⟩ := map_ok.1 h
    rfl

theorem anyReadsPayload_compile {host : Host} : {exprs : List FilterExpr} → {nodes : List Node} →
    compileNodes host exprs = .ok nodes → anyNodeReadsPayload nodes = anyReadsPayload exprs
  | [], nodes, h => by
    cases h
    rfl
  | expr :: rest, nodes, h => by
    simp only [compileNodes, bind_ok, pure_ok] at h
    obtain ⟨node, hnode, nodes, hnodes, rfl⟩ := h
    rw [anyNodeReadsPayload, anyReadsPayload, readsPayload_compile hnode, anyReadsPayload_compile hnodes]

end

/-- The truth of the evaluation, the truth the explanation reports for the root
and the Kleene value of the expression are one, and it alone selects. -/
theorem truth_explain_kleene {host : Host} {encodedBytes : ConsumerFilter → Nat} {decoders : Decoders}
    {filter : ConsumerFilter} {compiled : CompiledFilter} {record : FilterRecord} {limits : DecodeLimits}
    (hcompile : CompiledFilter.compile host encodedBytes decoders filter = .ok compiled)
    (hpayload : (∃ payload, compiled.decoded record limits = .ok payload) ∨ filter.expr.readsPayload = false)
    (texts : Texts) :
    ((compiled.context record limits).truth false compiled.root).1 =
        .ok (compiled.root.kleene (compiled.context record limits).leaf) ∧
      (compiled.explain texts record limits).root.truth =
        some (compiled.root.kleene (compiled.context record limits).leaf) ∧
      (compiled.evaluate record limits = .selected ↔
        compiled.root.kleene (compiled.context record limits).leaf = .isMatch) := by
  obtain ⟨-, hroot, -, hfilter, -⟩ := compile_parts hcompile
  have havailable : (compiled.context record limits).available compiled.root :=
    hpayload.imp_right (readsPayload_compile hroot).trans
  have htruth := (compiled.context record limits).truth_eq_kleene havailable false
  refine ⟨htruth, ?_, ?_⟩
  · rw [Context.kleene_eq]
    exact (compiled.context record limits).explain_truth texts compiled.root havailable
  · rw [← @evaluated_selected compiled.filter _ ((compiled.context record limits).truth false compiled.root).2, ← htruth]
    rfl

/-- `{"a":1}`. -/
def oneBytes : List UInt8 := [123, 34, 97, 34, 58, 49, 125]

theorem decode_one (paths : PathTrie) :
    decodePayload (oneDocument oneBytes (.object [("a", .integer 1)])) .json ⟨oneBytes, pingRecord.headers⟩ ⟨100, 64⟩ paths =
      .ok (prune paths (.object [("a", .integer 1)])) := by
  have hforeign : declaresForeignCodec .json pingRecord.headers = false := by decide
  have hdepth : jsonDepthWithin oneBytes (min 64 maxFilterParseDepth) = true := by decide +kernel
  have hlength : oneBytes.length ≤ 100 := by decide
  simp [decodePayload, decodeJsonPaths, hforeign, hdepth, hlength, oneDocument]

def plainTexts : Texts := ⟨fun text => s!"\"{text}\"", fun _ => ""⟩

theorem truth_explain_flat : ∃ compiled,
    CompiledFilter.compile plainHost (fun _ => 228) (oneDocument oneBytes (.object [("a", .integer 1)]))
        (.new (.all [fieldIsOne "a", kindIsOrder]) .json) = .ok compiled ∧
      (compiled.explain plainTexts ⟨oneBytes, pingRecord.headers⟩ ⟨100, 64⟩).root.truth = some .noMatch := by
  have hcompile := compile_flat (oneDocument oneBytes (.object [("a", .integer 1)]))
  refine ⟨_, hcompile, (truth_explain_kleene hcompile (.inl ⟨_, decode_one _⟩) plainTexts).2.1.trans ?_⟩
  decide +kernel

end LaserSdk.Filter

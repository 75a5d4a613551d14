import LaserSdk.Filter.Prune
/-!
# A validated filter compiles and evaluates

Validation and compilation walk the expression on their own, each with its own
rules for literals, operators and coercions. What validation accepts the
compiler accepts, and an evaluation never reaches the arms the code marks
unreachable.
-/

namespace LaserSdk.Filter

open Lib

/-! ## Literals -/

theorem checkAll_ok {check : TypedValue → Except InvalidError Unit} {items : List TypedValue} {u : Unit}
    (h : checkAll check items = .ok u) : ∀ item ∈ items, check item = .ok () := by
  induction items with
  | nil => simp
  | cons item rest ih =>
    simp only [checkAll, bind_ok] at h
    obtain ⟨_, hitem, hrest⟩ := h
    intro other hmem
    rcases List.mem_cons.1 hmem with rfl | hmem
    · exact hitem
    · exact ih hrest other hmem

theorem compileLiteral_of_scalar {value : TypedValue} {u : Unit} (h : validateScalar value = .ok u) :
    ∃ literal, compileLiteral value = .ok literal := by
  cases value with
  | boolean value => exact ⟨_, rfl⟩
  | int value => exact ⟨_, rfl⟩
  | long value => exact ⟨_, rfl⟩
  | double value => exact ⟨_, rfl⟩
  | string text => exact ⟨_, rfl⟩
  | null => cases h
  | list items => cases h
  | other text => cases h

theorem compileLiterals_ok {items : List TypedValue}
    (h : ∀ item ∈ items, ∃ literal, compileLiteral item = .ok literal) :
    ∃ literals, compileLiterals items = .ok literals := by
  induction items with
  | nil => exact ⟨[], rfl⟩
  | cons item rest ih =>
    obtain ⟨literal, hliteral⟩ := h item (by simp)
    obtain ⟨literals, hliterals⟩ := ih fun other hmem => h other (by simp [hmem])
    exact ⟨literal :: literals, by simp [compileLiterals, hliteral, hliterals]⟩

theorem validateListItem_scalar {item : TypedValue} {u : Unit} (h : validateListItem item = .ok u) :
    validateScalar item = .ok u := by
  cases item <;> simp_all [validateListItem]

theorem compileLiteral_of_valid {op : CmpOp} {value : TypedValue} {site : LiteralSite} {nodes after : Nat}
    (h : validateLiteral op value site nodes = .ok after) : ∃ literal, compileLiteral value = .ok literal := by
  cases value with
  | null => exact ⟨_, rfl⟩
  | boolean value => exact ⟨_, rfl⟩
  | int value => exact ⟨_, rfl⟩
  | long value => exact ⟨_, rfl⟩
  | double value => exact ⟨_, rfl⟩
  | string text => exact ⟨_, rfl⟩
  | list items =>
    unfold validateLiteral at h
    dsimp only at h
    split_ifs at h with hin
    simp only [bind_ok, pure_ok] at h
    obtain ⟨_, -, _, hitems, -⟩ := h
    obtain ⟨literals, hliterals⟩ := compileLiterals_ok fun item hmem =>
      compileLiteral_of_scalar (validateListItem_scalar (checkAll_ok hitems item hmem))
    exact ⟨.list literals, by simp [compileLiteral, hliterals]⟩
  | other text => cases op <;> simp [validateLiteral, validateScalar] at h

section

variable {host : Host}

theorem comparableLiteral_isSome (coerce : Coerce) (value : TypedValue) :
    (comparableLiteral coerce value).isSome = coercedLiteralParses coerce value := by
  cases coerce <;> cases value <;> simp [comparableLiteral, coercedLiteralParses]

theorem compileCoercedLiteral_scalar {coerce : Coerce} {value : TypedValue}
    (h : coercedLiteralParses coerce value) : ∃ literal, compileCoercedLiteral host coerce value = .ok literal := by
  rw [← comparableLiteral_isSome] at h
  obtain ⟨comparable, hcomparable⟩ := Option.isSome_iff_exists.1 h
  have hlist : ∀ items, value ≠ .list items := by
    rintro items rfl
    cases coerce <;> simp [comparableLiteral] at hcomparable
  cases value with
  | list items => exact absurd rfl (hlist items)
  | null | boolean _ | int _ | long _ | double _ | string _ | other _ =>
    rw [compileCoercedLiteral, hcomparable]
    · cases comparable with
      | instant micros => exact ⟨_, rfl⟩
      | decimal decimal => exact ⟨_, rfl⟩
    · simp

theorem compileCoercedLiterals_ok {coerce : Coerce} {items : List TypedValue}
    (h : ∀ item ∈ items, coercedLiteralParses coerce item) :
    ∃ literals, compileCoercedLiterals host coerce items = .ok literals := by
  induction items with
  | nil => exact ⟨[], rfl⟩
  | cons item rest ih =>
    obtain ⟨literal, hliteral⟩ := @compileCoercedLiteral_scalar host coerce item (h item (by simp))
    obtain ⟨literals, hliterals⟩ := ih fun other hmem => h other (by simp [hmem])
    exact ⟨literal :: literals, by simp [compileCoercedLiterals, hliteral, hliterals]⟩

theorem validateCoercedItem_parses {coerce : Coerce} {item : TypedValue} {u : Unit}
    (h : validateCoercedItem host coerce item = .ok u) : coercedLiteralParses coerce item := by
  unfold validateCoercedItem at h
  rw [refuseIf_ok, not_not] at h
  exact h

theorem compileCoercedLiteral_of_valid {coerced : CoercedPredicate} {nodes after : Nat}
    (h : validateCoerced host coerced nodes = .ok after) :
    ∃ literal, compileCoercedLiteral host coerced.coerce coerced.pred.value = .ok literal := by
  unfold validateCoerced at h
  split at h
  · cases h
  · cases h
  · rename_i items _ hvalue
    simp only [bind_ok, pure_ok] at h
    obtain ⟨_, -, _, hitems, -⟩ := h
    obtain ⟨literals, hliterals⟩ := @compileCoercedLiterals_ok host coerced.coerce items fun item hmem =>
      validateCoercedItem_parses (checkAll_ok hitems item hmem)
    exact ⟨.list literals, by simp [hvalue, compileCoercedLiteral, hliterals]⟩
  · cases h
  · cases h
  · obtain ⟨_, hitem, -⟩ := map_ok.1 h
    exact compileCoercedLiteral_scalar (validateCoercedItem_parses hitem)

/-! ## Nodes -/

mutual

/-- The coerced predicates of an expression. -/
def coercedPredicates : FilterExpr → List CoercedPredicate
  | .all children | .any children => coercedPredicatesAll children
  | .not child => coercedPredicates child
  | .predAs coerced => [coerced]
  | .pred _ | .present _ | .absent _ | .header _ | .text _ | .headerText _ => []

def coercedPredicatesAll : List FilterExpr → List CoercedPredicate
  | [] => []
  | child :: rest => coercedPredicates child ++ coercedPredicatesAll rest

end

/-- The three walks over an expression accept it: its node, its paths and its
coerced literals. -/
structure Compiles (host : Host) (expr : FilterExpr) : Prop where
  node : ∃ node, compileNode host expr = .ok node
  paths : ∀ paths, ∃ after, collectPaths paths expr = .ok after
  literals : ∀ coerced ∈ coercedPredicates expr,
    ∃ literal, compileCoercedLiteral host coerced.coerce coerced.pred.value = .ok literal

structure CompilesAll (host : Host) (exprs : List FilterExpr) : Prop where
  nodes : ∃ nodes, compileNodes host exprs = .ok nodes
  paths : ∀ paths, ∃ after, collectPathsAll paths exprs = .ok after
  literals : ∀ coerced ∈ coercedPredicatesAll exprs,
    ∃ literal, compileCoercedLiteral host coerced.coerce coerced.pred.value = .ok literal

theorem CompilesAll.all {children : List FilterExpr} (h : CompilesAll host children) :
    Compiles host (.all children) := by
  obtain ⟨nodes, hnodes⟩ := h.nodes
  exact ⟨⟨.all nodes, by simp [compileNode, hnodes]⟩, h.paths, h.literals⟩

theorem CompilesAll.any {children : List FilterExpr} (h : CompilesAll host children) :
    Compiles host (.any children) := by
  obtain ⟨nodes, hnodes⟩ := h.nodes
  exact ⟨⟨.any nodes, by simp [compileNode, hnodes]⟩, h.paths, h.literals⟩

theorem Compiles.not {child : FilterExpr} (h : Compiles host child) : Compiles host (.not child) := by
  obtain ⟨node, hnode⟩ := h.node
  exact ⟨⟨.not node, by simp [compileNode, hnode]⟩, h.paths, h.literals⟩

theorem CompilesAll.cons {child : FilterExpr} {rest : List FilterExpr} (hchild : Compiles host child)
    (hrest : CompilesAll host rest) : CompilesAll host (child :: rest) := by
  obtain ⟨node, hnode⟩ := hchild.node
  obtain ⟨nodes, hnodes⟩ := hrest.nodes
  refine ⟨⟨node :: nodes, by simp [compileNodes, hnode, hnodes]⟩, ?_, ?_⟩
  · intro paths
    obtain ⟨middle, hmiddle⟩ := hchild.paths paths
    obtain ⟨after, hafter⟩ := hrest.paths middle
    exact ⟨after, by simp [collectPathsAll, hmiddle, hafter]⟩
  · intro coerced hmem
    rcases List.mem_append.1 hmem with hmem | hmem
    · exact hchild.literals coerced hmem
    · exact hrest.literals coerced hmem

mutual

/-- What validation accepts compiles. -/
theorem compiles_of_valid : (expr : FilterExpr) → {depth nodes after : Nat} →
    validateNode host depth nodes expr = .ok after → Compiles host expr
  | .all children, _, _, _, h => by
    simp only [validateNode, bind_ok] at h
    obtain ⟨_, -, _, -, h⟩ := h
    exact (compilesAll_of_valid children h).all
  | .any children, _, _, _, h => by
    simp only [validateNode, bind_ok] at h
    obtain ⟨_, -, _, -, h⟩ := h
    exact (compilesAll_of_valid children h).any
  | .not child, _, _, _, h => by
    simp only [validateNode, bind_ok] at h
    obtain ⟨_, -, h⟩ := h
    exact (compiles_of_valid child h).not
  | .pred predicate, _, _, _, h => by
    simp only [validateNode, bind_ok] at h
    obtain ⟨_, -, path, hpath, h⟩ := h
    obtain ⟨literal, hliteral⟩ := compileLiteral_of_valid h
    refine ⟨⟨.compare path predicate.op literal, ?_⟩, ?_, by simp [coercedPredicates]⟩
    · simp [compileNode, hpath, hliteral]
    · intro paths
      exact ⟨paths.insert path, by simp [collectPaths, hpath]⟩
  | .predAs coerced, _, _, _, h => by
    simp only [validateNode, bind_ok] at h
    obtain ⟨_, -, path, hpath, h⟩ := h
    obtain ⟨literal, hliteral⟩ := compileCoercedLiteral_of_valid h
    refine ⟨⟨.coerced path coerced.pred.op coerced.coerce literal, ?_⟩, ?_, ?_⟩
    · simp [compileNode, hpath, hliteral]
    · intro paths
      exact ⟨paths.insert path, by simp [collectPaths, hpath]⟩
    · intro other hmem
      obtain rfl := List.mem_singleton.1 hmem
      exact ⟨literal, hliteral⟩
  | .present path, _, _, _, _ => ⟨⟨_, rfl⟩, fun _ => ⟨_, rfl⟩, by simp [coercedPredicates]⟩
  | .absent path, _, _, _, _ => ⟨⟨_, rfl⟩, fun _ => ⟨_, rfl⟩, by simp [coercedPredicates]⟩
  | .header header, _, _, _, h => by
    simp only [validateNode, bind_ok] at h
    obtain ⟨_, -, _, -, h⟩ := h
    obtain ⟨literal, hliteral⟩ := compileLiteral_of_valid h
    refine ⟨⟨.header header.key header.op literal, ?_⟩, fun _ => ⟨_, rfl⟩, by simp [coercedPredicates]⟩
    simp [compileNode, hliteral]
  | .text predicate, _, _, _, h => by
    simp only [validateNode, bind_ok] at h
    obtain ⟨_, -, path, hpath, matcher, hmatcher, -⟩ := h
    refine ⟨⟨.text path matcher, ?_⟩, ?_, by simp [coercedPredicates]⟩
    · simp [compileNode, hpath, hmatcher]
    · intro paths
      exact ⟨paths.insert path, by simp [collectPaths, hpath]⟩
  | .headerText predicate, _, _, _, h => by
    simp only [validateNode, bind_ok] at h
    obtain ⟨_, -, _, -, matcher, hmatcher, -⟩ := h
    refine ⟨⟨.headerText predicate.field matcher, ?_⟩, fun _ => ⟨_, rfl⟩, by simp [coercedPredicates]⟩
    simp [compileNode, hmatcher]

theorem compilesAll_of_valid : (exprs : List FilterExpr) → {depth nodes after : Nat} →
    validateNodes host depth nodes exprs = .ok after → CompilesAll host exprs
  | [], _, _, _, _ => ⟨⟨[], rfl⟩, fun paths => ⟨paths, rfl⟩, by simp [coercedPredicatesAll]⟩
  | child :: rest, _, _, _, h => by
    simp only [validateNodes, bind_ok] at h
    obtain ⟨_, hchild, hrest⟩ := h
    exact .cons (compiles_of_valid child hchild) (compilesAll_of_valid rest hrest)

end

end

/-! ## Evaluation with its unreachable arms

The evaluation as the code writes it, with nothing where it would panic. It
decodes the payload when the first predicate asks for it. -/

structure Reading where
  payload : Option (Except FaultReason Value)
  mismatched : Bool

/-- The cached payload, decoded on the first call. -/
def Reading.decoded (reading : Reading) (decode : Except FaultReason Value) :
    Option (Except FaultReason Value × Reading) :=
  let reading := if reading.payload.isNone then { reading with payload := some decode } else reading
  match reading.payload with
  | some payload => some (payload, reading)
  | none => none

/-- `payload_truth`, which only payload leaves may reach. -/
def judgeLeaf (host : Host) (value : Value) : Node → Option (Truth × Bool)
  | .compare path op literal => some (compareTruth (resolve value path) op literal)
  | .coerced path op coerce literal => some (coercedTruth host (resolve value path) op coerce literal)
  | .text path matcher => some (textTruth host (resolve value path) matcher)
  | .present path => some (truthOf (resolve value path).isSome, false)
  | .absent path => some (truthOf (resolve value path).isNone, false)
  | .all _ | .any _ | .not _ | .header _ _ _ | .headerText _ _ => none

def Reading.note (reading : Reading) (judged : Truth × Bool) : Except FaultReason Truth × Reading :=
  (.ok judged.1, { reading with mismatched := reading.mismatched || judged.2 })

/-- The last arm of `truth`. -/
def Reading.leaf (reading : Reading) (host : Host) (decode : Except FaultReason Value) (node : Node) :
    Option (Except FaultReason Truth × Reading) := do
  let (payload, reading) ← reading.decoded decode
  match payload with
  | .error reason => return (.error reason, reading)
  | .ok value =>
    let judged ← judgeLeaf host value node
    return reading.note judged

/-- How the second pass, or a first one that ended, settles the node. -/
def Pass.settle (decisive otherwise : Truth) : Except FaultReason Pass → Except FaultReason Truth
  | .error reason => .error reason
  | .ok .decided => .ok decisive
  | .ok (.running unknown) => .ok (if unknown then .unknown else otherwise)

/-- The children that read no payload, and then those that do. -/
def joinReadings (decisive otherwise : Truth) (first : Option (Except FaultReason Pass × Reading))
    (second : Bool → Reading → Option (Except FaultReason Pass × Reading)) :
    Option (Except FaultReason Truth × Reading) := do
  let (pass, reading) ← first
  match pass with
  | .ok (.running unknown) =>
    let (pass, reading) ← second unknown reading
    return (Pass.settle decisive otherwise pass, reading)
  | pass => return (Pass.settle decisive otherwise pass, reading)

mutual

def Reading.truth (host : Host) (headers : List Header) (decode : Except FaultReason Value) (reading : Reading) :
    Node → Option (Except FaultReason Truth × Reading)
  | .all children =>
    joinReadings .noMatch .isMatch (reading.pass host headers decode false .noMatch false children)
      fun unknown reading => reading.pass host headers decode true .noMatch unknown children
  | .any children =>
    joinReadings .isMatch .noMatch (reading.pass host headers decode false .isMatch false children)
      fun unknown reading => reading.pass host headers decode true .isMatch unknown children
  | .not child => do
    let (truth, reading) ← reading.truth host headers decode child
    return (truth.map negate, reading)
  | .header key op literal => return reading.note (headerTruth headers key op literal)
  | .headerText key matcher => return reading.note (headerTextTruth host headers key matcher)
  | .compare path op literal => reading.leaf host decode (.compare path op literal)
  | .coerced path op coerce literal => reading.leaf host decode (.coerced path op coerce literal)
  | .text path matcher => reading.leaf host decode (.text path matcher)
  | .present path => reading.leaf host decode (.present path)
  | .absent path => reading.leaf host decode (.absent path)

def Reading.pass (host : Host) (headers : List Header) (decode : Except FaultReason Value) (reads : Bool)
    (decisive : Truth) (unknown : Bool) (reading : Reading) : List Node → Option (Except FaultReason Pass × Reading)
  | [] => some (.ok (.running unknown), reading)
  | child :: rest =>
    if child.readsPayload = reads then do
      let (truth, reading) ← reading.truth host headers decode child
      match truth with
      | .error reason => return (.error reason, reading)
      | .ok truth =>
        if truth = decisive then return (.ok .decided, reading)
        else reading.pass host headers decode reads decisive (unknown || truth == .unknown) rest
    else reading.pass host headers decode reads decisive unknown rest

end

/-- Where the payload is cached, it is what the decoder gives. -/
def Reading.Cached (reading : Reading) (decode : Except FaultReason Value) : Prop :=
  reading.payload = none ∨ reading.payload = some decode

/-- The evaluation reaches its end with the model's result and flag. -/
def Reaches {α : Type} (decode : Except FaultReason Value) (reached : Option (α × Reading)) (result : α × Bool) : Prop :=
  ∃ after, reached = some (result.1, after) ∧ after.mismatched = result.2 ∧ after.Cached decode

theorem decoded_reaches {decode : Except FaultReason Value} {reading : Reading} (h : reading.Cached decode) :
    Reaches decode (reading.decoded decode) (decode, reading.mismatched) := by
  obtain ⟨payload, mismatched⟩ := reading
  rcases h with rfl | rfl
  · exact ⟨⟨some decode, mismatched⟩, rfl, rfl, .inr rfl⟩
  · exact ⟨⟨some decode, mismatched⟩, rfl, rfl, .inr rfl⟩

theorem leaf_reaches {ctx : Context} {reading : Reading} (h : reading.Cached ctx.payload) {node : Node}
    {judge : Value → Truth × Bool} (hleaf : ∀ value, judgeLeaf ctx.host value node = some (judge value)) :
    Reaches ctx.payload (reading.leaf ctx.host ctx.payload node) (ctx.payloadTruth reading.mismatched judge) := by
  obtain ⟨after, hdecoded, hflag, hcached⟩ := decoded_reaches h
  unfold Reading.leaf Context.payloadTruth
  rw [hdecoded]
  cases hpayload : ctx.payload with
  | error reason =>
    rw [hpayload] at hcached
    exact ⟨after, rfl, hflag, hcached⟩
  | ok value =>
    rw [hpayload] at hcached
    refine ⟨(after.note (judge value)).2, ?_, ?_, hcached⟩
    · simp [hleaf, Reading.note]
    · simp only [Reading.note]
      rw [hflag]

theorem note_reaches {decode : Except FaultReason Value} {reading : Reading} (h : reading.Cached decode)
    (judged : Truth × Bool) :
    Reaches decode (some (reading.note judged)) (.ok judged.1, reading.mismatched || judged.2) :=
  ⟨(reading.note judged).2, rfl, rfl, h⟩

theorem join_reaches {decode : Except FaultReason Value} {decisive otherwise : Truth}
    {first : Option (Except FaultReason Pass × Reading)} {firstResult : Except FaultReason Pass × Bool}
    {second : Bool → Reading → Option (Except FaultReason Pass × Reading)}
    {secondResult : Bool → Bool → Except FaultReason Pass × Bool} (hfirst : Reaches decode first firstResult)
    (hsecond : ∀ unknown reading, Reading.Cached reading decode →
      Reaches decode (second unknown reading) (secondResult unknown reading.mismatched)) :
    Reaches decode (joinReadings decisive otherwise first second)
      (joinPasses decisive otherwise firstResult secondResult) := by
  obtain ⟨after, rfl, hflag, hcached⟩ := hfirst
  obtain ⟨pass, mismatched⟩ := firstResult
  dsimp only at hflag
  subst hflag
  cases pass with
  | error reason => exact ⟨after, rfl, rfl, hcached⟩
  | ok pass =>
    cases pass with
    | decided => exact ⟨after, rfl, rfl, hcached⟩
    | running unknown =>
      obtain ⟨last, hlast, hflag, hcached'⟩ := hsecond unknown after hcached
      have hjoin : joinReadings decisive otherwise (some (.ok (.running unknown), after)) second =
          (second unknown after).bind fun settled =>
            some (Pass.settle decisive otherwise settled.1, settled.2) := rfl
      rw [hjoin]
      simp only [joinPasses]
      generalize secondResult unknown after.mismatched = result at hlast hflag
      obtain ⟨pass', mismatched'⟩ := result
      dsimp only at hlast hflag
      subst hflag
      refine ⟨last, ?_, ?_, hcached'⟩
      · rw [hlast]
        cases pass' with
        | error reason => rfl
        | ok pass' => cases pass' <;> rfl
      · cases pass' with
        | error reason => rfl
        | ok pass' => cases pass' <;> rfl

mutual

theorem truth_reaches (ctx : Context) : (node : Node) → (reading : Reading) → reading.Cached ctx.payload →
    Reaches ctx.payload (reading.truth ctx.host ctx.headers ctx.payload node) (ctx.truth reading.mismatched node)
  | .all children, reading, h =>
    join_reaches (pass_reaches ctx children false .noMatch false reading h) fun unknown reading h =>
      pass_reaches ctx children true .noMatch unknown reading h
  | .any children, reading, h =>
    join_reaches (pass_reaches ctx children false .isMatch false reading h) fun unknown reading h =>
      pass_reaches ctx children true .isMatch unknown reading h
  | .not child, reading, h => by
    obtain ⟨after, hchild, hflag, hcached⟩ := truth_reaches ctx child reading h
    simp only [Reading.truth, Context.truth, hchild]
    exact ⟨after, rfl, hflag, hcached⟩
  | .header key op literal, reading, h => note_reaches h _
  | .headerText key matcher, reading, h => note_reaches h _
  | .compare path op literal, reading, h => leaf_reaches h fun _ => rfl
  | .coerced path op coerce literal, reading, h => leaf_reaches h fun _ => rfl
  | .text path matcher, reading, h => leaf_reaches h fun _ => rfl
  | .present path, reading, h => leaf_reaches h fun _ => rfl
  | .absent path, reading, h => leaf_reaches h fun _ => rfl

theorem pass_reaches (ctx : Context) : (children : List Node) → (reads : Bool) → (decisive : Truth) →
    (unknown : Bool) → (reading : Reading) → reading.Cached ctx.payload →
    Reaches ctx.payload (reading.pass ctx.host ctx.headers ctx.payload reads decisive unknown children)
      (ctx.pass reads decisive unknown reading.mismatched children)
  | [], _, _, _, reading, h => ⟨reading, rfl, rfl, h⟩
  | child :: rest, reads, decisive, unknown, reading, h => by
    simp only [Reading.pass, Context.pass]
    split_ifs with hreads
    · obtain ⟨after, hchild, hflag, hcached⟩ := truth_reaches ctx child reading h
      have hrest (unknown : Bool) := pass_reaches ctx rest reads decisive unknown after hcached
      generalize ctx.truth reading.mismatched child = result at hchild hflag
      obtain ⟨truth, mismatched⟩ := result
      dsimp only at hchild hflag
      subst hflag
      rw [hchild]
      cases truth with
      | error reason => exact ⟨after, rfl, rfl, hcached⟩
      | ok truth =>
        by_cases hdecisive : truth = decisive
        · simp only [stepPass, if_pos hdecisive]
          exact ⟨after, by simp [hdecisive], rfl, hcached⟩
        · simp only [stepPass, if_neg hdecisive]
          simpa [hdecisive] using hrest (unknown || truth == .unknown)
    · exact pass_reaches ctx rest reads decisive unknown reading h

end

/-- `evaluate_with_fault` with its unreachable arms. -/
def CompiledFilter.evaluateReached (compiled : CompiledFilter) (record : FilterRecord) (limits : DecodeLimits) :
    Option (Verdict × Option FaultReason) := do
  let decode := decodePayload compiled.decoders compiled.filter.codec record limits compiled.paths
  let (truth, reading) ← (Reading.mk none false).truth compiled.host record.headers decode compiled.root
  return compiled.filter.evaluated truth reading.mismatched

theorem evaluateReached_eq (compiled : CompiledFilter) (record : FilterRecord) (limits : DecodeLimits) :
    compiled.evaluateReached record limits = some (compiled.evaluateWithFault record limits) := by
  obtain ⟨after, htruth, hflag, -⟩ :=
    truth_reaches (compiled.context record limits) compiled.root ⟨none, false⟩ (.inl rfl)
  unfold CompiledFilter.evaluateReached CompiledFilter.evaluateWithFault
  simp only [CompiledFilter.context] at htruth hflag ⊢
  rw [htruth]
  simp [hflag]

/-- A validated filter compiles, all of its coerced literals with it, and no
record makes its evaluation panic. -/
theorem validated_compiles {host : Host} {encodedBytes : ConsumerFilter → Nat} {filter : ConsumerFilter}
    (hvalid : filter.validate host encodedBytes = .ok ()) (decoders : Decoders) :
    (∃ node, compileNode host filter.expr = .ok node) ∧
    (∃ paths, collectPaths .empty filter.expr = .ok paths) ∧
    (∀ coerced ∈ coercedPredicates filter.expr,
      ∃ literal, compileCoercedLiteral host coerced.coerce coerced.pred.value = .ok literal) ∧
    ∃ compiled, CompiledFilter.compile host encodedBytes decoders filter = .ok compiled ∧
      ∀ record limits, compiled.evaluateReached record limits = some (compiled.evaluateWithFault record limits) := by
  have hnode := hvalid
  simp only [ConsumerFilter.validate, bind_ok] at hnode
  obtain ⟨_, -, _, -, _, -, _, -, _, -, _, -, _, -, _, -, _, -, _, hnode, -⟩ := hnode
  have hcompiles := compiles_of_valid filter.expr hnode
  obtain ⟨node, hroot⟩ := hcompiles.node
  obtain ⟨paths, hpaths⟩ := hcompiles.paths .empty
  refine ⟨⟨node, hroot⟩, ⟨paths, hpaths⟩, hcompiles.literals, _, compile_ok hvalid hpaths hroot decoders, ?_⟩
  intro record limits
  exact evaluateReached_eq _ record limits

/-- A list of decimals over one field, and a glob over another. -/
def decimalsAndGlob : ConsumerFilter :=
  .new (.all [.predAs ⟨⟨"a", .in, .list [.string "1.50", .int 2]⟩, .number⟩, .text ⟨"b", .glob, "x*", false⟩]) .json

theorem validated_compiles_decimals : decimalsAndGlob.validate plainHost (fun _ => 245) = .ok () ∧
    ∃ compiled, CompiledFilter.compile plainHost (fun _ => 245) (oneDocument [] .null) decimalsAndGlob = .ok compiled ∧
      ∀ record limits, compiled.evaluateReached record limits = some (compiled.evaluateWithFault record limits) := by
  have hvalid : decimalsAndGlob.validate plainHost (fun _ => 245) = .ok () := by decide +kernel
  exact ⟨hvalid, (validated_compiles hvalid (oneDocument [] .null)).2.2.2⟩

end LaserSdk.Filter

import LaserSdk.Lib.Kleene
import LaserSdk.Filter.Prune
/-!
# Headers that decide

The Kleene value of a filter under any truths of its payload predicates, and
when the evaluation finds it without a payload. Only children that hold no
payload predicate are read first, so a filter whose headers decide it may
still meet the payload on the way.
-/

namespace LaserSdk.Filter

open Lib

/-! ## Kleene values -/

section

variable (host : Host) (headers : List Header) (assign : Node → Truth)

mutual

/-- The Kleene value of a node, with the payload predicates at given truths. -/
def Node.value : Node → Truth
  | .all children => connective .unknown .noMatch .isMatch (nodeValues children)
  | .any children => connective .unknown .isMatch .noMatch (nodeValues children)
  | .not child => negate child.value
  | .header key op literal => (headerTruth headers key op literal).1
  | .headerText key matcher => (headerTextTruth host headers key matcher).1
  | .compare path op literal => assign (.compare path op literal)
  | .coerced path op coerce literal => assign (.coerced path op coerce literal)
  | .text path matcher => assign (.text path matcher)
  | .present path => assign (.present path)
  | .absent path => assign (.absent path)

def nodeValues : List Node → List Truth
  | [] => []
  | child :: rest => child.value :: nodeValues rest

end

end

/-- The value with every payload predicate unknown. -/
def Node.headerValue (host : Host) (headers : List Header) (node : Node) : Truth :=
  node.value host headers fun _ => .unknown

theorem negate_below {a b : Truth} (h : Below .unknown a b) : Below .unknown (negate a) (negate b) := by
  rcases h with rfl | rfl
  · exact .inl rfl
  · exact .inr rfl

mutual

theorem value_mono (host : Host) (headers : List Header) {first second : Node → Truth}
    (h : ∀ leaf, Below .unknown (first leaf) (second leaf)) :
    (node : Node) → Below .unknown (node.value host headers first) (node.value host headers second)
  | .all children => connective_mono (by decide) (nodeValues_mono host headers h children)
  | .any children => connective_mono (by decide) (nodeValues_mono host headers h children)
  | .not child => negate_below (value_mono host headers h child)
  | .header _ _ _ => .inr rfl
  | .headerText _ _ => .inr rfl
  | .compare _ _ _ => h _
  | .coerced _ _ _ _ => h _
  | .text _ _ => h _
  | .present _ => h _
  | .absent _ => h _

theorem nodeValues_mono (host : Host) (headers : List Header) {first second : Node → Truth}
    (h : ∀ leaf, Below .unknown (first leaf) (second leaf)) : (children : List Node) →
    List.Forall₂ (Below .unknown) (nodeValues host headers first children) (nodeValues host headers second children)
  | [] => .nil
  | child :: rest => .cons (value_mono host headers h child) (nodeValues_mono host headers h rest)

end

/-- The headers decide a node: it has this value under every assignment. -/
def HeadersDecide (host : Host) (headers : List Header) (node : Node) (truth : Truth) : Prop :=
  truth ≠ .unknown ∧ ∀ assign, node.value host headers assign = truth

theorem headersDecide_iff {host : Host} {headers : List Header} {node : Node} {truth : Truth} :
    HeadersDecide host headers node truth ↔ truth ≠ .unknown ∧ node.headerValue host headers = truth := by
  refine and_congr_right fun hknown => ⟨fun h => h _, fun h assign => ?_⟩
  have hbelow : Below .unknown (node.headerValue host headers) (node.value host headers assign) :=
    value_mono host headers (fun _ => .inl rfl) node
  rw [← hbelow.eq_of_ne (h ▸ hknown), h]

/-! ## Evaluating -/

/-- Some child without a payload predicate has the decisive value. -/
def headersFirst (value : Node → Truth) (decisive : Truth) (children : List Node) : Bool :=
  children.any fun child => !child.readsPayload && value child == decisive

mutual

/-- The evaluation of a node ends before it asks for the payload. `value` is
the value of a node under the headers. -/
def Node.settled (value : Node → Truth) : Node → Bool
  | .all children =>
    settledPass value false .noMatch children &&
      (headersFirst value .noMatch children || settledPass value true .noMatch children)
  | .any children =>
    settledPass value false .isMatch children &&
      (headersFirst value .isMatch children || settledPass value true .isMatch children)
  | .not child => child.settled value
  | .header _ _ _ | .headerText _ _ => true
  | .compare _ _ _ | .coerced _ _ _ _ | .text _ _ | .present _ | .absent _ => false

/-- Every child of a pass up to the first decisive one is settled. -/
def settledPass (value : Node → Truth) (reads : Bool) (decisive : Truth) : List Node → Bool
  | [] => true
  | child :: rest =>
    if child.readsPayload = reads then
      child.settled value && (value child == decisive || settledPass value reads decisive rest)
    else settledPass value reads decisive rest

end

/-- The truth of a payload predicate in a decoded payload. -/
def leafTruth (host : Host) (payload : Value) : Node → Truth
  | .compare path op literal => (compareTruth (resolve payload path) op literal).1
  | .coerced path op coerce literal => (coercedTruth host (resolve payload path) op coerce literal).1
  | .text path matcher => (textTruth host (resolve payload path) matcher).1
  | .present path => truthOf (resolve payload path).isSome
  | .absent path => truthOf (resolve payload path).isNone
  | _ => .unknown

namespace Context

variable (ctx : Context)

/-- The truths the payload gives, all unknown if it is faulty. -/
def assign : Node → Truth :=
  match ctx.payload with
  | .ok payload => leafTruth ctx.host payload
  | .error _ => fun _ => .unknown

def value (node : Node) : Truth := node.value ctx.host ctx.headers ctx.assign

/-- A result that stands unless a faulty payload was asked for. -/
def unlessRead {α : Type} (settled : Bool) (result : α) : Except FaultReason α :=
  match ctx.payload with
  | .ok _ => .ok result
  | .error reason => if settled then .ok result else .error reason

@[simp] theorem unlessRead_true {α : Type} (result : α) : ctx.unlessRead true result = .ok result := by
  unfold unlessRead
  split <;> rfl

/-- The values of the children one pass reads. -/
def passValues (reads : Bool) (children : List Node) : List Truth :=
  (children.filter fun child => child.readsPayload = reads).map ctx.value

/-- How a pass ends over children with these values. -/
def passEnd (decisive : Truth) (unknown : Bool) (values : List Truth) : Pass :=
  if decisive ∈ values then .decided else .running (unknown || decide (Truth.unknown ∈ values))

theorem nodeValues_eq_map (children : List Node) :
    nodeValues ctx.host ctx.headers ctx.assign children = children.map ctx.value := by
  induction children with
  | nil => rfl
  | cons child rest ih => rw [nodeValues, ih, List.map_cons, value]

theorem mem_passValues {truth : Truth} {children : List Node} :
    truth ∈ ctx.passValues false children ∨ truth ∈ ctx.passValues true children ↔ truth ∈ children.map ctx.value := by
  simp only [passValues, List.mem_map, List.mem_filter, decide_eq_true_eq]
  constructor
  · rintro (⟨child, ⟨hchild, -⟩, hvalue⟩ | ⟨child, ⟨hchild, -⟩, hvalue⟩) <;> exact ⟨child, hchild, hvalue⟩
  · rintro ⟨child, hchild, hvalue⟩
    cases hreads : child.readsPayload with
    | false => exact .inl ⟨child, ⟨hchild, hreads⟩, hvalue⟩
    | true => exact .inr ⟨child, ⟨hchild, hreads⟩, hvalue⟩

theorem headersFirst_iff {decisive : Truth} {children : List Node} :
    headersFirst ctx.value decisive children = true ↔ decisive ∈ ctx.passValues false children := by
  simp [headersFirst, passValues, and_assoc]

/-- What the result of a pass makes of the node. -/
def ended (decisive otherwise : Truth) : Pass → Truth
  | .decided => decisive
  | .running unknown => if unknown then .unknown else otherwise

theorem joinPasses_decided {decisive otherwise : Truth} {first : Except FaultReason Pass × Bool}
    {second : Bool → Bool → Except FaultReason Pass × Bool} {s : Bool} (h : first.1 = ctx.unlessRead s .decided) :
    (joinPasses decisive otherwise first second).1 = ctx.unlessRead s decisive := by
  obtain ⟨result, mismatched⟩ := first
  obtain rfl : result = _ := h
  unfold unlessRead
  cases ctx.payload with
  | ok payload => rfl
  | error reason => cases s <;> rfl

theorem joinPasses_running {decisive otherwise : Truth} {unknown : Bool} {first : Except FaultReason Pass × Bool}
    {second : Bool → Bool → Except FaultReason Pass × Bool} {s s' : Bool} {last : Pass}
    (hfirst : first.1 = ctx.unlessRead s (.running unknown))
    (hsecond : ∀ mismatched, (second unknown mismatched).1 = ctx.unlessRead s' last) :
    (joinPasses decisive otherwise first second).1 = ctx.unlessRead (s && s') (ended decisive otherwise last) := by
  obtain ⟨result, mismatched⟩ := first
  obtain rfl : result = _ := hfirst
  have hlast := hsecond mismatched
  rcases hpass : second unknown mismatched with ⟨result, flag⟩
  rw [hpass] at hlast
  obtain rfl : result = _ := hlast
  unfold unlessRead at hpass ⊢
  cases hpayload : ctx.payload with
  | ok payload =>
    rw [hpayload] at hpass
    cases last <;> simp [joinPasses, hpass, ended]
  | error reason =>
    rw [hpayload] at hpass
    cases s with
    | false => rfl
    | true => cases s' <;> cases last <;> simp_all [joinPasses, ended]

/-- Two passes make a connective. -/
theorem joinPasses_fst {decisive otherwise : Truth} {children : List Node}
    {first : Except FaultReason Pass × Bool} {second : Bool → Bool → Except FaultReason Pass × Bool} {s s' : Bool}
    (hfirst : first.1 = ctx.unlessRead s (passEnd decisive false (ctx.passValues false children)))
    (hsecond : ∀ unknown mismatched, (second unknown mismatched).1 =
      ctx.unlessRead s' (passEnd decisive unknown (ctx.passValues true children))) :
    (joinPasses decisive otherwise first second).1 =
      ctx.unlessRead (s && (headersFirst ctx.value decisive children || s'))
        (connective .unknown decisive otherwise (children.map ctx.value)) := by
  unfold connective
  simp only [← ctx.mem_passValues]
  by_cases hdecisive : decisive ∈ ctx.passValues false children
  · rw [passEnd, if_pos hdecisive] at hfirst
    rw [ctx.joinPasses_decided hfirst, ctx.headersFirst_iff.2 hdecisive, if_pos (.inl hdecisive)]
    simp
  · rw [passEnd, if_neg hdecisive] at hfirst
    rw [ctx.joinPasses_running hfirst (hsecond _), Bool.eq_false_iff.2 (mt ctx.headersFirst_iff.1 hdecisive)]
    simp only [Bool.false_or, passEnd, hdecisive, false_or]
    by_cases hlast : decisive ∈ ctx.passValues true children <;> simp [hlast, ended]

theorem stepPass_fst {decisive truth : Truth} {unknown : Bool} {child : Except FaultReason Truth × Bool}
    {next : Bool → Bool → Except FaultReason Pass × Bool} {s s' : Bool} {values : List Truth}
    (hchild : child.1 = ctx.unlessRead s truth)
    (hnext : ∀ unknown mismatched, (next unknown mismatched).1 = ctx.unlessRead s' (passEnd decisive unknown values)) :
    (stepPass decisive unknown child next).1 =
      ctx.unlessRead (s && (truth == decisive || s')) (passEnd decisive unknown (truth :: values)) := by
  obtain ⟨result, mismatched⟩ := child
  obtain rfl : result = _ := hchild
  by_cases hdecisive : truth = decisive
  · subst hdecisive
    unfold unlessRead
    cases ctx.payload with
    | ok payload => simp [stepPass, passEnd]
    | error reason => cases s <;> simp [stepPass, passEnd]
  · have hend : passEnd decisive unknown (truth :: values) = passEnd decisive (unknown || truth == .unknown) values := by
      have h : decisive ≠ truth := Ne.symm hdecisive
      have hmatch : (Truth.isMatch == Truth.unknown) = false := rfl
      have hno : (Truth.noMatch == Truth.unknown) = false := rfl
      cases truth <;> simp [passEnd, h, hmatch, hno]
    have hlast := hnext (unknown || truth == .unknown) mismatched
    rw [hend, beq_false_of_ne hdecisive, Bool.false_or]
    unfold unlessRead at hlast ⊢
    cases hpayload : ctx.payload with
    | ok payload =>
      rw [hpayload] at hlast
      simpa [stepPass, hdecisive] using hlast
    | error reason =>
      rw [hpayload] at hlast
      cases s with
      | false => rfl
      | true => simpa [stepPass, hdecisive] using hlast

theorem payloadTruth_fst {leaf : Node} {judge : Value → Truth × Bool}
    (hjudge : ∀ payload, (judge payload).1 = leafTruth ctx.host payload leaf) (mismatched : Bool) :
    (ctx.payloadTruth mismatched judge).1 = ctx.unlessRead false (ctx.assign leaf) := by
  unfold payloadTruth unlessRead assign
  cases ctx.payload with
  | ok payload => simp [hjudge]
  | error reason => rfl

theorem map_unlessRead {α β : Type} (f : α → β) (settled : Bool) (result : α) :
    (ctx.unlessRead settled result).map f = ctx.unlessRead settled (f result) := by
  unfold unlessRead
  cases ctx.payload with
  | ok payload => rfl
  | error reason => cases settled <;> rfl

mutual

/-- The truth of a node is its Kleene value, unless the evaluation asks for a
faulty payload. -/
theorem truth_fst : (node : Node) → (mismatched : Bool) →
    (ctx.truth mismatched node).1 = ctx.unlessRead (node.settled ctx.value) (ctx.value node)
  | .all children, mismatched => by
    rw [truth, Node.settled, value, Node.value, nodeValues_eq_map]
    exact ctx.joinPasses_fst (pass_fst children _ _ _ _) fun _ _ => pass_fst children _ _ _ _
  | .any children, mismatched => by
    rw [truth, Node.settled, value, Node.value, nodeValues_eq_map]
    exact ctx.joinPasses_fst (pass_fst children _ _ _ _) fun _ _ => pass_fst children _ _ _ _
  | .not child, mismatched => by
    have hchild := truth_fst child mismatched
    simp only [truth, hchild, map_unlessRead]
    rfl
  | .header key op literal, mismatched => by simp [truth, Node.settled, value, Node.value]
  | .headerText key matcher, mismatched => by simp [truth, Node.settled, value, Node.value]
  | .compare path op literal, mismatched => ctx.payloadTruth_fst (fun _ => rfl) mismatched
  | .coerced path op coerce literal, mismatched => ctx.payloadTruth_fst (fun _ => rfl) mismatched
  | .text path matcher, mismatched => ctx.payloadTruth_fst (fun _ => rfl) mismatched
  | .present path, mismatched => ctx.payloadTruth_fst (fun _ => rfl) mismatched
  | .absent path, mismatched => ctx.payloadTruth_fst (fun _ => rfl) mismatched

theorem pass_fst : (children : List Node) → (reads : Bool) → (decisive : Truth) → (unknown mismatched : Bool) →
    (ctx.pass reads decisive unknown mismatched children).1 =
      ctx.unlessRead (settledPass ctx.value reads decisive children)
        (passEnd decisive unknown (ctx.passValues reads children))
  | [], reads, decisive, unknown, mismatched => by simp [pass, settledPass, passEnd, passValues]
  | child :: rest, reads, decisive, unknown, mismatched => by
    rw [pass, settledPass]
    by_cases hreads : child.readsPayload = reads
    · rw [if_pos hreads, if_pos hreads, show ctx.passValues reads (child :: rest) =
        ctx.value child :: ctx.passValues reads rest by simp [passValues, hreads]]
      exact ctx.stepPass_fst (truth_fst child mismatched) fun _ _ => pass_fst rest _ _ _ _
    · rw [if_neg hreads, if_neg hreads, show ctx.passValues reads (child :: rest) = ctx.passValues reads rest by
        simp [passValues, hreads]]
      exact pass_fst rest _ _ _ _

end

end Context

/-! ## Verdicts -/

/-- The verdict of a decided truth. -/
def verdictOf : Truth → Verdict
  | .isMatch => .selected
  | .noMatch | .unknown => .rejected

theorem evaluated_decided (filter : ConsumerFilter) {truth : Truth} (h : truth ≠ .unknown) (mismatched : Bool) :
    filter.evaluated (.ok truth) mismatched = (verdictOf truth, none) := by
  cases truth with
  | unknown => exact absurd rfl h
  | _ => rfl

theorem faulted_eq (filter : ConsumerFilter) (reason : FaultReason) : filter.faulted reason =
    (if filter.recordPolicy reason = some .reject then .rejected else .fault, some reason) := by
  unfold ConsumerFilter.faulted
  cases filter.recordPolicy reason with
  | none => rfl
  | some policy => cases policy <;> rfl

section

variable {host : Host} {encodedBytes : ConsumerFilter → Nat} {decoders : Decoders} {filter : ConsumerFilter}
  {compiled : CompiledFilter} {record : FilterRecord} {limits : DecodeLimits} {truth : Truth}

/-- The payload as the compiled filter decodes it. -/
def CompiledFilter.decoded (compiled : CompiledFilter) (record : FilterRecord) (limits : DecodeLimits) :
    Except FaultReason Value :=
  decodePayload compiled.decoders compiled.filter.codec record limits compiled.paths

theorem evaluateWithFault_eq : ∃ mismatched, compiled.evaluateWithFault record limits =
    compiled.filter.evaluated ((compiled.context record limits).unlessRead
      (compiled.root.settled (compiled.context record limits).value)
      ((compiled.context record limits).value compiled.root)) mismatched := by
  refine ⟨((compiled.context record limits).truth false compiled.root).2, ?_⟩
  rw [← (compiled.context record limits).truth_fst compiled.root false]
  rfl

theorem value_of_fault {reason : FaultReason} (hfault : compiled.decoded record limits = .error reason) :
    (compiled.context record limits).value = Node.headerValue compiled.host record.headers := by
  have hpayload : (compiled.context record limits).payload = .error reason := hfault
  funext node
  simp only [Context.value, Context.assign, hpayload]
  rfl

theorem evaluate_read (hdecide : HeadersDecide compiled.host record.headers compiled.root truth)
    (h : (∃ payload, compiled.decoded record limits = .ok payload) ∨
      compiled.root.settled (Node.headerValue compiled.host record.headers) = true) :
    compiled.evaluateWithFault record limits = (verdictOf truth, none) := by
  obtain ⟨mismatched, heval⟩ := @evaluateWithFault_eq compiled record limits
  have hvalue : (compiled.context record limits).value compiled.root = truth := hdecide.2 _
  rw [heval, hvalue, ← evaluated_decided compiled.filter hdecide.1 mismatched]
  congr 1
  cases hdecoded : compiled.decoded record limits with
  | ok payload =>
    have hpayload : (compiled.context record limits).payload = .ok payload := hdecoded
    simp only [Context.unlessRead, hpayload]
  | error reason =>
    rw [value_of_fault hdecoded, h.resolve_left (by simp [hdecoded]), Context.unlessRead_true]

theorem evaluate_unread {reason : FaultReason} (hfault : compiled.decoded record limits = .error reason)
    (h : compiled.root.settled (Node.headerValue compiled.host record.headers) = false) :
    compiled.evaluateWithFault record limits = compiled.filter.faulted reason := by
  obtain ⟨mismatched, heval⟩ := @evaluateWithFault_eq compiled record limits
  have hpayload : (compiled.context record limits).payload = .error reason := hfault
  rw [heval, value_of_fault hfault, h]
  simp only [Context.unlessRead, hpayload]
  rfl

/-- Where the headers decide, the verdict is theirs without a fault exactly if
the payload decodes or the evaluation ends before it asks for the payload. The
verdict alone is theirs also where a rejected fault meets a rejecting filter. -/
theorem headers_win_iff (hcompile : CompiledFilter.compile host encodedBytes decoders filter = .ok compiled)
    (hdecide : HeadersDecide host record.headers compiled.root truth) :
    (compiled.evaluateWithFault record limits = (verdictOf truth, none) ↔
      (∃ payload, compiled.decoded record limits = .ok payload) ∨
        compiled.root.settled (Node.headerValue host record.headers) = true) ∧
    (compiled.evaluate record limits = verdictOf truth ↔
      (∃ payload, compiled.decoded record limits = .ok payload) ∨
        compiled.root.settled (Node.headerValue host record.headers) = true ∨
        truth = .noMatch ∧ ∃ reason, compiled.decoded record limits = .error reason ∧
          filter.recordPolicy reason = some .reject) := by
  obtain ⟨-, -, rfl, rfl, -⟩ := compile_parts hcompile
  by_cases hread : (∃ payload, compiled.decoded record limits = .ok payload) ∨
      compiled.root.settled (Node.headerValue compiled.host record.headers) = true
  · have heval := evaluate_read hdecide hread
    refine ⟨iff_of_true heval hread, iff_of_true (by rw [CompiledFilter.evaluate, heval]) ?_⟩
    exact hread.imp_right .inl
  · -- Not decoded and not settled: the fault of the payload is the answer.
    rw [not_or, Bool.not_eq_true] at hread
    obtain ⟨hdecoded, hsettled⟩ := hread
    cases hfault : compiled.decoded record limits with
    | ok payload => exact absurd ⟨payload, hfault⟩ hdecoded
    | error reason =>
      have heval := evaluate_unread hfault hsettled
      rw [faulted_eq] at heval
      rw [CompiledFilter.evaluate, heval]
      refine ⟨by simp [hsettled], ?_⟩
      cases truth with
      | unknown => exact absurd rfl hdecide.1
      | isMatch => by_cases hreject : compiled.filter.recordPolicy reason = some .reject <;> simp [verdictOf, hreject, hsettled]
      | noMatch => by_cases hreject : compiled.filter.recordPolicy reason = some .reject <;> simp [verdictOf, hreject, hsettled]

end

/-! A filter on a header and two fields, nested in two ways, against a record
whose header rules it out and whose payload is not JSON. -/

def fieldIsOne (field : String) : FilterExpr := .pred ⟨field, .eq, .long 1⟩

def kindIsOrder : FilterExpr := .header ⟨"kind", .eq, .string "order"⟩

def fieldNode (field : String) : Node := .compare ⟨[.key field]⟩ .eq (.int 1)

def kindNode : Node := .header "kind" .eq (.text "order")

def pingRecord : FilterRecord := ⟨[120], [⟨"kind", .string "ping"⟩]⟩

/-- Decoders of a JSON filter in front of a payload that is not JSON. -/
def noDocument : Decoders where
  tokenize _ := none
  decodePaths _ _ _ _ := .error .malformed

theorem parse_field_a : FieldPath.parse "a" = .ok ⟨[.key "a"]⟩ := by decide +kernel

theorem parse_field_b : FieldPath.parse "b" = .ok ⟨[.key "b"]⟩ := by decide +kernel

theorem compile_flat (decoders : Decoders) :
    CompiledFilter.compile plainHost (fun _ => 228) decoders (.new (.all [fieldIsOne "a", kindIsOrder]) .json) =
      .ok ⟨plainHost, .new (.all [fieldIsOne "a", kindIsOrder]) .json, .all [fieldNode "a", kindNode],
        PathTrie.empty.insert ⟨[.key "a"]⟩, decoders⟩ := by
  refine compile_ok ?_ ?_ ?_ decoders
  · decide +kernel
  · simp [ConsumerFilter.new, collectPaths, collectPathsAll, fieldIsOne, kindIsOrder, parse_field_a]
  · simp [ConsumerFilter.new, compileNode, compileNodes, compileLiteral, fieldIsOne, kindIsOrder, fieldNode, kindNode,
      parse_field_a]

theorem headers_win_flat : ∃ compiled,
    CompiledFilter.compile plainHost (fun _ => 228) noDocument (.new (.all [fieldIsOne "a", kindIsOrder]) .json) =
        .ok compiled ∧
      compiled.evaluateWithFault pingRecord ⟨100, 64⟩ = (.rejected, none) := by
  have hcompile := compile_flat noDocument
  refine ⟨_, hcompile, (headers_win_iff hcompile (headersDecide_iff.2 ⟨?_, rfl⟩)).1.2 (.inr rfl)⟩
  decide

theorem payload_fault_beats_headers : ∃ compiled,
    CompiledFilter.compile plainHost (fun _ => 315) noDocument
        (.new (.all [.all [fieldIsOne "a"], .all [kindIsOrder, fieldIsOne "b"]]) .json) = .ok compiled ∧
      HeadersDecide plainHost pingRecord.headers compiled.root .noMatch ∧
      compiled.evaluate pingRecord ⟨100, 64⟩ = .fault := by
  have hvalid : (ConsumerFilter.new (.all [.all [fieldIsOne "a"], .all [kindIsOrder, fieldIsOne "b"]]) .json).validate
      plainHost (fun _ => 315) = .ok () := by
    decide +kernel
  have hpaths : collectPaths .empty (.all [.all [fieldIsOne "a"], .all [kindIsOrder, fieldIsOne "b"]]) =
      .ok ((PathTrie.empty.insert ⟨[.key "a"]⟩).insert ⟨[.key "b"]⟩) := by
    simp [collectPaths, collectPathsAll, fieldIsOne, kindIsOrder, parse_field_a, parse_field_b]
  have hroot : compileNode plainHost (.all [.all [fieldIsOne "a"], .all [kindIsOrder, fieldIsOne "b"]]) =
      .ok (.all [.all [fieldNode "a"], .all [kindNode, fieldNode "b"]]) := by
    simp [compileNode, compileNodes, compileLiteral, fieldIsOne, kindIsOrder, fieldNode, kindNode, parse_field_a,
      parse_field_b]
  refine ⟨_, compile_ok hvalid hpaths hroot noDocument, headersDecide_iff.2 ⟨by decide, rfl⟩, ?_⟩
  rfl

end LaserSdk.Filter

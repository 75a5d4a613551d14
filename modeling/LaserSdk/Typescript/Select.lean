import LaserSdk.Filter.LastIndex
import LaserSdk.Typescript.Agree
/-!
# Both clients select the same records

A filter compiles in the TypeScript client whenever it does in the Rust client.
The Rust client reads the children of a node in two passes, the TypeScript
client in one loop over the children in the order of the passes. We prove that
the two trees take the same steps, also when a fault ends them, so that both
clients return the same verdict and the same reason.
-/

namespace LaserSdk.Typescript

open LaserSdk.Lib
open LaserSdk.Filter (F64 CmpOp Truth truthOf FaultReason Coerce FilterCodec DecodeLimits)

/-! ## Headers -/

def HeaderValueRef.ofRust : Filter.HeaderValue → HeaderValueRef
  | .bool value => .bool value
  | .int value => .int value
  | .uint value => .uint value
  | .float value => .float value
  | .string text => .string (jsText text)
  | .raw bytes => .raw bytes

def HeaderRef.ofRust (header : Filter.Header) : HeaderRef := ⟨jsText header.key, .ofRust header.value⟩

def FilterRecord.ofRust (record : Filter.FilterRecord) : FilterRecord := ⟨record.payload, record.headers.map .ofRust⟩

/-- The integers of a header have 64 bits. -/
def FitsHeader (header : Filter.Header) : Prop :=
  match header.value with
  | .int value => Fits64 value
  | .uint value => Fits64 value
  | _ => True

theorem findHeader_ofRust (headers : List Filter.Header) (key : String) :
    findHeader (headers.map .ofRust) (jsText key) = (Filter.findHeader headers key).map .ofRust := by
  rw [findHeader, Filter.findHeader, ← List.map_reverse, List.find?_map]
  congr 1
  apply congrArg (List.find? · _)
  funext header
  exact jsText_beq header.key key

theorem headerScalar_ofRust (value : Filter.HeaderValue) :
    headerScalar (.ofRust value) = .ofRust (Filter.headerScalar value) := by
  cases value with
  | raw bytes =>
    unfold HeaderValueRef.ofRust headerScalar Filter.headerScalar
    dsimp only
    cases String.fromUTF8? ⟨bytes.toArray⟩ <;> rfl
  | _ => rfl

theorem fitsScalar_header {header : Filter.Header} (h : FitsHeader header) :
    FitsScalar (Filter.headerScalar header.value) := by
  obtain ⟨key, value⟩ := header
  cases value with
  | int value => exact h
  | uint value => exact h
  | raw bytes =>
    unfold Filter.headerScalar
    dsimp only
    cases String.fromUTF8? ⟨bytes.toArray⟩ <;> trivial
  | _ => trivial

theorem fits_findHeader {headers : List Filter.Header} (h : ∀ header ∈ headers, FitsHeader header) {key : String}
    {header : Filter.Header} (hfind : Filter.findHeader headers key = some header) : FitsHeader header :=
  h header (List.mem_reverse.1 (List.mem_of_find?_eq_some hfind))

/-- Only the integer itself converts to a small number. -/
theorem numberOf_eq_small {value : Int} {code : Nat} (hcode : code < 2 ^ 53) :
    numberOf value = .finite code 0 ↔ value = code := by
  constructor
  · intro h
    unfold numberOf at h
    dsimp only at h
    split at h
    · rw [F64.finite.injEq] at h
      have hnearest : nearestDouble value.natAbs = code := by
        have hsign := h.1
        split at hsign <;> omega
      have habs := eq_of_nearestDouble_lt hcode hnearest
      have hsign := h.1
      rw [hnearest] at hsign
      split at hsign <;> omega
    · cases h
  · rintro rfl
    have hbound : (2 : Nat) ^ 53 < 2 ^ maxDoubleBits := Nat.pow_lt_pow_right (by omega) (by rw [maxDoubleBits]; omega)
    unfold numberOf
    dsimp only
    rw [Int.natAbs_natCast, nearestDouble_of_lt hcode, if_pos (hcode.trans hbound), if_neg (by omega)]

/-- What the Rust client makes of the code of a content type. -/
def rustForeign (codec : FilterCodec) (value : Int) : Bool :=
  match (if 0 ≤ value ∧ value ≤ 255 then some value.toNat else none).bind Filter.ContentType.fromCode, codec.contentType with
  | none, _ | some .any, _ | _, none => false
  | some declared, some expected => declared != expected

theorem foreign_alike (codec : FilterCodec) (value : Int) :
    (match codecContentTypes codec with
      | none => false
      | some expected =>
        if numberOf value ∉ knownContentTypes ∨ numberOf value = anyContentType then false else numberOf value != expected) =
      rustForeign codec value := by
  by_cases hknown : ∃ code : Nat, code ∈ [0, 1, 2, 3, 4, 5, 6, 7, 8, 255] ∧ value = code
  · obtain ⟨code, hcode, rfl⟩ := hknown
    have hsmall : code < 2 ^ 53 := by
      simp only [List.mem_cons, List.not_mem_nil, or_false] at hcode
      omega
    rw [(numberOf_eq_small hsmall).2 rfl]
    simp only [List.mem_cons, List.not_mem_nil, or_false] at hcode
    rcases hcode with rfl | rfl | rfl | rfl | rfl | rfl | rfl | rfl | rfl | rfl <;> cases codec <;> rfl
  · have hnumber : numberOf value ∉ knownContentTypes := by
      intro hmem
      apply hknown
      have hcases : ∃ code : Nat, code ∈ [0, 1, 2, 3, 4, 5, 6, 7, 8, 255] ∧ numberOf value = .finite code 0 := by
        simp only [knownContentTypes, anyContentType, List.map_cons, List.map_nil, List.cons_append, List.nil_append,
          List.mem_cons, List.not_mem_nil, or_false] at hmem
        rcases hmem with h | h | h | h | h | h | h | h | h | h
        · exact ⟨0, by simp, h⟩
        · exact ⟨1, by simp, h⟩
        · exact ⟨2, by simp, h⟩
        · exact ⟨3, by simp, h⟩
        · exact ⟨4, by simp, h⟩
        · exact ⟨5, by simp, h⟩
        · exact ⟨6, by simp, h⟩
        · exact ⟨7, by simp, h⟩
        · exact ⟨8, by simp, h⟩
        · exact ⟨255, by simp, h⟩
      obtain ⟨code, hcode, hvalue⟩ := hcases
      have hsmall : code < 2 ^ 53 := by
        simp only [List.mem_cons, List.not_mem_nil, or_false] at hcode
        omega
      exact ⟨code, hcode, (numberOf_eq_small hsmall).1 hvalue⟩
    have hunknown : (if 0 ≤ value ∧ value ≤ 255 then some value.toNat else none).bind Filter.ContentType.fromCode = none := by
      split
      · rename_i hbyte
        rw [Option.bind_some]
        unfold Filter.ContentType.fromCode
        split
        case h_11 => rfl
        all_goals
          rename_i hcode
          exact absurd ⟨value.toNat, by rw [hcode]; simp, by omega⟩ hknown
      · rfl
    rw [rustForeign, hunknown]
    cases codecContentTypes codec with
    | none => rfl
    | some expected => simp [hnumber]

/-- Both clients find the same records to be in another codec. -/
theorem declaresForeignCodec_ofRust (codec : FilterCodec) (headers : List Filter.Header) :
    declaresForeignCodec codec (headers.map .ofRust) = Filter.declaresForeignCodec codec headers := by
  have hfind := findHeader_ofRust headers Filter.contentTypeKey
  unfold declaresForeignCodec Filter.declaresForeignCodec
  rw [show contentTypeHeader = jsText Filter.contentTypeKey from rfl, hfind]
  cases Filter.findHeader headers Filter.contentTypeKey with
  | none => rfl
  | some header =>
    obtain ⟨key, value⟩ := header
    cases value with
    | int value =>
      refine Eq.trans ?_ (foreign_alike codec value)
      cases codec <;> rfl
    | uint value =>
      have hrust : rustForeign codec value =
          match (if value ≤ 255 then some value else none).bind Filter.ContentType.fromCode, codec.contentType with
          | none, _ | some .any, _ | _, none => false
          | some declared, some expected => declared != expected := by
        unfold rustForeign
        by_cases hbyte : value ≤ 255
        · rw [if_pos hbyte, if_pos (by omega), Int.toNat_natCast]
        · rw [if_neg hbyte, if_neg (by omega)]
      refine Eq.trans ?_ ((foreign_alike codec value).trans hrust)
      cases codec <;> rfl
    | _ => cases codec <;> rfl

/-! ## Delivering one value -/

/-- Both decoders deliver one value or the same fault. The Rust client keeps
what its paths need of the value, the TypeScript client all of it. -/
def Delivers (paths : List Filter.FieldPath) (rust : Except FaultReason Filter.Value) (js : Except FaultReason JsonValue) :
    Prop :=
  match rust, js with
  | .error reason, .error other => reason = other
  | .ok kept, .ok delivered =>
    ∃ value, Fits value ∧ delivered = .ofRust value ∧ ∀ path ∈ paths, Filter.resolve kept path = Filter.resolve value path
  | _, _ => False

theorem Delivers.mono {paths fewer : List Filter.FieldPath} {rust : Except FaultReason Filter.Value}
    {js : Except FaultReason JsonValue} (h : Delivers paths rust js) (hfewer : ∀ path ∈ fewer, path ∈ paths) :
    Delivers fewer rust js := by
  cases rust with
  | error reason =>
    cases js with
    | error other => exact h
    | ok delivered => exact h.elim
  | ok kept =>
    cases js with
    | error other => exact h.elim
    | ok delivered =>
      obtain ⟨value, hfits, hvalue, hresolve⟩ := h
      exact ⟨value, hfits, hvalue, fun path hpath => hresolve path (hfewer path hpath)⟩

/-- Two contexts in front of one record. -/
structure SameContext (ctx : Filter.Context) (js : Context) (reads : Bool) (paths : List Filter.FieldPath) : Prop where
  headers : js.headers = ctx.headers.map .ofRust
  fits : ∀ header ∈ ctx.headers, FitsHeader header
  digits : SameDigits ctx.host.doubleText js.host.toExponential
  payload : reads = true → Delivers paths ctx.payload js.payload

section

variable {ctx : Filter.Context} {js : Context}

theorem SameContext.mono {reads needs : Bool} {paths fewer : List Filter.FieldPath} (h : SameContext ctx js reads paths)
    (hreads : needs = true → reads = true) (hfewer : ∀ path ∈ fewer, path ∈ paths) : SameContext ctx js needs fewer :=
  ⟨h.headers, h.fits, h.digits, fun hneeds => (h.payload (hreads hneeds)).mono hfewer⟩

/-- A payload predicate that judges the fields of a path alike. -/
theorem payloadTruth_alike {path : Filter.FieldPath} (h : SameContext ctx js true [path])
    {judge : Option Filter.Value → Truth × Bool} {other : Option JsonValue → Truth × Bool}
    (hjudge : ∀ field : Option Filter.Value, (∀ value, field = some value → Fits value) →
      other (field.map .ofRust) = judge field) (mismatched : Bool) :
    js.payloadTruth mismatched (fun value => other (resolve value (.ofRust path))) =
      ctx.payloadTruth mismatched fun value => judge (Filter.resolve value path) := by
  have hpayload := h.payload rfl
  unfold Context.payloadTruth Filter.Context.payloadTruth
  cases hrust : ctx.payload with
  | error reason =>
    rw [hrust] at hpayload
    cases hjs : js.payload with
    | error other =>
      rw [hjs] at hpayload
      cases hpayload
      rfl
    | ok delivered =>
      rw [hjs] at hpayload
      exact hpayload.elim
  | ok kept =>
    rw [hrust] at hpayload
    cases hjs : js.payload with
    | error other =>
      rw [hjs] at hpayload
      exact hpayload.elim
    | ok delivered =>
      rw [hjs] at hpayload
      obtain ⟨value, hfits, rfl, hresolve⟩ := hpayload
      have hfield : other (resolve (.ofRust value) (.ofRust path)) = judge (Filter.resolve kept path) := by
        rw [resolve_ofRust, hresolve path (by simp)]
        exact hjudge _ fun field hfield => fits_resolveSegments hfits hfield
      simp only [hfield]

theorem compareTruth_alike {literal : Filter.Literal} (hliteral : FitsLiteral literal) (op : CmpOp)
    (field : Option Filter.Value) (hfits : ∀ value, field = some value → Fits value) :
    compareTruth (field.map .ofRust) op (.ofRust literal) = Filter.compareTruth field op literal := by
  cases field with
  | none => exact congrArg (·, false) (missingTruth_ofRust op literal)
  | some value =>
    have hscalar := fitsScalar_scalarOf (hfits value rfl)
    have htruth := compareScalar_ofRust hscalar hliteral hfits op
    have hcomparable := comparable_ofRust (Filter.scalarOf value) (some value) op literal
    rw [← scalarOf_ofRust] at htruth hcomparable
    rw [Option.map_some] at htruth hcomparable
    simp only [Option.map_some, compareTruth, Filter.compareTruth, htruth, hcomparable]

theorem coercedTruth_alike {host : Filter.Host} {jsHost : JsHost} (hsame : SameDigits host.doubleText jsHost.toExponential)
    (op : CmpOp) (coerce : Coerce) (literal : Filter.CoercedLiteral) (field : Option Filter.Value)
    (hfits : ∀ value, field = some value → Fits value) :
    coercedTruth jsHost (field.map .ofRust) op coerce (.ofRust literal) = Filter.coercedTruth host field op coerce literal := by
  cases field with
  | none => rfl
  | some value =>
    have hcoerce := coerceValue_ofRust hsame coerce (hfits value rfl)
    simp only [Option.map_some, coercedTruth, Filter.coercedTruth, hcoerce]
    cases Filter.coerceValue host coerce value with
    | none =>
      cases value with
      | number number => cases number <;> rfl
      | _ => rfl
    | some comparable => exact congrArg (·, false) (compareCoerced_ofRust comparable op literal)

theorem textTruth_alike {host : Filter.Host} {jsHost : JsHost} {matcher : Filter.TextMatcher} {other : TextMatcher}
    (h : MatchesAlike jsHost host matcher other) (field : Option Filter.Value) :
    textTruth jsHost (field.map .ofRust) other = Filter.textTruth host field matcher := by
  cases field with
  | none => rfl
  | some value =>
    cases value with
    | string text => exact congrArg (fun matched => (truthOf matched, false)) (h text)
    | number number => cases number <;> rfl
    | _ => rfl

theorem headerTruth_alike {reads : Bool} {paths : List Filter.FieldPath} (h : SameContext ctx js reads paths) (key : String)
    (op : CmpOp) {literal : Filter.Literal} (hliteral : FitsLiteral literal) :
    js.headerTruth (jsText key) op (.ofRust literal) = Filter.headerTruth ctx.headers key op literal := by
  unfold Context.headerTruth Filter.headerTruth
  rw [h.headers, findHeader_ofRust]
  cases hfind : Filter.findHeader ctx.headers key with
  | none => rfl
  | some header =>
    have hscalar := fitsScalar_header (fits_findHeader h.fits hfind)
    have htruth := @compareScalar_ofRust _ _ none hscalar hliteral nofun op
    have hcomparable := comparable_ofRust (Filter.headerScalar header.value) none op literal
    rw [← headerScalar_ofRust, Option.map_none] at htruth hcomparable
    simp only [Option.map_some, HeaderRef.ofRust, htruth, hcomparable]

theorem headerTextTruth_alike {reads : Bool} {paths : List Filter.FieldPath} (h : SameContext ctx js reads paths)
    (key : String) {matcher : Filter.TextMatcher} {other : TextMatcher} (hmatches : MatchesAlike js.host ctx.host matcher other) :
    js.headerTextTruth (jsText key) other = Filter.headerTextTruth ctx.host ctx.headers key matcher := by
  unfold Context.headerTextTruth Filter.headerTextTruth
  rw [h.headers, findHeader_ofRust]
  cases Filter.findHeader ctx.headers key with
  | none => rfl
  | some header =>
    simp only [Option.map_some, HeaderRef.ofRust, headerScalar_ofRust]
    cases Filter.headerScalar header.value with
    | text text => exact congrArg (fun matched => (truthOf matched, false)) (hmatches text)
    | _ => rfl

/-! ## The tree -/

/-- A node and its counterpart take the same step in two contexts. -/
def StepAlike (ctx : Filter.Context) (js : Context) (node : Filter.Node) (other : Node) : Prop :=
  other.readsPayload = node.readsPayload ∧ ∀ mismatched, js.truth mismatched other = ctx.truth mismatched node

/-- The loop over the children of one pass is the pass. -/
theorem combine_pass {decisive otherwise : Truth} (reads : Bool) {nodes : List Filter.Node} {others : List Node}
    (h : List.Forall₂ (StepAlike ctx js) nodes others) (rest : List Node) (unknown mismatched : Bool) :
    js.combine decisive otherwise unknown mismatched (others.filter (·.readsPayload == reads) ++ rest) =
      match ctx.pass reads decisive unknown mismatched nodes with
      | (.error reason, mismatched) => (.error reason, mismatched)
      | (.ok .decided, mismatched) => (.ok decisive, mismatched)
      | (.ok (.running unknown), mismatched) => js.combine decisive otherwise unknown mismatched rest := by
  induction h generalizing unknown mismatched with
  | nil => rfl
  | @cons node other nodes others halike _ ih =>
    obtain ⟨hreads, htruth⟩ := halike
    rw [Filter.Context.pass, List.filter_cons, hreads]
    by_cases hpass : node.readsPayload = reads
    · rw [if_pos hpass, if_pos (by rw [hpass, beq_self_eq_true]), List.cons_append, Context.combine, htruth]
      cases ctx.truth mismatched node with
      | mk truth mismatched =>
        cases truth with
        | error reason => rfl
        | ok truth =>
          by_cases hdecisive : truth = decisive
          · simp only [Filter.stepPass, if_pos hdecisive]
          · simp only [Filter.stepPass, if_neg hdecisive]
            exact ih _ _
    · rw [if_neg hpass, if_neg (by rw [beq_iff_eq]; exact hpass)]
      exact ih unknown mismatched

/-- One loop over the children in order is the two passes. -/
theorem combine_alike {nodes : List Filter.Node} {others : List Node} (h : List.Forall₂ (StepAlike ctx js) nodes others)
    (decisive otherwise : Truth) (mismatched : Bool) :
    js.combine decisive otherwise false mismatched (ordered others) =
      Filter.joinPasses decisive otherwise (ctx.pass false decisive false mismatched nodes)
        fun unknown mismatched => ctx.pass true decisive unknown mismatched nodes := by
  have hfirst : (fun child : Node => !child.readsPayload) = (·.readsPayload == false) := by
    funext child
    cases child.readsPayload <;> rfl
  have hsecond : (fun child : Node => child.readsPayload) = (·.readsPayload == true) := by
    funext child
    cases child.readsPayload <;> rfl
  have hlast (unknown mismatched : Bool) := @combine_pass ctx js decisive otherwise true nodes others h [] unknown mismatched
  simp only [List.append_nil] at hlast
  rw [ordered, hfirst, hsecond, combine_pass false h]
  unfold Filter.joinPasses
  cases ctx.pass false decisive false mismatched nodes with
  | mk pass mismatched =>
    cases pass with
    | error reason => rfl
    | ok pass =>
      cases pass with
      | decided => rfl
      | running unknown =>
        dsimp only
        rw [hlast]
        cases ctx.pass true decisive unknown mismatched nodes with
        | mk pass mismatched =>
          cases pass with
          | error reason => rfl
          | ok pass => cases pass <;> rfl

end

/-! ## Compiling -/

def Predicate.ofRust (predicate : Filter.Predicate) : Predicate :=
  ⟨jsText predicate.field, predicate.op, .ofRust predicate.value⟩

mutual

def FilterExpr.ofRust : Filter.FilterExpr → FilterExpr
  | .all children => .all (ofRustExprs children)
  | .any children => .any (ofRustExprs children)
  | .not child => .not (.ofRust child)
  | .pred predicate => .pred (.ofRust predicate)
  | .predAs predicate => .predAs ⟨.ofRust predicate.pred, predicate.coerce⟩
  | .present path => .present (.ofRust path)
  | .absent path => .absent (.ofRust path)
  | .header predicate => .header ⟨jsText predicate.key, predicate.op, .ofRust predicate.value⟩
  | .text predicate => .text (.ofRust predicate)
  | .headerText predicate => .headerText (.ofRust predicate)

def ofRustExprs : List Filter.FilterExpr → List FilterExpr
  | [] => []
  | child :: rest => .ofRust child :: ofRustExprs rest

end

def ConsumerFilter.ofRust (filter : Filter.ConsumerFilter) : ConsumerFilter :=
  ⟨.ofRust filter.expr, filter.codec, some filter.foreignPolicy, some filter.mismatchPolicy⟩

mutual

/-- The predicates of a filter. -/
def leaves : Filter.FilterExpr → List Filter.FilterExpr
  | .all children | .any children => leavesAll children
  | .not child => leaves child
  | .pred predicate => [.pred predicate]
  | .predAs predicate => [.predAs predicate]
  | .present path => [.present path]
  | .absent path => [.absent path]
  | .header predicate => [.header predicate]
  | .text predicate => [.text predicate]
  | .headerText predicate => [.headerText predicate]

def leavesAll : List Filter.FilterExpr → List Filter.FilterExpr
  | [] => []
  | child :: rest => leaves child ++ leavesAll rest

end

/-- A text predicate is plain. -/
def PlainText : Filter.FilterExpr → Prop
  | .text predicate | .headerText predicate => Plain predicate
  | _ => True

/-- The integers of a literal are those of its types. -/
def LiteralFits : Filter.FilterExpr → Prop
  | .pred predicate => FitsTyped predicate.value
  | .header predicate => FitsTyped predicate.value
  | _ => True

section

variable {host : Filter.Host} {jsHost : JsHost}

/-- A node and its counterpart take the same step in front of every record. -/
def NodeAlike (host : Filter.Host) (jsHost : JsHost) (node : Filter.Node) (other : Node) : Prop :=
  other.readsPayload = node.readsPayload ∧
    ∀ (ctx : Filter.Context) (js : Context), ctx.host = host → js.host = jsHost →
      SameContext ctx js node.readsPayload node.paths → ∀ mismatched, js.truth mismatched other = ctx.truth mismatched node

theorem stepAlike_children {nodes : List Filter.Node} {others : List Node}
    (h : List.Forall₂ (NodeAlike host jsHost) nodes others) {ctx : Filter.Context} {js : Context} (hhost : ctx.host = host)
    (hjs : js.host = jsHost) (hsame : SameContext ctx js (Filter.anyNodeReadsPayload nodes) (Filter.nodePaths nodes)) :
    List.Forall₂ (StepAlike ctx js) nodes others := by
  induction h with
  | nil => exact .nil
  | cons halike _ ih =>
    refine .cons ⟨halike.1, halike.2 ctx js hhost hjs (hsame.mono ?_ ?_)⟩ (ih (hsame.mono ?_ ?_))
    · intro hreads
      simp [Filter.anyNodeReadsPayload, hreads]
    · intro path hpath
      simp [Filter.nodePaths, hpath]
    · intro hreads
      simp [Filter.anyNodeReadsPayload, hreads]
    · intro path hpath
      simp [Filter.nodePaths, hpath]

theorem any_readsPayload {nodes : List Filter.Node} {others : List Node}
    (h : List.Forall₂ (NodeAlike host jsHost) nodes others) :
    others.any Node.readsPayload = Filter.anyNodeReadsPayload nodes := by
  induction h with
  | nil => rfl
  | cons halike _ ih => rw [List.any_cons, halike.1, ih, Filter.anyNodeReadsPayload]

mutual

/-- A filter of the Rust client compiles to a tree that takes the same steps. -/
theorem compileNode_alike (hregex : Filter.StandardRegex host) : {expr : Filter.FilterExpr} → {node : Filter.Node} →
    Filter.compileNode host expr = .ok node → (∀ leaf ∈ leaves expr, PlainText leaf ∧ LiteralFits leaf) →
    ∃ other, compileNode jsHost (.ofRust expr) = .ok other ∧ NodeAlike host jsHost node other
  | .all children, node, h, hleaves => by
    obtain ⟨nodes, hnodes, rfl⟩ := map_ok.1 h
    obtain ⟨others, hothers, halike⟩ := compileNodes_alike hregex hnodes hleaves
    refine ⟨.all (ordered others) (others.any Node.readsPayload), ?_, any_readsPayload halike, ?_⟩
    · rw [FilterExpr.ofRust, compileNode, hothers]
      rfl
    · intro ctx js hhost hjs hsame mismatched
      rw [Context.truth, Filter.Context.truth]
      exact combine_alike (stepAlike_children halike hhost hjs hsame) .noMatch .isMatch mismatched
  | .any children, node, h, hleaves => by
    obtain ⟨nodes, hnodes, rfl⟩ := map_ok.1 h
    obtain ⟨others, hothers, halike⟩ := compileNodes_alike hregex hnodes hleaves
    refine ⟨.any (ordered others) (others.any Node.readsPayload), ?_, any_readsPayload halike, ?_⟩
    · rw [FilterExpr.ofRust, compileNode, hothers]
      rfl
    · intro ctx js hhost hjs hsame mismatched
      rw [Context.truth, Filter.Context.truth]
      exact combine_alike (stepAlike_children halike hhost hjs hsame) .isMatch .noMatch mismatched
  | .not child, node, h, hleaves => by
    obtain ⟨inner, hinner, rfl⟩ := map_ok.1 h
    obtain ⟨other, hother, hreads, htruth⟩ := compileNode_alike hregex hinner hleaves
    refine ⟨.not other, ?_, hreads, ?_⟩
    · rw [FilterExpr.ofRust, compileNode, hother]
      rfl
    · intro ctx js hhost hjs hsame mismatched
      rw [Context.truth, Filter.Context.truth, htruth ctx js hhost hjs hsame]
      have hnegate : negate = Filter.negate := by
        funext truth
        cases truth <;> rfl
      rw [hnegate]
  | .pred predicate, node, h, hleaves => by
    simp only [Filter.compileNode, bind_ok, pure_ok] at h
    obtain ⟨path, hpath, literal, hliteral, rfl⟩ := h
    obtain ⟨hcompile, hfits⟩ := compileLiteral_ofRust hliteral (hleaves (.pred predicate) (by simp [leaves])).2
    refine ⟨.compare (.ofRust path) predicate.op (.ofRust literal), ?_, rfl, ?_⟩
    · rw [FilterExpr.ofRust, compileNode, Predicate.ofRust, parse_path_alike hpath, hcompile]
      rfl
    · intro ctx js hhost hjs hsame mismatched
      exact @payloadTruth_alike ctx js path hsame (Filter.compareTruth · predicate.op literal)
        (compareTruth · predicate.op (.ofRust literal)) (compareTruth_alike hfits predicate.op) mismatched
  | .predAs predicate, node, h, hleaves => by
    simp only [Filter.compileNode, bind_ok, pure_ok] at h
    obtain ⟨path, hpath, literal, hliteral, rfl⟩ := h
    refine ⟨.coerced (.ofRust path) predicate.pred.op predicate.coerce (.ofRust literal), ?_, rfl, ?_⟩
    · rw [FilterExpr.ofRust, compileNode, Predicate.ofRust, parse_path_alike hpath, compileCoercedLiteral_ofRust hliteral]
      rfl
    · intro ctx js hhost hjs hsame mismatched
      exact @payloadTruth_alike ctx js path hsame
        (Filter.coercedTruth ctx.host · predicate.pred.op predicate.coerce literal)
        (coercedTruth js.host · predicate.pred.op predicate.coerce (.ofRust literal))
        (coercedTruth_alike hsame.digits predicate.pred.op predicate.coerce literal) mismatched
  | .present path, node, h, hleaves => by
    cases h
    refine ⟨.present (.ofRust path), rfl, rfl, ?_⟩
    intro ctx js hhost hjs hsame mismatched
    exact @payloadTruth_alike ctx js path hsame (fun field => (truthOf field.isSome, false))
      (fun field => (truthOf field.isSome, false)) (fun field _ => by rw [Option.isSome_map]) mismatched
  | .absent path, node, h, hleaves => by
    cases h
    refine ⟨.absent (.ofRust path), rfl, rfl, ?_⟩
    intro ctx js hhost hjs hsame mismatched
    exact @payloadTruth_alike ctx js path hsame (fun field => (truthOf field.isNone, false))
      (fun field => (truthOf field.isNone, false)) (fun field _ => by rw [Option.isNone_map]) mismatched
  | .header predicate, node, h, hleaves => by
    obtain ⟨literal, hliteral, rfl⟩ := map_ok.1 h
    obtain ⟨hcompile, hfits⟩ := compileLiteral_ofRust hliteral (hleaves (.header predicate) (by simp [leaves])).2
    refine ⟨.header (jsText predicate.key) predicate.op (.ofRust literal), ?_, rfl, ?_⟩
    · rw [FilterExpr.ofRust, compileNode, hcompile]
      rfl
    · intro ctx js hhost hjs hsame mismatched
      rw [Context.truth, Filter.Context.truth, headerTruth_alike hsame predicate.key predicate.op hfits]
  | .text predicate, node, h, hleaves => by
    simp only [Filter.compileNode, bind_ok, pure_ok] at h
    obtain ⟨path, hpath, matcher, hmatcher, rfl⟩ := h
    obtain ⟨other, hother, hmatches⟩ := plain_matches_alike jsHost hregex (hleaves (.text predicate) (by simp [leaves])).1 hmatcher
    refine ⟨.text (.ofRust path) other, ?_, rfl, ?_⟩
    · rw [FilterExpr.ofRust, compileNode, hother]
      rw [TextPredicate.ofRust, parse_path_alike hpath]
      rfl
    · intro ctx js hhost hjs hsame mismatched
      rw [← hhost, ← hjs] at hmatches
      exact @payloadTruth_alike ctx js path hsame (Filter.textTruth ctx.host · matcher) (textTruth js.host · other)
        (fun field _ => textTruth_alike hmatches field) mismatched
  | .headerText predicate, node, h, hleaves => by
    obtain ⟨matcher, hmatcher, rfl⟩ := map_ok.1 h
    obtain ⟨other, hother, hmatches⟩ := plain_matches_alike jsHost hregex (hleaves (.headerText predicate) (by simp [leaves])).1 hmatcher
    refine ⟨.headerText (jsText predicate.field) other, ?_, rfl, ?_⟩
    · rw [FilterExpr.ofRust, compileNode, hother]
      rfl
    · intro ctx js hhost hjs hsame mismatched
      rw [← hhost, ← hjs] at hmatches
      rw [Context.truth, Filter.Context.truth, headerTextTruth_alike hsame predicate.field hmatches]

theorem compileNodes_alike (hregex : Filter.StandardRegex host) : {exprs : List Filter.FilterExpr} →
    {nodes : List Filter.Node} → Filter.compileNodes host exprs = .ok nodes →
    (∀ leaf ∈ leavesAll exprs, PlainText leaf ∧ LiteralFits leaf) →
    ∃ others, compileNodes jsHost (ofRustExprs exprs) = .ok others ∧ List.Forall₂ (NodeAlike host jsHost) nodes others
  | [], nodes, h, _ => by
    cases h
    exact ⟨[], rfl, .nil⟩
  | child :: rest, nodes, h, hleaves => by
    simp only [Filter.compileNodes, bind_ok, pure_ok] at h
    obtain ⟨node, hnode, nodes, hnodes, rfl⟩ := h
    obtain ⟨other, hother, halike⟩ := compileNode_alike hregex hnode fun leaf hleaf => hleaves leaf (by simp [leavesAll, hleaf])
    obtain ⟨others, hothers, hrest⟩ :=
      compileNodes_alike hregex hnodes fun leaf hleaf => hleaves leaf (by simp [leavesAll, hleaf])
    refine ⟨other :: others, ?_, .cons halike hrest⟩
    rw [ofRustExprs, compileNodes, hother, hothers]
    rfl

end

end

/-! ## Verdicts -/

theorem outcome_alike {host : JsHost} {filter : Filter.ConsumerFilter} {root : Node} {decoders : PayloadDecoders}
    {ctx : Context} {truth : Except FaultReason Truth × Bool} (h : ctx.truth false root = truth) :
    CompiledFilter.outcome ⟨host, .ofRust filter, root, decoders⟩ ctx = filter.evaluated truth.1 truth.2 := by
  have hfaulted (reason : FaultReason) :
      CompiledFilter.faulted ⟨host, .ofRust filter, root, decoders⟩ reason = filter.faulted reason := by
    have hpolicy : CompiledFilter.recordPolicy ⟨host, .ofRust filter, root, decoders⟩ reason = filter.recordPolicy reason := by
      cases reason <;> rfl
    rw [CompiledFilter.faulted, hpolicy, Filter.ConsumerFilter.faulted]
    cases filter.recordPolicy reason with
    | none => rfl
    | some policy => cases policy <;> rfl
  rw [CompiledFilter.outcome, h]
  obtain ⟨truth, mismatched⟩ := truth
  cases truth with
  | error reason => exact hfaulted reason
  | ok truth =>
    cases truth with
    | isMatch => rfl
    | noMatch => rfl
    | unknown =>
      cases mismatched with
      | true => exact hfaulted .typeMismatch
      | false => rfl

/-- Every valid filter without case folding and regular expressions compiles in
both clients, and both return the same verdict and the same reason for every
record whose payload both decoders deliver alike. -/
theorem clients_select_alike {host : Filter.Host} {jsHost : JsHost} (hregex : Filter.StandardRegex host)
    (hdigits : SameDigits host.doubleText jsHost.toExponential) {encodedBytes : Filter.ConsumerFilter → Nat}
    {decoders : Filter.Decoders} {jsDecoders : PayloadDecoders} {filter : Filter.ConsumerFilter}
    {compiled : Filter.CompiledFilter} (hcompile : Filter.CompiledFilter.compile host encodedBytes decoders filter = .ok compiled)
    (hplain : ∀ leaf ∈ leaves filter.expr, PlainText leaf) (hfits : ∀ leaf ∈ leaves filter.expr, LiteralFits leaf) :
    ∃ root, compileNode jsHost (.ofRust filter.expr) = .ok root ∧
      ∀ (record : Filter.FilterRecord) (limits : DecodeLimits), (∀ header ∈ record.headers, FitsHeader header) →
        (compiled.root.readsPayload = true → Filter.declaresForeignCodec filter.codec record.headers = false →
          Delivers compiled.root.paths (Filter.decodePayload decoders filter.codec record limits compiled.paths)
            (decodePayload jsDecoders filter.codec (.ofRust record) limits)) →
        CompiledFilter.evaluateWithFault ⟨jsHost, .ofRust filter, root, jsDecoders⟩ (.ofRust record) limits =
          compiled.evaluateWithFault record limits := by
  obtain ⟨-, hroot, rfl, rfl, rfl⟩ := Filter.compile_parts hcompile
  obtain ⟨root, hjs, -, htruth⟩ := @compileNode_alike _ jsHost hregex _ _ hroot fun leaf hleaf => ⟨hplain leaf hleaf, hfits leaf hleaf⟩
  refine ⟨root, hjs, fun record limits hheaders hpayload => ?_⟩
  have hsame : SameContext (compiled.context record limits)
      (CompiledFilter.context ⟨jsHost, .ofRust compiled.filter, root, jsDecoders⟩ (.ofRust record) limits)
      compiled.root.readsPayload compiled.root.paths := by
    refine ⟨rfl, hheaders, hdigits, fun hreads => ?_⟩
    cases hforeign : Filter.declaresForeignCodec compiled.filter.codec record.headers with
    | false => exact hpayload hreads hforeign
    | true =>
      have hrust : (compiled.context record limits).payload = .error .foreignCodec := by
        simp [Filter.CompiledFilter.context, Filter.decodePayload, hforeign]
      have hother : (CompiledFilter.context ⟨jsHost, .ofRust compiled.filter, root, jsDecoders⟩ (.ofRust record)
          limits).payload = .error .foreignCodec := by
        simp [CompiledFilter.context, decodePayload, ConsumerFilter.ofRust, FilterRecord.ofRust, declaresForeignCodec_ofRust,
          hforeign]
      rw [hrust, hother]
      rfl
  exact outcome_alike (htruth _ _ rfl rfl hsame false)

/-! ## JSON payloads -/

theorem depthWithin_alike (maxDepth : Nat) :
    (∀ depth bytes, depthWithin maxDepth depth false false bytes = Filter.depthWithin maxDepth depth bytes) ∧
      ∀ depth bytes, depthWithin maxDepth depth true false bytes = Filter.stringWithin maxDepth depth bytes := by
  apply Filter.depthWithin.mutual_induct maxDepth
  -- outside a string
  · exact fun depth => rfl
  · intro depth rest ih
    simpa [depthWithin, Filter.depthWithin] using ih
  · intro depth byte rest hquote hopen hdeep
    simp [depthWithin, Filter.depthWithin, hquote, hopen, hdeep]
  · intro depth byte rest hquote hopen hdeep ih
    simp [depthWithin, Filter.depthWithin, hquote, hopen, hdeep, ih]
  · intro depth byte rest hquote hopen hclose ih
    simp [depthWithin, Filter.depthWithin, hquote, hopen, hclose, ih]
  · intro depth byte rest hquote hopen hclose ih
    simp [depthWithin, Filter.depthWithin, hquote, hopen, hclose, ih]
  -- inside a string
  · exact fun depth => rfl
  · intro depth rest ih
    rw [Filter.stringWithin.eq_def]
    simpa [depthWithin] using ih
  · intro depth _
    simp [depthWithin, Filter.stringWithin]
  · intro depth byte rest _ ih
    simpa [depthWithin, Filter.stringWithin] using ih
  · intro depth byte rest hquote hslash ih
    rw [Filter.stringWithin.eq_def]
    simp [depthWithin, hquote, hslash, ih]

/-- JSON payloads are delivered alike where the two parsers read one value. The
size and the depth are checked alike. -/
theorem delivers_json {decoders : Filter.Decoders} {jsDecoders : PayloadDecoders} {record : Filter.FilterRecord}
    (hparse : jsDecoders.parseCanonicalJson record.payload =
      (decoders.tokenize record.payload).map fun raw => .ofRust (Filter.build raw))
    (hforeign : Filter.declaresForeignCodec .json record.headers = false) {trie : Filter.PathTrie}
    {paths : List Filter.FieldPath} (hcovers : ∀ path ∈ paths, trie.Covers path.segments)
    (hvalue : ∀ raw, decoders.tokenize record.payload = some raw →
      Fits (Filter.build raw) ∧ ∀ path ∈ paths, Filter.Addressable (Filter.build raw) path.segments) (limits : DecodeLimits) :
    Delivers paths (Filter.decodePayload decoders .json record limits trie)
      (decodePayload jsDecoders .json (.ofRust record) limits) := by
  have hdepth : jsonDepthWithin record.payload (min limits.maxDepth maxFilterParseDepth) =
      Filter.jsonDepthWithin record.payload (min limits.maxDepth Filter.maxFilterParseDepth) :=
    (depthWithin_alike _).1 0 record.payload
  unfold Filter.decodePayload decodePayload
  simp only [FilterRecord.ofRust, declaresForeignCodec_ofRust, hforeign, Bool.false_eq_true, if_false, if_true]
  unfold Filter.decodeJsonPaths decodeJsonPayload
  dsimp only
  rw [hdepth, hparse]
  split
  · rfl
  · cases Filter.jsonDepthWithin record.payload (min limits.maxDepth Filter.maxFilterParseDepth) with
    | false => rfl
    | true =>
      cases htokens : decoders.tokenize record.payload with
      | none => rfl
      | some raw =>
        obtain ⟨hfits, haddressable⟩ := hvalue raw htokens
        refine ⟨Filter.build raw, hfits, rfl, fun path hpath => ?_⟩
        exact Filter.resolve_prune (hcovers path hpath) (haddressable path hpath)

/-! ### A record in front of both clients -/

/-- Hosts that write every double as one digit. -/
def oneDigitText : F64 → String
  | .finite mantissa _ => if mantissa = 0 then "0" else if mantissa < 0 then "-1" else "1"
  | _ => ""

noncomputable def oneDigitHost : Filter.Host := { Filter.standardHost id with doubleText := oneDigitText }

def oneDigitJs : JsHost := ⟨id, fun _ => jsText "1e+0", fun _ _ => .error []⟩

theorem standardRegex_oneDigitHost : Filter.StandardRegex oneDigitHost :=
  ⟨(Filter.standardRegex_standardHost id).escape, (Filter.standardRegex_standardHost id).isMatch⟩

theorem sameDigits_oneDigit : SameDigits oneDigitHost.doubleText oneDigitJs.toExponential where
  zero exponent := by
    show Filter.utf8Bytes "0" ∈ [[48], [45, 48]]
    decide +kernel
  nonzero mantissa exponent hzero _ := by
    have hdigit : Filter.AsciiDigits [49] := by
      intro byte hbyte
      rw [List.mem_singleton.1 hbyte]
      rfl
    have hjs : jsText "1e+0" = widen (exponentialForm [49] 0) := by decide +kernel
    have hminus : Filter.utf8Bytes "-1" = [45] ++ plainForm [49] 0 := by decide +kernel
    have hplus : Filter.utf8Bytes "1" = [] ++ plainForm [49] 0 := by decide +kernel
    refine ⟨[49], 0, hdigit, by simp, by simp, by decide, hjs, ?_⟩
    show Filter.utf8Bytes (oneDigitText (.finite mantissa exponent)) = _
    by_cases hnegative : mantissa < 0
    · rw [oneDigitText, if_neg hzero, if_pos hnegative, if_pos hnegative, hminus]
    · rw [oneDigitText, if_neg hzero, if_neg hnegative, if_neg hnegative, hplus]

/-- The header `kind` is `a`, the name starts with `𝄞` and the score is 1. -/
def musicFilter : Filter.ConsumerFilter :=
  .new (.all [.text ⟨"name", .prefixed, "𝄞", false⟩, .header ⟨"kind", .eq, .string "a"⟩,
    .predAs ⟨⟨"score", .eq, .long 1⟩, .number⟩]) .json

/-- `{"name":"𝄞a","score":1.0}`. -/
def musicDocument : Filter.Raw := .object [("name", .string "𝄞a"), ("score", .float (.finite 1 0))]

def musicBytes : List UInt8 := "\x7b\"name\":\"𝄞a\",\"score\":1.0\x7d".toUTF8.toList

def musicRecord : Filter.FilterRecord := ⟨musicBytes, [⟨"kind", .string "a"⟩]⟩

def musicJs : PayloadDecoders where
  parseCanonicalJson bytes := if bytes = musicBytes then some (.ofRust (Filter.build musicDocument)) else none
  decode _ _ := .error .malformed

theorem musicFilter_selected : ∃ compiled root,
    Filter.CompiledFilter.compile oneDigitHost (fun _ => 300) (Filter.oneDocument musicBytes musicDocument) musicFilter =
        .ok compiled ∧
      compileNode oneDigitJs (.ofRust musicFilter.expr) = .ok root ∧
      CompiledFilter.evaluateWithFault ⟨oneDigitJs, .ofRust musicFilter, root, musicJs⟩ (.ofRust musicRecord) ⟨100, 64⟩ =
        compiled.evaluateWithFault musicRecord ⟨100, 64⟩ := by
  have hname : Filter.FieldPath.parse "name" = .ok ⟨[.key "name"]⟩ := by decide +kernel
  have hscore : Filter.FieldPath.parse "score" = .ok ⟨[.key "score"]⟩ := by decide +kernel
  have hvalid : musicFilter.validate oneDigitHost (fun _ => 300) = .ok () := by decide +kernel
  have hpaths : Filter.collectPaths .empty musicFilter.expr = .ok
      ((Filter.PathTrie.empty.insert ⟨[.key "name"]⟩).insert ⟨[.key "score"]⟩) := by
    simp [musicFilter, Filter.ConsumerFilter.new, Filter.collectPaths, Filter.collectPathsAll, hname, hscore]
  have hmatcher : Filter.TextMatcher.compile oneDigitHost ⟨"name", .prefixed, "𝄞", false⟩ =
      .ok ⟨.prefixed, "𝄞", false, .plain "𝄞"⟩ := rfl
  have hroot : Filter.compileNode oneDigitHost musicFilter.expr = .ok (.all [
      .text ⟨[.key "name"]⟩ ⟨.prefixed, "𝄞", false, .plain "𝄞"⟩, .header "kind" .eq (.text "a"),
      .coerced ⟨[.key "score"]⟩ .eq .number (.decimal (.fromInteger 1))]) := by
    simp [musicFilter, Filter.ConsumerFilter.new, Filter.compileNode, Filter.compileNodes, Filter.compileLiteral,
      Filter.compileCoercedLiteral, Filter.comparableLiteral, hname, hscore, hmatcher]
  have hcompile := Filter.compile_ok hvalid hpaths hroot (Filter.oneDocument musicBytes musicDocument)
  have hplain : ∀ leaf ∈ leaves musicFilter.expr, PlainText leaf := by
    simp [musicFilter, Filter.ConsumerFilter.new, leaves, leavesAll, PlainText, Plain]
  have hfits : ∀ leaf ∈ leaves musicFilter.expr, LiteralFits leaf := by
    simp [musicFilter, Filter.ConsumerFilter.new, leaves, leavesAll, LiteralFits, FitsTyped]
  obtain ⟨root, hjs, hselect⟩ :=
    @clients_select_alike _ oneDigitJs standardRegex_oneDigitHost sameDigits_oneDigit _ _ musicJs _ _ hcompile hplain hfits
  refine ⟨_, root, hcompile, hjs, hselect musicRecord ⟨100, 64⟩ ?_ ?_⟩
  · simp [musicRecord, FitsHeader]
  · intro _ hforeign
    have hcovers := (Filter.collectPaths_extends hroot hpaths).2
    refine delivers_json ?_ hforeign hcovers ?_ ⟨100, 64⟩
    · simp [musicJs, Filter.oneDocument, musicRecord]
    · intro raw htokens
      obtain rfl : musicDocument = raw := by simpa [Filter.oneDocument, musicRecord] using htokens
      refine ⟨?_, fun path hpath before rest items hsplit => ?_⟩
      · simp [musicDocument, Filter.build, Filter.buildEntries, Filter.mapInsert, Filter.numberValue, F64.isFinite, Fits,
          FitsFields, IsDouble]
      · have hlast : Filter.PathSegment.index 4294967295 ∈ path.segments := by simp [hsplit]
        have hpaths : path = ⟨[.key "name"]⟩ ∨ path = ⟨[.key "score"]⟩ := by
          simpa [Filter.Node.paths, Filter.nodePaths] using hpath
        rcases hpaths with rfl | rfl <;> simp at hlast

end LaserSdk.Typescript

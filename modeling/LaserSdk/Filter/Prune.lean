import LaserSdk.Filter.Eval
/-!
# Pruned payloads

A trie covers the paths inserted into it, and pruning by a trie keeps the keys
and the positions that it knows. A filter looks at a payload only through its
paths.
-/

namespace LaserSdk.Filter

open Lib

/-! ## Covering -/

namespace PathTrie

/-- The child one segment down. -/
def step (paths : PathTrie) : PathSegment → Option PathTrie
  | .key key => paths.child key
  | .index index => paths.index index

/-- Walking down a path meets a node that keeps everything. -/
def Covers (paths : PathTrie) : List PathSegment → Prop
  | [] => paths.whole = true
  | segment :: rest => paths.whole = true ∨ ∃ child, paths.step segment = some child ∧ child.Covers rest

theorem covers_of_whole {paths : PathTrie} (h : paths.whole = true) (path : List PathSegment) : paths.Covers path := by
  cases path with
  | nil => exact h
  | cons segment rest => exact .inl h

theorem lookup_modify {α : Type} [DecidableEq α] (children : List (α × PathTrie)) (key : α)
    (f : PathTrie → PathTrie) (other : α) : (modify children key f).lookup other =
      if other = key then some (f ((children.lookup key).getD empty)) else children.lookup other := by
  induction children with
  | nil =>
    by_cases h : other = key
    · simp [modify, h]
    · simp [modify, List.lookup_cons, h, beq_false_of_ne h]
  | cons child rest ih =>
    obtain ⟨name, child⟩ := child
    unfold modify
    by_cases hname : name = key
    · subst hname
      by_cases h : other = name
      · simp [h]
      · simp [List.lookup_cons, h, beq_false_of_ne h]
    · rw [if_neg hname, List.lookup_cons, ih]
      by_cases h : other = key
      · subst h
        simp [List.lookup_cons, beq_false_of_ne (Ne.symm hname)]
      · simp [List.lookup_cons, h]

/-- What one insertion changes: the child it goes through. -/
theorem step_insertSegments {paths : PathTrie} (h : paths.whole = false) (segment : PathSegment)
    (rest : List PathSegment) : (paths.insertSegments (segment :: rest)).whole = false ∧
      ∀ other, (paths.insertSegments (segment :: rest)).step other =
        if other = segment then some (((paths.step segment).getD empty).insertSegments rest)
        else paths.step other := by
  cases segment with
  | key key =>
    simp only [insertSegments, h, Bool.false_eq_true, if_false]
    refine ⟨rfl, fun other => ?_⟩
    cases other with
    | key name => simp [step, child, keys, lookup_modify]
    | index i => simp [step, index, indices]
  | index i =>
    simp only [insertSegments, h, Bool.false_eq_true, if_false]
    refine ⟨rfl, fun other => ?_⟩
    cases other with
    | key name => simp [step, child, keys]
    | index j => simp [step, index, indices, lookup_modify]

theorem covers_insert_self (paths : PathTrie) (path : List PathSegment) : (paths.insertSegments path).Covers path := by
  induction path generalizing paths with
  | nil => exact rfl
  | cons segment rest ih =>
    cases h : paths.whole with
    | true => simp only [insertSegments, h, if_true]; exact .inl h
    | false => exact .inr ⟨_, by rw [(step_insertSegments h segment rest).2, if_pos rfl], ih _⟩

theorem covers_insert_mono {paths : PathTrie} {path : List PathSegment} (hp : paths.Covers path)
    (inserted : List PathSegment) : (paths.insertSegments inserted).Covers path := by
  induction inserted generalizing paths path with
  | nil => exact covers_of_whole rfl path
  | cons segment rest ih =>
    cases h : paths.whole with
    | true => simpa only [insertSegments, h, if_true] using hp
    | false =>
      cases path with
      | nil => simp [Covers, h] at hp
      | cons first more =>
        obtain ⟨child, hstep, hchild⟩ := hp.resolve_left (by simp [h])
        refine .inr ?_
        rw [(step_insertSegments h segment rest).2]
        by_cases hs : first = segment
        · subst hs
          exact ⟨_, if_pos rfl, by simpa [hstep] using ih hchild⟩
        · exact ⟨child, by rw [if_neg hs, hstep], hchild⟩

end PathTrie

/-! ## The paths of a filter -/

mutual

/-- The payload paths a compiled node reads. -/
def Node.paths : Node → List FieldPath
  | .all children | .any children => nodePaths children
  | .not child => child.paths
  | .compare path _ _ | .coerced path _ _ _ | .present path | .absent path | .text path _ => [path]
  | .header _ _ _ | .headerText _ _ => []

def nodePaths : List Node → List FieldPath
  | [] => []
  | child :: rest => child.paths ++ nodePaths rest

end

/-- Everything `before` covers and every path of `read` is covered. -/
def Extends (before after : PathTrie) (read : List FieldPath) : Prop :=
  (∀ path, before.Covers path → after.Covers path) ∧ ∀ path ∈ read, after.Covers path.segments

theorem extends_insert (paths : PathTrie) (path : FieldPath) : Extends paths (paths.insert path) [path] := by
  refine ⟨fun _ h => PathTrie.covers_insert_mono h _, fun p hp => ?_⟩
  obtain rfl := List.mem_singleton.1 hp
  exact PathTrie.covers_insert_self _ _

theorem map_insert_ok {field : String} {paths after : PathTrie} {path : FieldPath}
    (hp : FieldPath.parse field = .ok path) (h : (FieldPath.parse field).map paths.insert = .ok after) :
    Extends paths after [path] := by
  rw [hp] at h
  cases h
  exact extends_insert paths path

theorem Extends.trans {first second third : PathTrie} {read more : List FieldPath} (h : Extends first second read)
    (h' : Extends second third more) : Extends first third (read ++ more) := by
  refine ⟨fun path hp => h'.1 path (h.1 path hp), fun path hp => ?_⟩
  rcases List.mem_append.1 hp with hp | hp
  · exact h'.1 _ (h.2 path hp)
  · exact h'.2 path hp

mutual

/-- Collecting and compiling parse the same fields. -/
theorem collectPaths_extends {host : Host} {paths after : PathTrie} : {expr : FilterExpr} → {node : Node} →
    compileNode host expr = .ok node → collectPaths paths expr = .ok after → Extends paths after node.paths
  | .all children, node, hn, hc => by
    obtain ⟨nodes, hnodes, rfl⟩ := map_ok.1 hn
    exact collectPathsAll_extends hnodes hc
  | .any children, node, hn, hc => by
    obtain ⟨nodes, hnodes, rfl⟩ := map_ok.1 hn
    exact collectPathsAll_extends hnodes hc
  | .not child, node, hn, hc => by
    obtain ⟨inner, hinner, rfl⟩ := map_ok.1 hn
    have h : Extends paths after inner.paths := collectPaths_extends hinner hc
    exact h
  | .pred predicate, node, hn, hc => by
    simp only [compileNode, bind_ok, pure_ok] at hn
    obtain ⟨path, hp, literal, -, rfl⟩ := hn
    exact map_insert_ok hp hc
  | .predAs coerced, node, hn, hc => by
    simp only [compileNode, bind_ok, pure_ok] at hn
    obtain ⟨path, hp, literal, -, rfl⟩ := hn
    exact map_insert_ok hp hc
  | .present path, node, hn, hc => by
    cases hn
    cases hc
    exact extends_insert paths path
  | .absent path, node, hn, hc => by
    cases hn
    cases hc
    exact extends_insert paths path
  | .text predicate, node, hn, hc => by
    simp only [compileNode, bind_ok, pure_ok] at hn
    obtain ⟨path, hp, matcher, -, rfl⟩ := hn
    exact map_insert_ok hp hc
  | .header predicate, node, hn, hc => by
    obtain ⟨literal, -, rfl⟩ := map_ok.1 hn
    cases hc
    exact ⟨fun _ h => h, nofun⟩
  | .headerText predicate, node, hn, hc => by
    obtain ⟨matcher, -, rfl⟩ := map_ok.1 hn
    cases hc
    exact ⟨fun _ h => h, nofun⟩

theorem collectPathsAll_extends {host : Host} {paths after : PathTrie} : {exprs : List FilterExpr} →
    {nodes : List Node} → compileNodes host exprs = .ok nodes → collectPathsAll paths exprs = .ok after →
    Extends paths after (nodePaths nodes)
  | [], nodes, hn, hc => by
    cases hn
    cases hc
    exact ⟨fun _ h => h, nofun⟩
  | expr :: rest, nodes, hn, hc => by
    simp only [compileNodes, bind_ok, pure_ok] at hn
    obtain ⟨node, hnode, nodes, hnodes, rfl⟩ := hn
    obtain ⟨middle, hmiddle, hrest⟩ := bind_ok.1 hc
    exact (collectPaths_extends hnode hmiddle).trans (collectPathsAll_extends hnodes hrest)

end

/-! ## Resolving in a pruned value -/

theorem getElem_buildItems (items : List Raw) (i : Nat) : (buildItems items)[i]? = items[i]?.map build := by
  induction items generalizing i with
  | nil => simp [buildItems]
  | cons item rest ih =>
    cases i with
    | zero => simp [buildItems]
    | succ i => simpa [buildItems] using ih i

/-- A key the trie knows holds, in both objects, what the same event gave. -/
theorem lookup_pruneEntries {paths child : PathTrie} {key : String} (hchild : paths.child key = some child)
    (entries : List (String × Raw)) (pruned built : List (String × Value))
    (h : ∃ raw : Option Raw, pruned.lookup key = raw.map (prune child) ∧ built.lookup key = raw.map build) :
    ∃ raw : Option Raw, (pruneEntries paths pruned entries).lookup key = raw.map (prune child) ∧
      (buildEntries built entries).lookup key = raw.map build := by
  induction entries generalizing pruned built with
  | nil => simpa [pruneEntries, buildEntries] using h
  | cons entry rest ih =>
    obtain ⟨name, value⟩ := entry
    by_cases hname : key = name
    · subst hname
      simp only [pruneEntries, buildEntries, hchild]
      refine ih _ _ ⟨some value, ?_, ?_⟩ <;> simp [lookup_mapInsert]
    · have hbuilt : (mapInsert built name (build value)).lookup key = built.lookup key := by
        simp [lookup_mapInsert, hname]
      rw [pruneEntries, buildEntries]
      cases hother : paths.child name with
      | none => exact ih _ _ (hbuilt ▸ h)
      | some other => exact ih _ _ (by simpa [lookup_mapInsert, hname] using h)

theorem toNat_lastIndex : (4294967295 : UInt32).toNat = 4294967295 := rfl

theorem toNat_nextIndex {index : UInt32} (h : index ≠ 4294967295) : (nextIndex index).toNat = index.toNat + 1 := by
  have hlt := index.toNat_lt
  have hne : index.toNat ≠ 4294967295 := fun hn => h (UInt32.toNat_inj.1 hn)
  rw [nextIndex, if_neg h, UInt32.toNat_add]
  have : (1 : UInt32).toNat = 1 := rfl
  omega

theorem le_nextIndex (index : UInt32) : index.toNat ≤ (nextIndex index).toNat := by
  by_cases h : index = 4294967295
  · simp [nextIndex, h]
  · rw [toNat_nextIndex h]
    omega

theorem length_resize_append (kept : List Value) (length : Nat) (item : Value) :
    (resize kept length .null ++ [item]).length = length + 1 := by
  simp [resize]
  omega

/-- An element before the current position is settled. -/
theorem pruneItems_settled (paths : PathTrie) (items : List Raw) {index : UInt32} {kept : List Value} {i : Nat}
    (hi : i < index.toNat) (hkept : i < kept.length) : (pruneItems paths index kept items)[i]? = kept[i]? := by
  induction items generalizing index kept with
  | nil => simp [pruneItems]
  | cons item rest ih =>
    have hnext := le_nextIndex index
    rw [pruneItems]
    cases paths.index index with
    | none => exact ih (by omega) hkept
    | some child =>
      rw [ih (by omega) (by rw [length_resize_append]; omega)]
      simp only [resize]
      rw [List.getElem?_append_left (by simp; omega), List.getElem?_append_left (by simp; omega),
        List.getElem?_take_of_lt hi]

/-- The element an index of the trie keeps. The last index keeps the last
element of a longer array, so the array must not be longer. -/
theorem pruneItems_get {paths child : PathTrie} {i : UInt32} (hchild : paths.index i = some child) (items : List Raw)
    {index : UInt32} {kept : List Value} (hi : index.toNat ≤ i.toNat) (hkept : kept.length ≤ index.toNat)
    (hfits : i ≠ 4294967295 ∨ index.toNat + items.length ≤ 4294967296) :
    (pruneItems paths index kept items)[i.toNat]? = items[i.toNat - index.toNat]?.map (prune child) := by
  induction items generalizing index kept with
  | nil =>
    rw [pruneItems, List.getElem?_eq_none (by omega)]
    simp
  | cons item rest ih =>
    by_cases heq : index = i
    · subst heq
      have hlast : (resize kept index.toNat .null ++ [prune child item])[index.toNat]? = some (prune child item) := by
        rw [List.getElem?_append_right (by simp [resize]; omega)]
        simp [resize, show kept.length + (index.toNat - kept.length) = index.toNat by omega, hkept]
      rw [pruneItems, hchild]
      simp only [Nat.sub_self, List.getElem?_cons_zero, Option.map_some]
      by_cases hmax : index = 4294967295
      · -- The last index: the bound leaves nothing to read after it.
        have hrest : rest = [] := by
          have h := hfits.resolve_left (by simp [hmax])
          have hn : index.toNat = 4294967295 := by rw [hmax, toNat_lastIndex]
          rw [List.length_cons] at h
          exact List.length_eq_zero_iff.1 (by omega)
        rw [hrest, pruneItems, hlast]
      · rw [pruneItems_settled paths rest (by rw [toNat_nextIndex hmax]; omega)
          (by rw [length_resize_append]; omega), hlast]
    · have hlt : index.toNat < i.toNat := by
        have : index.toNat ≠ i.toNat := fun h => heq (UInt32.toNat_inj.1 h)
        omega
      have hmax : index ≠ 4294967295 := by
        rintro rfl
        have := i.toNat_lt
        rw [toNat_lastIndex] at hlt
        omega
      have hnext := toNat_nextIndex hmax
      have hrest : (item :: rest)[i.toNat - index.toNat]? = rest[i.toNat - (nextIndex index).toNat]? := by
        rw [show i.toNat - index.toNat = (i.toNat - (nextIndex index).toNat) + 1 by omega, List.getElem?_cons_succ]
      rw [pruneItems, hrest]
      rw [List.length_cons] at hfits
      have hfits : i ≠ 4294967295 ∨ (nextIndex index).toNat + rest.length ≤ 4294967296 := hfits.imp_right fun h => by omega
      cases paths.index index with
      | none => exact ih (by omega) (by omega) hfits
      | some other => exact ih (by omega) (by rw [length_resize_append]; omega) hfits

/-! ## Judging a pruned value -/

section

variable (host : Host) (headers : List Header) {value other : Value}

theorem payloadTruth_congr {judge : Value → Truth × Bool} (mismatched : Bool) (h : judge value = judge other) :
    (Context.mk host headers (.ok value)).payloadTruth mismatched judge =
      (Context.mk host headers (.ok other)).payloadTruth mismatched judge := by
  simp only [Context.payloadTruth, h]

mutual

/-- A node looks at a payload only through its paths. -/
theorem truth_congr : (node : Node) → (mismatched : Bool) → (∀ path ∈ node.paths, resolve value path = resolve other path) →
    (Context.mk host headers (.ok value)).truth mismatched node = (Context.mk host headers (.ok other)).truth mismatched node
  | .all children, mismatched, h => by
    have hpass := pass_congr children h
    simp only [Context.truth, hpass]
  | .any children, mismatched, h => by
    have hpass := pass_congr children h
    simp only [Context.truth, hpass]
  | .not child, mismatched, h => by
    have hchild := truth_congr child mismatched h
    simp only [Context.truth, hchild]
  | .compare path op literal, mismatched, h => by
    have hpath := h path (List.mem_singleton_self path)
    exact payloadTruth_congr host headers mismatched (by simp only [hpath])
  | .coerced path op coerce literal, mismatched, h => by
    have hpath := h path (List.mem_singleton_self path)
    exact payloadTruth_congr host headers mismatched (by simp only [hpath])
  | .text path matcher, mismatched, h => by
    have hpath := h path (List.mem_singleton_self path)
    exact payloadTruth_congr host headers mismatched (by simp only [hpath])
  | .present path, mismatched, h => by
    have hpath := h path (List.mem_singleton_self path)
    exact payloadTruth_congr host headers mismatched (by simp only [hpath])
  | .absent path, mismatched, h => by
    have hpath := h path (List.mem_singleton_self path)
    exact payloadTruth_congr host headers mismatched (by simp only [hpath])
  | .header _ _ _, _, _ => rfl
  | .headerText _ _, _, _ => rfl

theorem pass_congr : (children : List Node) → (∀ path ∈ nodePaths children, resolve value path = resolve other path) →
    ∀ (reads : Bool) (decisive : Truth) (unknown mismatched : Bool),
      (Context.mk host headers (.ok value)).pass reads decisive unknown mismatched children =
        (Context.mk host headers (.ok other)).pass reads decisive unknown mismatched children
  | [], _, _, _, _, _ => rfl
  | child :: rest, h, reads, decisive, unknown, mismatched => by
    have hchild := truth_congr child mismatched fun path hp => h path (List.mem_append_left _ hp)
    have hrest := pass_congr rest fun path hp => h path (List.mem_append_right _ hp)
    simp only [Context.pass, hchild, hrest]

end

end

theorem compile_parts {host : Host} {encodedBytes : ConsumerFilter → Nat} {decoders : Decoders} {filter : ConsumerFilter}
    {compiled : CompiledFilter} (h : CompiledFilter.compile host encodedBytes decoders filter = .ok compiled) :
    collectPaths .empty filter.expr = .ok compiled.paths ∧ compileNode host filter.expr = .ok compiled.root ∧
      compiled.host = host ∧ compiled.filter = filter ∧ compiled.decoders = decoders := by
  simp only [CompiledFilter.compile, bind_ok, pure_ok] at h
  obtain ⟨_, -, paths, hpaths, root, hroot, rfl⟩ := h
  exact ⟨hpaths, hroot, rfl, rfl, rfl⟩

theorem compile_ok {host : Host} {encodedBytes : ConsumerFilter → Nat} {filter : ConsumerFilter} {paths : PathTrie}
    {root : Node} (hvalid : filter.validate host encodedBytes = .ok ()) (hpaths : collectPaths .empty filter.expr = .ok paths)
    (hroot : compileNode host filter.expr = .ok root) (decoders : Decoders) :
    CompiledFilter.compile host encodedBytes decoders filter = .ok ⟨host, filter, root, paths, decoders⟩ := by
  simp only [CompiledFilter.compile, bind_ok, pure_ok]
  exact ⟨(), hvalid, paths, hpaths, root, hroot, rfl⟩

theorem decodeJsonPaths_accepts (tokenize : List UInt8 → Option Raw) (payload : List UInt8) (limits : DecodeLimits)
    (paths : PathTrie) : (decodeJsonPaths tokenize payload limits paths).map (fun _ => ()) =
      (decodeJson tokenize payload limits).map fun _ => () := by
  unfold decodeJson decodeJsonPaths
  split
  · rfl
  · split
    · rfl
    · cases tokenize payload <;> rfl

/-- `field = 1` over JSON payloads. -/
def equalsOne (field : String) : ConsumerFilter := .new (.pred ⟨field, .eq, .long 1⟩) .json

/-- A host for filters without text predicates. -/
def plainHost : Host where
  toLowercase := String.toLower
  build _ := .ok ()
  isMatch _ _ := false
  escape text := text
  doubleText _ := ""
  diagnosticText _ := ""

/-- The decoders of a JSON filter in front of one payload. -/
def oneDocument (payload : List UInt8) (raw : Raw) : Decoders where
  tokenize bytes := if bytes = payload then some raw else none
  decodePaths _ _ _ _ := .error .malformed

theorem compile_equalsOne {field : String} {path : FieldPath} (hparse : FieldPath.parse field = .ok path)
    {encodedBytes : ConsumerFilter → Nat} (hvalid : (equalsOne field).validate plainHost encodedBytes = .ok ())
    (decoders : Decoders) : CompiledFilter.compile plainHost encodedBytes decoders (equalsOne field) =
      .ok ⟨plainHost, equalsOne field, .compare path .eq (.int 1), PathTrie.empty.insert path, decoders⟩ := by
  refine compile_ok hvalid ?_ ?_ decoders
  · simp [equalsOne, ConsumerFilter.new, collectPaths, hparse]
  · simp [equalsOne, ConsumerFilter.new, compileNode, compileLiteral, hparse]

end LaserSdk.Filter

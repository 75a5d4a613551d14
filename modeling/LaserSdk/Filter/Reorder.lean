import Mathlib.Data.List.Perm.Basic
import LaserSdk.Filter.Explain
/-!
# Reordering a filter

A filter with the children of its nodes in another order has the same Kleene
value, and the same payload in front of it. Its verdict still depends on the
order where the value is unknown: a child that decides its node hides the
children after it, and a predicate that is not read does not report that it
met a type it cannot compare.
-/

namespace LaserSdk.Filter

open Lib

/-! ## The same paths -/

namespace PathTrie

/-- What a trie keeps at a location: all of it, or only deeper paths. -/
def look (paths : PathTrie) : List PathSegment → Option Bool
  | [] => some paths.whole
  | segment :: rest => if paths.whole then some true else (paths.step segment).bind fun child => child.look rest

def Same (paths other : PathTrie) : Prop := ∀ location, paths.look location = other.look location

theorem look_of_whole {paths : PathTrie} (h : paths.whole = true) (location : List PathSegment) :
    paths.look location = some true := by
  cases location with
  | nil => rw [look, h]
  | cons segment rest => rw [look, if_pos h]

theorem look_cons {paths : PathTrie} (h : paths.whole = false) (segment : PathSegment) (rest : List PathSegment) :
    paths.look (segment :: rest) = (paths.step segment).bind fun child => child.look rest := by
  rw [look, h, if_neg Bool.false_ne_true]

theorem look_empty (location : List PathSegment) : empty.look location = if location = [] then some false else none := by
  cases location with
  | nil => rfl
  | cons segment rest =>
    rw [look_cons rfl, if_neg (List.cons_ne_nil _ _)]
    cases segment <;> rfl

theorem look_insertSegments (paths : PathTrie) (path location : List PathSegment) :
    (paths.insertSegments path).look location =
      if path <+: location ∨ paths.look location = some true then some true
      else if location <+: path then some false
      else paths.look location := by
  induction path generalizing paths location with
  | nil =>
    rw [insertSegments, if_pos (.inl List.nil_prefix)]
    exact look_of_whole rfl location
  | cons segment rest ih =>
    cases hwhole : paths.whole with
    | true =>
      have hkept : paths.insertSegments (segment :: rest) = paths := by simp only [insertSegments, hwhole, if_true]
      rw [hkept, look_of_whole hwhole, if_pos (.inr rfl)]
    | false =>
      obtain ⟨hopen, hstep⟩ := step_insertSegments hwhole segment rest
      cases location with
      | nil => simp [look, hopen, hwhole]
      | cons first more =>
        rw [look_cons hopen, look_cons hwhole, hstep]
        by_cases hfirst : first = segment
        · subst hfirst
          rw [if_pos rfl, Option.bind_some, ih]
          simp only [List.cons_prefix_cons, true_and]
          -- A child that is not there yet starts out empty.
          cases hchild : paths.step first with
          | some child => rfl
          | none =>
            rw [Option.getD_none, Option.bind_none, look_empty]
            by_cases hmore : more = []
            · subst hmore
              simp
            · simp [hmore]
        · simp [hfirst, Ne.symm hfirst]

theorem look_foldl (read : List FieldPath) (paths : PathTrie) (location : List PathSegment) :
    (read.foldl insert paths).look location =
      if (∃ path ∈ read, path.segments <+: location) ∨ paths.look location = some true then some true
      else if ∃ path ∈ read, location <+: path.segments then some false
      else paths.look location := by
  induction read generalizing paths with
  | nil => simp
  | cons path read ih =>
    rw [List.foldl_cons, ih, insert, look_insertSegments]
    simp only [List.exists_mem_cons_iff]
    by_cases hcovered : path.segments <+: location
    · simp [hcovered]
    · by_cases hall : paths.look location = some true
      · simp [hall]
      · by_cases hdeeper : location <+: path.segments
        · simp [hcovered, hall, hdeeper]
        · simp [hcovered, hall, hdeeper]

theorem foldl_same {read other : List FieldPath} (h : read.Perm other) (paths : PathTrie) :
    Same (read.foldl insert paths) (other.foldl insert paths) := by
  intro location
  simp only [look_foldl, h.mem_iff]

theorem Same.whole_eq {paths other : PathTrie} (h : Same paths other) : paths.whole = other.whole :=
  Option.some.inj (h [])

/-- One segment down, both keep nothing or the same. -/
theorem Same.step {paths other : PathTrie} (h : Same paths other) (hwhole : paths.whole = false) (segment : PathSegment) :
    paths.step segment = none ∧ other.step segment = none ∨
      ∃ child child', paths.step segment = some child ∧ other.step segment = some child' ∧ Same child child' := by
  have hbind : ∀ rest, (paths.step segment).bind (fun child => child.look rest) =
      (other.step segment).bind fun child => child.look rest := by
    intro rest
    have := h (segment :: rest)
    rwa [look_cons hwhole, look_cons (h.whole_eq ▸ hwhole)] at this
  cases hchild : paths.step segment with
  | none =>
    cases hchild' : other.step segment with
    | none => exact .inl ⟨rfl, rfl⟩
    | some child' =>
      have := hbind []
      rw [hchild, hchild'] at this
      exact absurd this nofun
  | some child =>
    cases hchild' : other.step segment with
    | none =>
      have := hbind []
      rw [hchild, hchild'] at this
      exact absurd this nofun
    | some child' =>
      refine .inr ⟨child, child', rfl, rfl, fun rest => ?_⟩
      have := hbind rest
      rwa [hchild, hchild'] at this

end PathTrie

mutual

theorem prune_same : (raw : Raw) → {paths other : PathTrie} → paths.Same other → prune paths raw = prune other raw
  | .null, _, _, _ => rfl
  | .bool _, _, _, _ => rfl
  | .integer _, _, _, _ => rfl
  | .float _, _, _, _ => by simp [prune]
  | .string _, _, _, h => by simp [prune, h.whole_eq]
  | .array items, paths, other, h => by
    cases hwhole : paths.whole with
    | true => rw [prune_whole hwhole, prune_whole (h.whole_eq ▸ hwhole)]
    | false =>
      have hwhole' : other.whole = false := h.whole_eq ▸ hwhole
      simp only [prune, hwhole, hwhole', Bool.false_eq_true, if_false]
      rw [pruneItems_same items h hwhole]
  | .object entries, paths, other, h => by
    cases hwhole : paths.whole with
    | true => rw [prune_whole hwhole, prune_whole (h.whole_eq ▸ hwhole)]
    | false =>
      have hwhole' : other.whole = false := h.whole_eq ▸ hwhole
      simp only [prune, hwhole, hwhole', Bool.false_eq_true, if_false]
      rw [pruneEntries_same entries h hwhole]

theorem pruneItems_same : (items : List Raw) → {paths other : PathTrie} → paths.Same other → paths.whole = false →
    ∀ {index : UInt32} {kept : List Value}, pruneItems paths index kept items = pruneItems other index kept items
  | [], _, _, _, _, _, _ => rfl
  | item :: rest, paths, other, h, hwhole, index, kept => by
    rcases h.step hwhole (.index index) with ⟨hnone, hnone'⟩ | ⟨child, child', hchild, hchild', hsame⟩
    · simp only [PathTrie.step] at hnone hnone'
      simp only [pruneItems, hnone, hnone']
      exact pruneItems_same rest h hwhole
    · simp only [PathTrie.step] at hchild hchild'
      simp only [pruneItems, hchild, hchild', prune_same item hsame]
      exact pruneItems_same rest h hwhole

theorem pruneEntries_same : (entries : List (String × Raw)) → {paths other : PathTrie} → paths.Same other →
    paths.whole = false → ∀ {object : List (String × Value)},
    pruneEntries paths object entries = pruneEntries other object entries
  | [], _, _, _, _, _ => rfl
  | (key, value) :: rest, paths, other, h, hwhole, object => by
    rcases h.step hwhole (.key key) with ⟨hnone, hnone'⟩ | ⟨child, child', hchild, hchild', hsame⟩
    · simp only [PathTrie.step] at hnone hnone'
      simp only [pruneEntries, hnone, hnone']
      exact pruneEntries_same rest h hwhole
    · simp only [PathTrie.step] at hchild hchild'
      simp only [pruneEntries, hchild, hchild', prune_same value hsame]
      exact pruneEntries_same rest h hwhole

end

mutual

/-- Collecting inserts the paths of the compiled node one by one. -/
theorem collectPaths_foldl {host : Host} {paths after : PathTrie} : {expr : FilterExpr} → {node : Node} →
    compileNode host expr = .ok node → collectPaths paths expr = .ok after → after = node.paths.foldl PathTrie.insert paths
  | .all children, node, hn, hc => by
    obtain ⟨nodes, hnodes, rfl⟩ := map_ok.1 hn
    exact collectPathsAll_foldl hnodes hc
  | .any children, node, hn, hc => by
    obtain ⟨nodes, hnodes, rfl⟩ := map_ok.1 hn
    exact collectPathsAll_foldl hnodes hc
  | .not child, node, hn, hc => by
    obtain ⟨inner, hinner, rfl⟩ := map_ok.1 hn
    have h := collectPaths_foldl hinner hc
    exact h
  | .pred predicate, node, hn, hc => by
    simp only [compileNode, bind_ok, pure_ok] at hn
    obtain ⟨path, hp, literal, -, rfl⟩ := hn
    rw [collectPaths, hp] at hc
    exact (Except.ok.inj hc).symm
  | .predAs coerced, node, hn, hc => by
    simp only [compileNode, bind_ok, pure_ok] at hn
    obtain ⟨path, hp, literal, -, rfl⟩ := hn
    rw [collectPaths, hp] at hc
    exact (Except.ok.inj hc).symm
  | .present path, node, hn, hc => by
    cases hn
    cases hc
    rfl
  | .absent path, node, hn, hc => by
    cases hn
    cases hc
    rfl
  | .text predicate, node, hn, hc => by
    simp only [compileNode, bind_ok, pure_ok] at hn
    obtain ⟨path, hp, matcher, -, rfl⟩ := hn
    rw [collectPaths, hp] at hc
    exact (Except.ok.inj hc).symm
  | .header predicate, node, hn, hc => by
    obtain ⟨literal, -, rfl⟩ := map_ok.1 hn
    cases hc
    rfl
  | .headerText predicate, node, hn, hc => by
    obtain ⟨matcher, -, rfl⟩ := map_ok.1 hn
    cases hc
    rfl

theorem collectPathsAll_foldl {host : Host} {paths after : PathTrie} : {exprs : List FilterExpr} → {nodes : List Node} →
    compileNodes host exprs = .ok nodes → collectPathsAll paths exprs = .ok after →
    after = (nodePaths nodes).foldl PathTrie.insert paths
  | [], nodes, hn, hc => by
    cases hn
    cases hc
    rfl
  | expr :: rest, nodes, hn, hc => by
    simp only [compileNodes, bind_ok, pure_ok] at hn
    obtain ⟨node, hnode, nodes, hnodes, rfl⟩ := hn
    obtain ⟨middle, hmiddle, hrest⟩ := bind_ok.1 hc
    rw [collectPathsAll_foldl hnodes hrest, collectPaths_foldl hnode hmiddle, nodePaths, List.foldl_append]

end

/-! ## Reordered filters -/

/-- The children of some `all` and `any` nodes stand in another order. -/
inductive Reordered : FilterExpr → FilterExpr → Prop
  | refl (expr) : Reordered expr expr
  | trans {first second third} (h : Reordered first second) (h' : Reordered second third) : Reordered first third
  | all {children children'} (h : children.Perm children') : Reordered (.all children) (.all children')
  | any {children children'} (h : children.Perm children') : Reordered (.any children) (.any children')
  | not {child child'} (h : Reordered child child') : Reordered (.not child) (.not child')
  | inAll {before child child' after} (h : Reordered child child') :
    Reordered (.all (before ++ child :: after)) (.all (before ++ child' :: after))
  | inAny {before child child' after} (h : Reordered child child') :
    Reordered (.any (before ++ child :: after)) (.any (before ++ child' :: after))

/-- Two nodes with one value under all truths, over the same paths. -/
structure Node.Alike (node other : Node) : Prop where
  value : ∀ host headers assign, node.value host headers assign = other.value host headers assign
  paths : node.paths.Perm other.paths
  reads : node.readsPayload = other.readsPayload

theorem Node.Alike.refl (node : Node) : node.Alike node := ⟨fun _ _ _ => rfl, .refl _, rfl⟩

theorem nodeValues_map (host : Host) (headers : List Header) (assign : Node → Truth) (children : List Node) :
    nodeValues host headers assign children = children.map fun child => child.value host headers assign := by
  induction children with
  | nil => rfl
  | cons child rest ih => rw [nodeValues, ih, List.map_cons]

theorem nodePaths_flatMap (children : List Node) : nodePaths children = children.flatMap Node.paths := by
  induction children with
  | nil => rfl
  | cons child rest ih => rw [nodePaths, ih, List.flatMap_cons]

theorem anyNodeReadsPayload_any (children : List Node) : anyNodeReadsPayload children = children.any Node.readsPayload := by
  induction children with
  | nil => rfl
  | cons child rest ih => rw [anyNodeReadsPayload, ih, List.any_cons]

theorem compileNodes_forall₂ {host : Host} {exprs : List FilterExpr} {nodes : List Node} :
    compileNodes host exprs = .ok nodes ↔ List.Forall₂ (fun expr node => compileNode host expr = .ok node) exprs nodes := by
  induction exprs generalizing nodes with
  | nil =>
    rw [List.forall₂_nil_left_iff]
    exact ⟨fun h => (Except.ok.inj h).symm, fun h => congrArg Except.ok h.symm⟩
  | cons expr rest ih =>
    simp only [compileNodes, bind_ok, pure_ok, List.forall₂_cons_left_iff, ih]
    constructor
    · rintro ⟨node, hnode, nodes, hnodes, rfl⟩
      exact ⟨node, nodes, hnode, hnodes, rfl⟩
    · rintro ⟨node, nodes, hnode, hnodes, rfl⟩
      exact ⟨node, hnode, nodes, hnodes, rfl⟩

/-- Compiled children in another order. -/
theorem compileNodes_perm {host : Host} {exprs exprs' : List FilterExpr} {nodes : List Node} (h : exprs.Perm exprs')
    (hnodes : compileNodes host exprs = .ok nodes) : ∃ nodes', compileNodes host exprs' = .ok nodes' ∧ nodes'.Perm nodes := by
  obtain ⟨nodes', hnodes', hperm⟩ := List.perm_comp_forall₂ h.symm (compileNodes_forall₂.1 hnodes)
  exact ⟨nodes', compileNodes_forall₂.2 hnodes', hperm⟩

/-- One compiled child replaced. -/
theorem compileNodes_replace {host : Host} {before after : List FilterExpr} {child child' : FilterExpr} {nodes : List Node}
    (h : ∀ node, compileNode host child = .ok node → ∃ node', compileNode host child' = .ok node' ∧ node.Alike node')
    (hnodes : compileNodes host (before ++ child :: after) = .ok nodes) :
    ∃ nodes', compileNodes host (before ++ child' :: after) = .ok nodes' ∧ List.Forall₂ Node.Alike nodes nodes' := by
  induction before generalizing nodes with
  | nil =>
    simp only [List.nil_append, compileNodes, bind_ok, pure_ok] at hnodes
    obtain ⟨node, hnode, rest, hrest, rfl⟩ := hnodes
    obtain ⟨node', hnode', halike⟩ := h node hnode
    refine ⟨node' :: rest, ?_, .cons halike (List.forall₂_same.2 fun node _ => .refl node)⟩
    simp only [List.nil_append, compileNodes, bind_ok, pure_ok]
    exact ⟨node', hnode', rest, hrest, rfl⟩
  | cons first before ih =>
    simp only [List.cons_append, compileNodes, bind_ok, pure_ok] at hnodes ⊢
    obtain ⟨node, hnode, rest, hrest, rfl⟩ := hnodes
    obtain ⟨rest', hrest', halike⟩ := ih hrest
    exact ⟨node :: rest', ⟨node, hnode, rest', hrest', rfl⟩, .cons (.refl node) halike⟩

theorem alike_perm {children children' : List Node} (h : children'.Perm children) :
    (Node.all children).Alike (.all children') ∧ (Node.any children).Alike (.any children') := by
  have hvalues : ∀ host headers assign truth, truth ∈ nodeValues host headers assign children ↔
      truth ∈ nodeValues host headers assign children' := by
    intro host headers assign truth
    rw [nodeValues_map, nodeValues_map]
    exact (h.map _).mem_iff.symm
  have hpaths : (nodePaths children).Perm (nodePaths children') := by
    rw [nodePaths_flatMap, nodePaths_flatMap]
    exact h.symm.flatMap_right _
  have hreads : anyNodeReadsPayload children = anyNodeReadsPayload children' := by
    rw [anyNodeReadsPayload_any, anyNodeReadsPayload_any, Bool.eq_iff_iff, List.any_eq_true, List.any_eq_true]
    simp only [h.mem_iff]
  exact ⟨⟨fun _ _ _ => connective_congr (hvalues _ _ _), hpaths, hreads⟩,
    ⟨fun _ _ _ => connective_congr (hvalues _ _ _), hpaths, hreads⟩⟩

theorem alike_children {children children' : List Node} (h : List.Forall₂ Node.Alike children children') :
    (Node.all children).Alike (.all children') ∧ (Node.any children).Alike (.any children') := by
  have hall : (nodePaths children).Perm (nodePaths children') ∧
      anyNodeReadsPayload children = anyNodeReadsPayload children' ∧
      ∀ host headers assign, nodeValues host headers assign children = nodeValues host headers assign children' := by
    induction h with
    | nil => exact ⟨.refl _, rfl, fun _ _ _ => rfl⟩
    | cons hchild _ ih =>
      refine ⟨hchild.paths.append ih.1, ?_, fun host headers assign => ?_⟩
      · rw [anyNodeReadsPayload, anyNodeReadsPayload, hchild.reads, ih.2.1]
      · rw [nodeValues, nodeValues, hchild.value, ih.2.2]
  obtain ⟨hpaths, hreads, hsame⟩ := hall
  have hvalues : ∀ host headers assign truth, truth ∈ nodeValues host headers assign children ↔
      truth ∈ nodeValues host headers assign children' := by
    intro host headers assign truth
    rw [hsame]
  exact ⟨⟨fun _ _ _ => connective_congr (hvalues _ _ _), hpaths, hreads⟩,
    ⟨fun _ _ _ => connective_congr (hvalues _ _ _), hpaths, hreads⟩⟩

theorem reordered_compile {host : Host} {expr expr' : FilterExpr} (h : Reordered expr expr') {node : Node}
    (hnode : compileNode host expr = .ok node) : ∃ node', compileNode host expr' = .ok node' ∧ node.Alike node' := by
  induction h generalizing node with
  | refl expr => exact ⟨node, hnode, .refl node⟩
  | trans _ _ ih ih' =>
    obtain ⟨middle, hmiddle, halike⟩ := ih hnode
    obtain ⟨last, hlast, halike'⟩ := ih' hmiddle
    refine ⟨last, hlast, ?_, halike.paths.trans halike'.paths, halike.reads.trans halike'.reads⟩
    intro host headers assign
    rw [halike.value, halike'.value]
  | all h =>
    obtain ⟨nodes, hnodes, rfl⟩ := map_ok.1 hnode
    obtain ⟨nodes', hnodes', hperm⟩ := compileNodes_perm h hnodes
    exact ⟨.all nodes', map_ok.2 ⟨nodes', hnodes', rfl⟩, (alike_perm hperm).1⟩
  | any h =>
    obtain ⟨nodes, hnodes, rfl⟩ := map_ok.1 hnode
    obtain ⟨nodes', hnodes', hperm⟩ := compileNodes_perm h hnodes
    exact ⟨.any nodes', map_ok.2 ⟨nodes', hnodes', rfl⟩, (alike_perm hperm).2⟩
  | not _ ih =>
    obtain ⟨inner, hinner, rfl⟩ := map_ok.1 hnode
    obtain ⟨inner', hinner', halike⟩ := ih hinner
    exact ⟨.not inner', map_ok.2 ⟨inner', hinner', rfl⟩, fun _ _ _ => congrArg negate (halike.value _ _ _),
      halike.paths, halike.reads⟩
  | inAll _ ih =>
    obtain ⟨nodes, hnodes, rfl⟩ := map_ok.1 hnode
    obtain ⟨nodes', hnodes', halike⟩ := compileNodes_replace (fun _ => ih) hnodes
    exact ⟨.all nodes', map_ok.2 ⟨nodes', hnodes', rfl⟩, (alike_children halike).1⟩
  | inAny _ ih =>
    obtain ⟨nodes, hnodes, rfl⟩ := map_ok.1 hnode
    obtain ⟨nodes', hnodes', halike⟩ := compileNodes_replace (fun _ => ih) hnodes
    exact ⟨.any nodes', map_ok.2 ⟨nodes', hnodes', rfl⟩, (alike_children halike).2⟩

/-! ## The leaves that are read -/

def Node.isLeaf : Node → Bool
  | .all _ | .any _ | .not _ => false
  | _ => true

/-- The children that read no payload, then those that do. -/
def readingOrder (children : List Node) : List Node :=
  (children.filter fun child => child.readsPayload = false) ++ children.filter fun child => child.readsPayload = true

/-- A leaf is read where no child before its own decides a node above it. -/
inductive Reads (value : Node → Truth) : Node → Node → Prop
  | leaf {node} (h : node.isLeaf = true) : Reads value node node
  | not {child leaf} (h : Reads value child leaf) : Reads value (.not child) leaf
  | all {children before child after leaf} (horder : readingOrder children = before ++ child :: after)
    (hbefore : ∀ other ∈ before, value other ≠ .noMatch) (h : Reads value child leaf) : Reads value (.all children) leaf
  | any {children before child after leaf} (horder : readingOrder children = before ++ child :: after)
    (hbefore : ∀ other ∈ before, value other ≠ .isMatch) (h : Reads value child leaf) : Reads value (.any children) leaf

/-- A leaf of one of the children, in this order. -/
def ReadsAmong (value : Node → Truth) (decisive : Truth) (children : List Node) (leaf : Node) : Prop :=
  ∃ before child after, children = before ++ child :: after ∧ (∀ other ∈ before, value other ≠ decisive) ∧
    Reads value child leaf

section

variable {value : Node → Truth} {decisive : Truth} {children : List Node} {leaf : Node}

theorem not_readsAmong_nil : ¬ ReadsAmong value decisive [] leaf := by
  rintro ⟨before, child, after, h, -⟩
  simp at h

theorem readsAmong_cons {child : Node} : ReadsAmong value decisive (child :: children) leaf ↔
    Reads value child leaf ∨ value child ≠ decisive ∧ ReadsAmong value decisive children leaf := by
  constructor
  · rintro ⟨before, first, after, h, hbefore, hreads⟩
    cases before with
    | nil =>
      obtain ⟨rfl, -⟩ := List.cons.inj h
      exact .inl hreads
    | cons other before =>
      obtain ⟨rfl, hrest⟩ := List.cons.inj h
      exact .inr ⟨hbefore child List.mem_cons_self, before, first, after, hrest,
        fun other hother => hbefore other (List.mem_cons_of_mem _ hother), hreads⟩
  · rintro (hreads | ⟨hchild, before, first, after, rfl, hbefore, hreads⟩)
    · exact ⟨[], child, children, rfl, nofun, hreads⟩
    · exact ⟨child :: before, first, after, rfl, List.forall_mem_cons.2 ⟨hchild, hbefore⟩, hreads⟩

theorem readsAmong_append {more : List Node} : ReadsAmong value decisive (children ++ more) leaf ↔
    ReadsAmong value decisive children leaf ∨
      (∀ child ∈ children, value child ≠ decisive) ∧ ReadsAmong value decisive more leaf := by
  induction children with
  | nil => simp [not_readsAmong_nil]
  | cons child rest ih =>
    rw [List.cons_append, readsAmong_cons, readsAmong_cons, ih, List.forall_mem_cons]
    constructor
    · rintro (hreads | ⟨hchild, hreads | ⟨hrest, hreads⟩⟩)
      · exact .inl (.inl hreads)
      · exact .inl (.inr ⟨hchild, hreads⟩)
      · exact .inr ⟨⟨hchild, hrest⟩, hreads⟩
    · rintro ((hreads | ⟨hchild, hreads⟩) | ⟨⟨hchild, hrest⟩, hreads⟩)
      · exact .inl hreads
      · exact .inr ⟨hchild, .inl hreads⟩
      · exact .inr ⟨hchild, .inr ⟨hrest, hreads⟩⟩

theorem reads_all : Reads value (.all children) leaf ↔ ReadsAmong value .noMatch (readingOrder children) leaf := by
  constructor
  · intro h
    cases h with
    | leaf h => exact absurd h (by simp [Node.isLeaf])
    | all horder hbefore h => exact ⟨_, _, _, horder, hbefore, h⟩
  · rintro ⟨before, child, after, horder, hbefore, h⟩
    exact .all horder hbefore h

theorem reads_any : Reads value (.any children) leaf ↔ ReadsAmong value .isMatch (readingOrder children) leaf := by
  constructor
  · intro h
    cases h with
    | leaf h => exact absurd h (by simp [Node.isLeaf])
    | any horder hbefore h => exact ⟨_, _, _, horder, hbefore, h⟩
  · rintro ⟨before, child, after, horder, hbefore, h⟩
    exact .any horder hbefore h

theorem reads_not {child : Node} : Reads value (.not child) leaf ↔ Reads value child leaf := by
  constructor
  · intro h
    cases h with
    | leaf h => exact absurd h (by simp [Node.isLeaf])
    | not h => exact h
  · exact .not

theorem reads_leaf {node : Node} (h : node.isLeaf = true) : Reads value node leaf ↔ node = leaf := by
  constructor
  · intro hreads
    cases hreads with
    | leaf _ => rfl
    | not _ => exact absurd h (by simp [Node.isLeaf])
    | all _ _ _ => exact absurd h (by simp [Node.isLeaf])
    | any _ _ _ => exact absurd h (by simp [Node.isLeaf])
  · rintro rfl
    exact .leaf h

end

namespace Context

variable (ctx : Context)

/-- The flag a payload predicate reports. -/
def payloadMismatch (judge : Value → Truth × Bool) : Bool :=
  match ctx.payload with
  | .ok value => (judge value).2
  | .error _ => false

/-- The leaf meets a value of a type it cannot compare. -/
def mismatch : Node → Bool
  | .header key op literal => (headerTruth ctx.headers key op literal).2
  | .headerText key matcher => (headerTextTruth ctx.host ctx.headers key matcher).2
  | .compare path op literal => ctx.payloadMismatch fun value => compareTruth (resolve value path) op literal
  | .coerced path op coerce literal =>
    ctx.payloadMismatch fun value => coercedTruth ctx.host (resolve value path) op coerce literal
  | .text path matcher => ctx.payloadMismatch fun value => textTruth ctx.host (resolve value path) matcher
  | _ => false

/-- Some leaf that is read meets such a value. -/
def meets (node : Node) : Prop := ∃ leaf, Reads (fun node => node.kleene ctx.leaf) node leaf ∧ ctx.mismatch leaf = true

/-- One of the leaves read among the children does. -/
def meetsAmong (decisive : Truth) (children : List Node) : Prop :=
  ∃ leaf, ReadsAmong (fun node => node.kleene ctx.leaf) decisive children leaf ∧ ctx.mismatch leaf = true

theorem meetsAmong_cons {decisive : Truth} {child : Node} {rest : List Node} :
    ctx.meetsAmong decisive (child :: rest) ↔
      ctx.meets child ∨ child.kleene ctx.leaf ≠ decisive ∧ ctx.meetsAmong decisive rest := by
  simp only [meetsAmong, meets, readsAmong_cons, or_and_right, exists_or, and_assoc, exists_and_left]

theorem meetsAmong_append {decisive : Truth} {children more : List Node} :
    ctx.meetsAmong decisive (children ++ more) ↔ ctx.meetsAmong decisive children ∨
      (∀ child ∈ children, child.kleene ctx.leaf ≠ decisive) ∧ ctx.meetsAmong decisive more := by
  simp only [meetsAmong, readsAmong_append, or_and_right, exists_or, and_assoc, exists_and_left]

theorem meets_leaf {node : Node} (h : node.isLeaf = true) : ctx.meets node ↔ ctx.mismatch node = true := by
  simp only [meets, reads_leaf h, exists_eq_left']

theorem payloadTruth_snd (mismatched : Bool) (judge : Value → Truth × Bool) :
    (ctx.payloadTruth mismatched judge).2 = (mismatched || ctx.payloadMismatch judge) := by
  unfold payloadTruth payloadMismatch
  cases ctx.payload <;> simp

/-- All children in front of the node are available. -/
def availableAll (children : List Node) : Prop :=
  (∃ payload, ctx.payload = .ok payload) ∨ anyNodeReadsPayload children = false

theorem pass_ok {children : List Node} (h : ctx.availableAll children) (reads : Bool) (decisive : Truth)
    (unknown mismatched : Bool) : (ctx.pass reads decisive unknown mismatched children).1 =
      .ok (passEnd decisive unknown (ctx.passValues reads children)) := by
  rw [ctx.pass_fst]
  rcases h with ⟨payload, hpayload⟩ | hheaders
  · simp only [unlessRead, hpayload]
  · rw [ctx.settledPass_of_headers children hheaders, unlessRead_true]

theorem joinPasses_snd_decided {decisive otherwise : Truth} {first : Except FaultReason Pass × Bool}
    {second : Bool → Bool → Except FaultReason Pass × Bool} (h : first.1 = .ok .decided) :
    (joinPasses decisive otherwise first second).2 = first.2 := by
  obtain ⟨result, mismatched⟩ := first
  obtain rfl : result = _ := h
  rfl

theorem joinPasses_snd_running {decisive otherwise : Truth} {first : Except FaultReason Pass × Bool} {unknown : Bool}
    {second : Bool → Bool → Except FaultReason Pass × Bool} (h : first.1 = .ok (.running unknown)) :
    (joinPasses decisive otherwise first second).2 = (second unknown first.2).2 := by
  obtain ⟨result, mismatched⟩ := first
  obtain rfl : result = _ := h
  rcases hsecond : second unknown mismatched with ⟨result, flag⟩
  simp only [joinPasses, hsecond]
  cases result with
  | error reason => rfl
  | ok last => cases last <;> rfl

/-- The flag of two passes, from the flags of each. -/
theorem joinPasses_meets {decisive otherwise : Truth} {mismatched : Bool} {children : List Node}
    (h : ctx.availableAll children)
    (hpass : ∀ reads unknown mismatched, (ctx.pass reads decisive unknown mismatched children).2 = true ↔
      mismatched = true ∨ ctx.meetsAmong decisive (children.filter fun child => child.readsPayload = reads)) :
    (joinPasses decisive otherwise (ctx.pass false decisive false mismatched children)
      fun unknown mismatched => ctx.pass true decisive unknown mismatched children).2 = true ↔
      mismatched = true ∨ ctx.meetsAmong decisive (readingOrder children) := by
  have hmem : decisive ∈ ctx.passValues false children ↔
      ¬ ∀ child ∈ children.filter (fun child => child.readsPayload = false), child.kleene ctx.leaf ≠ decisive := by
    simp [passValues, ctx.kleene_eq, and_assoc]
  have hfirst := ctx.pass_ok h false decisive false mismatched
  rw [readingOrder, meetsAmong_append]
  -- A header that decides the node ends it before any payload predicate is read.
  by_cases hdecided : decisive ∈ ctx.passValues false children
  · rw [passEnd, if_pos hdecided] at hfirst
    rw [joinPasses_snd_decided hfirst, hpass]
    simp only [hmem.1 hdecided, false_and, or_false]
  · rw [passEnd, if_neg hdecided] at hfirst
    rw [joinPasses_snd_running hfirst, hpass, hpass, or_assoc, and_iff_right (not_not.1 (mt hmem.2 hdecided))]

mutual

/-- The flag is raised by the leaves that are read. -/
theorem truth_snd : (node : Node) → ctx.available node → (mismatched : Bool) →
    ((ctx.truth mismatched node).2 = true ↔ mismatched = true ∨ ctx.meets node)
  | .all children, h, mismatched => by
    simp only [truth, meets, reads_all]
    exact ctx.joinPasses_meets h fun reads unknown mismatched => pass_snd children h reads .noMatch unknown mismatched
  | .any children, h, mismatched => by
    simp only [truth, meets, reads_any]
    exact ctx.joinPasses_meets h fun reads unknown mismatched => pass_snd children h reads .isMatch unknown mismatched
  | .not child, h, mismatched => by
    simp only [truth, meets, reads_not]
    exact truth_snd child h mismatched
  | .header key op literal, h, mismatched => by
    rw [ctx.meets_leaf rfl]
    simp [truth, mismatch]
  | .headerText key matcher, h, mismatched => by
    rw [ctx.meets_leaf rfl]
    simp [truth, mismatch]
  | .compare path op literal, h, mismatched => by
    rw [ctx.meets_leaf rfl]
    simp [truth, payloadTruth_snd, mismatch]
  | .coerced path op coerce literal, h, mismatched => by
    rw [ctx.meets_leaf rfl]
    simp [truth, payloadTruth_snd, mismatch]
  | .text path matcher, h, mismatched => by
    rw [ctx.meets_leaf rfl]
    simp [truth, payloadTruth_snd, mismatch]
  | .present path, h, mismatched => by
    rw [ctx.meets_leaf rfl]
    simp [truth, payloadTruth, mismatch]
    cases ctx.payload <;> simp
  | .absent path, h, mismatched => by
    rw [ctx.meets_leaf rfl]
    simp [truth, payloadTruth, mismatch]
    cases ctx.payload <;> simp

theorem pass_snd : (children : List Node) → ctx.availableAll children → (reads : Bool) → (decisive : Truth) →
    (unknown mismatched : Bool) → ((ctx.pass reads decisive unknown mismatched children).2 = true ↔
      mismatched = true ∨ ctx.meetsAmong decisive (children.filter fun child => child.readsPayload = reads))
  | [], h, reads, decisive, unknown, mismatched => by
    simp [pass, meetsAmong, not_readsAmong_nil]
  | child :: rest, h, reads, decisive, unknown, mismatched => by
    rw [availableAll, anyNodeReadsPayload, Bool.or_eq_false_iff] at h
    have hchild := truth_snd child (h.imp_right And.left) mismatched
    have hrest := pass_snd rest (h.imp_right And.right) reads decisive
    have hvalue := ctx.truth_eq_kleene (h.imp_right And.left : ctx.available child) mismatched
    by_cases hreads : child.readsPayload = reads
    · rw [pass, if_pos hreads, List.filter_cons_of_pos (by simpa using hreads), meetsAmong_cons]
      rcases htruth : ctx.truth mismatched child with ⟨result, flag⟩
      rw [htruth] at hchild hvalue
      obtain rfl : result = _ := hvalue
      -- A decisive child hides the children after it and their flags.
      by_cases hdecisive : child.kleene ctx.leaf = decisive
      · simpa [stepPass, hdecisive] using hchild
      · simp only [stepPass, if_neg hdecisive, hrest]
        simp only at hchild
        rw [hchild]
        simp only [ne_eq, hdecisive, not_false_eq_true, true_and, or_assoc]
    · rw [pass, if_neg hreads, List.filter_cons_of_neg (by simpa using hreads)]
      exact hrest unknown mismatched

end

end Context

/-! ## Verdicts -/

/-- The decoders of the other codecs ask a trie only what it keeps. -/
def Decoders.PathsOnly (decoders : Decoders) : Prop :=
  ∀ codec record limits {paths other : PathTrie}, paths.Same other →
    decoders.decodePaths codec record limits paths = decoders.decodePaths codec record limits other

theorem decodePayload_same {decoders : Decoders} (hdecoders : decoders.PathsOnly) {paths other : PathTrie}
    (h : paths.Same other) (codec : FilterCodec) (record : FilterRecord) (limits : DecodeLimits) :
    decodePayload decoders codec record limits paths = decodePayload decoders codec record limits other := by
  unfold decodePayload
  split
  · rfl
  · cases codec with
    | json =>
      simp only [decodeJsonPaths]
      split
      · rfl
      · split
        · rfl
        · cases decoders.tokenize record.payload with
          | none => rfl
          | some raw => exact congrArg Except.ok (prune_same raw h)
    | headersOnly => rfl
    | unknown => rfl
    | _ => exact hdecoders _ _ _ h

section

variable {host : Host} {encodedBytes : ConsumerFilter → Nat} {decoders : Decoders} {filter : ConsumerFilter}
  {compiled compiled' : CompiledFilter} {expr' : FilterExpr} {record : FilterRecord} {limits : DecodeLimits}

/-- Both filters have the record in front of them in the same way. -/
theorem reordered_context (hdecoders : decoders.PathsOnly)
    (hcompile : CompiledFilter.compile host encodedBytes decoders filter = .ok compiled)
    (hcompile' : CompiledFilter.compile host encodedBytes decoders { filter with expr := expr' } = .ok compiled')
    (hreordered : Reordered filter.expr expr') :
    compiled'.context record limits = compiled.context record limits ∧ compiled.root.Alike compiled'.root := by
  obtain ⟨hpaths, hroot, hhost, hfilter, hdecoded⟩ := compile_parts hcompile
  obtain ⟨hpaths', hroot', hhost', hfilter', hdecoded'⟩ := compile_parts hcompile'
  obtain ⟨root', hroot'', halike⟩ := reordered_compile hreordered hroot
  obtain rfl : root' = compiled'.root := Except.ok.inj (hroot''.symm.trans hroot')
  refine ⟨?_, halike⟩
  have hsame : compiled'.paths.Same compiled.paths := by
    rw [collectPaths_foldl hroot' hpaths', collectPaths_foldl hroot hpaths]
    exact PathTrie.foldl_same halike.paths.symm _
  have hpayload := decodePayload_same hdecoders hsame filter.codec record limits
  rw [CompiledFilter.context, CompiledFilter.context, hhost, hhost', hdecoded, hdecoded', hfilter, hfilter']
  exact congrArg _ hpayload

theorem evaluated_unknown (filter : ConsumerFilter) (first second : Bool) :
    filter.evaluated (.ok .unknown) first = filter.evaluated (.ok .unknown) second ↔ first = second := by
  cases first <;> cases second <;> simp [ConsumerFilter.evaluated, faulted_eq]

/-- The reordered filter gives the same verdict and reason exactly if the value
is known, or a mismatched value is met in both orders or in none. -/
theorem reordered_agrees_iff (hdecoders : decoders.PathsOnly)
    (hcompile : CompiledFilter.compile host encodedBytes decoders filter = .ok compiled)
    (hcompile' : CompiledFilter.compile host encodedBytes decoders { filter with expr := expr' } = .ok compiled')
    (hreordered : Reordered filter.expr expr')
    (hpayload : (∃ payload, compiled.decoded record limits = .ok payload) ∨ filter.expr.readsPayload = false) :
    compiled'.evaluateWithFault record limits = compiled.evaluateWithFault record limits ↔
      compiled.root.kleene (compiled.context record limits).leaf ≠ .unknown ∨
        ((compiled.context record limits).meets compiled.root ↔ (compiled.context record limits).meets compiled'.root) := by
  obtain ⟨hcontext, halike⟩ := @reordered_context _ _ _ _ _ _ _ record limits hdecoders hcompile hcompile' hreordered
  obtain ⟨-, hroot, -, hfilter, -⟩ := compile_parts hcompile
  obtain ⟨-, -, -, hfilter', -⟩ := compile_parts hcompile'
  have havailable : (compiled.context record limits).available compiled.root :=
    hpayload.imp_right (readsPayload_compile hroot).trans
  have havailable' : (compiled.context record limits).available compiled'.root :=
    havailable.imp_right halike.reads.symm.trans
  have heval : ∀ c : CompiledFilter, c.evaluateWithFault record limits =
      c.filter.evaluated ((c.context record limits).truth false c.root).1 ((c.context record limits).truth false c.root).2 :=
    fun _ => rfl
  rw [heval, heval, hcontext, hfilter, hfilter']
  generalize compiled.context record limits = ctx at havailable havailable'
  have hvalue : compiled'.root.kleene ctx.leaf = compiled.root.kleene ctx.leaf := by
    rw [ctx.kleene_eq, ctx.kleene_eq]
    exact (halike.value _ _ _).symm
  have hflag := ctx.truth_snd compiled.root havailable false
  have hflag' := ctx.truth_snd compiled'.root havailable' false
  rw [ctx.truth_eq_kleene havailable, ctx.truth_eq_kleene havailable', hvalue]
  show filter.evaluated _ _ = filter.evaluated _ _ ↔ _
  -- Only an unknown value looks at the flag.
  by_cases hknown : compiled.root.kleene ctx.leaf = .unknown
  · rw [hknown, evaluated_unknown, Bool.eq_iff_iff, hflag, hflag']
    simp [iff_comm]
  · rw [evaluated_decided filter hknown, evaluated_decided filter hknown]
    exact iff_of_true rfl (.inl hknown)

end

theorem compile_flat_reordered (decoders : Decoders) :
    CompiledFilter.compile plainHost (fun _ => 228) decoders (.new (.all [kindIsOrder, fieldIsOne "a"]) .json) =
      .ok ⟨plainHost, .new (.all [kindIsOrder, fieldIsOne "a"]) .json, .all [kindNode, fieldNode "a"],
        PathTrie.empty.insert ⟨[.key "a"]⟩, decoders⟩ := by
  refine compile_ok ?_ ?_ ?_ decoders
  · decide +kernel
  · simp [ConsumerFilter.new, collectPaths, collectPathsAll, fieldIsOne, kindIsOrder, parse_field_a]
  · simp [ConsumerFilter.new, compileNode, compileNodes, compileLiteral, fieldIsOne, kindIsOrder, fieldNode, kindNode,
      parse_field_a]

theorem oneDocument_pathsOnly (payload : List UInt8) (raw : Raw) : (oneDocument payload raw).PathsOnly := fun _ _ _ _ _ _ => rfl

/-- The header rules the record out in both orders. -/
theorem reordered_flat : ∃ compiled compiled',
    CompiledFilter.compile plainHost (fun _ => 228) (oneDocument oneBytes (.object [("a", .integer 1)]))
        (.new (.all [fieldIsOne "a", kindIsOrder]) .json) = .ok compiled ∧
      CompiledFilter.compile plainHost (fun _ => 228) (oneDocument oneBytes (.object [("a", .integer 1)]))
        (.new (.all [kindIsOrder, fieldIsOne "a"]) .json) = .ok compiled' ∧
      compiled'.evaluateWithFault ⟨oneBytes, pingRecord.headers⟩ ⟨100, 64⟩ =
        compiled.evaluateWithFault ⟨oneBytes, pingRecord.headers⟩ ⟨100, 64⟩ := by
  have hcompile := compile_flat (oneDocument oneBytes (.object [("a", .integer 1)]))
  have hcompile' := compile_flat_reordered (oneDocument oneBytes (.object [("a", .integer 1)]))
  refine ⟨_, _, hcompile, hcompile', (reordered_agrees_iff (oneDocument_pathsOnly _ _) hcompile hcompile' ?_ ?_).2 (.inl ?_)⟩
  · exact .all (.swap ..)
  · exact .inl ⟨_, decode_one _⟩
  · decide +kernel

/-! A filter that stays unknown because `c` is missing, over `a` and `b` in two
orders, against a record where `a` differs and `b` is text. -/

def unknownBut (first second : String) : ConsumerFilter :=
  { ConsumerFilter.new (.any [.all [fieldIsOne first, fieldIsOne second], fieldIsOne "c"]) .json with mismatchPolicy := .pass }

/-- `{"a":2,"b":"x"}`. -/
def twoFieldBytes : List UInt8 := [123, 34, 97, 34, 58, 50, 44, 34, 98, 34, 58, 34, 120, 34, 125]

def twoFields : Raw := .object [("a", .integer 2), ("b", .string "x")]

theorem parse_field_c : FieldPath.parse "c" = .ok ⟨[.key "c"]⟩ := by decide +kernel

theorem compile_unknownBut {first second : String} (hfirst : FieldPath.parse first = .ok ⟨[.key first]⟩)
    (hsecond : FieldPath.parse second = .ok ⟨[.key second]⟩)
    (hvalid : (unknownBut first second).validate plainHost (fun _ => 319) = .ok ()) (decoders : Decoders) :
    CompiledFilter.compile plainHost (fun _ => 319) decoders (unknownBut first second) =
      .ok ⟨plainHost, unknownBut first second, .any [.all [fieldNode first, fieldNode second], fieldNode "c"],
        ((PathTrie.empty.insert ⟨[.key first]⟩).insert ⟨[.key second]⟩).insert ⟨[.key "c"]⟩, decoders⟩ := by
  refine compile_ok hvalid ?_ ?_ decoders
  · simp [unknownBut, ConsumerFilter.new, collectPaths, collectPathsAll, fieldIsOne, hfirst, hsecond, parse_field_c]
  · simp [unknownBut, ConsumerFilter.new, compileNode, compileNodes, compileLiteral, fieldIsOne, fieldNode, hfirst, hsecond,
      parse_field_c]

theorem decode_twoFields (paths : PathTrie) :
    decodePayload (oneDocument twoFieldBytes twoFields) .json ⟨twoFieldBytes, []⟩ ⟨100, 64⟩ paths =
      .ok (prune paths twoFields) := by
  have hforeign : declaresForeignCodec .json [] = false := by decide
  have hdepth : jsonDepthWithin twoFieldBytes (min 64 maxFilterParseDepth) = true := by decide +kernel
  have hlength : twoFieldBytes.length ≤ 100 := by decide
  simp [decodePayload, decodeJsonPaths, hforeign, hdepth, hlength, oneDocument]

theorem order_changes_verdict : ∃ compiled compiled',
    CompiledFilter.compile plainHost (fun _ => 319) (oneDocument twoFieldBytes twoFields) (unknownBut "a" "b") = .ok compiled ∧
      CompiledFilter.compile plainHost (fun _ => 319) (oneDocument twoFieldBytes twoFields) (unknownBut "b" "a") =
        .ok compiled' ∧
      Reordered (unknownBut "a" "b").expr (unknownBut "b" "a").expr ∧
      (∃ payload, compiled.decoded ⟨twoFieldBytes, []⟩ ⟨100, 64⟩ = .ok payload) ∧
      compiled.evaluateWithFault ⟨twoFieldBytes, []⟩ ⟨100, 64⟩ = (.rejected, none) ∧
      compiled'.evaluateWithFault ⟨twoFieldBytes, []⟩ ⟨100, 64⟩ = (.fault, some .typeMismatch) := by
  refine ⟨_, _, compile_unknownBut parse_field_a parse_field_b (by decide +kernel) _,
    compile_unknownBut parse_field_b parse_field_a (by decide +kernel) _, ?_, ⟨_, decode_twoFields _⟩, ?_, ?_⟩
  · exact @Reordered.inAny [] _ _ [fieldIsOne "c"] (.all (.swap ..))
  · decide +kernel
  · decide +kernel

end LaserSdk.Filter

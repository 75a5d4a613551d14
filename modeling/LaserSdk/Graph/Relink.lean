import LaserSdk.Lib.Bytes
import LaserSdk.Lib.Checks
import LaserSdk.Lib.Text
import LaserSdk.Authz.Grants
import LaserSdk.Memory.ContentId
/-!
# Relinking a relationship

A graph holds one edge for each id. `relink` reads one page of a node's
edges through a fresh handle, closes those of the page that are live and point
elsewhere, and links the new target. What the page does not reach stays open.
-/

namespace LaserSdk.Graph

open Lib Authz Memory

/-! ## Nodes and edges -/

abbrev NodeId := BitVec 128

abbrev EdgeId := BitVec 128

def idBytes (id : BitVec 128) : List UInt8 := beBytes 16 id.toNat

def NodeId.content (label value : String) : NodeId := contentId [asBytes label, [0], asBytes value]

def EdgeId.content (fromNode : NodeId) (edgeType : String) (toNode : NodeId) : EdgeId :=
  contentId [idBytes fromNode, [0], asBytes edgeType, [0], idBytes toNode]

inductive SourceRef where
  | message (conversation : Option String)
  | kv (kvNamespace key : String)
  | memory (id : String)
  deriving DecidableEq, Repr

structure ProducerInfo where
  name : String
  version : String
  deriving DecidableEq, Repr

structure GraphNode where
  id : NodeId
  labels : List String
  attrs : List (String × String)
  source : Option SourceRef
  producer : Option ProducerInfo
  deriving DecidableEq, Repr

def GraphNode.entity (label value : String) : GraphNode :=
  ⟨NodeId.content label value, [label], [("value", value)], none, none⟩

/-- Edges are meant to be addressed by their endpoints and their type. A client
that names another id is not refused. -/
structure GraphEdge where
  id : EdgeId
  fromNode : NodeId
  toNode : NodeId
  edgeType : String
  attrs : List (String × String)
  validFrom : Option Nat
  validTo : Option Nat
  source : Option SourceRef
  producer : Option ProducerInfo
  deriving DecidableEq, Repr

def GraphEdge.relate (fromNode : GraphNode) (edgeType : String) (toNode : GraphNode) : GraphEdge :=
  ⟨EdgeId.content fromNode.id edgeType toNode.id, fromNode.id, toNode.id, edgeType, [], none, none, none, none⟩

/-- The entity of a `kind:value` id. -/
def entityNode (id : String) : GraphNode :=
  match splitOnce ':' id.toList with
  | some (label, value) => .entity (String.ofList label) (String.ofList value)
  | none => .entity "entity" id

/-! ## Graphs -/

/-- One edge for each id. -/
structure StoredGraph where
  nodes : List GraphNode
  edges : List GraphEdge
  nodup : (edges.map (·.id)).Nodup

def upsertEdge (edges : List GraphEdge) (edge : GraphEdge) : List GraphEdge :=
  if edges.any (·.id = edge.id) then edges.map fun held => if held.id = edge.id then edge else held
  else edges ++ [edge]

def upsertNode (nodes : List GraphNode) (node : GraphNode) : List GraphNode :=
  if nodes.any (·.id = node.id) then nodes.map fun held => if held.id = node.id then node else held
  else nodes ++ [node]

theorem ids_upsertEdge (edges : List GraphEdge) (edge : GraphEdge) :
    (upsertEdge edges edge).map (·.id) =
      if edge.id ∈ edges.map (·.id) then edges.map (·.id) else edges.map (·.id) ++ [edge.id] := by
  have hany : (edges.any (·.id = edge.id)) = true ↔ edge.id ∈ edges.map (·.id) := by
    simp [List.mem_map]
  unfold upsertEdge
  by_cases h : edge.id ∈ edges.map (·.id)
  · rw [if_pos (hany.2 h), if_pos h, List.map_map]
    refine List.map_congr_left fun held _ => ?_
    by_cases hid : held.id = edge.id
    · simp [hid]
    · simp [hid]
  · rw [if_neg (fun hmem => h (hany.1 hmem)), if_neg h, List.map_append, List.map_singleton]

theorem nodup_upsertEdge {edges : List GraphEdge} (h : (edges.map (·.id)).Nodup) (edge : GraphEdge) :
    ((upsertEdge edges edge).map (·.id)).Nodup := by
  rw [ids_upsertEdge]
  split
  · exact h
  · rename_i hfresh
    exact List.nodup_append.2 ⟨h, List.nodup_singleton _, fun a ha b hb hab =>
      hfresh (List.mem_singleton.1 hb ▸ hab ▸ ha)⟩

/-- The edge takes the place of the one with its id. -/
theorem mem_upsertEdge {edges : List GraphEdge} {edge e : GraphEdge} :
    e ∈ upsertEdge edges edge ↔ e = edge ∨ (e ∈ edges ∧ e.id ≠ edge.id) := by
  unfold upsertEdge
  split
  · rename_i hany
    simp only [List.any_eq_true, decide_eq_true_eq] at hany
    simp only [List.mem_map]
    constructor
    · rintro ⟨held, hheld, rfl⟩
      by_cases hid : held.id = edge.id
      · exact .inl (if_pos hid)
      · rw [if_neg hid]
        exact .inr ⟨hheld, hid⟩
    · rintro (rfl | ⟨hheld, hid⟩)
      · obtain ⟨held, hheld, hid⟩ := hany
        exact ⟨held, hheld, if_pos hid⟩
      · exact ⟨e, hheld, if_neg hid⟩
  · rename_i hany
    simp only [List.any_eq_true, decide_eq_true_eq, not_exists, not_and] at hany
    rw [List.mem_append, List.mem_singleton]
    constructor
    · rintro (hheld | rfl)
      · exact .inr ⟨hheld, hany e hheld⟩
      · exact .inl rfl
    · rintro (rfl | ⟨hheld, -⟩)
      · exact .inr rfl
      · exact .inl hheld

def StoredGraph.upsertEdges (graph : StoredGraph) : List GraphEdge → StoredGraph
  | [] => graph
  | edge :: edges =>
    let graph := { graph with edges := upsertEdge graph.edges edge, nodup := nodup_upsertEdge graph.nodup edge }
    graph.upsertEdges edges

theorem mem_upsertEdges {graph : StoredGraph} {edges : List GraphEdge} (h : (edges.map (·.id)).Nodup) {e : GraphEdge} :
    e ∈ (graph.upsertEdges edges).edges ↔ e ∈ edges ∨ (e ∈ graph.edges ∧ e.id ∉ edges.map (·.id)) := by
  induction edges generalizing graph with
  | nil => simp [StoredGraph.upsertEdges]
  | cons edge edges ih =>
    obtain ⟨hfresh, hrest⟩ := List.nodup_cons.1 h
    rw [StoredGraph.upsertEdges, ih hrest, mem_upsertEdge, List.mem_cons, List.map_cons, List.mem_cons, not_or]
    constructor
    · rintro (hmem | ⟨rfl | ⟨hheld, hid⟩, hout⟩)
      · exact .inl (.inr hmem)
      · exact .inl (.inl rfl)
      · exact .inr ⟨hheld, hid, hout⟩
    · rintro ((rfl | hmem) | ⟨hheld, hid, hout⟩)
      · exact .inr ⟨.inl rfl, hfresh⟩
      · exact .inl hmem
      · exact .inr ⟨.inr ⟨hheld, hid⟩, hout⟩

def StoredGraph.upsert (graph : StoredGraph) (nodes : List GraphNode) (edges : List GraphEdge) : StoredGraph :=
  { graph.upsertEdges edges with nodes := nodes.foldl upsertNode graph.nodes }

/-! ## The client -/

inductive ResourceNaming where
  | stream
  | bare
  deriving DecidableEq, Repr

structure Laser where
  naming : ResourceNaming
  defaultStream : Option Name
  /-- The `graph` capability of the deployment. -/
  graphServed : Bool

def Laser.resourceScope (laser : Laser) : Option Name :=
  match laser.naming with
  | .stream => laser.defaultStream.filter (· ≠ [])
  | .bare => none

def Laser.resourceName (laser : Laser) (name : Name) : Name :=
  match laser.resourceScope with
  | some stream => if name ≠ [] then scopedResource stream name else name
  | none => name

/-- A name is scoped once. -/
theorem Laser.resourceName_idem (laser : Laser) (name : Name) :
    laser.resourceName (laser.resourceName name) = laser.resourceName name := by
  unfold Laser.resourceName
  cases laser.resourceScope with
  | none => rfl
  | some stream =>
    dsimp only
    by_cases hname : name = []
    · simp [hname]
    · have hscoped : streamResourcePrefix <+: scopedResource stream name := by
        unfold scopedResource
        split
        · assumption
        · rw [List.append_assoc]
          exact List.prefix_append _ _
      have hagain : scopedResource stream (scopedResource stream name) = scopedResource stream name := by
        rw [scopedResource, if_pos hscoped]
      simp [hname, hagain]

def defaultRecallLimit : Nat := 100

/-- A handle on a graph. Its name is always one that `resourceName` gave. -/
structure GraphHandle where
  laser : Laser
  name : Name
  limit : Nat
  asOf : Option Nat
  conversation : Option String
  producer : Option ProducerInfo
  source : Option SourceRef
  named : ∃ given, name = laser.resourceName given

def Laser.graph (laser : Laser) (name : Name) : GraphHandle :=
  ⟨laser, laser.resourceName name, defaultRecallLimit, none, none, none, none, name, rfl⟩

inductive EdgeDir where
  | out
  | incoming
  | both
  deriving DecidableEq, Repr

structure GraphNeighbors where
  graph : Name
  node : NodeId
  dir : EdgeDir
  edgeType : Option String
  depth : Nat
  limit : Nat
  asOf : Option Nat
  conversation : Option String

inductive LaserError where
  | invalid (text : String)
  | unsupported (feature text : String)
  deriving DecidableEq, Repr

/-- The graphs a server holds. -/
abbrev Graphs := Name → StoredGraph

/-- One hop out over one relation, of the whole graph as it is now. -/
def GraphNeighbors.OneHop (request : GraphNeighbors) : Prop :=
  request.dir = .out ∧ request.depth = 1 ∧ request.asOf = none ∧ request.conversation = none

/-- An edge of the node and the type that the request names. -/
def GraphNeighbors.Matches (request : GraphNeighbors) (e : GraphEdge) : Prop :=
  e.fromNode = request.node ∧ ∀ edgeType ∈ request.edgeType, e.edgeType = edgeType

/-- How a server answers `neighbors`: it lists matching edges in some order of
its own, with every live one among them, and cuts the list at the limit. -/
structure GraphServer where
  lists : StoredGraph → GraphNeighbors → List GraphEdge
  nodup : ∀ graph request, (lists graph request).Nodup
  held : ∀ graph request, request.OneHop → ∀ e ∈ lists graph request, e ∈ graph.edges ∧ request.Matches e
  live : ∀ graph request, request.OneHop → ∀ e ∈ graph.edges, request.Matches e → e.validTo = none →
    e ∈ lists graph request

def maxGraphNameBytes : Nat := 128

def maxGraphLabelBytes : Nat := 128

def maxGraphNodeLabels : Nat := 16

def maxGraphResultElements : Nat := 10000

def maxMetadataEntries : Nat := 32

def maxMetadataKeyBytes : Nat := 256

def maxSourceRefBytes : Nat := 2 * 512

def validateGraphName (name : Name) : Except LaserError Unit := do
  refuseIf (name = []) (.invalid "graph name must not be empty")
  let size := (String.ofList name).utf8ByteSize
  refuseIf (size > maxGraphNameBytes) (.invalid s!"graph name is {size}B, exceeds cap {maxGraphNameBytes}B")
  refuseIf (name.any fun c => decide (c.toNat < 0x20) || decide (c.toNat = 0x7F))
    (.invalid "graph name must not contain ASCII control characters")

def validateBoundedText (label value : String) (cap : Nat) : Except LaserError Unit := do
  refuseIf (value = "") (.invalid s!"{label} must not be empty")
  refuseIf (value.utf8ByteSize > cap) (.invalid s!"{label} is {value.utf8ByteSize}B, exceeds cap {cap}B")
  refuseIf (value.toList.any isControl) (.invalid s!"{label} contains a control character")

def validateAttrs (label : String) (attrs : List (String × String)) : Except LaserError Unit := do
  refuseIf (attrs.length > maxMetadataEntries)
    (.invalid s!"{label} carries {attrs.length} attributes, exceeds cap {maxMetadataEntries}")
  attrs.forM fun attr => refuseIf (attr.1.utf8ByteSize > maxMetadataKeyBytes)
    (.invalid s!"{label} attribute name is {attr.1.utf8ByteSize}B, exceeds cap {maxMetadataKeyBytes}B")

def SourceRef.validate (source : SourceRef) : Except LaserError Unit :=
  let size := match source with
    | .message conversation => (conversation.map String.utf8ByteSize).getD 0
    | .kv kvNamespace key => kvNamespace.utf8ByteSize + key.utf8ByteSize
    | .memory id => id.utf8ByteSize
  refuseIf (size > maxSourceRefBytes) (.invalid s!"source reference is {size}B, exceeds cap {maxSourceRefBytes}B")

def GraphNode.validate (node : GraphNode) : Except LaserError Unit := do
  refuseIf (node.labels.length > maxGraphNodeLabels)
    (.invalid s!"graph node carries {node.labels.length} labels, exceeds cap {maxGraphNodeLabels}")
  node.labels.forM fun label => validateBoundedText "graph node label" label maxGraphLabelBytes
  validateAttrs "graph node" node.attrs
  node.source.forM SourceRef.validate

def GraphEdge.validate (edge : GraphEdge) : Except LaserError Unit := do
  validateBoundedText "graph edge type" edge.edgeType maxGraphLabelBytes
  validateAttrs "graph edge" edge.attrs
  edge.source.forM SourceRef.validate

/-- `GraphUpsert::validate`. -/
def validateUpsert (graph : Name) (nodes : List GraphNode) (edges : List GraphEdge) : Except LaserError Unit := do
  validateGraphName graph
  refuseIf (nodes.length + edges.length > maxGraphResultElements)
    (.invalid s!"graph upsert carries {nodes.length + edges.length} elements, exceeds cap {maxGraphResultElements}")
  nodes.forM GraphNode.validate
  edges.forM GraphEdge.validate

namespace GraphHandle

variable (handle : GraphHandle)

def requireGraph : Except LaserError Unit := do
  validateGraphName handle.name
  refuseIf (handle.laser.graphServed = false)
    (.unsupported "graph" "graph traversal is not served by this deployment")

def neighborsRequest (node : NodeId) (dir : EdgeDir) (edgeType : Option String) (depth : Nat) : GraphNeighbors :=
  ⟨handle.name, node, dir, edgeType, depth, handle.limit, handle.asOf, handle.conversation⟩

def neighbors (server : GraphServer) (graphs : Graphs) (node : NodeId) (dir : EdgeDir) (edgeType : Option String)
    (depth : Nat) : Except LaserError (List GraphEdge) := do
  handle.requireGraph
  let request := handle.neighborsRequest node dir edgeType depth
  return (server.lists (graphs request.graph) request).take request.limit

def stampNode (node : GraphNode) : GraphNode :=
  { node with producer := node.producer.or handle.producer, source := node.source.or handle.source }

def stampEdge (edge : GraphEdge) : GraphEdge :=
  { edge with producer := edge.producer.or handle.producer, source := edge.source.or handle.source }

def upsert (graphs : Graphs) (nodes : List GraphNode) (edges : List GraphEdge) : Except LaserError Unit × Graphs :=
  let nodes := nodes.map handle.stampNode
  let edges := edges.map handle.stampEdge
  match (do handle.requireGraph; validateUpsert handle.name nodes edges : Except LaserError Unit) with
  | .error error => (.error error, graphs)
  | .ok () => (.ok (), Function.update graphs handle.name ((graphs handle.name).upsert nodes edges))

def link (graphs : Graphs) (fromText relation toText : String) : Except LaserError Unit × Graphs :=
  let fromNode := entityNode fromText
  let toNode := entityNode toText
  handle.upsert graphs [fromNode, toNode] [GraphEdge.relate fromNode relation toNode]

/-- The live edges of a page that point elsewhere, closed now. -/
def superseded (toNode : NodeId) (now : Nat) (page : List GraphEdge) : List GraphEdge :=
  (page.filter fun edge => decide (edge.toNode ≠ toNode) && edge.validTo.isNone).map fun edge =>
    { edge with validTo := some now }

/-- The closing write of `relink`, left out when there is nothing to close. -/
def closeSuperseded (graphs : Graphs) (edges : List GraphEdge) : Except LaserError Unit × Graphs :=
  if edges.isEmpty then (.ok (), graphs) else (handle.laser.graph handle.name).upsert graphs [] edges

def relink (server : GraphServer) (graphs : Graphs) (now : Nat) (fromText relation toText : String) :
    Except LaserError Nat × Graphs :=
  let fromNode := entityNode fromText
  let toNode := entityNode toText
  match (handle.laser.graph handle.name).neighbors server graphs fromNode.id .out (some relation) 1 with
  | .error error => (.error error, graphs)
  | .ok page =>
    let edges := superseded toNode.id now page
    match handle.closeSuperseded graphs edges with
    | (.error error, graphs) => (.error error, graphs)
    | (.ok (), graphs) =>
      match handle.link graphs fromText relation toText with
      | (.error error, graphs) => (.error error, graphs)
      | (.ok (), graphs) => (.ok edges.length, graphs)

end GraphHandle

/-! ## What a relink leaves -/

section

variable (handle : GraphHandle) (server : GraphServer) (graphs : Graphs) (now : Nat) (fromText relation toText : String)

/-- What the server lists of the relation, in its order. -/
def GraphHandle.listed : List GraphEdge :=
  server.lists (graphs handle.name)
    ⟨handle.name, (entityNode fromText).id, .out, some relation, 1, defaultRecallLimit, none, none⟩

/-- The edge that `relink` writes last. -/
def GraphHandle.newEdge : GraphEdge := handle.stampEdge (.relate (entityNode fromText) relation (entityNode toText))

/-- The edges that the closing write holds. -/
def GraphHandle.closing : List GraphEdge :=
  GraphHandle.superseded (entityNode toText).id now ((handle.listed server graphs fromText relation).take defaultRecallLimit)

/-- The graph between the closing write and the link. -/
def GraphHandle.afterClosing : StoredGraph :=
  (graphs handle.name).upsertEdges (handle.closing server graphs now fromText relation toText)

/-- The edges of a graph that are live there and closed in the next. -/
def closedBetween (graph next : StoredGraph) : List GraphEdge :=
  graph.edges.filter fun e => e.validTo.isNone && next.edges.any fun held => decide (held.id = e.id) && held.validTo.isSome

/-- The new edge is the only live one of its relation, and `closed` counts what
was closed on the way. -/
def SingleValued (closed : Nat) (after : Graphs) : Prop :=
  (∀ e, e ∈ (after handle.name).edges ∧ e.fromNode = (entityNode fromText).id ∧ e.edgeType = relation ∧ e.validTo = none ↔
      e = handle.newEdge fromText relation toText) ∧
    closed = (closedBetween (graphs handle.name) (handle.afterClosing server graphs now fromText relation toText)).length

end

section

variable {handle : GraphHandle} {server : GraphServer} {graphs : Graphs} {now : Nat} {fromText relation toText : String}

theorem GraphHandle.graph_name (handle : GraphHandle) : (handle.laser.graph handle.name).name = handle.name := by
  obtain ⟨given, hgiven⟩ := handle.named
  show handle.laser.resourceName handle.name = handle.name
  rw [hgiven, Laser.resourceName_idem]

/-- A fresh handle stamps nothing. -/
theorem stampEdge_graph (laser : Laser) (name : Name) (edge : GraphEdge) : (laser.graph name).stampEdge edge = edge := by
  cases edge
  simp [GraphHandle.stampEdge, Laser.graph]

theorem upsert_ok {graphs after : Graphs} {nodes : List GraphNode} {edges : List GraphEdge}
    (h : handle.upsert graphs nodes edges = (.ok (), after)) :
    after = Function.update graphs handle.name
      ((graphs handle.name).upsert (nodes.map handle.stampNode) (edges.map handle.stampEdge)) := by
  unfold GraphHandle.upsert at h
  dsimp only at h
  split at h
  · cases h
  · exact (Prod.mk.inj h).2.symm

theorem upsert_edges (graph : StoredGraph) (nodes : List GraphNode) (edges : List GraphEdge) :
    (graph.upsert nodes edges).edges = (graph.upsertEdges edges).edges := rfl

theorem closeSuperseded_ok {after : Graphs} {edges : List GraphEdge}
    (h : handle.closeSuperseded graphs edges = (.ok (), after)) :
    (after handle.name).edges = ((graphs handle.name).upsertEdges edges).edges := by
  unfold GraphHandle.closeSuperseded at h
  split at h
  · rename_i hempty
    obtain rfl := List.isEmpty_iff.1 hempty
    rw [← (Prod.mk.inj h).2]
    rfl
  · have hstamp : edges.map (handle.laser.graph handle.name).stampEdge = edges := by
      rw [List.map_congr_left fun e _ => stampEdge_graph handle.laser handle.name e, List.map_id']
    rw [upsert_ok h, handle.graph_name, Function.update_self, upsert_edges, hstamp]

theorem neighbors_ok {page : List GraphEdge} {node : NodeId}
    (h : (handle.laser.graph handle.name).neighbors server graphs node .out (some relation) 1 = .ok page) :
    page = (server.lists (graphs handle.name)
      ⟨handle.name, node, .out, some relation, 1, defaultRecallLimit, none, none⟩).take defaultRecallLimit := by
  simp only [GraphHandle.neighbors, bind_ok, pure_ok, GraphHandle.neighborsRequest, handle.graph_name] at h
  obtain ⟨-, -, hpage⟩ := h
  exact hpage.symm

/-- The graph behind a relink: the closing write and the new edge over it. -/
theorem relink_ok {closed : Nat} {after : Graphs}
    (h : handle.relink server graphs now fromText relation toText = (.ok closed, after)) :
    closed = (handle.closing server graphs now fromText relation toText).length ∧
      ∀ e, e ∈ (after handle.name).edges ↔ e = handle.newEdge fromText relation toText ∨
        (e ∈ (handle.afterClosing server graphs now fromText relation toText).edges ∧
          e.id ≠ (handle.newEdge fromText relation toText).id) := by
  unfold GraphHandle.relink at h
  dsimp only at h
  split at h
  · cases h
  · rename_i page hpage
    obtain rfl := neighbors_ok hpage
    split at h
    · cases h
    · rename_i mid hclose
      split at h
      · cases h
      · rename_i linked hlink
        obtain ⟨hcount, rfl⟩ := Prod.mk.inj h
        refine ⟨(Except.ok.inj hcount).symm, fun e => ?_⟩
        have hone (new : GraphEdge) : ([new].map (·.id)).Nodup := List.nodup_singleton _
        rw [upsert_ok hlink, Function.update_self, upsert_edges, List.map_singleton, mem_upsertEdges (hone _),
          closeSuperseded_ok hclose, List.mem_singleton, List.map_singleton, List.mem_singleton]
        rfl

theorem listed_held {e : GraphEdge} (h : e ∈ handle.listed server graphs fromText relation) :
    e ∈ (graphs handle.name).edges ∧ e.fromNode = (entityNode fromText).id ∧ e.edgeType = relation := by
  obtain ⟨hheld, hfrom, htype⟩ := server.held _ _ ⟨rfl, rfl, rfl, rfl⟩ e h
  exact ⟨hheld, hfrom, htype relation rfl⟩

/-- The edges of one page have distinct ids. -/
theorem nodup_closing : ((handle.closing server graphs now fromText relation toText).map (·.id)).Nodup := by
  have hids : (handle.closing server graphs now fromText relation toText).map (·.id) =
      (((handle.listed server graphs fromText relation).take defaultRecallLimit).filter fun edge =>
        decide (edge.toNode ≠ (entityNode toText).id) && edge.validTo.isNone).map (·.id) := by
    rw [GraphHandle.closing, GraphHandle.superseded, List.map_map]
    rfl
  rw [hids]
  refine List.Nodup.map_on (fun a ha b hb hab => ?_) (((server.nodup _ _).sublist (List.take_sublist _ _)).filter _)
  have hleft := (listed_held (List.mem_of_mem_take (List.mem_of_mem_filter ha))).1
  have hright := (listed_held (List.mem_of_mem_take (List.mem_of_mem_filter hb))).1
  exact List.inj_on_of_nodup_map (graphs handle.name).nodup hleft hright hab

theorem mem_closing {x : GraphEdge} : x ∈ handle.closing server graphs now fromText relation toText ↔
    ∃ e ∈ (handle.listed server graphs fromText relation).take defaultRecallLimit,
      e.toNode ≠ (entityNode toText).id ∧ e.validTo = none ∧ x = { e with validTo := some now } := by
  simp only [GraphHandle.closing, GraphHandle.superseded, List.mem_map, List.mem_filter, Bool.and_eq_true,
    decide_eq_true_eq, Option.isNone_iff_eq_none]
  constructor
  · rintro ⟨e, ⟨hpage, hto, hlive⟩, rfl⟩
    exact ⟨e, hpage, hto, hlive, rfl⟩
  · rintro ⟨e, hpage, hto, hlive, rfl⟩
    exact ⟨e, ⟨hpage, hto, hlive⟩, rfl⟩

/-- The live edges between the two writes are those that the page did not
close. -/
theorem live_afterClosing {e : GraphEdge} (hlive : e.validTo = none) :
    e ∈ (handle.afterClosing server graphs now fromText relation toText).edges ↔
      e ∈ (graphs handle.name).edges ∧
        ¬ (e ∈ (handle.listed server graphs fromText relation).take defaultRecallLimit ∧ e.toNode ≠ (entityNode toText).id) := by
  rw [GraphHandle.afterClosing, mem_upsertEdges nodup_closing]
  constructor
  · rintro (hclosed | ⟨hheld, hout⟩)
    · obtain ⟨_, _, _, _, rfl⟩ := mem_closing.1 hclosed
      cases hlive
    · refine ⟨hheld, fun ⟨hpage, hto⟩ => hout ?_⟩
      exact List.mem_map_of_mem (f := (·.id)) (mem_closing.2 ⟨e, hpage, hto, hlive, rfl⟩)
  · rintro ⟨hheld, hout⟩
    refine .inr ⟨hheld, fun hmem => hout ?_⟩
    obtain ⟨x, hx, hid⟩ := List.mem_map.1 hmem
    obtain ⟨f, hpage, hto, -, rfl⟩ := mem_closing.1 hx
    have hheld' := (listed_held (List.mem_of_mem_take hpage)).1
    obtain rfl : f = e := List.inj_on_of_nodup_map (graphs handle.name).nodup hheld' hheld hid
    exact ⟨hpage, hto⟩

/-- The count is the number of edges that the closing write turned. -/
theorem length_closedBetween :
    (handle.closing server graphs now fromText relation toText).length =
      (closedBetween (graphs handle.name) (handle.afterClosing server graphs now fromText relation toText)).length := by
  have hids : ((handle.closing server graphs now fromText relation toText).map (·.id)).Perm
      ((closedBetween (graphs handle.name) (handle.afterClosing server graphs now fromText relation toText)).map (·.id)) := by
    refine (List.perm_ext_iff_of_nodup nodup_closing ((graphs handle.name).nodup.sublist (List.filter_sublist.map _))).2 fun id => ?_
    simp only [List.mem_map, List.mem_filter, Bool.and_eq_true, Option.isNone_iff_eq_none, List.any_eq_true,
      decide_eq_true_eq]
    constructor
    · rintro ⟨x, hx, rfl⟩
      obtain ⟨e, hpage, hto, hlive, rfl⟩ := mem_closing.1 hx
      refine ⟨e, ⟨(listed_held (List.mem_of_mem_take hpage)).1, hlive, { e with validTo := some now }, ?_, rfl, rfl⟩, rfl⟩
      exact (mem_upsertEdges nodup_closing).2 (.inl hx)
    · rintro ⟨e, ⟨hheld, hlive, held, hmid, hid, hclosed⟩, rfl⟩
      rcases (mem_upsertEdges nodup_closing).1 hmid with hx | ⟨hbefore, -⟩
      · exact ⟨held, hx, hid⟩
      · obtain rfl : held = e := List.inj_on_of_nodup_map (graphs handle.name).nodup hbefore hheld hid
        rw [hlive] at hclosed
        cases hclosed
  simpa using hids.length_eq

/-- A relink that succeeds leaves the new edge as the only live one exactly
when the page reached every live edge that points elsewhere. An edge stored
under the id of the new one is overwritten instead, and one to the new target
under another id is neither closed nor overwritten. -/
theorem relink_singleValued_iff {closed : Nat} {after : Graphs}
    (h : handle.relink server graphs now fromText relation toText = (.ok closed, after)) :
    SingleValued handle server graphs now fromText relation toText closed after ↔
      ∀ e ∈ (graphs handle.name).edges, e.fromNode = (entityNode fromText).id → e.edgeType = relation → e.validTo = none →
        e ∈ (handle.listed server graphs fromText relation).take defaultRecallLimit ∧ e.toNode ≠ (entityNode toText).id ∨
          e.id = EdgeId.content (entityNode fromText).id relation (entityNode toText).id := by
  obtain ⟨hcount, hafter⟩ := relink_ok h
  have hnew := (hafter _).2 (.inl rfl)
  constructor
  · rintro ⟨honly, -⟩ e hheld hfrom htype hlive
    by_contra hmissed
    obtain ⟨hpage, hid⟩ := not_or.1 hmissed
    have hmid : e ∈ (handle.afterClosing server graphs now fromText relation toText).edges :=
      (live_afterClosing hlive).2 ⟨hheld, hpage⟩
    have heq := (honly e).1 ⟨(hafter e).2 (.inr ⟨hmid, hid⟩), hfrom, htype, hlive⟩
    exact hid (congrArg GraphEdge.id heq)
  · intro hreached
    refine ⟨fun e => ⟨?_, ?_⟩, hcount.trans length_closedBetween⟩
    · rintro ⟨hmem, hfrom, htype, hlive⟩
      rcases (hafter e).1 hmem with rfl | ⟨hmid, hid⟩
      · rfl
      · obtain ⟨hheld, hout⟩ := (live_afterClosing hlive).1 hmid
        rcases hreached e hheld hfrom htype hlive with hpage | hsame
        · exact absurd hpage hout
        · exact absurd hsame hid
    · rintro rfl
      exact ⟨hnew, rfl, rfl, rfl⟩

/-- A client whose checks pass makes both writes. -/
theorem relink_succeeds (hrequire : handle.requireGraph = .ok ())
    (hclosing : validateUpsert handle.name [] (handle.closing server graphs now fromText relation toText) = .ok ())
    (hlinking : validateUpsert handle.name ([entityNode fromText, entityNode toText].map handle.stampNode)
      [handle.newEdge fromText relation toText] = .ok ()) :
    ∃ closed after, handle.relink server graphs now fromText relation toText = (.ok closed, after) := by
  have hfresh : (handle.laser.graph handle.name).requireGraph = .ok () := by
    rw [← hrequire]
    simp only [GraphHandle.requireGraph, handle.graph_name]
    rfl
  have hpage : (handle.laser.graph handle.name).neighbors server graphs (entityNode fromText).id .out (some relation) 1 =
      .ok ((handle.listed server graphs fromText relation).take defaultRecallLimit) := by
    simp only [GraphHandle.neighbors, hfresh, ok_bind, GraphHandle.neighborsRequest, handle.graph_name]
    rfl
  have hclose : ∃ mid, handle.closeSuperseded graphs (handle.closing server graphs now fromText relation toText) = (.ok (), mid) := by
    unfold GraphHandle.closeSuperseded
    split
    · exact ⟨_, rfl⟩
    · have hstamp (edges : List GraphEdge) : edges.map (handle.laser.graph handle.name).stampEdge = edges := by
        rw [List.map_congr_left fun e _ => stampEdge_graph handle.laser handle.name e, List.map_id']
      simp only [GraphHandle.upsert, hfresh, ok_bind, handle.graph_name, hstamp, List.map_nil, hclosing]
      exact ⟨_, rfl⟩
  obtain ⟨mid, hclose⟩ := hclose
  have hlink : ∃ after, handle.link mid fromText relation toText = (.ok (), after) := by
    simp only [GraphHandle.link, GraphHandle.upsert, hrequire, ok_bind, List.map_singleton]
    rw [GraphHandle.newEdge] at hlinking
    rw [hlinking]
    exact ⟨_, rfl⟩
  obtain ⟨after, hlink⟩ := hlink
  refine ⟨(handle.closing server graphs now fromText relation toText).length, after, ?_⟩
  rw [GraphHandle.relink]
  simp only [hpage]
  rw [GraphHandle.closing] at hclose
  simp only [hclose, hlink]
  rfl

end

/-! ## A crowd of live edges -/

/-- Multiplication by the prime of the hash can be undone. -/
theorem fnvPrime_cancel {a b : UInt64} (h : a * fnvPrime = b * fnvPrime) : a = b := by
  have hinverse : fnvPrime * 0xce965057aff6957b = 1 := by decide
  have hmul := congrArg (· * (0xce965057aff6957b : UInt64)) h
  simpa only [UInt64.mul_assoc, hinverse, UInt64.mul_one] using hmul

/-- The last byte of what is hashed shows in the hash. -/
theorem fnv1a_last {salt : UInt8} {front : List UInt8} {a b : UInt8}
    (h : fnv1a salt [front ++ [a]] = fnv1a salt [front ++ [b]]) : a = b := by
  simp only [fnv1a, List.foldl_cons, List.foldl_nil, List.foldl_append] at h
  have hxor := (UInt64.xor_right_inj _).1 (fnvPrime_cancel h)
  simpa using congrArg UInt64.toUInt8 hxor

theorem setWidth_low (high low : BitVec 64) : ((high.setWidth 128 <<< 64) ||| low.setWidth 128).setWidth 64 = low := by
  ext i hi
  simp

theorem contentId_last {front : List UInt8} {a b : UInt8}
    (h : contentId [front ++ [a]] = contentId [front ++ [b]]) : a = b := by
  have hlow := congrArg (BitVec.setWidth 64) h
  rw [contentId, contentId, setWidth_low, setWidth_low] at hlow
  exact fnv1a_last (UInt64.toBitVec_inj.1 hlow)

theorem beBytes_small (width : Nat) {n : Nat} (h : n < 256) :
    beBytes (width + 1) n = List.replicate width 0 ++ [UInt8.ofNat n] := by
  induction width with
  | zero => simp [beBytes]
  | succ width ih =>
    have hzero : n / 256 ^ (width + 1) = 0 := by
      apply Nat.div_eq_of_lt
      calc n < 256 ^ 1 := h
        _ ≤ 256 ^ (width + 1) := Nat.pow_le_pow_right (by omega) (by omega)
    rw [beBytes, hzero, ih]
    rfl

theorem forM_ok {α ε : Type} {check : α → Except ε Unit} {items : List α} (h : ∀ item ∈ items, check item = .ok ()) :
    items.forM check = .ok () := by
  induction items with
  | nil => rfl
  | cons item items ih =>
    show (check item >>= fun _ => items.forM check) = .ok ()
    rw [h item List.mem_cons_self, ok_bind]
    exact ih fun other hother => h other (List.mem_cons_of_mem _ hother)

def user : GraphNode := entityNode "user:1"

/-- A live edge of the user to a node of its own number. -/
def ownsNode (i : Nat) : GraphEdge :=
  ⟨EdgeId.content user.id "owns" (BitVec.ofNat 128 i), user.id, BitVec.ofNat 128 i, "owns", [], none, none, none, none⟩

theorem ownsNode_id_inj {i j : Nat} (hi : i < 256) (hj : j < 256) (h : (ownsNode i).id = (ownsNode j).id) : i = j := by
  have hbytes (n : Nat) (hn : n < 256) : idBytes (BitVec.ofNat 128 n) = List.replicate 15 0 ++ [UInt8.ofNat n] := by
    rw [idBytes, BitVec.toNat_ofNat, Nat.mod_eq_of_lt (by omega), beBytes_small 15 hn]
  have hid (n : Nat) (hn : n < 256) : (ownsNode n).id =
      contentId [(idBytes user.id ++ [0] ++ asBytes "owns" ++ [0] ++ List.replicate 15 0) ++ [UInt8.ofNat n]] := by
    show contentId _ = _
    rw [contentId_flatten, hbytes n hn]
    simp
  rw [hid i hi, hid j hj] at h
  have hlast := congrArg UInt8.toNat (contentId_last h)
  simpa [Nat.mod_eq_of_lt hi, Nat.mod_eq_of_lt hj] using hlast

theorem nodup_ownsNode {count : Nat} (h : count ≤ 256) : (((List.range count).map ownsNode).map (·.id)).Nodup := by
  rw [List.map_map]
  refine List.Nodup.map_on (fun i hi j hj heq => ?_) List.nodup_range
  rw [List.mem_range] at hi hj
  exact ownsNode_id_inj (by omega) (by omega) heq

/-- A graph in which the user owns the first nodes. -/
def crowd (count : Nat) (h : count ≤ 256) : StoredGraph := ⟨[], (List.range count).map ownsNode, nodup_ownsNode h⟩

/-- A server that lists in the order of its edges. -/
def inOrder : GraphServer where
  lists graph request := graph.edges.filter fun e =>
    decide (e.fromNode = request.node) && request.edgeType.all fun edgeType => decide (e.edgeType = edgeType)
  nodup graph _ := (List.Nodup.of_map _ graph.nodup).filter _
  held graph request _ e he := by
    simpa [GraphNeighbors.Matches, Option.all_eq_true] using he
  live graph request _ e he hmatches _ := by
    simpa [GraphNeighbors.Matches, Option.all_eq_true] using And.intro he hmatches

def plainLaser : Laser := ⟨.bare, none, true⟩

def knowledge : GraphHandle := plainLaser.graph "kg".toList

theorem listed_crowd {count : Nat} (h : count ≤ 256) :
    knowledge.listed inOrder (fun _ => crowd count h) "user:1" "owns" = (List.range count).map ownsNode := by
  show List.filter _ ((List.range count).map ownsNode) = _
  refine List.filter_eq_self.2 fun e he => ?_
  obtain ⟨i, -, rfl⟩ := List.mem_map.1 he
  simp [ownsNode, user]

theorem relink_crowd {count : Nat} (h : count ≤ 256) : ∃ closed after,
    knowledge.relink inOrder (fun _ => crowd count h) 7 "user:1" "owns" "team:2" = (.ok closed, after) := by
  apply relink_succeeds
  · decide +kernel
  · have hedges : ∀ x ∈ knowledge.closing inOrder (fun _ => crowd count h) 7 "user:1" "owns" "team:2",
        x.validate = .ok () := by
      intro x hx
      obtain ⟨e, hpage, -, -, rfl⟩ := mem_closing.1 hx
      rw [listed_crowd] at hpage
      obtain ⟨i, -, rfl⟩ := List.mem_map.1 (List.mem_of_mem_take hpage)
      have htype : validateBoundedText "graph edge type" "owns" maxGraphLabelBytes = .ok () := by decide +kernel
      simp only [GraphEdge.validate, ownsNode, htype, ok_bind]
      rfl
    have hfew : (knowledge.closing inOrder (fun _ => crowd count h) 7 "user:1" "owns" "team:2").length ≤ 100 := by
      rw [GraphHandle.closing, GraphHandle.superseded, List.length_map]
      exact (List.length_filter_le _ _).trans (List.length_take_le _ _)
    have hname : validateGraphName knowledge.name = .ok () := by decide +kernel
    simp only [validateUpsert, hname, ok_bind, bind_ok, refuseIf_ok]
    refine ⟨(), ?_, (), rfl, forM_ok hedges⟩
    simp only [List.length_nil, maxGraphResultElements]
    omega
  · decide +kernel

/-- Two live edges are on the page, and both are closed. -/
theorem relink_two_edges : ∃ closed after,
    knowledge.relink inOrder (fun _ => crowd 2 (by decide)) 7 "user:1" "owns" "team:2" = (.ok closed, after) ∧
      SingleValued knowledge inOrder (fun _ => crowd 2 (by decide)) 7 "user:1" "owns" "team:2" closed after := by
  obtain ⟨closed, after, h⟩ := @relink_crowd 2 (by decide)
  have helsewhere : ∀ i < 2, (ownsNode i).toNode ≠ (entityNode "team:2").id := by decide +kernel
  refine ⟨closed, after, h, (relink_singleValued_iff h).2 fun e he _ _ _ => .inl ⟨?_, ?_⟩⟩
  · rw [listed_crowd]
    exact he
  · obtain ⟨i, hi, rfl⟩ := List.mem_map.1 he
    exact helsewhere i (List.mem_range.1 hi)

/-- Of a hundred and two live edges the last two are not on the page, and at
most one of them is overwritten by the new edge. -/
theorem relink_leaves_live : ∃ closed after,
    knowledge.relink inOrder (fun _ => crowd 102 (by decide)) 7 "user:1" "owns" "team:2" = (.ok closed, after) ∧
      ∃ e ∈ (after knowledge.name).edges, e.fromNode = (entityNode "user:1").id ∧ e.edgeType = "owns" ∧ e.validTo = none ∧
        e.toNode ≠ (entityNode "team:2").id := by
  obtain ⟨closed, after, h⟩ := @relink_crowd 102 (by decide)
  refine ⟨closed, after, h, ?_⟩
  obtain ⟨-, hafter⟩ := relink_ok h
  have hlast : ∃ i, 100 ≤ i ∧ i < 102 ∧ (ownsNode i).id ≠ (knowledge.newEdge "user:1" "owns" "team:2").id := by
    by_cases hid : (ownsNode 100).id = (knowledge.newEdge "user:1" "owns" "team:2").id
    · refine ⟨101, by decide, by decide, fun hother => ?_⟩
      have heq := ownsNode_id_inj (by decide) (by decide) (hid.trans hother.symm)
      omega
    · exact ⟨100, by decide, by decide, hid⟩
  obtain ⟨i, hlow, hhigh, hid⟩ := hlast
  have hheld : ownsNode i ∈ (crowd 102 (by decide)).edges := List.mem_map_of_mem (List.mem_range.2 hhigh)
  have hpage : ownsNode i ∉ (knowledge.listed inOrder (fun _ => crowd 102 (by decide)) "user:1" "owns").take defaultRecallLimit := by
    rw [listed_crowd, ← List.map_take, List.take_range]
    intro hmem
    obtain ⟨j, hj, heq⟩ := List.mem_map.1 hmem
    have hj' : j < 100 := by simpa [defaultRecallLimit] using hj
    have := ownsNode_id_inj (by omega) (by omega) (congrArg GraphEdge.id heq)
    omega
  have hmid := (@live_afterClosing knowledge inOrder (fun _ => crowd 102 (by decide)) 7 "user:1" "owns" "team:2" _ rfl).2
    ⟨hheld, fun hclosed => hpage hclosed.1⟩
  refine ⟨ownsNode i, (hafter _).2 (.inr ⟨hmid, hid⟩), rfl, rfl, rfl, fun hto => hid ?_⟩
  show EdgeId.content user.id "owns" (BitVec.ofNat 128 i) = EdgeId.content user.id "owns" (entityNode "team:2").id
  rw [← hto]
  rfl

end LaserSdk.Graph

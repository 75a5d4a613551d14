import Mathlib.Data.List.Count
import Mathlib.Data.List.Nodup
import Mathlib.Data.List.Perm.Subperm
import Mathlib.Data.Set.Finite.List
import Mathlib.Data.Fintype.Card
import Mathlib.Logic.Relation
import Mathlib.Logic.Function.Basic
/-!
# Kahn's algorithm

Vertices leave a queue in turn. Each takes its edges with it, and a vertex
whose last incoming edge is gone joins the queue. An edge may be repeated.
-/

namespace LaserSdk.Lib

variable {α : Type} [DecidableEq α]

/-- Take one incoming edge from each vertex of a list. A vertex without any
left joins the queue. -/
def dropEdges (pending : α → Nat) (queue : List α) : List α → (α → Nat) × List α
  | [] => (pending, queue)
  | vertex :: rest =>
    let left := pending vertex - 1
    dropEdges (Function.update pending vertex left) (if left = 0 then queue ++ [vertex] else queue) rest

def successors (edges : List (α × α)) (vertex : α) : List α := (edges.filter (·.1 = vertex)).map (·.2)

def kahn (edges : List (α × α)) : Nat → (α → Nat) → List α → List α → List α
  | 0, _, _, order => order
  | _ + 1, _, [], order => order
  | fuel + 1, pending, vertex :: queue, order =>
    let (pending, queue) := dropEdges pending queue (successors edges vertex)
    kahn edges fuel pending queue (order ++ [vertex])

/-- What dropping edges changes, when no vertex loses more than it has. -/
theorem dropEdges_spec (targets : List α) (pending : α → Nat) (queue : List α)
    (h : ∀ v, targets.count v ≤ pending v) :
    (∀ v, (dropEdges pending queue targets).1 v = pending v - targets.count v) ∧
      ∃ joined, (dropEdges pending queue targets).2 = queue ++ joined ∧ joined.Nodup ∧
        ∀ v, v ∈ joined ↔ v ∈ targets ∧ pending v = targets.count v := by
  induction targets generalizing pending queue with
  | nil => exact ⟨fun v => by simp [dropEdges], [], by simp [dropEdges]⟩
  | cons vertex rest ih =>
    have hvertex := h vertex
    rw [List.count_cons_self] at hvertex
    have hpos : 0 < pending vertex := by omega
    have hrest : ∀ v, rest.count v ≤ Function.update pending vertex (pending vertex - 1) v := by
      intro v
      by_cases hv : v = vertex
      · subst hv
        rw [Function.update_self]
        omega
      · have := h v
        rwa [List.count_cons_of_ne (Ne.symm hv), ← Function.update_of_ne hv (pending vertex - 1) pending] at this
    obtain ⟨hpending, joined, hqueue, hnodup, hjoined⟩ :=
      ih (Function.update pending vertex (pending vertex - 1))
        (if pending vertex - 1 = 0 then queue ++ [vertex] else queue) hrest
    constructor
    · intro v
      rw [dropEdges, hpending]
      by_cases hv : v = vertex
      · subst hv
        rw [Function.update_self, List.count_cons_self]
        omega
      · rw [Function.update_of_ne hv, List.count_cons_of_ne (Ne.symm hv)]
    · rw [dropEdges, hqueue]
      by_cases hlast : pending vertex - 1 = 0
      · -- The last edge of the vertex: it joins now and does not occur again.
        have hgone : vertex ∉ rest := fun hmem => by
          have := List.count_pos_iff.2 hmem
          omega
        have hnot : vertex ∉ joined := fun hmem => hgone ((hjoined vertex).1 hmem).1
        refine ⟨vertex :: joined, by simp [hlast], List.nodup_cons.2 ⟨hnot, hnodup⟩, fun v => ?_⟩
        by_cases hv : v = vertex
        · subst hv
          have hcount : rest.count v = 0 := List.count_eq_zero.2 hgone
          simp only [List.mem_cons, true_or, List.count_cons_self, true_and, true_iff]
          omega
        · rw [List.mem_cons, hjoined, Function.update_of_ne hv, List.mem_cons, List.count_cons_of_ne (Ne.symm hv)]
          simp [hv]
      · refine ⟨joined, by simp [hlast], hnodup, fun v => ?_⟩
        rw [hjoined, List.mem_cons]
        by_cases hv : v = vertex
        · subst hv
          rw [Function.update_self, List.count_cons_self]
          constructor
          · rintro ⟨-, heq⟩
            exact ⟨.inl rfl, by omega⟩
          · rintro ⟨-, heq⟩
            exact ⟨List.count_pos_iff.1 (by omega), by omega⟩
        · rw [Function.update_of_ne hv, List.count_cons_of_ne (Ne.symm hv)]
          simp [hv]

/-- The edges into a vertex from vertices not yet ordered. -/
def incoming (edges : List (α × α)) (order : List α) (v : α) : Nat :=
  edges.countP fun edge => edge.1 ∉ order ∧ edge.2 = v

theorem count_successors (edges : List (α × α)) (vertex v : α) :
    (successors edges vertex).count v = edges.countP fun edge => edge.1 = vertex ∧ edge.2 = v := by
  induction edges with
  | nil => rfl
  | cons edge rest ih =>
    unfold successors at ih ⊢
    by_cases hsource : edge.1 = vertex
    · by_cases htarget : edge.2 = v <;> simp [hsource, htarget, ih]
    · simp [hsource, ih]

theorem incoming_append {edges : List (α × α)} {order : List α} {vertex : α} (h : vertex ∉ order) (v : α) :
    incoming edges order v = incoming edges (order ++ [vertex]) v + (successors edges vertex).count v := by
  rw [count_successors]
  unfold incoming
  induction edges with
  | nil => rfl
  | cons edge rest ih =>
    simp only [List.countP_cons, ih, List.mem_append, List.mem_singleton, not_or]
    by_cases htarget : edge.2 = v
    · by_cases hsource : edge.1 = vertex
      · simp [hsource, h, htarget]
        omega
      · by_cases hordered : edge.1 ∈ order <;> simp [hsource, htarget, hordered]
        omega
    · simp [htarget]

/-- The loop invariant: nothing is queued twice, and what is queued or ordered
has no incoming edge left. -/
structure Sorting (edges : List (α × α)) (pending : α → Nat) (queue order : List α) : Prop where
  nodup : (order ++ queue).Nodup
  pending_eq : ∀ v, pending v = incoming edges order v
  pending_zero : ∀ v ∈ order ++ queue, pending v = 0

theorem Sorting.step {edges : List (α × α)} {pending : α → Nat} {vertex : α} {queue order : List α}
    (h : Sorting edges pending (vertex :: queue) order) :
    Sorting edges (dropEdges pending queue (successors edges vertex)).1
      (dropEdges pending queue (successors edges vertex)).2 (order ++ [vertex]) := by
  have hnew : vertex ∉ order := fun hmem =>
    (List.nodup_append.1 h.nodup).2.2 vertex hmem vertex (List.mem_cons_self ..) rfl
  have hincoming := @incoming_append _ _ edges _ _ hnew
  obtain ⟨hpending, joined, hqueue, hjoined_nodup, hjoined⟩ :=
    dropEdges_spec (successors edges vertex) pending queue fun v => by rw [h.pending_eq, hincoming]; omega
  have hflat : order ++ [vertex] ++ (queue ++ joined) = (order ++ vertex :: queue) ++ joined := by simp
  refine ⟨?_, fun v => ?_, fun v hv => ?_⟩
  · rw [hqueue, hflat]
    refine List.nodup_append.2 ⟨h.nodup, hjoined_nodup, ?_⟩
    rintro v hv w hw rfl
    -- A vertex that joins had edges left, one that is queued or ordered had none.
    have hmem := (hjoined v).1 hw
    have hcount := List.count_pos_iff.2 hmem.1
    have := h.pending_zero v hv
    omega
  · rw [hpending, h.pending_eq, hincoming]
    omega
  · rw [hqueue, hflat] at hv
    rw [hpending]
    rcases List.mem_append.1 hv with hv | hv
    · rw [h.pending_zero v hv]
      omega
    · rw [((hjoined v).1 hv).2]
      omega

theorem kahn_nodup {edges : List (α × α)} (fuel : Nat) {pending : α → Nat} {queue order : List α}
    (h : Sorting edges pending queue order) : (kahn edges fuel pending queue order).Nodup := by
  induction fuel generalizing pending queue order with
  | zero => exact (List.nodup_append.1 h.nodup).1
  | succ fuel ih =>
    cases queue with
    | nil => exact (List.nodup_append.1 h.nodup).1
    | cons vertex queue => exact ih h.step

theorem mem_dropEdges {targets : List α} {pending : α → Nat} {queue : List α} {v : α}
    (h : v ∈ (dropEdges pending queue targets).2) : v ∈ queue ∨ v ∈ targets := by
  induction targets generalizing pending queue with
  | nil => exact .inl h
  | cons vertex rest ih =>
    rw [dropEdges] at h
    rcases ih h with hv | hv
    · split at hv
      · rcases List.mem_append.1 hv with hv | hv
        · exact .inl hv
        · exact .inr (List.mem_cons.2 (.inl (List.mem_singleton.1 hv)))
      · exact .inl hv
    · exact .inr (List.mem_cons_of_mem _ hv)

/-- Only queued vertices and targets of edges are ordered. -/
theorem kahn_mem {edges : List (α × α)} (fuel : Nat) {pending : α → Nat} {queue order : List α} {p : α → Prop}
    (hp : ∀ v ∈ order ++ queue, p v) (hedges : ∀ edge ∈ edges, p edge.2) {v : α}
    (hv : v ∈ kahn edges fuel pending queue order) : p v := by
  induction fuel generalizing pending queue order with
  | zero => exact hp v (List.mem_append_left _ hv)
  | succ fuel ih =>
    cases queue with
    | nil => exact hp v (List.mem_append_left _ hv)
    | cons vertex queue =>
      refine ih (fun w hw => ?_) hv
      rcases List.mem_append.1 hw with hw | hw
      · refine hp w (List.mem_append.2 ?_)
        rcases List.mem_append.1 hw with hw | hw
        · exact .inl hw
        · exact .inr (List.mem_cons.2 (.inl (List.mem_singleton.1 hw)))
      · rcases mem_dropEdges hw with hw | hw
        · exact hp w (List.mem_append_right _ (List.mem_cons_of_mem _ hw))
        · obtain ⟨edge, hedge, rfl⟩ := List.mem_map.1 hw
          exact hedges edge (List.mem_of_mem_filter hedge)

/-! ## Before and after -/

/-- Every vertex comes after the sources of its edges. -/
def Follows (edges : List (α × α)) (order : List α) : Prop :=
  ∀ before v after, order = before ++ v :: after → ∀ u, (u, v) ∈ edges → u ∈ before

omit [DecidableEq α] in
theorem Follows.snoc {edges : List (α × α)} {order : List α} {v : α} (h : Follows edges order)
    (hv : ∀ u, (u, v) ∈ edges → u ∈ order) : Follows edges (order ++ [v]) := by
  intro before w after hsplit u hedge
  rcases List.eq_nil_or_concat after with rfl | ⟨after, last, rfl⟩
  · obtain ⟨rfl, hlast⟩ := List.append_inj' hsplit rfl
    cases hlast
    exact hv u hedge
  · rw [List.concat_eq_append, ← List.cons_append, ← List.append_assoc] at hsplit
    obtain ⟨horder, -⟩ := List.append_inj' hsplit rfl
    exact h before w after horder u hedge

theorem incoming_eq_zero {edges : List (α × α)} {order : List α} {v : α} :
    incoming edges order v = 0 ↔ ∀ u, (u, v) ∈ edges → u ∈ order := by
  simp only [incoming, List.countP_eq_zero, decide_eq_true_eq, not_and]
  constructor
  · intro h u hedge
    by_contra hnot
    exact h (u, v) hedge hnot rfl
  · rintro h ⟨u, w⟩ hedge hnot rfl
    exact hnot (h u hedge)

theorem kahn_follows {edges : List (α × α)} (fuel : Nat) {pending : α → Nat} {queue order : List α}
    (h : Sorting edges pending queue order) (hfollows : Follows edges order) :
    Follows edges (kahn edges fuel pending queue order) := by
  induction fuel generalizing pending queue order with
  | zero => exact hfollows
  | succ fuel ih =>
    cases queue with
    | nil => exact hfollows
    | cons vertex queue =>
      have hzero := h.pending_zero vertex (by simp)
      rw [h.pending_eq] at hzero
      exact ih h.step (hfollows.snoc (incoming_eq_zero.1 hzero))

theorem dropEdges_grows (targets : List α) (pending : α → Nat) (queue : List α) :
    queue <+: (dropEdges pending queue targets).2 := by
  induction targets generalizing pending queue with
  | nil => exact List.prefix_refl _
  | cons vertex rest ih =>
    rw [dropEdges]
    refine List.IsPrefix.trans ?_ (ih _ _)
    split
    · exact List.prefix_append _ _
    · exact List.prefix_refl _

/-- The order starts with what is ordered and queued already. -/
theorem kahn_starts (edges : List (α × α)) (fuel : Nat) (pending : α → Nat) (queue order : List α) :
    order ++ queue.take fuel <+: kahn edges fuel pending queue order := by
  induction fuel generalizing pending queue order with
  | zero => simp [kahn]
  | succ fuel ih =>
    cases queue with
    | nil => simp [kahn]
    | cons vertex queue =>
      have hgrows := dropEdges_grows (successors edges vertex) pending queue
      rw [kahn, List.take_succ_cons, List.append_cons]
      exact ((List.prefix_append_right_inj _).2 (hgrows.take fuel)).trans (ih _ _ _)

/-! ## Every vertex, or a cycle -/

/-- The vertices of the graph: all edges lie between them, and one without
edges left is ordered or queued. -/
structure Within (vertices : List α) (edges : List (α × α)) (pending : α → Nat) (queue order : List α) : Prop where
  nodup : vertices.Nodup
  edges : ∀ edge ∈ edges, edge.1 ∈ vertices ∧ edge.2 ∈ vertices
  found : ∀ v ∈ order ++ queue, v ∈ vertices
  ready : ∀ v ∈ vertices, pending v = 0 → v ∈ order ++ queue

theorem Within.step {vertices : List α} {edges : List (α × α)} {pending : α → Nat} {vertex : α} {queue order : List α}
    (hsorting : Sorting edges pending (vertex :: queue) order) (h : Within vertices edges pending (vertex :: queue) order) :
    Within vertices edges (dropEdges pending queue (successors edges vertex)).1
      (dropEdges pending queue (successors edges vertex)).2 (order ++ [vertex]) := by
  have hnew : vertex ∉ order := fun hmem =>
    (List.nodup_append.1 hsorting.nodup).2.2 vertex hmem vertex List.mem_cons_self rfl
  obtain ⟨hpending, joined, hqueue, -, hjoined⟩ :=
    dropEdges_spec (successors edges vertex) pending queue fun v => by
      rw [hsorting.pending_eq, incoming_append hnew]
      omega
  have hflat : order ++ [vertex] ++ (queue ++ joined) = (order ++ vertex :: queue) ++ joined := by simp
  refine ⟨h.nodup, h.edges, fun v hv => ?_, fun v hv hzero => ?_⟩
  · rw [hqueue, hflat] at hv
    rcases List.mem_append.1 hv with hv | hv
    · exact h.found v hv
    · obtain ⟨edge, hedge, rfl⟩ := List.mem_map.1 ((hjoined v).1 hv).1
      exact (h.edges edge (List.mem_of_mem_filter hedge)).2
  · rw [hqueue, hflat]
    rw [hpending] at hzero
    by_cases hleft : pending v = 0
    · exact List.mem_append_left _ (h.ready v hv hleft)
    · -- Its last edges come from this vertex.
      have hcount : (successors edges vertex).count v ≤ pending v := by
        rw [hsorting.pending_eq, incoming_append hnew]
        omega
      exact List.mem_append_right _ ((hjoined v).2 ⟨List.count_pos_iff.1 (by omega), by omega⟩)

/-- A vertex that is left out has an edge from another one. -/
theorem kahn_leaves {vertices : List α} {edges : List (α × α)} (fuel : Nat) {pending : α → Nat} {queue order : List α}
    (hsorting : Sorting edges pending queue order) (h : Within vertices edges pending queue order)
    (hfuel : vertices.length ≤ order.length + fuel) :
    ∀ v ∈ vertices, v ∉ kahn edges fuel pending queue order →
      ∃ u ∈ vertices, u ∉ kahn edges fuel pending queue order ∧ (u, v) ∈ edges := by
  induction fuel generalizing pending queue order with
  | zero =>
    -- All vertices are ordered.
    have hsubperm : order.Subperm vertices :=
      (List.nodup_append.1 hsorting.nodup).1.subperm fun v hv => h.found v (List.mem_append_left _ hv)
    have hperm := hsubperm.perm_of_length_le hfuel
    intro v hv hnot
    exact absurd (hperm.mem_iff.2 hv) hnot
  | succ fuel ih =>
    cases queue with
    | nil =>
      intro v hv hnot
      have hleft : incoming edges order v ≠ 0 := by
        intro hzero
        have hready := h.ready v hv (by rw [hsorting.pending_eq]; exact hzero)
        rw [List.append_nil] at hready
        exact hnot hready
      rw [ne_eq, incoming_eq_zero, not_forall] at hleft
      obtain ⟨u, hu⟩ := hleft
      rw [Classical.not_imp] at hu
      exact ⟨u, (h.edges _ hu.1).1, hu.2, hu.1⟩
    | cons vertex queue =>
      refine ih hsorting.step (h.step hsorting) ?_
      rw [List.length_append, List.length_singleton]
      omega

/-- Some vertex is reached from itself along edges. -/
def Cyclic (edges : List (α × α)) : Prop := ∃ v, Relation.TransGen (fun u w => (u, w) ∈ edges) v v

omit [DecidableEq α] in
/-- Without cycles, a nonempty set of vertices has one that no edge from the set
leads to. -/
theorem exists_first {vertices : List α} {edges : List (α × α)} (hacyclic : ¬ Cyclic edges) {p : α → Prop}
    (hp : ∃ v ∈ vertices, p v) : ∃ v ∈ vertices, p v ∧ ∀ u ∈ vertices, p u → (u, v) ∉ edges := by
  let reaches : {v // v ∈ vertices} → {v // v ∈ vertices} → Prop :=
    fun u v => Relation.TransGen (fun u w => (u, w) ∈ edges) u.1 v.1
  have : IsTrans _ reaches := ⟨fun _ _ _ => Relation.TransGen.trans⟩
  have : Std.Irrefl reaches := ⟨fun v hv => hacyclic ⟨v.1, hv⟩⟩
  have : Finite {v // v ∈ vertices} := List.finite_toSet vertices
  obtain ⟨v, hv, hpv⟩ := hp
  obtain ⟨first, hfirst, hmin⟩ :=
    (Finite.wellFounded_of_trans_of_irrefl reaches).has_min {v | p v.1} ⟨⟨v, hv⟩, hpv⟩
  exact ⟨first.1, first.2, hfirst, fun u hu hpu hedge => hmin ⟨u, hu⟩ hpu (.single hedge)⟩

/-- Without cycles nothing is left out. -/
theorem kahn_all {vertices : List α} {edges : List (α × α)} (fuel : Nat) {pending : α → Nat} {queue order : List α}
    (hsorting : Sorting edges pending queue order) (h : Within vertices edges pending queue order)
    (hfuel : vertices.length ≤ order.length + fuel) (hacyclic : ¬ Cyclic edges) :
    ∀ v ∈ vertices, v ∈ kahn edges fuel pending queue order := by
  by_contra hleft
  rw [not_forall] at hleft
  obtain ⟨v, hv⟩ := hleft
  rw [Classical.not_imp] at hv
  obtain ⟨first, hfirst, hnot, hnone⟩ :=
    @exists_first _ vertices _ hacyclic (· ∉ kahn edges fuel pending queue order) ⟨v, hv⟩
  obtain ⟨u, hu, hunot, hedge⟩ := kahn_leaves fuel hsorting h hfuel first hfirst hnot
  exact hnone u hu hunot hedge

omit [DecidableEq α] in
theorem Follows.reached {edges : List (α × α)} {order : List α} (h : Follows edges order) {u v : α}
    (hreach : Relation.TransGen (fun u w => (u, w) ∈ edges) u v) :
    ∀ before after, order = before ++ v :: after → u ∈ before := by
  induction hreach with
  | single hedge => exact fun before after hsplit => h before _ after hsplit u hedge
  | @tail between last _ hedge ih =>
    intro before after hsplit
    obtain ⟨first, rest, hbefore⟩ := List.append_of_mem (h before last after hsplit between hedge)
    rw [hbefore, List.append_assoc, List.cons_append] at hsplit
    rw [hbefore]
    exact List.mem_append_left _ (ih first _ hsplit)

omit [DecidableEq α] in
/-- An order in which each vertex follows its sources leaves no room for a
cycle. -/
theorem Follows.acyclic {edges : List (α × α)} {order : List α} (h : Follows edges order) (hnodup : order.Nodup)
    (hall : ∀ edge ∈ edges, edge.2 ∈ order) : ¬ Cyclic edges := by
  rintro ⟨v, hreach⟩
  obtain ⟨u, -, hedge⟩ := Relation.TransGen.tail'_iff.1 hreach
  obtain ⟨before, after, hsplit⟩ := List.append_of_mem (hall _ hedge)
  have hbefore := h.reached hreach before after hsplit
  rw [hsplit, List.nodup_append] at hnodup
  exact hnodup.2.2 v hbefore v List.mem_cons_self rfl

end LaserSdk.Lib

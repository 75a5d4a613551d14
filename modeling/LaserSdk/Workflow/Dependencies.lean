import LaserSdk.Workflow.Order
/-!
# What the order guarantees

With distinct labels, the steps can be ordered exactly when every dependency
is a step and none depends on itself through others. Each step then comes
after those it names, and the steps that name none stay as declared.
-/

namespace LaserSdk.Workflow

open Lib

variable {steps : List Step}

/-- Step `i` names step `j`. -/
def DependsOn (steps : List Step) (i j : Nat) : Prop :=
  ∃ step other, steps[i]? = some step ∧ steps[j]? = some other ∧ other.label ∈ step.after

/-! ## Labels and indices -/

theorem indexOf_some {label : String} {j : Nat} (h : indexOf steps label = some j) :
    ∃ step, steps[j]? = some step ∧ step.label = label := by
  unfold indexOf at h
  obtain ⟨⟨step, k⟩, hfound, rfl⟩ := Option.map_eq_some_iff.1 h
  have hmem := List.mem_reverse.1 (List.mem_of_find?_eq_some hfound)
  have hlabel := List.find?_some hfound
  exact ⟨step, List.mk_mem_zipIdx_iff_getElem?.1 hmem, beq_iff_eq.1 hlabel⟩

theorem indexOf_isSome {label : String} : (∃ j, indexOf steps label = some j) ↔ ∃ step ∈ steps, step.label = label := by
  constructor
  · rintro ⟨j, hj⟩
    obtain ⟨step, hstep, hlabel⟩ := indexOf_some hj
    exact ⟨step, List.mem_of_getElem? hstep, hlabel⟩
  · rintro ⟨step, hstep, hlabel⟩
    obtain ⟨i, hi⟩ := List.mem_iff_getElem?.1 hstep
    have hfound : (steps.zipIdx.reverse.find? (·.1.label == label)).isSome = true := by
      refine List.find?_isSome.2 ⟨(step, i), ?_, beq_iff_eq.2 hlabel⟩
      exact List.mem_reverse.2 (List.mk_mem_zipIdx_iff_getElem?.2 hi)
    obtain ⟨found, hfound⟩ := Option.isSome_iff_exists.1 hfound
    exact ⟨found.2, by simp [indexOf, hfound]⟩

/-! ## Edges -/

theorem stepEdges_ok {label : String} {index : Nat} {after : List String} {edges : List (Nat × Nat)}
    (h : stepEdges steps label index after = .ok edges) {j i : Nat} :
    (j, i) ∈ edges ↔ i = index ∧ ∃ dependency ∈ after, indexOf steps dependency = some j := by
  induction after generalizing edges with
  | nil =>
    cases h
    simp
  | cons dependency rest ih =>
    rw [stepEdges] at h
    cases hdep : indexOf steps dependency with
    | none => simp [hdep] at h
    | some dep =>
      simp only [hdep, map_ok] at h
      obtain ⟨more, hmore, rfl⟩ := h
      simp only [List.mem_cons, Prod.mk.injEq, ih hmore, exists_eq_or_imp, hdep, Option.some.injEq]
      constructor
      · rintro (⟨rfl, rfl⟩ | ⟨rfl, hrest⟩)
        · exact ⟨rfl, .inl rfl⟩
        · exact ⟨rfl, .inr hrest⟩
      · rintro ⟨rfl, rfl | hrest⟩
        · exact .inl ⟨rfl, rfl⟩
        · exact .inr ⟨rfl, hrest⟩

theorem edgesOf_mem {indexed : List (Step × Nat)} {edges : List (Nat × Nat)} (h : edgesOf steps indexed = .ok edges)
    {j i : Nat} : (j, i) ∈ edges ↔ ∃ step, (step, i) ∈ indexed ∧ ∃ dependency ∈ step.after, indexOf steps dependency = some j := by
  induction indexed generalizing edges with
  | nil =>
    cases h
    simp
  | cons entry rest ih =>
    obtain ⟨step, index⟩ := entry
    simp only [edgesOf, bind_ok, pure_ok] at h
    obtain ⟨first, hfirst, more, hmore, rfl⟩ := h
    rw [List.mem_append, stepEdges_ok hfirst, ih hmore]
    simp only [List.mem_cons, Prod.mk.injEq]
    constructor
    · rintro (⟨rfl, hdep⟩ | ⟨other, hother, hdep⟩)
      · exact ⟨step, .inl ⟨rfl, rfl⟩, hdep⟩
      · exact ⟨other, .inr hother, hdep⟩
    · rintro ⟨other, ⟨rfl, rfl⟩ | hother, hdep⟩
      · exact .inl ⟨rfl, hdep⟩
      · exact .inr ⟨other, hother, hdep⟩

theorem stepEdges_total {label : String} {index : Nat} {after : List String} :
    (∃ edges, stepEdges steps label index after = .ok edges) ↔ ∀ dependency ∈ after, ∃ j, indexOf steps dependency = some j := by
  induction after with
  | nil => simp [stepEdges]
  | cons dependency rest ih =>
    rw [List.forall_mem_cons, ← ih, stepEdges]
    cases indexOf steps dependency with
    | none => simp
    | some dep => simp

theorem edgesOf_total {indexed : List (Step × Nat)} :
    (∃ edges, edgesOf steps indexed = .ok edges) ↔
      ∀ entry ∈ indexed, ∀ dependency ∈ entry.1.after, ∃ j, indexOf steps dependency = some j := by
  induction indexed with
  | nil => simp [edgesOf]
  | cons entry rest ih =>
    rw [List.forall_mem_cons, ← ih, ← @stepEdges_total steps entry.1.label entry.2]
    simp only [edgesOf, bind_ok, pure_ok]
    constructor
    · rintro ⟨edges, first, hfirst, more, hmore, -⟩
      exact ⟨⟨first, hfirst⟩, more, hmore⟩
    · rintro ⟨⟨first, hfirst⟩, more, hmore⟩
      exact ⟨_, first, hfirst, more, hmore, rfl⟩

/-- The edges are the dependencies. -/
theorem edges_iff (hlabels : (steps.map (·.label)).Nodup) {edges : List (Nat × Nat)}
    (h : edgesOf steps steps.zipIdx = .ok edges) {j i : Nat} : (j, i) ∈ edges ↔ DependsOn steps i j := by
  rw [edgesOf_mem h]
  constructor
  · rintro ⟨step, hstep, dependency, hdep, hindex⟩
    obtain ⟨other, hother, rfl⟩ := indexOf_some hindex
    exact ⟨step, other, List.mk_mem_zipIdx_iff_getElem?.1 hstep, hother, hdep⟩
  · rintro ⟨step, other, hstep, hother, hdep⟩
    refine ⟨step, List.mk_mem_zipIdx_iff_getElem?.2 hstep, other.label, hdep, ?_⟩
    obtain ⟨k, hk⟩ := indexOf_isSome.2 ⟨other, List.mem_of_getElem? hother, rfl⟩
    obtain ⟨same, hsame, hlabel⟩ := indexOf_some hk
    rw [hk, label_inj hlabels hsame hother hlabel]

/-! ## The order -/

theorem within_ready (edges : List (Nat × Nat)) {n : Nat} (hedges : ∀ edge ∈ edges, edge.1 < n ∧ edge.2 < n) :
    Within (List.range n) edges (incoming edges []) ((List.range n).filter (incoming edges [] · == 0)) [] := by
  refine ⟨List.nodup_range, ?_, fun v hv => (List.mem_filter.1 hv).1, fun v hv hzero => ?_⟩
  · simpa only [List.mem_range] using hedges
  · rw [List.nil_append, List.mem_filter]
    exact ⟨hv, beq_iff_eq.2 hzero⟩

theorem DependsOn.lt {i j : Nat} (h : DependsOn steps i j) : j < steps.length ∧ i < steps.length := by
  obtain ⟨step, other, hi, hj, -⟩ := h
  exact ⟨(List.getElem?_eq_some_iff.1 hj).1, (List.getElem?_eq_some_iff.1 hi).1⟩

theorem cyclic_iff (hlabels : (steps.map (·.label)).Nodup) {edges : List (Nat × Nat)}
    (h : edgesOf steps steps.zipIdx = .ok edges) : Cyclic edges ↔ ∃ i, Relation.TransGen (DependsOn steps) i i := by
  have hrel : (fun u w => (u, w) ∈ edges) = Function.swap (DependsOn steps) := by
    funext u w
    exact propext (edges_iff hlabels h)
  rw [Cyclic, hrel]
  exact exists_congr fun i => Relation.transGen_swap

/-- How Kahn's algorithm is started. -/
def kahnOrder (edges : List (Nat × Nat)) (n : Nat) : List Nat :=
  kahn edges n (incoming edges []) ((List.range n).filter (incoming edges [] · == 0)) []

theorem topologicalOrder_ok {order : List Nat} : topologicalOrder steps = .ok order ↔
    ∃ edges, edgesOf steps steps.zipIdx = .ok edges ∧ order = kahnOrder edges steps.length ∧ order.length = steps.length := by
  simp only [topologicalOrder, bind_ok, refuseIf_ok, pure_ok, not_not, exists_const]
  constructor
  · rintro ⟨edges, hedges, hlength, rfl⟩
    exact ⟨edges, hedges, rfl, hlength⟩
  · rintro ⟨edges, hedges, rfl, hlength⟩
    exact ⟨edges, hedges, hlength, rfl⟩

theorem kahnOrder_follows (edges : List (Nat × Nat)) (n : Nat) : Follows edges (kahnOrder edges n) := by
  refine kahn_follows n (sorting_ready edges n) ?_
  intro before v after hsplit
  simp at hsplit

theorem kahnOrder_starts (edges : List (Nat × Nat)) (n : Nat) :
    (List.range n).filter (incoming edges [] · == 0) <+: kahnOrder edges n := by
  have hstarts := kahn_starts edges n (incoming edges []) ((List.range n).filter (incoming edges [] · == 0)) []
  rw [List.nil_append, List.take_of_length_le] at hstarts
  · exact hstarts
  · exact Nat.le_trans (List.length_filter_le _ _) (Nat.le_of_eq List.length_range)

theorem kahnOrder_length {edges : List (Nat × Nat)} {n : Nat} (hedges : ∀ edge ∈ edges, edge.1 < n ∧ edge.2 < n)
    (hacyclic : ¬ Cyclic edges) : (kahnOrder edges n).length = n := by
  have hall := kahn_all n (sorting_ready edges n) (within_ready edges hedges) (by simp) hacyclic
  have hwithin : ∀ v ∈ kahnOrder edges n, v ∈ List.range n := by
    intro v hv
    refine @kahn_mem _ _ edges n _ _ _ (· ∈ List.range n) (fun w hw => ?_) (fun edge hedge => ?_) v hv
    · exact (List.mem_filter.1 hw).1
    · exact List.mem_range.2 (hedges edge hedge).2
  have hperm := (List.perm_ext_iff_of_nodup (kahn_nodup n (sorting_ready edges n)) List.nodup_range).2
    fun v => ⟨hwithin v, hall v⟩
  rw [kahnOrder, hperm.length_eq, List.length_range]

/-- A step is ready at the start exactly when it names no dependency. -/
theorem ready_iff {edges : List (Nat × Nat)} (hedges : edgesOf steps steps.zipIdx = .ok edges) {i : Nat} {step : Step}
    (hi : steps[i]? = some step) : incoming edges [] i = 0 ↔ step.after = [] := by
  rw [incoming_eq_zero]
  constructor
  · intro hnone
    by_contra hsome
    obtain ⟨dependency, hdep⟩ := List.exists_mem_of_ne_nil _ hsome
    have hmem := List.mk_mem_zipIdx_iff_getElem?.2 hi
    obtain ⟨j, hj⟩ := edgesOf_total.1 ⟨edges, hedges⟩ (step, i) hmem dependency hdep
    cases hnone j ((edgesOf_mem hedges).2 ⟨step, hmem, dependency, hdep, hj⟩)
  · intro hnone u hedge
    obtain ⟨other, hother, dependency, hdep, -⟩ := (edgesOf_mem hedges).1 hedge
    have hsame : step = other := Option.some.inj (hi.symm.trans (List.mk_mem_zipIdx_iff_getElem?.1 hother))
    rw [← hsame, hnone] at hdep
    cases hdep

def namesNone (steps : List Step) (i : Nat) : Bool := steps[i]?.any (·.after = [])

theorem filter_ready {edges : List (Nat × Nat)} (hedges : edgesOf steps steps.zipIdx = .ok edges) :
    (List.range steps.length).filter (incoming edges [] · == 0) = (List.range steps.length).filter (namesNone steps) := by
  refine List.filter_congr fun i hi => ?_
  have hstep := List.getElem?_eq_getElem (List.mem_range.1 hi)
  rw [namesNone, hstep, Option.any_some, Bool.eq_iff_iff, beq_iff_eq, decide_eq_true_eq]
  exact ready_iff hedges hstep

/-- What comes first and is all there is of a kind is what a filter for the
kind leaves. -/
theorem filter_eq_of_starts {order all : List Nat} {p : Nat → Bool} (hnodup : order.Nodup) (hmem : ∀ i ∈ order, i ∈ all)
    (hstarts : all.filter p <+: order) : order.filter p = all.filter p := by
  obtain ⟨rest, rfl⟩ := hstarts
  have hrest : rest.filter p = [] := by
    refine List.filter_eq_nil_iff.2 fun i hi hp => ?_
    have hfirst := List.mem_filter.2 ⟨hmem i (List.mem_append_right _ hi), hp⟩
    exact (List.nodup_append.1 hnodup).2.2 i hfirst i hi rfl
  rw [List.filter_append, hrest, List.append_nil, List.filter_filter]
  simp

theorem edgesOf_known : (∃ edges, edgesOf steps steps.zipIdx = .ok edges) ↔
    ∀ step ∈ steps, ∀ dependency ∈ step.after, ∃ other ∈ steps, other.label = dependency := by
  rw [edgesOf_total]
  simp only [indexOf_isSome]
  constructor
  · intro h step hstep
    obtain ⟨i, hi⟩ := List.mem_iff_getElem?.1 hstep
    exact h (step, i) (List.mk_mem_zipIdx_iff_getElem?.2 hi)
  · rintro h ⟨step, i⟩ hentry
    exact h step (List.mem_of_getElem? (List.mk_mem_zipIdx_iff_getElem?.1 hentry))

/-- Each step comes after the steps it names. -/
theorem topologicalOrder_follows (hlabels : (steps.map (·.label)).Nodup) {order : List Nat}
    (h : topologicalOrder steps = .ok order) :
    ∀ before i after, order = before ++ i :: after → ∀ j, DependsOn steps i j → j ∈ before := by
  obtain ⟨edges, hedges, rfl, -⟩ := topologicalOrder_ok.1 h
  intro before i after hsplit j hdepends
  exact kahnOrder_follows edges steps.length before i after hsplit j ((edges_iff hlabels hedges).2 hdepends)

/-- The order exists exactly when every dependency is a step and no step depends
on itself. It holds every step once, after the steps it names, and leaves the
steps without dependencies as declared. -/
theorem topologicalOrder_correct (hlabels : (steps.map (·.label)).Nodup) :
    ((∃ order, topologicalOrder steps = .ok order) ↔
      (∀ step ∈ steps, ∀ dependency ∈ step.after, ∃ other ∈ steps, other.label = dependency) ∧
        ¬ ∃ i, Relation.TransGen (DependsOn steps) i i) ∧
    ∀ order, topologicalOrder steps = .ok order →
      order.Perm (List.range steps.length) ∧
      (∀ before i after, order = before ++ i :: after → ∀ j, DependsOn steps i j → j ∈ before) ∧
      order.filter (namesNone steps) = (List.range steps.length).filter (namesNone steps) := by
  constructor
  · constructor
    · rintro ⟨order, h⟩
      obtain ⟨edges, hedges, rfl, -⟩ := topologicalOrder_ok.1 h
      refine ⟨edgesOf_known.1 ⟨edges, hedges⟩, ?_⟩
      rw [← cyclic_iff hlabels hedges]
      refine (kahnOrder_follows edges steps.length).acyclic (topologicalOrder_nodup h) fun edge hedge => ?_
      exact (mem_topologicalOrder h).2 ((edges_iff hlabels hedges).1 hedge).lt.2
    · rintro ⟨hknown, hacyclic⟩
      obtain ⟨edges, hedges⟩ := edgesOf_known.2 hknown
      rw [← cyclic_iff hlabels hedges] at hacyclic
      refine ⟨_, topologicalOrder_ok.2 ⟨edges, hedges, rfl, kahnOrder_length (fun edge hedge => ?_) hacyclic⟩⟩
      exact ((edges_iff hlabels hedges).1 hedge).lt
  · intro order h
    refine ⟨topologicalOrder_perm h, topologicalOrder_follows hlabels h, ?_⟩
    obtain ⟨edges, hedges, rfl, -⟩ := topologicalOrder_ok.1 h
    apply filter_eq_of_starts (topologicalOrder_nodup h)
    · intro i hi
      exact List.mem_range.2 ((mem_topologicalOrder h).1 hi)
    · rw [← filter_ready hedges]
      exact kahnOrder_starts edges steps.length

/-- Two chains, the first with a dependency named twice. -/
def deployment : List Step :=
  [⟨"deploy", .to "ops", ["build", "test", "build"], false, false, .fail, false⟩,
    ⟨"build", .to "ci", [], false, false, .fail, false⟩,
    ⟨"test", .to "ci", ["build"], false, false, .fail, false⟩,
    ⟨"announce", .to "chat", [], false, false, .fail, false⟩]

theorem deployment_ordered :
    (deployment.map (·.label)).Nodup ∧ topologicalOrder deployment = .ok [1, 3, 2, 0] ∧
      (¬ ∃ i, Relation.TransGen (DependsOn deployment) i i) ∧
      ∀ before i after, [1, 3, 2, 0] = before ++ i :: after → ∀ j, DependsOn deployment i j → j ∈ before := by
  have hlabels : (deployment.map (·.label)).Nodup := by decide
  have horder : topologicalOrder deployment = .ok [1, 3, 2, 0] := by rfl
  have hcorrect := topologicalOrder_correct hlabels
  exact ⟨hlabels, horder, (hcorrect.1.1 ⟨_, horder⟩).2, (hcorrect.2 _ horder).2.1⟩

end LaserSdk.Workflow

import Mathlib.Data.List.Perm.Subperm
import LaserSdk.Lib.Checks
import LaserSdk.Lib.Kahn
/-!
# The order of the steps

A workflow runs its steps one by one, each after the steps it names. The
order is Kahn's, seeded with the steps without dependencies as declared.
-/

namespace LaserSdk.Workflow

open Lib

inductive Router where
  | to (agent : String)
  | toPrincipal (agent principal : String)
  | broadcast
  | toCapable (skill : String)
  | allCapable (skill : String)
  deriving DecidableEq, Repr

inductive OnTimeout where
  | fail
  | reassign
  deriving DecidableEq, Repr

/-- A step. The closures of the source are calls out of the engine, so of the
verifier and the compensation it holds whether they are set. -/
structure Step where
  label : String
  target : Router
  after : List String
  verifier : Bool
  exclusive : Bool
  onTimeout : OnTimeout
  compensate : Bool
  deriving DecidableEq, Repr

instance : Inhabited Step := ⟨⟨"", .broadcast, [], false, false, .fail, false⟩⟩

inductive LaserError where
  | invalid (message : String)
  | handlerConfig (message : String)
  | cancelled
  | budgetExceeded (ceiling spent : Nat)
  | unsupportedFeature
  | leaseLost
  /-- An error handed on from a call. -/
  | other (text : String)
  deriving DecidableEq, Repr

/-- The map from labels to indices: a repeated label means its last step. -/
def indexOf (steps : List Step) (label : String) : Option Nat :=
  (steps.zipIdx.reverse.find? (·.1.label == label)).map (·.2)

/-- The edges into one step. -/
def stepEdges (steps : List Step) (label : String) (index : Nat) : List String → Except LaserError (List (Nat × Nat))
  | [] => .ok []
  | dependency :: rest =>
    match indexOf steps dependency with
    | none => .error (.invalid s!"workflow step `{label}` depends on unknown step `{dependency}`")
    | some dep => (stepEdges steps label index rest).map ((dep, index) :: ·)

def edgesOf (steps : List Step) : List (Step × Nat) → Except LaserError (List (Nat × Nat))
  | [] => .ok []
  | (step, index) :: rest => do
    let edges ← stepEdges steps step.label index step.after
    let more ← edgesOf steps rest
    return edges ++ more

def topologicalOrder (steps : List Step) : Except LaserError (List Nat) := do
  let edges ← edgesOf steps steps.zipIdx
  let inDegree := incoming edges []
  let ready := (List.range steps.length).filter (inDegree · == 0)
  -- Every step is ready at most once, so as many rounds as steps are enough.
  let order := kahn edges steps.length inDegree ready []
  refuseIf (order.length ≠ steps.length) (.invalid "workflow steps form a dependency cycle")
  return order

/-! ## Every step once -/

/-- A label means one step. -/
theorem label_inj {steps : List Step} (hlabels : (steps.map (·.label)).Nodup) {i j : Nat} {step other : Step}
    (hi : steps[i]? = some step) (hj : steps[j]? = some other) (heq : step.label = other.label) : i = j := by
  have hlt : i < (steps.map (·.label)).length := by
    rw [List.length_map]
    exact (List.getElem?_eq_some_iff.1 hi).1
  apply (List.getElem?_inj hlt hlabels).1
  rw [List.getElem?_map, List.getElem?_map, hi, hj]
  exact congrArg some heq

theorem stepEdges_target {steps : List Step} {label : String} {index : Nat} {after : List String}
    {edges : List (Nat × Nat)} (h : stepEdges steps label index after = .ok edges) : ∀ edge ∈ edges, edge.2 = index := by
  induction after generalizing edges with
  | nil =>
    cases h
    nofun
  | cons dependency rest ih =>
    rw [stepEdges] at h
    cases hdep : indexOf steps dependency with
    | none => simp [hdep] at h
    | some dep =>
      simp only [hdep, map_ok] at h
      obtain ⟨more, hmore, rfl⟩ := h
      intro edge hedge
      rcases List.mem_cons.1 hedge with rfl | hedge
      · rfl
      · exact ih hmore edge hedge

theorem edgesOf_target {steps : List Step} {indexed : List (Step × Nat)} {edges : List (Nat × Nat)}
    (h : edgesOf steps indexed = .ok edges) : ∀ edge ∈ edges, ∃ entry ∈ indexed, edge.2 = entry.2 := by
  induction indexed generalizing edges with
  | nil =>
    cases h
    nofun
  | cons entry rest ih =>
    simp only [edgesOf, bind_ok, pure_ok] at h
    obtain ⟨first, hfirst, more, hmore, rfl⟩ := h
    intro edge hedge
    rcases List.mem_append.1 hedge with hedge | hedge
    · exact ⟨entry, List.mem_cons_self .., stepEdges_target hfirst edge hedge⟩
    · obtain ⟨other, hother, heq⟩ := ih hmore edge hedge
      exact ⟨other, List.mem_cons_of_mem _ hother, heq⟩

theorem sorting_ready (edges : List (Nat × Nat)) (n : Nat) :
    Sorting edges (incoming edges []) ((List.range n).filter (incoming edges [] · == 0)) [] := by
  refine ⟨List.nodup_range.filter _, fun _ => rfl, fun v hv => ?_⟩
  simpa using (List.mem_filter.1 hv).2

/-- The order holds every step once. -/
theorem topologicalOrder_perm {steps : List Step} {order : List Nat} (h : topologicalOrder steps = .ok order) :
    order.Perm (List.range steps.length) := by
  simp only [topologicalOrder, bind_ok, refuseIf_ok, pure_ok, not_not] at h
  obtain ⟨edges, hedges, _, hlength, rfl⟩ := h
  have hnodup := kahn_nodup steps.length (sorting_ready edges steps.length)
  have hbound : ∀ v ∈ kahn edges steps.length (incoming edges [])
      ((List.range steps.length).filter (incoming edges [] · == 0)) [], v ∈ List.range steps.length := by
    intro v hv
    refine kahn_mem steps.length (fun w hw => ?_) (fun edge hedge => ?_) hv
    · exact (List.mem_filter.1 hw).1
    · obtain ⟨entry, hentry, heq⟩ := edgesOf_target hedges edge hedge
      have := List.snd_lt_of_mem_zipIdx hentry
      simpa [heq] using this
  exact (hnodup.subperm hbound).perm_of_length_le (by rw [List.length_range]; exact Nat.le_of_eq hlength.symm)

theorem mem_topologicalOrder {steps : List Step} {order : List Nat} (h : topologicalOrder steps = .ok order) {i : Nat} :
    i ∈ order ↔ i < steps.length := by
  rw [(topologicalOrder_perm h).mem_iff, List.mem_range]

theorem topologicalOrder_nodup {steps : List Step} {order : List Nat} (h : topologicalOrder steps = .ok order) :
    order.Nodup := (topologicalOrder_perm h).nodup_iff.2 List.nodup_range

end LaserSdk.Workflow

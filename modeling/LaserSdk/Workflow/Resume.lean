import Mathlib.Data.List.Induction
import LaserSdk.Workflow.Saga
/-!
# Resuming after a rollback

A rollback writes nothing to the journal. A later run of the same id skips
what the journal shows as completed, also what was rolled back since, and
returns as if it had been done.
-/

namespace LaserSdk.Workflow

open Lib Traced

/-! ## What was rolled back -/

/-- Follow one step through the history. -/
def mark (index : Nat) (rolled : Bool) : Event → Bool
  | .completed i => if i = index then false else rolled
  | .compensated i => if i = index then true else rolled
  | _ => rolled

section

variable {steps : List Step} {budget : WorkflowBudget} {answers : Answers}

/-- An event before any rollback. -/
def Event.isForward : Event → Bool
  | .compensating _ | .compensated _ => false
  | _ => true

theorem Delivers.forward {index : Nat} {x : Engine (Bytes × Nat)} (h : Delivers steps answers index x) :
    ∀ event ∈ x.trace, event.isForward = true ∧ ∀ i, event = .completed i → i = index := by
  obtain ⟨opening, last, htrace, hopening, hlast, -⟩ := h
  rw [htrace]
  intro event hmem
  rcases List.mem_append.1 hmem with hmem | hmem
  · have := hopening event hmem
    cases event <;> first | exact this.elim | exact ⟨rfl, nofun⟩
  · cases hlast <;> simp at hmem <;> rcases hmem with rfl | rfl | rfl <;> simp [Event.isForward]

theorem Delivers.completed_of_ok {index : Nat} {x : Engine (Bytes × Nat)} {result : Bytes × Nat}
    (h : Delivers steps answers index x) (hresult : x.result = .ok result) : .completed index ∈ x.trace := by
  obtain ⟨opening, last, htrace, -, -, hreturned, -⟩ := h
  rw [htrace, hreturned result.1 result.2 hresult]
  simp [deliveredTrace]

theorem mem_compensate {progress : Progress} {event : Event} (h : event ∈ compensate steps answers progress) :
    event.isForward = false ∧ ∀ i, event = .compensated i → i ∈ progress.completed := by
  obtain ⟨index, hindex, hmem⟩ := List.mem_flatMap.1 h
  split at hmem
  · rcases List.mem_cons.1 hmem with rfl | hmem
    · exact ⟨rfl, nofun⟩
    · split at hmem
      · obtain rfl := List.mem_singleton.1 hmem
        refine ⟨rfl, fun i hi => ?_⟩
        cases hi
        exact List.mem_reverse.1 hindex
      · cases hmem
  · cases hmem

/-- The order of a run that returned. -/
theorem order_of_ok {journal : List JournalRecord} {outputs : Outputs}
    (hok : (execute steps budget answers journal).result = .ok outputs) : ∃ order, topologicalOrder steps = .ok order := by
  cases horder : topologicalOrder steps with
  | ok order => exact ⟨order, rfl⟩
  | error error =>
    unfold execute at hok
    rw [horder] at hok
    cases hok

end

end LaserSdk.Workflow

import LaserSdk.Workflow.Deliver
/-!
# What the loop over the steps does

The loop takes the steps that are not recorded yet in order. Of these it
records an initial segment, and an error compensates what was completed before
the run and the segment that went well in it. The two segments differ by one
step at most, the one that failed after its record landed.
-/

namespace LaserSdk.Workflow

open Lib Traced

def Event.recordedLabel : Event → Option String
  | .recorded _ label _ => some label
  | _ => none

def Event.attempt : Event → Option Nat
  | .compensating index => some index
  | _ => none

/-- The labels of the records a trace leaves in the journal. -/
def recordedLabels (trace : List Event) : List String := trace.filterMap Event.recordedLabel

/-- The compensations a trace attempts. -/
def attempts (trace : List Event) : List Nat := trace.filterMap Event.attempt

@[simp] theorem recordedLabels_append (t t' : List Event) :
    recordedLabels (t ++ t') = recordedLabels t ++ recordedLabels t' := List.filterMap_append

@[simp] theorem attempts_append (t t' : List Event) : attempts (t ++ t') = attempts t ++ attempts t' :=
  List.filterMap_append

theorem opening_silent {index : Nat} {trace : List Event} (h : ∀ event ∈ trace, event.isOpening index) :
    recordedLabels trace = [] ∧ attempts trace = [] := by
  refine ⟨List.filterMap_eq_nil_iff.2 fun event hmem => ?_, List.filterMap_eq_nil_iff.2 fun event hmem => ?_⟩
  all_goals
    have := h event hmem
    cases event <;> first | rfl | exact this.elim

section

variable {steps : List Step} {budget : WorkflowBudget} {answers : Answers}

/-- A delivery compensates nothing. -/
theorem Delivers.attempts {index : Nat} {x : Engine (Bytes × Nat)} (h : Delivers steps answers index x) :
    attempts x.trace = [] := by
  obtain ⟨opening, last, htrace, hopening, hlast, -⟩ := h
  rw [htrace, attempts_append, (opening_silent hopening).2]
  cases hlast <;> rfl

/-- A delivery records its step once, and returns if its record stands. -/
theorem Delivers.recorded {index : Nat} {x : Engine (Bytes × Nat)} (h : Delivers steps answers index x) :
    (recordedLabels x.trace = [] ∧ ∃ failure, x.result = .error failure) ∨
    recordedLabels x.trace = [(stepAt steps index).label] ∧
      ((∃ failure, x.result = .error failure) → ¬ recordStands steps answers index) := by
  obtain ⟨opening, last, htrace, hopening, hlast, hreturned, hstands⟩ := h
  rw [htrace, recordedLabels_append, (opening_silent hopening).1, List.nil_append]
  cases hresult : x.result with
  | ok result =>
    obtain ⟨output, tokens⟩ := result
    rw [hreturned output tokens hresult]
    exact .inr ⟨rfl, fun h => nomatch h.choose_spec⟩
  | error failure =>
    cases hlast with
    | recorded output =>
      refine .inr ⟨rfl, fun _ hs => ?_⟩
      obtain ⟨tokens, htokens⟩ := hstands hs output rfl
      rw [hresult] at htokens
      cases htokens
    | _ => exact .inl ⟨rfl, failure, rfl⟩

theorem Delivers.recorded_of_ok {index : Nat} {x : Engine (Bytes × Nat)} {result : Bytes × Nat}
    (h : Delivers steps answers index x) (hresult : x.result = .ok result) :
    recordedLabels x.trace = [(stepAt steps index).label] := by
  rcases h.recorded with ⟨-, failure, hfailed⟩ | ⟨hsome, -⟩
  · rw [hresult] at hfailed
    cases hfailed
  · exact hsome

/-- The completed steps a rollback compensates, in its order. -/
def rollback (steps : List Step) (completed : List Nat) : List Nat :=
  completed.reverse.filter fun index => (stepAt steps index).compensate

theorem compensate_effects (progress : Progress) : recordedLabels (compensate steps answers progress) = [] ∧
    attempts (compensate steps answers progress) = rollback steps progress.completed := by
  unfold compensate rollback
  induction progress.completed.reverse with
  | nil => exact ⟨rfl, rfl⟩
  | cons index rest ih =>
    rw [List.flatMap_cons, recordedLabels_append, attempts_append, ih.1, ih.2]
    cases hdeclared : (stepAt steps index).compensate with
    | false => simp [recordedLabels, attempts, hdeclared]
    | true =>
      cases answers.compensate index progress.outputs <;>
        simp [recordedLabels, attempts, Event.recordedLabel, Event.attempt, hdeclared]

/-- How one step of the loop ends, by how its delivery ends. -/
theorem runStep_cases {index : Nat} {progress : Progress} (hnew : isRecorded steps progress.outputs index = false) :
    -- It fails, and what was done before it is undone, but for a failed read.
    (∃ failure, (attemptStep steps budget answers index progress).result = .error failure ∧
      runStep steps budget answers index progress =
        ⟨(attemptStep steps budget answers index progress).trace ++
          (if failure.stage = .control then [] else compensate steps answers progress), .error failure⟩) ∨
    -- It completes, and breaks the budget or not.
    ∃ output tokens, (attemptStep steps budget answers index progress).result = .ok (output, tokens) ∧
      ((∃ error, runStep steps budget answers index progress =
        ⟨(attemptStep steps budget answers index progress).trace ++
          compensate steps answers (progress.finish (stepAt steps index).label index output tokens), .error ⟨.budget, error⟩⟩) ∨
      runStep steps budget answers index progress =
        ⟨(attemptStep steps budget answers index progress).trace,
          .ok (progress.finish (stepAt steps index).label index output tokens)⟩) := by
  unfold runStep
  simp only [hnew, Bool.false_eq_true, if_false]
  cases hattempt : (attemptStep steps budget answers index progress).result with
  | error failure =>
    left
    refine ⟨failure, rfl, ?_⟩
    unfold orCompensate
    simp only [hattempt]
    by_cases hstage : failure.stage = .control
    · simp [hstage, bind_of_error hattempt]
    · simp [hstage]
  | ok result =>
    right
    obtain ⟨output, tokens⟩ := result
    have hok : orCompensate steps answers progress (attemptStep steps budget answers index progress) =
        attemptStep steps budget answers index progress := by
      unfold orCompensate
      simp only [hattempt]
    refine ⟨output, tokens, rfl, ?_⟩
    rw [hok, bind_of_ok hattempt]
    cases hcheck : checkBudget budget (progress.finish (stepAt steps index).label index output tokens).invocations
        (progress.finish (stepAt steps index).label index output tokens).tokensSpent (answers.elapsed index .after) with
    | error error =>
      left
      exact ⟨error, rfl⟩
    | ok passed =>
      right
      show (⟨(attemptStep steps budget answers index progress).trace ++ [], _⟩ : Engine Progress) = _
      rw [List.append_nil]
      rfl

/-- A step after which the run goes on was delivered. -/
theorem runStep_ok {index : Nat} {progress next : Progress} (hnew : isRecorded steps progress.outputs index = false)
    (hok : (runStep steps budget answers index progress).result = .ok next) :
    ∃ output tokens, (attemptStep steps budget answers index progress).result = .ok (output, tokens) ∧
      (runStep steps budget answers index progress).trace = (attemptStep steps budget answers index progress).trace ∧
      next = progress.finish (stepAt steps index).label index output tokens := by
  rcases @runStep_cases steps budget answers index progress hnew with
    ⟨failure, -, hstep⟩ | ⟨output, tokens, hresult, ⟨error, hstep⟩ | hstep⟩
  · rw [hstep] at hok
    cases hok
  · rw [hstep] at hok
    cases hok
  · rw [hstep] at hok ⊢
    cases hok
    exact ⟨output, tokens, hresult, rfl, rfl⟩

/-- A run over steps not recorded yet. `succeeded` counts those that went
well, `recorded` those with a record. -/
structure RunEnds (steps : List Step) (answers : Answers) (done todo : List Nat) (x : Engine Progress)
    (succeeded recorded : Nat) : Prop where
  recorded_le : recorded ≤ todo.length
  labels : recordedLabels x.trace = (todo.take recorded).map fun index => (stepAt steps index).label
  ahead : recorded = succeeded ∨ recorded = succeeded + 1 ∧
    ∃ index, todo[succeeded]? = some index ∧ ¬ recordStands steps answers index
  attempted : ∀ failure, x.result = .error failure →
    attempts x.trace = if failure.stage = .control then [] else rollback steps (done ++ todo.take succeeded)
  returned : ∀ progress, x.result = .ok progress → succeeded = todo.length ∧ attempts x.trace = []

theorem ended_failed {done rest : List Nat} {index : Nat} {x : Engine (Bytes × Nat)} {progress : Progress}
    {failure : Failure} (hx : Delivers steps answers index x) (hfailed : x.result = .error failure)
    (hdone : progress.completed = done) : ∃ succeeded recorded, RunEnds steps answers done (index :: rest)
      ⟨x.trace ++ (if failure.stage = .control then [] else compensate steps answers progress), .error failure⟩
      succeeded recorded := by
  have hcomp := @compensate_effects steps answers progress
  have hlabels : recordedLabels (x.trace ++ (if failure.stage = .control then [] else compensate steps answers progress)) =
      recordedLabels x.trace := by
    split
    · simp
    · simp [hcomp.1]
  have hattempts : ∀ other, Except.error failure = (Except.error other : Except Failure Progress) →
      attempts (x.trace ++ (if failure.stage = .control then [] else compensate steps answers progress)) =
        if other.stage = .control then [] else rollback steps (done ++ (index :: rest).take 0) := by
    intro other heq
    cases heq
    rw [attempts_append, hx.attempts]
    split
    · rfl
    · simp [hcomp.2, hdone]
  rcases hx.recorded with ⟨hnone, -⟩ | ⟨hsome, hstands⟩
  · exact ⟨0, 0, Nat.zero_le _, by rw [hlabels, hnone]; rfl, .inl rfl, hattempts, nofun⟩
  · -- The record landed and the step failed.
    exact ⟨0, 1, Nat.succ_le_succ (Nat.zero_le _), by rw [hlabels, hsome]; rfl,
      .inr ⟨rfl, index, rfl, hstands ⟨failure, hfailed⟩⟩, hattempts, nofun⟩

theorem ended_over_budget {done rest : List Nat} {index : Nat} {x : Engine (Bytes × Nat)} {progress : Progress}
    {result : Bytes × Nat} {error : LaserError} (hx : Delivers steps answers index x) (hresult : x.result = .ok result)
    (hdone : progress.completed = done ++ [index]) : RunEnds steps answers done (index :: rest)
      ⟨x.trace ++ compensate steps answers progress, .error ⟨.budget, error⟩⟩ 1 1 := by
  have hcomp := @compensate_effects steps answers progress
  refine ⟨Nat.succ_le_succ (Nat.zero_le _), ?_, .inl rfl, ?_, nofun⟩
  · rw [recordedLabels_append, hcomp.1, hx.recorded_of_ok hresult]
    rfl
  · intro failure heq
    cases heq
    rw [attempts_append, hx.attempts, hcomp.2, hdone]
    rfl

theorem ended_next {done rest : List Nat} {index : Nat} {x : Engine (Bytes × Nat)} {next : Engine Progress}
    {result : Bytes × Nat} {succeeded recorded : Nat} (hx : Delivers steps answers index x) (hresult : x.result = .ok result)
    (hnext : RunEnds steps answers (done ++ [index]) rest next succeeded recorded) :
    RunEnds steps answers done (index :: rest) ⟨x.trace ++ next.trace, next.result⟩ (succeeded + 1) (recorded + 1) := by
  refine ⟨Nat.succ_le_succ hnext.recorded_le, ?_, ?_, fun failure hfailed => ?_, fun progress hok => ?_⟩
  · rw [recordedLabels_append, hx.recorded_of_ok hresult, hnext.labels]
    rfl
  · rcases hnext.ahead with h | ⟨h, other, hother, hstands⟩
    · exact .inl (by rw [h])
    · exact .inr ⟨by rw [h], other, hother, hstands⟩
  · rw [attempts_append, hx.attempts, List.nil_append, hnext.attempted failure hfailed]
    simp
  · have := hnext.returned progress hok
    exact ⟨by rw [this.1]; rfl, by rw [attempts_append, hx.attempts, this.2]; rfl⟩

theorem isRecorded_finish {progress : Progress} {index j : Nat} {output : Bytes} {tokens : Nat}
    (h : (stepAt steps j).label ≠ (stepAt steps index).label) :
    isRecorded steps (progress.finish (stepAt steps index).label index output tokens).outputs j =
      isRecorded steps progress.outputs j := by
  simp [isRecorded, Progress.finish, List.lookup_cons, beq_false_of_ne h]

/-- A later step has another label. -/
theorem later_label_ne {index : Nat} {rest : List Nat} (hnodup : (index :: rest).Nodup)
    (hlabels : ∀ i ∈ index :: rest, ∀ j ∈ index :: rest, (stepAt steps i).label = (stepAt steps j).label → i = j) :
    ∀ j ∈ rest, (stepAt steps j).label ≠ (stepAt steps index).label := by
  intro j hj heq
  have hsame := hlabels j (List.mem_cons_of_mem _ hj) index (List.mem_cons_self ..) heq
  exact (List.nodup_cons.1 hnodup).1 (hsame ▸ hj)

theorem runSteps_ends {todo : List Nat} {progress : Progress} (hnodup : todo.Nodup)
    (hnew : ∀ index ∈ todo, isRecorded steps progress.outputs index = false)
    (hlabels : ∀ i ∈ todo, ∀ j ∈ todo, (stepAt steps i).label = (stepAt steps j).label → i = j) :
    ∃ succeeded recorded, RunEnds steps answers progress.completed todo
      (runSteps steps budget answers todo progress) succeeded recorded := by
  induction todo generalizing progress with
  | nil => exact ⟨0, 0, Nat.le_refl 0, rfl, .inl rfl, nofun, fun _ _ => ⟨rfl, rfl⟩⟩
  | cons index rest ih =>
    have hdelivers := @attemptStep_delivers steps budget answers index progress
    rw [runSteps]
    rcases @runStep_cases steps budget answers index progress (hnew index (List.mem_cons_self ..)) with
      ⟨failure, hfailed, hstep⟩ | ⟨output, tokens, hresult, ⟨error, hstep⟩ | hstep⟩
    · rw [hstep, mk_error_bind]
      exact ended_failed hdelivers hfailed rfl
    · rw [hstep, mk_error_bind]
      exact ⟨1, 1, ended_over_budget hdelivers hresult rfl⟩
    · rw [hstep, mk_ok_bind]
      have hrest : ∀ j ∈ rest, isRecorded steps
          (progress.finish (stepAt steps index).label index output tokens).outputs j = false := by
        intro j hj
        rw [isRecorded_finish (later_label_ne hnodup hlabels j hj)]
        exact hnew j (List.mem_cons_of_mem _ hj)
      obtain ⟨succeeded, recorded, hends⟩ := ih (List.nodup_cons.1 hnodup).2 hrest fun i hi j hj =>
        hlabels i (List.mem_cons_of_mem _ hi) j (List.mem_cons_of_mem _ hj)
      exact ⟨succeeded + 1, recorded + 1, ended_next hdelivers hresult hends⟩

/-- Steps recorded before the run are skipped. -/
theorem runSteps_skip {skipped todo : List Nat} {progress : Progress}
    (h : ∀ index ∈ skipped, isRecorded steps progress.outputs index = true) :
    runSteps steps budget answers (skipped ++ todo) progress = runSteps steps budget answers todo progress := by
  induction skipped with
  | nil => rfl
  | cons index rest ih =>
    have hstep : runStep steps budget answers index progress = pure progress := by
      unfold runStep
      simp [h index (List.mem_cons_self ..)]
    rw [List.cons_append, runSteps, hstep]
    exact ih fun i hi => h i (List.mem_cons_of_mem _ hi)

end

end LaserSdk.Workflow

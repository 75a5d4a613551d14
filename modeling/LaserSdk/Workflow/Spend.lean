import Mathlib
import LaserSdk.Workflow.Saga
/-!
# What a run has spent

The running total of a run saturates, but the two counts of one reply are
added as they come. So the check after a step compares the tokens spent so far
with the ceiling exactly when the counts of every reply add up to a `u64`.
-/

namespace LaserSdk.Workflow

open Lib Traced

/-- The sum of two counts in a build with overflow checks, which aborts, or
without. -/
def sumCounts (overflowChecks : Bool) (input output : Nat) : Option Nat :=
  if input + output < 2 ^ 64 then some (input + output)
  else if overflowChecks then none
  else some ((input + output) % 2 ^ 64)

section

variable (steps : List Step) (answers : Answers)

/-- The usage of the attempt that completes. An attempt is followed by another
only when it times out. -/
def attemptsUsage (index attempt : Nat) : (left : Nat) → Option (Nat × Nat)
  | 0 =>
    match answers.contract index attempt with
    | .ok (.completed reply) => reply.usage
    | _ => none
  | left + 1 =>
    match answers.contract index attempt with
    | .ok (.completed reply) => reply.usage
    | .ok .timedOut => attemptsUsage index (attempt + 1) left
    | _ => none

/-- The usage on the reply that completes a step. A scatter reports none. -/
def completingUsage (index : Nat) : Option (Nat × Nat) :=
  match (stepAt steps index).target with
  | .allCapable _ => none
  | _ =>
    if (stepAt steps index).exclusive then
      attemptsUsage answers index 1
        (match (stepAt steps index).onTimeout with
          | .reassign => maxReassignments
          | .fail => 0)
    else attemptsUsage answers index 1 0

/-- The tokens of a step, as numbers. -/
def replyTokens (index : Nat) : Nat := (completingUsage steps answers index).elim 0 fun usage => usage.1 + usage.2

/-- Where a run starts. -/
def begun (order : List Nat) (journal : List JournalRecord) : Progress :=
  ⟨replay journal, order.filter (isRecorded steps (replay journal)), 0, 0⟩

variable (budget : WorkflowBudget) (journal : List JournalRecord)

/-- A step of the run is delivered, after those before it. -/
def Completes (order done : List Nat) (index : Nat) (progress : Progress) (output : Bytes) (tokens : Nat) : Prop :=
  topologicalOrder steps = .ok order ∧ done ++ [index] <+: order ∧
    (runSteps steps budget answers done (begun steps order journal)).result = .ok progress ∧
    isRecorded steps progress.outputs index = false ∧
    (attemptStep steps budget answers index progress).result = .ok (output, tokens)

/-- The steps this run has completed. -/
def newlyCompleted (order : List Nat) (progress : Progress) : List Nat :=
  progress.completed.drop (begun steps order journal).completed.length

/-- The tokens of the steps this run has completed. -/
def spentSoFar (order : List Nat) (progress : Progress) : Nat :=
  ((newlyCompleted steps journal order progress).map (replyTokens steps answers)).sum

/-- One of the ceilings is passed. -/
def Breached (invocations tokens elapsed : Nat) : Prop :=
  (∃ ceiling, budget.invocations = some ceiling ∧ ceiling < invocations) ∨
    (∃ ceiling, budget.tokens = some ceiling ∧ ceiling < tokens) ∨
    ∃ ceiling, budget.wallClock = some ceiling ∧ ceiling < elapsed

/-- After each completed step its counts are added without a wrap or an abort,
and a breach is reported exactly when the tokens so far pass the ceiling. -/
def ChecksExactly : Prop :=
  ∀ order done index progress output tokens, Completes steps answers budget journal order done index progress output tokens →
    (∀ usage ∈ completingUsage steps answers index, ∀ overflowChecks,
      sumCounts overflowChecks usage.1 usage.2 = some (usage.1 + usage.2)) ∧
    ((∃ error, (runStep steps budget answers index progress).result = .error ⟨.budget, error⟩) ↔
      Breached budget (progress.invocations + 1)
        (spentSoFar steps answers journal order progress + replyTokens steps answers index)
        (answers.elapsed index .after))

end

variable {steps : List Step} {budget : WorkflowBudget} {answers : Answers} {journal : List JournalRecord}

/-! ## One step -/

theorem dispatchOne_tokens {index attempt : Nat} {body : Bytes} {tokens : Nat}
    (h : (dispatchOne answers index attempt).result = .ok (.completed body tokens)) :
    ∃ reply, answers.contract index attempt = .ok (.completed reply) ∧
      tokens = (reply.usage.elim 0 fun usage => usage.1 + usage.2) % 2 ^ 64 := by
  unfold dispatchOne at h
  cases hcontract : answers.contract index attempt with
  | error error =>
    rw [hcontract] at h
    cases h
  | ok contract =>
    rw [hcontract] at h
    cases contract with
    | completed reply =>
      cases h
      refine ⟨reply, rfl, ?_⟩
      cases reply.usage <;> simp
    | _ => cases h

theorem dispatchOne_timedOut {index attempt : Nat} (h : (dispatchOne answers index attempt).result = .ok .timedOut) :
    answers.contract index attempt = .ok .timedOut := by
  unfold dispatchOne at h
  cases hcontract : answers.contract index attempt with
  | error error =>
    rw [hcontract] at h
    cases h
  | ok contract =>
    rw [hcontract] at h
    cases contract with
    | timedOut => rfl
    | _ => cases h

/-- A completion passes the dispatch on. -/
theorem completion_result {index attempt : Nat} {dispatch : StepDispatch}
    (h : (completion steps answers index attempt).result = .ok dispatch) :
    (dispatchOne answers index attempt).result = .ok dispatch := by
  unfold completion at h
  obtain ⟨inner, hinner, hrest, -⟩ := bind_returns h
  rw [hinner]
  cases inner with
  | completed body tokens =>
    obtain ⟨done, -, hreturn, -⟩ := bind_returns hrest
    exact hreturn
  | _ => exact hrest

theorem attempt_result {index attempt : Nat} {dispatch : StepDispatch}
    (h : (dispatchExclusiveAttempt steps answers index attempt).result = .ok dispatch) :
    (dispatchOne answers index attempt).result = .ok dispatch := by
  unfold dispatchExclusiveAttempt at h
  obtain ⟨fenced, -, h, -⟩ := bind_returns h
  obtain ⟨connected, -, h, -⟩ := bind_returns h
  obtain ⟨granted, -, h, -⟩ := bind_returns h
  unfold underLease at h
  split at h
  · cases h
  · cases h
  · obtain ⟨inner, hinner, h, -⟩ := bind_returns h
    obtain ⟨released, -, h, -⟩ := bind_returns h
    obtain ⟨kept, -, h, -⟩ := bind_returns h
    cases h
    exact completion_result hinner

theorem exclusiveAttempts_tokens {index attempt left : Nat} {output : Bytes} {tokens : Nat}
    (h : (exclusiveAttempts steps answers index attempt left).result = .ok (output, tokens)) :
    tokens = ((attemptsUsage answers index attempt left).elim 0 fun usage => usage.1 + usage.2) % 2 ^ 64 := by
  induction left generalizing attempt with
  | zero =>
    rw [exclusiveAttempts] at h
    obtain ⟨outcome, houtcome, h, -⟩ := bind_returns h
    cases outcome with
    | completed body spent =>
      cases h
      obtain ⟨reply, hcontract, rfl⟩ := dispatchOne_tokens (attempt_result houtcome)
      simp only [attemptsUsage, hcontract]
    | _ => cases h
  | succ left ih =>
    rw [exclusiveAttempts] at h
    obtain ⟨outcome, houtcome, h, -⟩ := bind_returns h
    cases outcome with
    | completed body spent =>
      cases h
      obtain ⟨reply, hcontract, rfl⟩ := dispatchOne_tokens (attempt_result houtcome)
      simp only [attemptsUsage, hcontract]
    | timedOut =>
      rw [ih h]
      simp only [attemptsUsage, dispatchOne_timedOut (attempt_result houtcome)]
    | notCompleted => cases h

theorem directed_tokens {index : Nat} {output : Bytes} {tokens : Nat}
    (h : (do
      let dispatch ← dispatchOne answers index 1
      match dispatch with
      | .completed output tokens => do
        finalizeStep steps answers index output
        return (output, tokens)
      | _ => raise .dispatch (.handlerConfig "a workflow step did not complete") : Engine (Bytes × Nat)).result =
        .ok (output, tokens)) :
    tokens = ((attemptsUsage answers index 1 0).elim 0 fun usage => usage.1 + usage.2) % 2 ^ 64 := by
  obtain ⟨dispatch, hdispatch, h, -⟩ := bind_returns h
  cases dispatch with
  | completed body spent =>
    obtain ⟨done, -, hreturn, -⟩ := bind_returns h
    cases hreturn
    obtain ⟨reply, hcontract, rfl⟩ := dispatchOne_tokens hdispatch
    simp only [attemptsUsage, hcontract]
  | _ => cases h

theorem scatter_tokens {index : Nat} {output : Bytes} {tokens : Nat}
    (h : (scatter answers index).result = .ok (output, tokens)) : tokens = 0 := by
  unfold scatter at h
  obtain ⟨sent, -, h, -⟩ := bind_returns h
  obtain ⟨bodies, -, h, -⟩ := bind_returns h
  obtain ⟨some, -, h, -⟩ := bind_returns h
  obtain ⟨completed, -, h, -⟩ := bind_returns h
  cases h
  rfl

/-- The tokens of a delivered step, wrapped. -/
theorem attemptStep_tokens {index : Nat} {progress : Progress} {output : Bytes} {tokens : Nat}
    (h : (attemptStep steps budget answers index progress).result = .ok (output, tokens)) :
    tokens = replyTokens steps answers index % 2 ^ 64 := by
  unfold attemptStep at h
  obtain ⟨checked, -, h, -⟩ := bind_returns h
  obtain ⟨asked, -, h, -⟩ := bind_returns h
  obtain ⟨payload, -, h, -⟩ := bind_returns h
  unfold deliver at h
  unfold replyTokens completingUsage
  cases htarget : (stepAt steps index).target with
  | allCapable skill =>
    simp only [htarget] at h ⊢
    obtain ⟨scattered, hscatter, h, -⟩ := bind_returns h
    obtain ⟨done, -, h, -⟩ := bind_returns h
    cases h
    exact scatter_tokens hscatter
  | _ =>
    simp only [htarget] at h ⊢
    by_cases hexclusive : (stepAt steps index).exclusive = true
    · rw [if_pos hexclusive] at h ⊢
      exact exclusiveAttempts_tokens h
    · rw [if_neg hexclusive] at h ⊢
      exact directed_tokens h

/-! ## The check -/

theorem checkBudget_ok {invocations spent elapsed : Nat} :
    checkBudget budget invocations spent elapsed = .ok () ↔ ¬ Breached budget invocations spent elapsed := by
  obtain ⟨tokens, wallClock, count⟩ := budget
  cases count <;> cases tokens <;> cases wallClock <;> simp [checkBudget, Breached, not_or]

/-- After a delivered step the run fails exactly when the check does. -/
theorem runStep_breached {index : Nat} {progress : Progress} {output : Bytes} {tokens : Nat}
    (hnew : isRecorded steps progress.outputs index = false)
    (hresult : (attemptStep steps budget answers index progress).result = .ok (output, tokens)) :
    (∃ error, (runStep steps budget answers index progress).result = .error ⟨.budget, error⟩) ↔
      Breached budget (progress.invocations + 1) (min (progress.tokensSpent + tokens) (2 ^ 64 - 1))
        (answers.elapsed index .after) := by
  have hok : orCompensate steps answers progress (attemptStep steps budget answers index progress) =
      attemptStep steps budget answers index progress := by
    unfold orCompensate
    simp only [hresult]
  unfold runStep
  simp only [hnew, Bool.false_eq_true, if_false]
  rw [hok, bind_of_ok hresult, ← not_iff_not, ← checkBudget_ok]
  simp only [Progress.finish]
  cases hcheck : checkBudget budget (progress.invocations + 1) (min (progress.tokensSpent + tokens) (2 ^ 64 - 1))
      (answers.elapsed index .after) with
  | error error =>
    refine iff_of_false (not_not.2 ⟨error, ?_⟩) (by simp)
    rfl
  | ok passed =>
    refine iff_of_true ?_ rfl
    rintro ⟨error, herror⟩
    cases herror

/-! ## A run -/

theorem runSteps_append (first rest : List Nat) (progress : Progress) :
    (runSteps steps budget answers (first ++ rest) progress).result =
      (runSteps steps budget answers first progress >>= runSteps steps budget answers rest).result := by
  induction first generalizing progress with
  | nil => rfl
  | cons index first ih =>
    rw [List.cons_append, runSteps, runSteps]
    cases hstep : (runStep steps budget answers index progress).result with
    | error failure => simp [bind_of_error hstep]
    | ok next =>
      rw [bind_of_ok hstep, bind_of_ok hstep, ih next]
      cases hfirst : (runSteps steps budget answers first next).result with
      | error failure => rw [bind_of_error hfirst, mk_error_bind]
      | ok last => rw [bind_of_ok hfirst, mk_ok_bind]

/-- What one step does to the progress of a run that goes on. -/
theorem runStep_progress {index : Nat} {progress next : Progress}
    (hok : (runStep steps budget answers index progress).result = .ok next) :
    isRecorded steps progress.outputs index = true ∧ next = progress ∨
    isRecorded steps progress.outputs index = false ∧
      ∃ output tokens, (attemptStep steps budget answers index progress).result = .ok (output, tokens) ∧
        next = progress.finish (stepAt steps index).label index output tokens := by
  cases hnew : isRecorded steps progress.outputs index with
  | true =>
    left
    unfold runStep at hok
    simp only [hnew, if_true] at hok
    cases hok
    exact ⟨rfl, rfl⟩
  | false =>
    right
    obtain ⟨output, tokens, hresult, -, hnext⟩ := runStep_ok hnew hok
    exact ⟨rfl, output, tokens, hresult, hnext⟩

/-- Every completed step's counts add up to a `u64`. -/
def CountsFit (steps : List Step) (answers : Answers) (budget : WorkflowBudget) (journal : List JournalRecord) : Prop :=
  ∀ order done index progress output tokens, Completes steps answers budget journal order done index progress output tokens →
    replyTokens steps answers index < 2 ^ 64

/-- The running total is the tokens so far, as far as a `u64` goes. -/
theorem tokensSpent_eq (hfit : CountsFit steps answers budget journal) {order done : List Nat} {progress : Progress}
    (horder : topologicalOrder steps = .ok order) (hdone : done <+: order)
    (hok : (runSteps steps budget answers done (begun steps order journal)).result = .ok progress) :
    ∃ new, progress.completed = (begun steps order journal).completed ++ new ∧
      progress.tokensSpent = min (new.map (replyTokens steps answers)).sum (2 ^ 64 - 1) := by
  induction done using List.reverseRecOn generalizing progress with
  | nil =>
    cases hok
    exact ⟨[], (List.append_nil _).symm, rfl⟩
  | append_singleton done index ih =>
    rw [runSteps_append] at hok
    obtain ⟨before, hbefore, hstep, -⟩ := bind_returns hok
    obtain ⟨next, hnext, hlast, -⟩ := bind_returns hstep
    cases hlast
    obtain ⟨new, hcompleted, hspent⟩ := ih ((List.prefix_append done [index]).trans hdone) hbefore
    rcases runStep_progress hnext with ⟨-, rfl⟩ | ⟨hnew, output, tokens, hresult, rfl⟩
    · exact ⟨new, hcompleted, hspent⟩
    · have hsmall := hfit order done index before output tokens ⟨horder, hdone, hbefore, hnew, hresult⟩
      have htokens := attemptStep_tokens hresult
      rw [Nat.mod_eq_of_lt hsmall] at htokens
      refine ⟨new ++ [index], ?_, ?_⟩
      · simp [Progress.finish, hcompleted]
      · simp only [Progress.finish, hspent, htokens, List.map_append, List.sum_append, List.map_singleton,
          List.sum_singleton]
        omega

theorem sumCounts_exact {overflowChecks : Bool} {input output : Nat} :
    sumCounts overflowChecks input output = some (input + output) ↔ input + output < 2 ^ 64 := by
  unfold sumCounts
  by_cases h : input + output < 2 ^ 64
  · rw [if_pos h]
    exact iff_of_true rfl h
  · rw [if_neg h]
    refine iff_of_false ?_ h
    cases overflowChecks with
    | true => exact nofun
    | false =>
      intro heq
      have := Option.some.inj heq
      omega

theorem counts_exact {index : Nat} : (∀ usage ∈ completingUsage steps answers index, ∀ overflowChecks,
    sumCounts overflowChecks usage.1 usage.2 = some (usage.1 + usage.2)) ↔ replyTokens steps answers index < 2 ^ 64 := by
  unfold replyTokens
  cases completingUsage steps answers index with
  | none => simp
  | some usage => simp [sumCounts_exact]

/-- The spend is checked exactly after every completed step if and only if the
counts of every reply that completes one add up to a `u64`. -/
theorem spend_checked_exactly_iff (hceiling : ∀ ceiling, budget.tokens = some ceiling → ceiling < 2 ^ 64 - 1) :
    ChecksExactly steps answers budget journal ↔ CountsFit steps answers budget journal := by
  constructor
  · intro hexact order done index progress output tokens hcompletes
    exact counts_exact.1 (hexact order done index progress output tokens hcompletes).1
  · intro hfit order done index progress output tokens hcompletes
    have hsmall := hfit order done index progress output tokens hcompletes
    obtain ⟨horder, hdone, hbefore, hnew, hresult⟩ := hcompletes
    refine ⟨counts_exact.2 hsmall, ?_⟩
    obtain ⟨new, hcompleted, hspent⟩ := tokensSpent_eq hfit horder ((List.prefix_append done [index]).trans hdone) hbefore
    have htokens := attemptStep_tokens hresult
    rw [Nat.mod_eq_of_lt hsmall] at htokens
    have hsum : spentSoFar steps answers journal order progress = (new.map (replyTokens steps answers)).sum := by
      simp [spentSoFar, newlyCompleted, hcompleted]
    rw [runStep_breached hnew hresult, hspent, hsum, htokens]
    refine or_congr_right (or_congr_left (exists_congr fun ceiling => and_congr_right fun hlimit => ?_))
    have := hceiling ceiling hlimit
    omega

/-- Two questions to a model. -/
def twoQuestions : List Step :=
  [⟨"draft", .to "writer", [], false, false, .fail, false⟩, ⟨"polish", .to "editor", ["draft"], false, false, .fail, false⟩]

def tokenCeiling (ceiling : Nat) : WorkflowBudget := ⟨some ceiling, none, none⟩

/-- Every reply carries the same usage. -/
def usedEach (input output : Nat) : Answers := { calm with contract := fun _ _ => .ok (.completed ⟨[1], some (input, output)⟩) }

theorem usedEach_attempts {input output index attempt left : Nat} :
    attemptsUsage (usedEach input output) index attempt left = some (input, output) := by
  cases left <;> rfl

theorem usedEach_tokens {steps : List Step} {input output index : Nat} :
    replyTokens steps (usedEach input output) index ≤ input + output := by
  unfold replyTokens completingUsage
  simp only [usedEach_attempts]
  split <;> simp

theorem two_questions_checked : ChecksExactly twoQuestions (usedEach 6 1) (tokenCeiling 10) [] ∧
    (execute twoQuestions (tokenCeiling 10) (usedEach 6 1) []).result = .error ⟨.budget, .budgetExceeded 10 14⟩ := by
  have hceiling : ∀ ceiling, (tokenCeiling 10).tokens = some ceiling → ceiling < 2 ^ 64 - 1 := by
    rintro ceiling ⟨⟩
    decide
  refine ⟨(spend_checked_exactly_iff hceiling).2 ?_, by decide⟩
  intro order done index progress output tokens hcompletes
  exact Nat.lt_of_le_of_lt usedEach_tokens (by decide)

/-- The counts of each reply wrap to nothing, and the run returns under a
ceiling of ten tokens. With overflow checks it aborts. -/
theorem wrapped_counts_pass :
    (execute twoQuestions (tokenCeiling 10) (usedEach (2 ^ 64 - 1) 1) []).result = .ok [("polish", [1]), ("draft", [1])] ∧
      ¬ ChecksExactly twoQuestions (usedEach (2 ^ 64 - 1) 1) (tokenCeiling 10) [] := by
  refine ⟨by decide, fun hexact => ?_⟩
  have hfirst := hexact [0, 1] [] 0 ⟨[], [], 0, 0⟩ [1] 0 ⟨rfl, by decide, rfl, rfl, by decide⟩
  have hchecked := hfirst.1 (2 ^ 64 - 1, 1) (by decide) true
  revert hchecked
  decide

end LaserSdk.Workflow

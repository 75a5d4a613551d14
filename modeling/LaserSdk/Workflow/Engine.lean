import LaserSdk.Lib.Trace
import LaserSdk.Workflow.Order
/-!
# The workflow engine

One run replays the journal, takes the steps in order and leaves a trace of
what reached the outside: commands, completed dispatches, journal records and
compensations. What the outside answers in a run is a record of its own, so a
statement about every run is one about all answers. A crash cuts the trace.
-/

namespace LaserSdk.Workflow

open Lib Traced

abbrev Bytes := List UInt8

/-- The outputs by label, the newest first. -/
abbrev Outputs := List (String × Bytes)

/-- A record of the journal topic. -/
inductive JournalRecord where
  | stepCompleted (label : String) (output : Bytes)
  /-- A record of another run. -/
  | other
  deriving DecidableEq, Repr

inductive Event where
  /-- The payload of a step is asked for, with the outputs so far. -/
  | building (index : Nat) (outputs : Outputs)
  | dispatched (index : Nat)
  /-- A dispatch came back completed. -/
  | completed (index : Nat)
  /-- A completion record reached the journal. -/
  | recorded (index : Nat) (label : String) (output : Bytes)
  /-- A compensation is attempted. -/
  | compensating (index : Nat)
  /-- The command of a compensation is dispatched. -/
  | compensated (index : Nat)
  deriving DecidableEq, Repr

structure WorkflowBudget where
  tokens : Option Nat
  /-- Nanoseconds, as all durations here. -/
  wallClock : Option Nat
  invocations : Option Nat
  deriving DecidableEq, Repr

def stepBudgetFloor : Nat := 100000000

def maxReassignments : Nat := 2

/-! ## What the outside answers -/

structure Reply where
  body : Bytes
  /-- Input and output tokens. -/
  usage : Option (Nat × Nat)
  deriving DecidableEq, Repr

inductive Contract where
  | completed (reply : Reply)
  | timedOut
  | failed
  | notConsumed
  deriving DecidableEq, Repr

/-- An append to the journal. An error may come back for a record that landed. -/
inductive Append where
  | accepted
  | landed (error : LaserError)
  | lost (error : LaserError)
  deriving DecidableEq, Repr

/-- One round of the loop that keeps a lease. `cut` counts the effects the
completion had left when the round dropped it, `progress` those it had left
when the round was over. -/
inductive Round where
  /-- The completion ends while the loop sleeps. -/
  | completes
  /-- The completion ends while a renewal is under way, with its result. -/
  | completesRenewing (renewal : Except LaserError Unit)
  | renewed (granted progress : Nat)
  | renewalFailed (error : LaserError) (cut : Nat)
  /-- The lease is over before the renewal starts. -/
  | expired (cut : Nat)
  /-- The renewal cannot be prepared. -/
  | unprepared (error : LaserError) (cut : Nat)

inductive Moment where
  | floor | before | after
  deriving DecidableEq, Repr

/-- The answers to one run, by the index of the step and, for an exclusive
step, the number of the attempt. -/
structure Answers where
  replay : Except LaserError Unit
  cancelRequested : Nat → Except LaserError Bool
  /-- The breach of the run session's budget, with its ceiling and spend. -/
  budgetBreach : Nat → Except LaserError (Option (Nat × Nat))
  /-- The time since the start of the run. -/
  elapsed : Nat → Moment → Nat
  build : Nat → Outputs → Except LaserError Bytes
  contract : Nat → Nat → Except LaserError Contract
  scatter : Nat → Except LaserError (List Bytes)
  /-- `String::from_utf8_lossy`. -/
  lossyText : Bytes → Bytes
  verify : Nat → Bytes → Except LaserError Bool
  journal : Nat → Append
  fencedLeases : Bool
  coordination : Nat → Nat → Except LaserError Unit
  /-- The granted time of a lease. -/
  lease : Nat → Nat → Except LaserError Nat
  rounds : Nat → Nat → List Round
  release : Nat → Nat → Except LaserError Bool
  compensate : Nat → Outputs → Except LaserError Bytes

/-! ## Errors -/

/-- Where an error of a run is raised. -/
inductive Stage where
  | setup | control | cancel | budget | config | build | dispatch | verification | journal | lease
  deriving DecidableEq, Repr

structure Failure where
  stage : Stage
  error : LaserError
  deriving DecidableEq, Repr

/-- An error raised by a step or by the budget. -/
def Failure.byStepOrBudget (failure : Failure) : Bool :=
  match failure.stage with
  | .budget | .build | .dispatch | .verification | .journal | .lease => true
  | .setup | .control | .cancel | .config => false

abbrev Engine := Traced Event Failure

def ask {α : Type} (stage : Stage) (answer : Except LaserError α) : Engine α := call (answer.mapError (Failure.mk stage))

def raise {α : Type} (stage : Stage) (error : LaserError) : Engine α := fail ⟨stage, error⟩

/-! ## Dispatching -/

inductive StepDispatch where
  | completed (body : Bytes) (tokens : Nat)
  | timedOut
  | notCompleted
  deriving DecidableEq, Repr

/-- The sum of a reply's tokens wraps as a `u64`. -/
def StepDispatch.ofContract : Contract → StepDispatch
  | .completed reply => .completed reply.body (reply.usage.elim 0 fun usage => (usage.1 + usage.2) % 2 ^ 64)
  | .timedOut => .timedOut
  | .failed | .notConsumed => .notCompleted

section

variable (steps : List Step) (budget : WorkflowBudget) (answers : Answers)

def stepAt (index : Nat) : Step := steps.getD index default

def journal (index : Nat) (output : Bytes) : Engine Unit :=
  match answers.journal index with
  | .accepted => emit (.recorded index (stepAt steps index).label output)
  -- The record is there for the next run, though this one fails.
  | .landed error => do
    emit (.recorded index (stepAt steps index).label output)
    raise .journal error
  | .lost error => raise .journal error

def finalizeStep (index : Nat) (output : Bytes) : Engine Unit := do
  if (stepAt steps index).verifier then
    let passed ← ask .verification (answers.verify index output)
    failIf (passed = false)
      ⟨.verification, .handlerConfig s!"workflow step `{(stepAt steps index).label}` failed verification"⟩
  journal steps answers index output

def dispatchOne (index attempt : Nat) : Engine StepDispatch := do
  emit (.dispatched index)
  let contract ← ask .dispatch (answers.contract index attempt)
  match contract with
  | .completed reply => do
    emit (.completed index)
    return .ofContract (.completed reply)
  | contract => return .ofContract contract

/-- The future an exclusive step runs beside its lease. -/
def completion (index attempt : Nat) : Engine StepDispatch := do
  let dispatch ← dispatchOne answers index attempt
  match dispatch with
  | .completed body tokens => do
    finalizeStep steps answers index body
    return .completed body tokens
  | dispatch => return dispatch

/-- How the loop that keeps a lease ends. -/
inductive Maintained where
  /-- With an error. The completion is dropped after `cut` effects. -/
  | dropped (error : LaserError) (cut : Nat)
  /-- With the completion, and the error of a renewal under way. -/
  | finished (renewal : Option LaserError)
  deriving DecidableEq, Repr

/-- The loop of one assignment. It starts over after each renewal with the
time then granted, and gives up on one too short to renew. -/
def maintain (granted progress : Nat) : List Round → Maintained
  | [] => if granted / 2 = 0 then .dropped .leaseLost progress else .finished none
  | round :: rest =>
    if granted / 2 = 0 then .dropped .leaseLost progress
    else match round with
      | .completes | .completesRenewing (.ok ()) => .finished none
      | .completesRenewing (.error error) => .finished (some error)
      | .renewed granted progress => maintain granted progress rest
      | .renewalFailed error cut | .unprepared error cut => .dropped error cut
      | .expired cut => .dropped .leaseLost cut

/-- One assignment once its lease is granted. A release is tried on every
way out, and counts where the completion went well. -/
def underLease (index attempt granted : Nat) : Engine StepDispatch :=
  match maintain granted 0 (answers.rounds index attempt) with
  | .dropped error cut => ⟨(completion steps answers index attempt).trace.take cut, .error ⟨.lease, error⟩⟩
  | .finished (some error) => ⟨(completion steps answers index attempt).trace, .error ⟨.lease, error⟩⟩
  | .finished none => do
    let dispatch ← completion steps answers index attempt
    let released ← ask .lease (answers.release index attempt)
    failIf (released = false) ⟨.lease, .leaseLost⟩
    return dispatch

def dispatchExclusiveAttempt (index attempt : Nat) : Engine StepDispatch := do
  failIf (answers.fencedLeases = false) ⟨.lease, .unsupportedFeature⟩
  ask .lease (answers.coordination index attempt)
  let granted ← ask .lease (answers.lease index attempt)
  underLease steps answers index attempt granted

/-- The attempts of an exclusive step, with those left after this one. -/
def exclusiveAttempts (index attempt : Nat) : (left : Nat) → Engine (Bytes × Nat)
  | 0 => do
    let outcome ← dispatchExclusiveAttempt steps answers index attempt
    match outcome with
    | .completed body tokens => return (body, tokens)
    | _ => raise .dispatch (.handlerConfig "an exclusive workflow step did not complete")
  | left + 1 => do
    let outcome ← dispatchExclusiveAttempt steps answers index attempt
    match outcome with
    | .completed body tokens => return (body, tokens)
    -- Only a timed out attempt is given to another agent.
    | .timedOut => exclusiveAttempts index (attempt + 1) left
    | .notCompleted => raise .dispatch (.handlerConfig "an exclusive workflow step did not complete")

def dispatchExclusive (index : Nat) : Engine (Bytes × Nat) :=
  exclusiveAttempts steps answers index 1
    (match (stepAt steps index).onTimeout with
      | .reassign => maxReassignments
      | .fail => 0)

/-- Each completed reply on a line of its own. -/
def scatter (index : Nat) : Engine (Bytes × Nat) := do
  emit (.dispatched index)
  let bodies ← ask .dispatch (answers.scatter index)
  failIf (bodies = []) ⟨.dispatch, .handlerConfig "no capable agent completed the all-capable step"⟩
  emit (.completed index)
  return (List.intercalate [10] (bodies.map answers.lossyText), 0)

/-- Dispatch a step and record its completion. -/
def deliver (index : Nat) : Engine (Bytes × Nat) :=
  match (stepAt steps index).target with
  | .allCapable _ => do
    let (output, tokens) ← scatter answers index
    finalizeStep steps answers index output
    return (output, tokens)
  | _ =>
    if (stepAt steps index).exclusive then dispatchExclusive steps answers index
    else do
      let dispatch ← dispatchOne answers index 1
      match dispatch with
      | .completed output tokens => do
        finalizeStep steps answers index output
        return (output, tokens)
      | _ => raise .dispatch (.handlerConfig "a workflow step did not complete")

/-! ## Running -/

def asMicros (nanos : Nat) : Nat := min (nanos / 1000) (2 ^ 64 - 1)

def checkBudget (invocations tokensSpent elapsed : Nat) : Except LaserError Unit := do
  if let some ceiling := budget.invocations then
    refuseIf (invocations > ceiling) (.budgetExceeded ceiling invocations)
  if let some ceiling := budget.tokens then
    refuseIf (tokensSpent > ceiling) (.budgetExceeded ceiling tokensSpent)
  if let some ceiling := budget.wallClock then
    refuseIf (elapsed > ceiling) (.budgetExceeded (asMicros ceiling) (asMicros elapsed))

structure Progress where
  outputs : Outputs
  completed : List Nat
  tokensSpent : Nat
  invocations : Nat
  deriving DecidableEq, Repr

/-- The compensations of the completed steps in reverse order. One that cannot
be built is skipped. -/
def compensate (progress : Progress) : List Event :=
  progress.completed.reverse.flatMap fun index =>
    if (stepAt steps index).compensate then
      .compensating index :: match answers.compensate index progress.outputs with
        | .ok _ => [.compensated index]
        | .error _ => []
    else []

/-- Compensate on an error. A failed read of the control topic or of the
spend leaves without. -/
def orCompensate {α : Type} (progress : Progress) (x : Engine α) : Engine α :=
  match x.result with
  | .error failure =>
    if failure.stage = .control then x
    else ⟨x.trace ++ compensate steps answers progress, .error failure⟩
  | .ok _ => x

def checkBreach : Option (Nat × Nat) → Engine Unit
  | some (ceiling, spent) => raise .budget (.budgetExceeded ceiling spent)
  | none => pure ()

/-- A near-spent wall clock is a breach before any lease is claimed. -/
def checkFloor (index : Nat) : Engine Unit :=
  match budget.wallClock with
  | some total =>
    failIf (total - answers.elapsed index .floor < stepBudgetFloor)
      ⟨.budget, .budgetExceeded (asMicros total) (asMicros (answers.elapsed index .floor))⟩
  | none => pure ()

def checkDirected (index : Nat) : Engine Unit :=
  match (stepAt steps index).exclusive, (stepAt steps index).target with
  | true, .allCapable _ => raise .config (.invalid "an exclusive step must be directed (to / to_capable)")
  | _, _ => pure ()

/-- The checks on a step before it is dispatched. -/
def checkStep (index : Nat) (progress : Progress) : Engine Unit := do
  let cancelled ← ask .control (answers.cancelRequested index)
  failIf (cancelled = true) ⟨.cancel, .cancelled⟩
  let breach ← ask .control (answers.budgetBreach index)
  checkBreach breach
  failIf ((stepAt steps index).target = .broadcast) ⟨.config, .invalid "a broadcast workflow step has no gather target"⟩
  checkFloor budget answers index
  checkDirected steps index
  failIf ((stepAt steps index).exclusive = false ∧ (stepAt steps index).onTimeout = .reassign) ⟨.config, .invalid
    "on_timeout(Reassign) needs an exclusive step, so the reassignment bumps the fence and the timed-out holder is gated out"⟩
  ask .budget (checkBudget budget (progress.invocations + 1) progress.tokensSpent (answers.elapsed index .before))

/-- A step up to its completion record. -/
def attemptStep (index : Nat) (progress : Progress) : Engine (Bytes × Nat) := do
  checkStep steps budget answers index progress
  emit (.building index progress.outputs)
  let _ ← ask .build (answers.build index progress.outputs)
  deliver steps answers index

def Progress.finish (progress : Progress) (label : String) (index : Nat) (output : Bytes) (tokens : Nat) : Progress :=
  ⟨(label, output) :: progress.outputs, progress.completed ++ [index],
    min (progress.tokensSpent + tokens) (2 ^ 64 - 1), progress.invocations + 1⟩

def isRecorded (outputs : Outputs) (index : Nat) : Bool := (outputs.lookup (stepAt steps index).label).isSome

def runStep (index : Nat) (progress : Progress) : Engine Progress := do
  if isRecorded steps progress.outputs index then
    return progress
  let (output, tokens) ← orCompensate steps answers progress (attemptStep steps budget answers index progress)
  -- The step is counted, and so compensated, before its spend is checked.
  let progress := progress.finish (stepAt steps index).label index output tokens
  orCompensate steps answers progress
    (ask .budget (checkBudget budget progress.invocations progress.tokensSpent (answers.elapsed index .after)))
  return progress

def runSteps : List Nat → Progress → Engine Progress
  | [], progress => pure progress
  | index :: rest, progress => do
    let progress ← runStep steps budget answers index progress
    runSteps rest progress

end

/-! ## The journal -/

def contextReadWindow : Nat := 10000

/-- The default policy of a context read. -/
def lastRecords : Nat := 50

def lastN {α : Type} (n : Nat) (l : List α) : List α := (l.reverse.take n).reverse

def JournalRecord.entry : JournalRecord → Option (String × Bytes)
  | .stepCompleted label output => some (label, output)
  | .other => none

/-- The completion records of the run on its partition. -/
def entries (records : List JournalRecord) : List (String × Bytes) := records.filterMap JournalRecord.entry

/-- What one read gives: the newest records of the run among the newest of the
partition, folded with a later record over an earlier one. -/
def replay (records : List JournalRecord) : Outputs :=
  (lastN lastRecords (entries (lastN contextReadWindow records))).reverse

def execute (steps : List Step) (budget : WorkflowBudget) (answers : Answers) (records : List JournalRecord) :
    Engine Outputs := do
  let order ← ask .setup (topologicalOrder steps)
  ask .setup answers.replay
  let outputs := replay records
  -- Recorded steps are compensated with the others.
  let completed := order.filter (isRecorded steps outputs)
  let progress ← runSteps steps budget answers order ⟨outputs, completed, 0, 0⟩
  return progress.outputs

end LaserSdk.Workflow

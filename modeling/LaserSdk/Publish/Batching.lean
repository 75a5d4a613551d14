import Mathlib.Logic.Function.Basic
import LaserSdk.Lib.Runs
/-!
# The batching producer

Senders queue records. A flush takes the whole queue and appends it in chunks
while it holds the lock over the kept failure, so batches follow each other.
A sender hears of its own inline flush, the linger timer keeps its failure,
and the next sender or caller gets what was kept.

Calls run concurrently: a step is one stretch of a call between two waits.
What the log takes of an append and what it answers is part of the step.
-/

namespace LaserSdk.Publish

open Lib

/-- One message, named by the `send` call that built it. -/
structure Record where
  sender : Nat
  size : Nat
  deriving DecidableEq, Repr

/-- A range the log confirmed. -/
structure Confirmation where
  partition : Nat
  baseOffset : Nat
  deriving DecidableEq, Repr

/-! ## Errors -/

inductive Cause where
  /-- The partition key is refused. -/
  | partitioning
  | timeout
  /-- A reconnect can clear it. -/
  | transient
  | permanent
  deriving DecidableEq, Repr

def Cause.retryable : Cause → Bool
  | .timeout | .transient => true
  | .partitioning | .permanent => false

/-- How one attempt at a chunk failed. The producer may tell which records of
the chunk it did not confirm. -/
inductive SendError where
  | producerSendFailed (cause : Cause) (failed : List Record) (committed : List Confirmation) (stream topic : String)
  | other (cause : Cause)
  deriving DecidableEq, Repr

def SendError.retryable : SendError → Bool
  | .producerSendFailed cause _ _ _ _ => cause.retryable
  | .other cause => cause.retryable

structure PublishFailure where
  source : Cause
  stream : String
  topic : String
  committed : List Confirmation
  unconfirmed : List Record
  deriving DecidableEq, Repr

inductive LaserError where
  | publishFailed (failure : PublishFailure)
  | plain (cause : Cause)
  deriving DecidableEq, Repr

/-- The records an error lists as unconfirmed. -/
def LaserError.unconfirmed : LaserError → List Record
  | .publishFailed failure => failure.unconfirmed
  | .plain _ => []

/-- The records of an error, if there is one. -/
def records (error : Option LaserError) : List Record := (error.map LaserError.unconfirmed).getD []

/-- `pending` is the failed chunk followed by every record after it. -/
def publishFailure (error : SendError) (pending : List Record) (confirmations : List Confirmation) (attempted : Nat)
    (target : String × String) : LaserError :=
  let unsent := pending.drop attempted
  match error with
  | .producerSendFailed cause failed committed stream topic =>
    .publishFailed ⟨cause, stream, topic, confirmations ++ committed, failed ++ unsent⟩
  | .other cause => .publishFailed ⟨cause, target.1, target.2, confirmations, pending⟩

/-- A kept failure reported to a sender whose record was never queued. -/
def refuse (kept : LaserError) (record : Record) (stream topic : String) : LaserError :=
  match kept with
  | .publishFailed failure => .publishFailed { failure with unconfirmed := failure.unconfirmed ++ [record] }
  | .plain source => .publishFailed ⟨source, stream, topic, [], [record]⟩

/-- One report for two failed batches. A later failure joins an earlier one
only when both list their records. -/
def merge : LaserError → LaserError → LaserError
  | .publishFailed first, .publishFailed later => .publishFailed { first with
      committed := first.committed ++ later.committed
      unconfirmed := first.unconfirmed ++ later.unconfirmed }
  | earlier, _ => earlier

inductive Trigger where
  | send
  | timer
  | caller
  deriving DecidableEq, Repr

/-- Who hears about a flush: the failure that stays kept and the one that is
returned. -/
def settle (trigger : Trigger) (kept sent : Option LaserError) : Option LaserError × Option LaserError :=
  match trigger with
  | .send => (kept, sent)
  | .timer =>
    match sent with
    | some error =>
      match kept with
      | some earlier => (some (merge earlier error), none)
      | none => (some error, none)
    | none => (kept, none)
  | .caller =>
    match kept, sent with
    | none, sent => (none, sent)
    | some earlier, none => (none, some earlier)
    | some earlier, some error => (none, some (merge earlier error))

/-! ## The calls -/

structure Config where
  stream : String
  topic : String
  partitionKey : Option String
  maxRecords : Nat
  maxBytes : Nat
  maxRetries : Nat

inductive Call where
  | unused
  /-- A `send` that built its message and has not read the flag. -/
  | sending (record : Record)
  /-- A `send` that found the flag set and waits for the lock. -/
  | refusing (record : Record)
  | queueing (record : Record)
  /-- A flush that waits for the lock or holds it. -/
  | flushing (trigger : Trigger)
  /-- A `close` that waits for the timer to stop. -/
  | closing
  | returned
  deriving DecidableEq, Repr

/-- The record of a `send` that neither queued nor refused it. -/
def Call.record : Call → Option Record
  | .sending record | .refusing record | .queueing record => some record
  | _ => none

/-- Who runs a flush. -/
inductive Who where
  | timer
  | call (n : Nat)
  deriving DecidableEq, Repr

/-- How far the flush that holds the lock is. -/
inductive Stage where
  | locked
  /-- The chunk in turn and every record after it, the attempts made at the
  chunk, and what was confirmed before it. -/
  | appending (pending : List Record) (attempt : Nat) (confirmations : List Confirmation)
  deriving DecidableEq, Repr

structure Flight where
  who : Who
  trigger : Trigger
  stage : Stage
  deriving DecidableEq, Repr

inductive Phase where
  | running
  /-- A `close` told the timer to drain and stop. -/
  | signalled (closer : Nat)
  | draining (closer : Nat)
  | stopped (closer : Nat)
  deriving DecidableEq, Repr

structure State where
  queue : List Record
  payload : Nat
  kept : Option LaserError
  failed : Bool
  flight : Option Flight
  calls : Nat → Call
  /-- How many calls began. -/
  started : Nat
  /-- The timer is in a flush. -/
  ticking : Bool
  phase : Phase
  /-- What the topic took, repeats of a retried chunk included. -/
  log : List Record
  /-- The records handed to `send` calls. -/
  handed : List Record
  /-- Every record that was queued, in that order. -/
  queued : List Record
  /-- Errors that calls returned. -/
  errors : List LaserError

def State.init : State := ⟨[], 0, none, false, none, fun _ => .unused, 0, false, .running, [], [], [], []⟩

/-- One attempt at a chunk: each of its sends had the log take the first
records of the chunk. -/
structure Attempt where
  landings : List Nat
  result : Except SendError (List Confirmation)

def Attempt.landed (a : Attempt) (chunk : List Record) : List Record := a.landings.flatMap (chunk.take ·)

/-- What the log and its producer guarantee: a confirmed chunk is on the log,
and so is each record of the chunk that a failed send does not list. -/
def Attempt.Honest (a : Attempt) (chunk : List Record) : Prop :=
  match a.result with
  | .ok _ => ∀ r ∈ chunk, r ∈ a.landed chunk
  | .error (.producerSendFailed _ failed _ _ _) => failed.Sublist chunk ∧ ∀ r ∈ chunk, r ∉ failed → r ∈ a.landed chunk
  | .error (.other _) => True

inductive Action where
  | send (size : Nat)
  /-- A sender reads the flag. -/
  | check (n : Nat)
  /-- A sender that found the flag set gets the lock. -/
  | takeKept (n : Nat)
  | push (n : Nat)
  | flush
  | tick
  | close
  /-- The timer is told to stop and begins its last flush. -/
  | drain
  /-- The timer is done and the `close` begins its own flush. -/
  | stop
  | lock (who : Who)
  /-- The flush that holds the lock takes the queue. -/
  | take
  | attempt (a : Attempt)

def State.setCall (s : State) (n : Nat) (call : Call) : State := { s with calls := Function.update s.calls n call }

/-- A call that begins. -/
def State.begin (s : State) (call : Call) : State := { s.setCall s.started call with started := s.started + 1 }

/-- A call that ends. -/
def State.return (s : State) (n : Nat) (error : Option LaserError) : State :=
  { s.setCall n .returned with errors := s.errors ++ error.toList }

/-- The end of a flush, whatever the append came to. -/
def State.finish (s : State) (who : Who) (trigger : Trigger) (sent : Option LaserError) : State :=
  let (kept, result) := settle trigger s.kept sent
  let s := { s with kept, failed := kept.isSome, flight := none }
  match who with
  | .timer => { s with ticking := false }
  | .call n => s.return n result

def publishBatchLength : Nat := 1000

/-- The flushes that may wait for the lock. -/
def State.trigger (s : State) : Who → Option Trigger
  | .timer => if s.ticking then some .timer else none
  | .call n => match s.calls n with
    | .flushing trigger => some trigger
    | _ => none

def State.idle (s : State) : Bool := (List.range s.started).all fun n => s.calls n = .returned

/-- The partitioning of a flush. `accepts` is the check a partition key
passes. -/
def Config.partitioning (cfg : Config) (accepts : String → Bool) : Bool := cfg.partitionKey.all accepts

def next (accepts : String → Bool) (cfg : Config) (s : State) : Action → Option State
  | .send size =>
    if s.phase = .running then
      let record : Record := ⟨s.started, size⟩
      some { s.begin (.sending record) with handed := s.handed ++ [record] }
    else none
  | .check n =>
    match s.calls n with
    | .sending record => some (s.setCall n (if s.failed then .refusing record else .queueing record))
    | _ => none
  | .takeKept n =>
    match s.calls n, s.flight with
    | .refusing record, none =>
      let freed := { s with kept := none, failed := false }
      match s.kept with
      | some kept => some (freed.return n (some (refuse kept record cfg.stream cfg.topic)))
      | none => some (freed.setCall n (.queueing record))
    | _, _ => none
  | .push n =>
    match s.calls n with
    | .queueing record =>
      let s := { s with
        queue := s.queue ++ [record]
        payload := s.payload + record.size
        queued := s.queued ++ [record] }
      if s.queue.length ≥ cfg.maxRecords || s.payload ≥ cfg.maxBytes then some (s.setCall n (.flushing .send))
      else some (s.return n none)
    | _ => none
  | .flush => if s.phase = .running then some (s.begin (.flushing .caller)) else none
  | .tick =>
    match s.phase with
    | .running | .signalled _ => if s.ticking then none else some { s with ticking := true }
    | _ => none
  | .close =>
    if s.phase = .running ∧ s.idle then some { s.begin .closing with phase := .signalled s.started } else none
  | .drain =>
    match s.phase with
    | .signalled closer => if s.ticking then none else some { s with ticking := true, phase := .draining closer }
    | _ => none
  | .stop =>
    match s.phase with
    | .draining closer =>
      if s.ticking then none else some { s.setCall closer (.flushing .caller) with phase := .stopped closer }
    | _ => none
  | .lock who =>
    match s.flight, s.trigger who with
    | none, some trigger => some { s with flight := some ⟨who, trigger, .locked⟩ }
    | _, _ => none
  | .take =>
    match s.flight with
    | some ⟨who, trigger, .locked⟩ =>
      let batch := s.queue
      let s := { s with queue := [], payload := 0 }
      if batch.isEmpty then some (s.finish who trigger none)
      else if cfg.partitioning accepts then some { s with flight := some ⟨who, trigger, .appending batch 0 []⟩ }
      else some (s.finish who trigger (some (.plain .partitioning)))
    | _ => none
  | .attempt a =>
    match s.flight with
    | some ⟨who, trigger, .appending pending attempt confirmations⟩ =>
      let chunk := pending.take publishBatchLength
      let rest := pending.drop publishBatchLength
      let s := { s with log := s.log ++ a.landed chunk }
      match a.result with
      | .ok confirmed =>
        if rest.isEmpty then some (s.finish who trigger none)
        else some { s with flight := some ⟨who, trigger, .appending rest 0 (confirmations ++ confirmed)⟩ }
      | .error error =>
        if error.retryable && attempt < cfg.maxRetries then
          some { s with flight := some ⟨who, trigger, .appending pending (attempt + 1) confirmations⟩ }
        else
          some (s.finish who trigger
            (some (publishFailure error pending confirmations chunk.length (cfg.stream, cfg.topic))))
    | _ => none

/-- The chunk an attempt is made at. -/
def State.chunk (s : State) : List Record :=
  match s.flight with
  | some ⟨_, _, .appending pending _ _⟩ => pending.take publishBatchLength
  | _ => []

def Step (accepts : String → Bool) (cfg : Config) (s : State) (action : Action) (s' : State) : Prop :=
  next accepts cfg s action = some s' ∧ ∀ a, action = .attempt a → a.Honest s.chunk

end LaserSdk.Publish

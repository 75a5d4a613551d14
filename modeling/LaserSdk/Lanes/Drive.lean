import Mathlib.Logic.Function.Basic
import LaserSdk.Lib.Runs
/-!
# Lanes

The per-partition scheduler of a consumer. One task polls the consumer,
routes each record to the lane of its partition and commits what the lanes
report handled. A lane is a task of its own that handles its queue in order.
The lane of a partition that is no longer assigned retires: it finishes its
queue, and a lane opened later for the partition waits for it. A record that
finds no lane and no room for one is handled by the polling task itself. Once
it returned, the drain commits what the lanes still report, up to the first
failure.

The polling task and the lanes take their steps in any order. Permits and the
bounds of the channels only delay a step, so no step waits for them here.
-/

namespace LaserSdk.Lanes

open Lib

/-- One delivery of a record: how many came before it, and its partition. -/
structure Delivery where
  number : Nat
  partition : Nat
  deriving DecidableEq, Repr

/-- What a lane reports of a record: handled, or failed. -/
structure Completion where
  delivery : Delivery
  ok : Bool
  deriving DecidableEq, Repr

inductive Event where
  | started (d : Delivery)
  | ended (d : Delivery) (ok : Bool)
  | committed (d : Delivery)
  deriving DecidableEq, Repr

structure Lane where
  partition : Nat
  /-- The retiring lane this one waits for. -/
  predecessor : Option Nat
  /-- The predecessor is done. -/
  begun : Bool
  queue : List Delivery
  /-- The record being handled. -/
  hand : Option Delivery
  /-- A completion that is not sent yet. -/
  pending : Option Completion
  failed : Bool
  /-- The sender of the queue is dropped. -/
  closed : Bool
  finished : Bool
  deriving DecidableEq, Repr

inductive LaneOutcome where
  | stopped
  | failed
  | fatal
  deriving DecidableEq, Repr

/-- Where the polling task stands. -/
inductive Phase where
  /-- It commits what the lanes reported. -/
  | draining
  | committing (d : Delivery)
  /-- It waits for a record, a completion, a probe or the stop signal. -/
  | selecting
  /-- It hands a record to a lane. -/
  | queueing (d : Delivery) (lane : Nat)
  /-- It handles a record itself. -/
  | handling (d : Delivery)
  | confirming (d : Delivery)
  | returned (outcome : LaneOutcome)
  deriving DecidableEq, Repr

structure State where
  phase : Phase
  /-- All lanes spawned, the first `spawned` ones. -/
  lanes : Nat → Lane
  spawned : Nat
  /-- The open lane of each partition. -/
  active : List (Nat × Nat)
  retiring : Nat → Option Nat
  channel : List Completion
  /-- The drain met a failure: it commits no more. -/
  drainFailed : Bool
  /-- The drain ended before the lanes did. -/
  stop : Bool
  /-- The partitions of all deliveries. -/
  delivered : List Nat
  history : List Event

/-! ## The polling task -/

def Lane.new (partition : Nat) (predecessor : Option Nat) : Lane :=
  ⟨partition, predecessor, false, [], none, none, false, false, false⟩

def State.init : State :=
  ⟨.draining, fun _ => .new 0 none, 0, [], fun _ => none, [], false, false, [], []⟩

def State.log (s : State) (event : Event) : State := { s with history := s.history ++ [event] }

def State.setLane (s : State) (lane : Nat) (l : Lane) : State := { s with lanes := Function.update s.lanes lane l }

/-- The delivery the consumer hands out next. -/
def State.incoming (s : State) (partition : Nat) : Delivery := ⟨s.delivered.length, partition⟩

def State.deliver (s : State) (partition : Nat) : State := { s with delivered := s.delivered ++ [partition] }

/-- A new lane waits for the retiring one of its partition. -/
def State.spawnLane (s : State) (partition : Nat) : State :=
  { s.setLane s.spawned (.new partition (s.retiring partition)) with
    spawned := s.spawned + 1
    active := (partition, s.spawned) :: s.active
    retiring := Function.update s.retiring partition none }

/-- Close the lanes of partitions that are no longer assigned, and forget the
retiring ones that are done. -/
def State.dropRevoked (s : State) (assigned : Nat → Bool) : State :=
  { s with
    lanes := fun lane =>
      if s.active.lookup (s.lanes lane).partition = some lane ∧ assigned (s.lanes lane).partition = false then
        { s.lanes lane with closed := true }
      else s.lanes lane
    active := s.active.filter fun entry => assigned entry.1
    retiring := fun partition =>
      ((if assigned partition then none else s.active.lookup partition).or (s.retiring partition)).filter fun lane =>
        !(s.lanes lane).finished }

def State.goto (s : State) (phase : Phase) : State := { s with phase }

inductive Action where
  | receive
  | commit (ok : Bool)
  | wake
  | probe (assigned : Nat → Bool)
  | deliver (partition : Nat)
  | queue
  | handled (ok : Bool)
  | stopSignal
  /-- The consumer fails. A member the group does not know drops its lanes. -/
  | fail (assigned : Option (Nat → Bool))
  | drain (ok : Bool)
  | raiseStop
  | begin (lane : Nat)
  | take (lane : Nat)
  | finish (lane : Nat) (ok : Bool)
  | report (lane : Nat)
  | exit (lane : Nat)

/-- A lane that is between two records. -/
def Lane.idle (l : Lane) : Prop := l.begun = true ∧ l.finished = false ∧ l.hand = none ∧ l.pending = none

inductive Step (maxPartitions : Nat) (s : State) : Action → State → Prop
  | drained (hphase : s.phase = .draining) (hchannel : s.channel = []) : Step maxPartitions s .receive (s.goto .selecting)
  | received {d rest} (hphase : s.phase = .draining) (hchannel : s.channel = ⟨d, true⟩ :: rest) :
    Step maxPartitions s .receive { s with channel := rest, phase := .committing d }
  | refused {d rest} (hphase : s.phase = .draining) (hchannel : s.channel = ⟨d, false⟩ :: rest) :
    Step maxPartitions s .receive { s with channel := rest, phase := .returned .fatal }
  | committed {d} (hphase : s.phase = .committing d ∨ s.phase = .confirming d) :
    Step maxPartitions s (.commit true) ((s.log (.committed d)).goto .draining)
  | commitFailed {d} (hphase : s.phase = .committing d ∨ s.phase = .confirming d) :
    Step maxPartitions s (.commit false) (s.goto (.returned .failed))
  | woken (hphase : s.phase = .selecting) : Step maxPartitions s .wake (s.goto .draining)
  | probed {assigned} (hphase : s.phase = .selecting) :
    Step maxPartitions s (.probe assigned) ((s.dropRevoked assigned).goto .draining)
  /-- Over the lane cap: the record is handled inline. -/
  | inlined {partition} (hphase : s.phase = .selecting) (hlane : s.active.lookup partition = none)
    (hcap : maxPartitions ≤ s.active.length) :
    Step maxPartitions s (.deliver partition)
      (((s.deliver partition).log (.started (s.incoming partition))).goto (.handling (s.incoming partition)))
  | routed {partition lane} (hphase : s.phase = .selecting) (hlane : s.active.lookup partition = some lane) :
    Step maxPartitions s (.deliver partition) ((s.deliver partition).goto (.queueing (s.incoming partition) lane))
  | opened {partition} (hphase : s.phase = .selecting) (hlane : s.active.lookup partition = none)
    (hcap : s.active.length < maxPartitions) :
    Step maxPartitions s (.deliver partition)
      (((s.spawnLane partition).deliver partition).goto (.queueing (s.incoming partition) s.spawned))
  | queued {d lane} (hphase : s.phase = .queueing d lane) (hopen : (s.lanes lane).finished = false) :
    Step maxPartitions s .queue
      ((s.setLane lane { s.lanes lane with queue := (s.lanes lane).queue ++ [d] }).goto .draining)
  /-- The lane stopped: the record is dropped. -/
  | dropped {d lane} (hphase : s.phase = .queueing d lane) (hdone : (s.lanes lane).finished = true) :
    Step maxPartitions s .queue (s.goto .draining)
  | handled {d ok} (hphase : s.phase = .handling d) :
    Step maxPartitions s (.handled ok)
      ((s.log (.ended d ok)).goto (if ok then .confirming d else .returned .fatal))
  | stopped (hphase : s.phase = .selecting) : Step maxPartitions s .stopSignal (s.goto (.returned .stopped))
  | failed (hphase : s.phase = .selecting) : Step maxPartitions s (.fail none) (s.goto (.returned .failed))
  | rejected {assigned} (hphase : s.phase = .selecting) :
    Step maxPartitions s (.fail (some assigned)) ((s.dropRevoked assigned).goto (.returned .failed))
  | drainCommitted {outcome d rest} (hphase : s.phase = .returned outcome) (hstop : s.stop = false)
    (hchannel : s.channel = ⟨d, true⟩ :: rest) (hgood : s.drainFailed = false) :
    Step maxPartitions s (.drain true) { s.log (.committed d) with channel := rest }
  /-- After a failed consumer a refused commit is tolerated. -/
  | drainRefused {outcome d rest} (hphase : s.phase = .returned outcome) (hstop : s.stop = false)
    (hchannel : s.channel = ⟨d, true⟩ :: rest) (hgood : s.drainFailed = false) :
    Step maxPartitions s (.drain false) { s with channel := rest, drainFailed := outcome != .failed }
  | drainSkipped {outcome c rest ok} (hphase : s.phase = .returned outcome) (hstop : s.stop = false)
    (hchannel : s.channel = c :: rest) (hbad : s.drainFailed = true ∨ c.ok = false) :
    Step maxPartitions s (.drain ok) { s with channel := rest, drainFailed := true }
  | raised {outcome} (hphase : s.phase = .returned outcome) : Step maxPartitions s .raiseStop { s with stop := true }
  | began {lane} (hlane : lane < s.spawned) (hwaits : (s.lanes lane).begun = false)
    (hpredecessor : ∀ other, (s.lanes lane).predecessor = some other → (s.lanes other).finished = true) :
    Step maxPartitions s (.begin lane) (s.setLane lane { s.lanes lane with begun := true })
  | took {lane d rest} (hlane : lane < s.spawned) (hidle : (s.lanes lane).idle) (hqueue : (s.lanes lane).queue = d :: rest)
    (hstop : s.stop = false) :
    Step maxPartitions s (.take lane)
      ((s.setLane lane { s.lanes lane with queue := rest, hand := some d }).log (.started d))
  | halted {lane d rest} (hlane : lane < s.spawned) (hidle : (s.lanes lane).idle)
    (hqueue : (s.lanes lane).queue = d :: rest) (hstop : s.stop = true) :
    Step maxPartitions s (.take lane) (s.setLane lane { s.lanes lane with finished := true })
  | finished {lane d ok} (hlane : lane < s.spawned) (hhand : (s.lanes lane).hand = some d) :
    Step maxPartitions s (.finish lane ok)
      ((s.setLane lane { s.lanes lane with hand := none, pending := some ⟨d, ok⟩, failed := (s.lanes lane).failed || !ok }).log (.ended d ok))
  | reported {lane c} (hlane : lane < s.spawned) (hpending : (s.lanes lane).pending = some c) :
    Step maxPartitions s (.report lane)
      { s.setLane lane { s.lanes lane with pending := none, finished := !c.ok } with channel := s.channel ++ [c] }
  | exited {lane} (hlane : lane < s.spawned) (hidle : (s.lanes lane).idle) (hqueue : (s.lanes lane).queue = [])
    (hclosed : (s.lanes lane).closed = true ∨ ∃ outcome, s.phase = .returned outcome) :
    Step maxPartitions s (.exit lane) (s.setLane lane { s.lanes lane with finished := true })

/-! ## Order within a partition -/

def State.delivers (s : State) (d : Delivery) : Prop := s.delivered[d.number]? = some d.partition

/-- The deliveries of a partition before one of them. -/
def State.Earlier (s : State) (a b : Delivery) : Prop :=
  s.delivers a ∧ a.partition = b.partition ∧ a.number < b.number

/-- The handling of a record starts once that of every earlier one of its
partition ended, and it is committed once they were handled without error. -/
structure InOrder (s : State) : Prop where
  starts : ∀ before b after, s.history = before ++ .started b :: after →
    ∀ a, s.Earlier a b → ∃ ok, .ended a ok ∈ before
  commits : ∀ before b after, s.history = before ++ .committed b :: after →
    ∀ a, s.Earlier a b → .ended a true ∈ before

/-- No lane of the partition holds a record or has failed. -/
def State.quiet (s : State) (partition : Nat) : Prop :=
  ∀ lane < s.spawned, (s.lanes lane).partition = partition →
    (s.lanes lane).queue = [] ∧ (s.lanes lane).hand = none ∧ (s.lanes lane).failed = false

/-- The earlier lanes of the partition handled their records without error. -/
def State.inherits (s : State) (lane : Nat) : Prop :=
  ∀ other < lane, (s.lanes other).partition = (s.lanes lane).partition →
    (s.lanes other).queue = [] ∧ (s.lanes other).failed = false

/-- A record is handled inline only where the lanes of its partition are done,
and a lane takes a record only where none of the lanes before it failed. -/
def Orderly (maxPartitions : Nat) (s : State) : Action → Prop
  | .deliver partition => s.active.lookup partition = none → maxPartitions ≤ s.active.length → s.quiet partition
  | .take lane => s.stop = false → s.inherits lane
  | _ => True

/-- A step of a run that keeps to it. -/
def OrderlyStep (maxPartitions : Nat) (s : State) (a : Action) (s' : State) : Prop :=
  Orderly maxPartitions s a ∧ Step maxPartitions s a s'

end LaserSdk.Lanes

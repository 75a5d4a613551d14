import Mathlib
import LaserSdk.Agent.Worker
import LaserSdk.Lib.Runs
/-!
# Held work of paused sessions

A role parks the work of a paused session on the session lane and commits it.
After the resume it reads each held record back, replays it through the
worker's gates and reports it handled with a completion on the lane. A
process that starts, or whose partitions changed, reads the lane again.

Several processes of one role share the lane and the stored offsets. Their
calls follow each other in any order, and what a call is answered by the
outside (control reads, polls, publishes, the handler) is part of the step.
-/

namespace LaserSdk.Agent

open Lib

/-- The topic read by the role, record by record. -/
abbrev Log := MessageId → Option Received

structure SourceAddress where
  stream : Nat
  topic : Nat
  partition : Nat
  offset : Nat
  generation : Option Nat
  deriving DecidableEq, Repr

def SourceAddress.id (address : SourceAddress) : MessageId := ⟨address.partition, address.offset⟩

/-- A pause request's place on the control topic. -/
abbrev ControlPosition := Nat × Nat

/-- One parking: the held record, the role and the pause request. -/
structure Parking where
  source : SourceAddress
  role : String
  request : ControlPosition
  deriving DecidableEq, Repr

/-- Fields in the order addresses and parkings are compared by. -/
def Parking.fields (p : Parking) : List Nat :=
  [p.source.stream, p.source.topic, p.source.partition, p.source.offset, (p.source.generation.map (· + 1)).getD 0,
    p.request.1, p.request.2]

def Parking.before (p q : Parking) : Prop := p.fields ≤ q.fields

instance (p q : Parking) : Decidable (p.before q) := inferInstanceAs (Decidable (p.fields ≤ q.fields))

inductive LaneKind where
  | parked
  | unparked
  deriving DecidableEq, Repr

/-- An event of the session lane that says where held work stands. -/
structure LaneEvent where
  session : ConversationId
  kind : LaneKind
  parking : Parking
  deriving DecidableEq, Repr

/-- What a role knows of one session's held work. -/
structure RoleState where
  parked : List Parking
  handled : List Parking
  unrecoverable : List Parking
  deriving DecidableEq, Repr

/-- The memory of one process of the role. -/
structure Memory where
  gates : Gates
  /-- The pause runtime is started. -/
  pausing : Bool
  roles : ConversationId → RoleState
  assignment : Option (List Nat)

/-- A completion `drain` put on the lane, with the gates its replay met, what
the replay was answered and how it ended. -/
structure Report where
  session : ConversationId
  parking : Parking
  before : Gates
  answers : Answers
  outcome : Outcome

/-- One process and what it shares with the others of its role. -/
structure Node where
  memory : Memory
  lane : List LaneEvent
  reports : List Report

/-! ## What the outside answers -/

/-- A publish to the lane. An error may come back for an event that landed. -/
inductive Sent where
  | confirmed
  | landed
  | lost
  deriving DecidableEq, Repr

structure ControlState where
  /-- The pause request in force. -/
  paused : Option ControlPosition
  cancelRequested : Bool
  deriving DecidableEq, Repr

structure ReplayAnswers where
  control : Option ControlState
  /-- The poll of the source failed, or says whether the record is there. -/
  fetched : Option Bool
  delivery : Answers
  unparked : Parking → Sent

/-- One turn of the pause check. -/
structure Round where
  control : Option ControlState
  /-- The acknowledgment of the request is confirmed, or was not due. -/
  acknowledged : Bool
  parked : Sent
  replays : SourceAddress → ReplayAnswers

/-! ## The pause runtime -/

/-- The role's name. A runtime starts only for a worker that has one. -/
def Worker.me (w : Worker) : String := w.agent.getD ""

def Worker.address (w : Worker) (id : MessageId) : SourceAddress :=
  ⟨w.source.streamId, w.source.topicId, id.partition, id.offset, some w.source.generation⟩

def Memory.setRole (m : Memory) (session : ConversationId) (role : RoleState) : Memory :=
  { m with roles := Function.update m.roles session role }

/-- The lane tells that the role parked, or handled, a held record. -/
def Node.append (n : Node) (session : ConversationId) (kind : LaneKind) (p : Parking) : Node :=
  { n with lane := n.lane ++ [⟨session, kind, p⟩] }

def RoleState.knows (role : RoleState) (address : SourceAddress) : Bool :=
  role.parked.any (·.source = address) || role.handled.any (·.source = address)

/-- Park a record the role neither parked nor handled. -/
def park (w : Worker) (session : ConversationId) (id : MessageId) (request : ControlPosition) (sent : Sent)
    (n : Node) : Node × Bool :=
  let role := n.memory.roles session
  if role.knows (w.address id) then (n, true)
  else
    let p : Parking := ⟨w.address id, w.me, request⟩
    match sent with
    -- Only a confirmed event is remembered.
    | .lost => (n, false)
    | .landed => (n.append session .parked p, false)
    | .confirmed =>
      let n := n.append session .parked p
      ({ n with memory := n.memory.setRole session { role with parked := role.parked.insert p } }, true)

/-- The held records the role can handle, in the order of their sources. -/
def Worker.held (w : Worker) (role : RoleState) : List Parking :=
  (role.parked.filter fun p =>
    p.source.stream = w.source.streamId && p.source.topic = w.source.topicId && !role.unrecoverable.contains p).insertionSort
      Parking.before

/-- The held records grouped by source. -/
def Worker.pending (w : Worker) (role : RoleState) : List (SourceAddress × List Parking) :=
  ((w.held role).map (·.source)).dedup.map fun address => (address, (w.held role).filter (·.source = address))

def Memory.reads (m : Memory) (partition : Nat) : Bool := m.assignment.all (·.contains partition)

/-- Read a held record back. A record of an earlier topic is gone. -/
def fetchSource (w : Worker) (log : Log) (address : SourceAddress) (fetched : Option Bool) : Option (Option Received) :=
  if address.generation ≠ some w.source.generation then some none
  else fetched.map fun found => if found then log address.id else none

def Node.abandon (n : Node) (session : ConversationId) (held : List Parking) : Node :=
  let role := n.memory.roles session
  { n with memory := n.memory.setRole session { role with unrecoverable := role.unrecoverable ++ held } }

/-- Confirm a completion for each parking of a replayed record. -/
def complete (session : ConversationId) (report : Parking → Report) (sent : Parking → Sent) :
    List Parking → Node → Node × Bool
  | [], n => (n, true)
  | p :: rest, n =>
    let reported := { n.append session .unparked p with reports := n.reports ++ [report p] }
    match sent p with
    | .lost => (n, false)
    | .landed => (reported, false)
    | .confirmed =>
      let role := n.memory.roles session
      complete session report sent rest { reported with
        memory := n.memory.setRole session { role with
          parked := role.parked.erase p
          handled := role.handled.insert p } }

inductive Drained where
  | all
  | interrupted
  deriving DecidableEq, Repr

/-- Handle held records in turn until one call fails or the session is paused
or canceled again. -/
def drainFrom (w : Worker) (log : Log) (session : ConversationId) (assignedOnly : Bool)
    (answers : SourceAddress → ReplayAnswers) : List (SourceAddress × List Parking) → Node → Node × Option Drained
  | [], n => (n, some .all)
  | (address, held) :: rest, n =>
    -- Outside the work path a source of another member is left to it.
    if assignedOnly && !n.memory.reads address.partition then drainFrom w log session assignedOnly answers rest n
    else
      match (answers address).control with
      | none => (n, none)
      | some control =>
        if control.paused.isSome || control.cancelRequested then (n, some .interrupted)
        else
          match fetchSource w log address (answers address).fetched with
          -- A failed poll ends the drain, a record that is gone is given up.
          | none => (n, none)
          | some none => drainFrom w log session assignedOnly answers rest (n.abandon session held)
          | some (some received) =>
            let before := n.memory.gates
            let (gates, result) := replay w before address.id received (answers address).delivery
            let n := { n with memory := { n.memory with gates } }
            -- A completion follows whatever the gates made of the replay.
            match result with
            | none => (n, none)
            | some outcome =>
              match complete session (⟨session, ·, before, (answers address).delivery, outcome⟩)
                (answers address).unparked held n with
              | (n, true) => drainFrom w log session assignedOnly answers rest n
              | (n, false) => (n, none)

def drain (w : Worker) (log : Log) (session : ConversationId) (assignedOnly : Bool)
    (answers : SourceAddress → ReplayAnswers) (n : Node) : Node × Option Drained :=
  drainFrom w log session assignedOnly answers (w.pending (n.memory.roles session)) n

inductive Hold where
  | handle
  | commit
  deriving DecidableEq, Repr

/-- A record handled through its parking is not handled again. -/
def settled (w : Worker) (session : ConversationId) (id : MessageId) (n : Node) : Hold :=
  if (n.memory.roles session).handled.any (·.source = w.address id) then .commit else .handle

/-- The pause check of a live record. A round that finds the session paused
again while it drains is followed by another. -/
def hold (w : Worker) (log : Log) (session : ConversationId) (id : MessageId) : List Round → Node → Node × Option Hold
  | [], n => (n, none)
  | round :: rest, n =>
    match round.control with
    | none => (n, none)
    | some control =>
      if !round.acknowledged then (n, none)
      else
        match control.paused with
        | some request =>
          match park w session id request round.parked n with
          | (n, true) => (n, some .commit)
          | (n, false) => (n, none)
        | none =>
          if !control.cancelRequested && !(w.pending (n.memory.roles session)).isEmpty then
            match drain w log session false round.replays n with
            | (n, none) => (n, none)
            | (n, some .interrupted) => hold w log session id rest n
            | (n, some .all) => (n, some (settled w session id n))
          else (n, some (settled w session id n))

/-- Bring a session up to date outside the work path. -/
def reconcile (w : Worker) (log : Log) (session : ConversationId) (round : Round) (n : Node) : Node :=
  match round.control with
  | none => n
  | some control =>
    if control.paused.isSome || !round.acknowledged then n
    else if !control.cancelRequested && !(w.pending (n.memory.roles session)).isEmpty then
      (drain w log session true round.replays n).1
    else n

def withGates (n : Node) (gates : Gates) : Node := { n with memory := { n.memory with gates } }

/-- The second half of a live delivery. -/
def Node.work (n : Node) (w : Worker) (id : MessageId) (message : AgentMessage) (a : Answers) : Node × Option Outcome :=
  let (gates, result) := Agent.work w n.memory.gates id message a
  (withGates n gates, result)

/-- A live delivery. -/
def deliver (w : Worker) (log : Log) (id : MessageId) (received : Received) (a : Answers) (rounds : List Round)
    (n : Node) : Node × Option Outcome :=
  let (gates, entry) := enter w n.memory.gates id received a
  let n := withGates n gates
  match entry with
  | .ends result => (n, result)
  | .passes message =>
    if n.memory.pausing then
      match hold w log message.provenance.conversationId id rounds n with
      | (n, none) => (n, none)
      | (n, some .commit) => (n, some .held)
      | (n, some .handle) => n.work w id message a
    else n.work w id message a

/-! ## Recovery from the lane -/

/-- The lane events of a session a bounded read finds: all but the oldest. -/
def scanLane (w : Worker) (lane : List LaneEvent) (session : ConversationId) (missed : Nat) : List LaneEvent :=
  ((lane.filter (·.session = session)).drop missed).filter (·.parking.role = w.me)

/-- An event repeated on the lane is folded once. -/
def parkedIn (events : List LaneEvent) : List Parking := ((events.filter (·.kind = .parked)).map (·.parking)).dedup

def handledIn (events : List LaneEvent) : List Parking := ((events.filter (·.kind = .unparked)).map (·.parking)).dedup

def RoleState.merge (role : RoleState) (events : List LaneEvent) : RoleState :=
  let handled := role.handled ∪ handledIn events
  { role with
    parked := (role.parked ∪ parkedIn events).filter (!handled.contains ·)
    handled }

def Memory.merge (m : Memory) (w : Worker) (lane : List LaneEvent) (missed : ConversationId → Nat) : Memory :=
  { m with roles := fun session => (m.roles session).merge (scanLane w lane session (missed session)) }

/-! ## The role's processes -/

structure State where
  members : Nat → Memory
  lane : List LaneEvent
  reports : List Report
  /-- Records whose live delivery returned. -/
  finished : List MessageId
  /-- The group's stored offset, by partition. -/
  stored : Nat → Option Nat

inductive Action where
  /-- A live delivery by one process. -/
  | deliver (member : Nat) (id : MessageId) (a : Answers) (rounds : List Round)
  | reconcile (member : Nat) (session : ConversationId) (round : Round)
  /-- A finished record is committed. -/
  | commit (id : MessageId)
  /-- The recovery read after the partitions of a process changed. -/
  | reassign (member : Nat) (assignment : Option (List Nat)) (missed : ConversationId → Nat)
  /-- A process starts with an empty memory. It warms its dedup window from
  the records it can still read, and starts the pause runtime when the control
  topic is there. -/
  | start (member : Nat) (retained : MessageId → Bool) (control : Bool) (missed : ConversationId → Nat)
  /-- The control topic appears after the start. -/
  | startLate (member : Nat) (missed : ConversationId → Nat)
  /-- An event of another role, another topic or the topic before it was
  recreated. -/
  | elsewhere (event : LaneEvent)

/-- A parking of this role from the topic it reads now. -/
def Worker.owns (w : Worker) (p : Parking) : Bool :=
  p.role = w.me && p.source.stream = w.source.streamId && p.source.topic = w.source.topicId &&
    p.source.generation = some w.source.generation

def Memory.fresh (w : Worker) : Memory := ⟨.new w, false, fun _ => ⟨[], [], []⟩, none⟩

def Memory.started (w : Worker) (log : Log) (s : State) (retained : MessageId → Bool) : Memory :=
  let m := Memory.fresh w
  if w.warmDedup then
    let readable : Log := fun id => if retained id then log id else none
    { m with gates := { m.gates with dedup := warmDedupWindow w readable s.stored m.gates.dedup } }
  else m

/-- The pause runtime of a process, recovered before it takes any work. -/
def Memory.startPause (m : Memory) (w : Worker) (lane : List LaneEvent) (missed : ConversationId → Nat) : Memory :=
  if w.agent.isSome then { m.merge w lane missed with pausing := true } else m

def State.setMember (s : State) (member : Nat) (m : Memory) : State :=
  { s with members := Function.update s.members member m }

def State.node (s : State) (member : Nat) : Node := ⟨s.members member, s.lane, s.reports⟩

def State.setNode (s : State) (member : Nat) (n : Node) : State :=
  { s.setMember member n.memory with lane := n.lane, reports := n.reports }

def next (w : Worker) (log : Log) (s : State) : Action → State
  | .deliver member id a rounds =>
    match log id with
    | none => s
    | some received =>
      let (n, result) := deliver w log id received a rounds (s.node member)
      let s := s.setNode member n
      if result.isSome then { s with finished := s.finished ++ [id] } else s
  | .reconcile member session round =>
    if (s.members member).pausing then s.setNode member (reconcile w log session round (s.node member)) else s
  | .commit id =>
    if id ∈ s.finished then { s with stored := Function.update s.stored id.partition (some id.offset) } else s
  | .reassign member assignment missed =>
    let m := { s.members member with assignment }
    s.setMember member (if m.pausing then m.merge w s.lane missed else m)
  | .start member retained control missed =>
    let m := Memory.started w log s retained
    s.setMember member (if control then m.startPause w s.lane missed else m)
  | .startLate member missed => s.setMember member ((s.members member).startPause w s.lane missed)
  | .elsewhere event => if w.owns event.parking then s else { s with lane := s.lane ++ [event] }

def State.init (w : Worker) : State := ⟨fun _ => .fresh w, [], [], [], fun _ => none⟩

def Step (w : Worker) (log : Log) (s : State) (a : Action) (s' : State) : Prop := next w log s a = s'

end LaserSdk.Agent

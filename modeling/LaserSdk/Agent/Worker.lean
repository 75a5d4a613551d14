import LaserSdk.Lib.Window
/-!
# The gates of a reliable worker

What one delivery of a record does before, and with, the handler: decode,
addressee, dispatch, signature and the window of verified record ids, then
the budget, the fence, the dedup window, the deadline, the middleware and the
handler with its retries. A live record passes the pause check between the
two halves, `enter` and `work`. A record replayed after a resume does not.
-/

namespace LaserSdk.Agent

open Lib

/-- Where a record stands in the worker's topic. -/
structure MessageId where
  partition : Nat
  offset : Nat
  deriving DecidableEq, Repr

abbrev ConversationId := Nat

inductive AgentKind where
  | command
  | response
  | event
  | chunk
  | status
  | error
  deriving DecidableEq, Repr

structure Envelope where
  kind : AgentKind
  operation : Option String
  target : Option String
  /-- The record id a signature covers. -/
  record : Option String
  deriving DecidableEq, Repr

structure Provenance where
  conversationId : ConversationId
  causalParent : Option MessageId
  agent : Option String
  targetAgentId : Option String
  deadline : Option Nat
  idempotencyKey : Option String
  correlationId : Option String
  fenceToken : Option Nat
  deriving DecidableEq, Repr

structure AgentMessage where
  provenance : Provenance
  envelope : Option Envelope
  deriving DecidableEq, Repr

/-- What the decode of a record gives under the worker's features. -/
inductive Received where
  | undecodable
  | decoded (message : AgentMessage)
  deriving DecidableEq, Repr

structure SourceTopic where
  streamId : Nat
  topicId : Nat
  generation : Nat
  deriving DecidableEq, Repr

/-- The configuration of a role's consumer. `verifier` is what the key
registry says of each record of the topic. -/
structure Worker where
  agent : Option String
  topic : String
  operations : Option (List String)
  verifier : Option (MessageId → Bool)
  warmDedup : Bool
  dedupWindow : Nat
  maxAttempts : Nat
  partitions : Nat
  source : SourceTopic

/-! ## Dispatch -/

inductive Dispatch where
  | work
  | observational
  | reply
  | lifecycle
  | control
  | foreign
  deriving DecidableEq, Repr

def agentControl : String := "agent.control"

def broadcast : String := "*"

def controlOperations : List String := ["session_pause", "session_resume", "session_cancel", "force_cancel"]

def isControl (operation : String) : Bool := controlOperations.contains operation

/-- The operations of a handler. `none` serves every one. -/
def handles (operations : Option (List String)) (operation : String) : Bool :=
  match operations with
  | none => true
  | some only => only.contains operation

def classify (envelope : Envelope) (topic me : String) (operations : Option (List String)) : Dispatch :=
  let operation := envelope.operation.getD ""
  match envelope.kind with
  | .status => .lifecycle
  | .response | .error | .chunk => .reply
  | .event => .observational
  | .command =>
    if envelope.target.any (· ≠ me) then .foreign
    else
      match isControl operation, topic == agentControl with
      | true, true => .control
      | true, false => .observational
      | false, true => .foreign
      | false, false => if handles operations operation then .work else .observational

def classifyGeneric (addressee : Option String) (hasCause hasCorrelation : Bool) (topic me : String) : Dispatch :=
  if addressee.any (fun name => name ≠ me && name ≠ broadcast) || topic == agentControl then .foreign
  else if hasCause && hasCorrelation then .reply
  else .work

def anonymousAgent : String := "anonymous"

/-- A worker without an agent classifies a record as its own addressee would. -/
def Worker.dispatch (w : Worker) (message : AgentMessage) : Dispatch :=
  let me := (w.agent.or message.provenance.targetAgentId).getD anonymousAgent
  match message.envelope with
  | some envelope => classify envelope w.topic me w.operations
  | none =>
    classifyGeneric message.provenance.targetAgentId message.provenance.causalParent.isSome
      message.provenance.correlationId.isSome w.topic me

/-- The record names another agent as its target. -/
def Worker.misaddressed (w : Worker) (message : AgentMessage) : Bool :=
  match message.provenance.targetAgentId, w.agent with
  | some target, some agent => target ≠ agent
  | _, _ => false

/-! ## The fence gate -/

def fenceMapSoftCap : Nat := 16384

def fenceEntryTtlMicros : Nat := 600000000

def fenceSweepIntervalMicros : Nat := 1000000

/-- A task's high-water mark. `setter` is the record that set it, which no
decision reads. -/
structure FenceEntry where
  fence : Nat
  touchedMicros : Nat
  setter : MessageId
  deriving DecidableEq, Repr

structure Fences where
  highWater : List (ConversationId × FenceEntry)
  lastSweepMicros : Nat
  deriving DecidableEq, Repr

/-- Over its soft cap, the map drops idle entries once an interval. -/
def Fences.sweep (f : Fences) (now : Nat) : Fences :=
  if f.highWater.length > fenceMapSoftCap ∧ now - f.lastSweepMicros > fenceSweepIntervalMicros then
    { highWater := f.highWater.filter fun entry => now - entry.2.touchedMicros < fenceEntryTtlMicros
      lastSweepMicros := now }
  else f

def Fences.set (f : Fences) (task : ConversationId) (entry : FenceEntry) : Fences :=
  { f with highWater := (task, entry) :: f.highWater.filter (·.1 ≠ task) }

def acceptFence (f : Fences) (task : ConversationId) (fence now : Nat) (id : MessageId) : Bool × Fences :=
  let f := f.sweep now
  let entry := (f.highWater.lookup task).getD ⟨0, now, id⟩
  if fence < entry.fence then (false, f) else (true, f.set task ⟨fence, now, id⟩)

/-! ## One delivery -/

def dedupScopeSep : String := "\u001f"

def dedupKey (provenance : Provenance) : Option String :=
  provenance.idempotencyKey.map fun key =>
    match provenance.agent with
    | some agent => agent ++ dedupScopeSep ++ key
    | none => key

def verifiedRecordWindow : Nat := 16384

/-- What the gates of one process remember. A key is tagged with the record
whose delivery, or whose reading at start, put it there. -/
structure Gates where
  verifiedRecords : Window String MessageId
  dedup : Window String MessageId
  fences : Fences

def Gates.new (w : Worker) : Gates := ⟨.new verifiedRecordWindow, .new w.dedupWindow, ⟨[], 0⟩⟩

inductive Handling where
  | handled
  | retryable
  | permanent
  deriving DecidableEq, Repr

/-- What the outside answers during one delivery. -/
structure Answers where
  /-- The capsule of a dead letter is published. -/
  published : Bool
  /-- The budget check lets the record through. -/
  admitted : Bool
  /-- The clock at the fence gate. -/
  fencedAt : Nat
  /-- The clock at the deadline check. -/
  dueAt : Nat
  /-- No middleware rejects the record. -/
  accepted : Bool
  /-- The handler's result, by attempt. -/
  results : Nat → Handling

inductive DeadLetterReason where
  | retryExhausted
  | rejected
  | decodeFailed
  | deadlineExceeded
  deriving DecidableEq, Repr

/-- How a delivery that returns ended. -/
inductive Outcome where
  | handled
  | deadLettered (reason : DeadLetterReason) (attempts : Nat)
  | misaddressed
  | skipped (dispatch : Dispatch)
  /-- A verified record id was seen before. -/
  | replayed
  /-- The pause check committed the record. -/
  | held
  | overBudget
  | staleFence
  | duplicate
  deriving DecidableEq, Repr

/-- The delivery fails when the capsule cannot be published. -/
def deadLetter (a : Answers) (reason : DeadLetterReason) (attempts : Nat) : Option Outcome :=
  if a.published then some (.deadLettered reason attempts) else none

/-- The handler loop from one attempt on, with the retries left after it. -/
def attempts (a : Answers) : Nat → Nat → Option Outcome
  | 0, attempt =>
    match a.results attempt with
    | .handled => some .handled
    | .permanent => deadLetter a .rejected (attempt + 1)
    | .retryable => deadLetter a .retryExhausted (attempt + 1)
  | left + 1, attempt =>
    match a.results attempt with
    | .handled => some .handled
    | .permanent => deadLetter a .rejected (attempt + 1)
    | .retryable => attempts a left (attempt + 1)

inductive Entry where
  | ends (result : Option Outcome)
  | passes (message : AgentMessage)

/-- The signature gate. Only a record with an envelope can be verified, and
a record id that was verified before is dropped. -/
def verify (verifies : MessageId → Bool) (g : Gates) (id : MessageId) (message : AgentMessage) (a : Answers) :
    Gates × Entry :=
  if message.envelope.isSome && verifies id then
    match message.envelope.bind (·.record) with
    | some record =>
      let (first, seen) := g.verifiedRecords.insert record id
      ({ g with verifiedRecords := seen }, if first then .passes message else .ends (some .replayed))
    | none => (g, .passes message)
  else (g, .ends (deadLetter a .rejected 0))

/-- The gates before the pause check. -/
def enter (w : Worker) (g : Gates) (id : MessageId) (received : Received) (a : Answers) : Gates × Entry :=
  match received with
  | .undecodable => (g, .ends (deadLetter a .decodeFailed 0))
  | .decoded message =>
    if w.misaddressed message then (g, .ends (some .misaddressed))
    else if w.dispatch message ≠ .work then (g, .ends (some (.skipped (w.dispatch message))))
    else
      match w.verifier with
      | some verifies => verify verifies g id message a
      | none => (g, .passes message)

/-- The fence gate of a delivery. A record without a fence passes it. -/
def passFence (g : Gates) (id : MessageId) (message : AgentMessage) (a : Answers) : Bool × Gates :=
  match message.provenance.fenceToken with
  | some fence =>
    let (accepted, fences) := acceptFence g.fences message.provenance.conversationId fence a.fencedAt id
    (accepted, { g with fences })
  | none => (true, g)

/-- The dedup gate of a delivery. A record without a key passes it. -/
def observe (g : Gates) (id : MessageId) (message : AgentMessage) : Bool × Gates :=
  match dedupKey message.provenance with
  | some key =>
    let (first, seen) := g.dedup.insert key id
    (first, { g with dedup := seen })
  | none => (true, g)

/-- The deadline, the middleware and the handler. -/
def handle (w : Worker) (message : AgentMessage) (a : Answers) : Option Outcome :=
  if message.provenance.deadline.any (a.dueAt > ·) then deadLetter a .deadlineExceeded 0
  else if a.accepted then attempts a (w.maxAttempts - 1) 0
  else deadLetter a .rejected 0

/-- The gates after the pause check. -/
def work (w : Worker) (g : Gates) (id : MessageId) (message : AgentMessage) (a : Answers) :
    Gates × Option Outcome :=
  if w.agent.isSome && !a.admitted then (g, some .overBudget)
  else
    let (accepted, g) := passFence g id message a
    if !accepted then (g, some .staleFence)
    else
      let (first, g) := observe g id message
      if !first then (g, some .duplicate) else (g, handle w message a)

/-- A delivery without the pause check. -/
def replay (w : Worker) (g : Gates) (id : MessageId) (received : Received) (a : Answers) : Gates × Option Outcome :=
  match enter w g id received a with
  | (g, .ends result) => (g, result)
  | (g, .passes message) => work w g id message a

/-! ## The dedup window at start -/

/-- The key a record leaves in the dedup window of a process that starts. -/
def warmDedupKey (w : Worker) (id : MessageId) (received : Received) : Option String :=
  match received with
  | .undecodable => none
  | .decoded message =>
    if w.misaddressed message then none
    else
      match w.verifier with
      | some verifies =>
        if message.envelope.isSome && verifies id then dedupKey message.provenance else none
      | none => dedupKey message.provenance

/-- The newest records of a partition, up to the stored offset. -/
def warmRange (w : Worker) (partition stored : Nat) : List MessageId :=
  let first := stored - (w.dedupWindow - 1)
  (List.range' first (stored + 1 - first)).map (⟨partition, ·⟩)

def warmRanges (w : Worker) (stored : Nat → Option Nat) : List MessageId :=
  (List.range w.partitions).flatMap fun partition =>
    match stored partition with
    | some offset => warmRange w partition offset
    | none => []

/-- What a starting process observes of the records it can still read. -/
def warmDedupWindow (w : Worker) (log : MessageId → Option Received) (stored : Nat → Option Nat)
    (dedup : Window String MessageId) : Window String MessageId :=
  (warmRanges w stored).foldl (fun dedup id =>
    match (log id).bind (warmDedupKey w id) with
    | some key => (dedup.insert key id).2
    | none => dedup) dedup

end LaserSdk.Agent

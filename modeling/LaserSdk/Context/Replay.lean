import Mathlib.Data.String.Basic
import LaserSdk.Lib.SortByKey
import LaserSdk.Lib.Sorted
import LaserSdk.Poll.Drain
/-!
# Conversation state

A conversation's records lie in the partitions of several topics. A read takes
each partition's range, keeps the records of the conversation, orders them by
timestamp, topic, partition and offset, and `ConversationState::load` folds
what it is given. A snapshot keeps a folded state with the offsets it goes up
to, and `load_with` folds only what lies past them.
-/

namespace LaserSdk.Context

open Lib Poll

/-! ## Streams -/

structure Provenance where
  conversationId : Nat
  rootConversationId : Option Nat
  parentConversationId : Option Nat
  deriving DecidableEq, Repr

/-- A record of a partition. One whose provenance does not decode has none. -/
structure Record where
  timestamp : Nat
  provenance : Option Provenance
  payload : List UInt8
  deriving DecidableEq, Repr

structure Topic where
  id : Nat
  createdAtMicros : Nat
  partitions : List (List Record)
  deriving DecidableEq, Repr

/-- A stream and its topics. No two topics have one id. -/
structure Stream where
  name : String
  id : Nat
  createdAtMicros : Nat
  topics : String → Option Topic
  distinct : ∀ {a b x y}, topics a = some x → topics b = some y → x.id = y.id → a = b

def Topic.log (topic : Topic) (partition : Nat) : List Record := topic.partitions.getD partition []

/-- The partitions a client looks at. -/
def Topic.count (topic : Topic) : Nat := boundedPartitions topic.partitions.length

/-! ## Reading -/

structure ContextMessage where
  partitionId : Nat
  offset : Nat
  provenance : Provenance
  payload : List UInt8
  topic : String
  timestampMicros : Nat
  streamId : Nat
  topicId : Nat
  deriving DecidableEq, Repr

/-- The next offset of each partition of each topic, in the order of a
`BTreeMap`. -/
structure Checkpoint where
  perTopic : List (String × List (Nat × Nat))
  deriving DecidableEq, Repr

def Checkpoint.next (checkpoint : Checkpoint) (topic : String) (partition : Nat) : Nat :=
  ((checkpoint.perTopic.lookup topic).bind (·.lookup partition)).getD 0

inductive ReadSpan where
  | window
  | whole
  deriving DecidableEq, Repr

def contextReadWindow : Nat := 10000

def readBatch : Nat := 1000

/-- Where a read of the newest records starts. -/
def tailAnchoredOffset (length start : Nat) : Nat :=
  if length = 0 then start else max start (length - 1 - (maxDrainMessages - 1))

def rangeStart (span : ReadSpan) (start last : Nat) : Nat :=
  match span with
  | .window => max start (last - (contextReadWindow - 1))
  | .whole => start

def partitionRange (length start : Nat) (limit : Option Nat) (span : ReadSpan) : Option DrainRange :=
  match limit, span with
  | none, .window => some ⟨tailAnchoredOffset length start, none⟩
  | limit, span =>
    -- A replay pins the tail at its start.
    let next := limit.getD length
    if next = 0 ∨ next - 1 < start then none else some ⟨rangeStart span start (next - 1), some (next - 1)⟩

def readsFurther (span : ReadSpan) (read nextOffset : Nat) (stop : Option Nat) : Bool :=
  span = .whole && contextReadWindow ≤ read && stop.all (nextOffset ≤ ·)

/-- Drain chunk after chunk. -/
def readLoop {α : Type} (cap : Nat → Nat) (log : List α) (span : ReadSpan) : Nat → DrainRange → List α
  | 0, _ => []
  | fuel + 1, range =>
    let batch := drainPartition cap log range readBatch
    if readsFurther span batch.messages.length batch.nextOffset range.stop then
      batch.messages ++ readLoop cap log span fuel { range with start := batch.nextOffset }
    else batch.messages

/-- One chunk a record is more than there are. -/
def readPartition {α : Type} (cap : Nat → Nat) (log : List α) (start : Nat) (limit : Option Nat) (span : ReadSpan) : List α :=
  match partitionRange log.length start limit span with
  | none => []
  | some range => readLoop cap log span (log.length + 1) range

def inConversation (provenance : Provenance) (conversation : Nat) (acrossSubconversations : Bool) : Bool :=
  if provenance.conversationId = conversation then true
  else acrossSubconversations &&
    (provenance.rootConversationId = some conversation || provenance.parentConversationId = some conversation)

/-- What a caller sets on an assembler. A policy keeps the last messages, or
all of them. -/
structure ContextAssembler where
  conversationId : Nat
  topics : List String
  acrossSubconversations : Bool
  policy : Option Nat
  fromCheckpoint : Option Checkpoint
  toCheckpoint : Option Checkpoint

def select (policy : Option Nat) (history : List ContextMessage) : List ContextMessage :=
  match policy with
  | none => history
  | some n => history.drop (history.length - n)

/-- What a read does not decide: where the byte cap stops each reply, and in
which order the partitions come in. -/
structure Schedule where
  cap : String → Nat → Nat → Nat
  joined : List ContextMessage → List ContextMessage
  perm : ∀ messages, (joined messages).Perm messages

section

variable (stream : Stream) (assembler : ContextAssembler) (span : ReadSpan) (schedule : Schedule)

/-- A topic named twice is read once. -/
def ContextAssembler.sources : List String := assembler.topics.eraseDups

def ContextAssembler.start (topic : String) (partition : Nat) : Nat :=
  (assembler.fromCheckpoint.map (·.next topic partition)).getD 0

def ContextAssembler.limit (topic : String) (partition : Nat) : Option Nat :=
  assembler.toCheckpoint.map (·.next topic partition)

/-- The message of a record of the conversation. -/
def ContextAssembler.message (name : String) (topic : Topic) (partition : Nat) (found : Record × Nat) :
    Option ContextMessage :=
  match found.1.provenance with
  | none => none
  | some provenance =>
    if inConversation provenance assembler.conversationId assembler.acrossSubconversations then
      some
        { partitionId := partition
          offset := found.2
          provenance
          payload := found.1.payload
          topic := name
          timestampMicros := found.1.timestamp
          streamId := stream.id
          topicId := topic.id }
    else none

def ContextAssembler.matched (name : String) (topic : Topic) (partition : Nat) : List ContextMessage :=
  (readPartition (schedule.cap name partition) (topic.log partition).zipIdx (assembler.start name partition)
    (assembler.limit name partition) span).filterMap (assembler.message stream name topic partition)

def ContextAssembler.collected : List ContextMessage :=
  assembler.sources.flatMap fun name =>
    match stream.topics name with
    | none => []
    | some topic => (List.range topic.count).flatMap (assembler.matched stream span schedule name topic)

/-- The fields of the order: the timestamp, then the topic's place in the
list, the partition and the offset. -/
def ContextMessage.fields (topics : List String) (message : ContextMessage) : List Nat :=
  [message.timestampMicros, topics.idxOf message.topic, message.partitionId, message.offset]

def inOrder (topics : List String) (messages : List ContextMessage) : List ContextMessage :=
  sortByKey (·.fields topics) messages

def ContextAssembler.readOnce : List ContextMessage :=
  select assembler.policy (inOrder assembler.sources (schedule.joined (assembler.collected stream span schedule)))

end

/-! ## Folding -/

inductive ReplayBound where
  | fromOffsets (offsets : List (String × List (Nat × Nat)))
  | last (n : Nat)
  | full
  | fromCheckpoint (checkpoint : Checkpoint)
  | at (checkpoint : Checkpoint)

/-- The messages of a bound. -/
def history (stream : Stream) (conversation : Nat) (topics : List String) (schedule : Schedule) :
    ReplayBound → List ContextMessage
  | .fromOffsets offsets => (⟨conversation, topics, false, none, some ⟨offsets⟩, none⟩ : ContextAssembler).readOnce stream .whole schedule
  | .last n => (⟨conversation, topics, false, some n, none, none⟩ : ContextAssembler).readOnce stream .window schedule
  | .full => (⟨conversation, topics, false, none, none, none⟩ : ContextAssembler).readOnce stream .whole schedule
  | .fromCheckpoint checkpoint =>
    (⟨conversation, topics, false, none, some checkpoint, none⟩ : ContextAssembler).readOnce stream .whole schedule
  | .at checkpoint =>
    (⟨conversation, topics, false, none, none, some checkpoint⟩ : ContextAssembler).readOnce stream .whole schedule

def load {S : Type} (stream : Stream) (conversation : Nat) (topics : List String) (schedule : Schedule) (bound : ReplayBound)
    (init : S) (fold : S → ContextMessage → S) : S :=
  (history stream conversation topics schedule bound).foldl fold init

/-! ## Snapshots -/

structure SnapshotOffset where
  topicId : Nat
  topicCreatedAtMicros : Nat
  partitionId : Nat
  offset : Nat
  deriving DecidableEq, Repr

def SnapshotOffset.key (entry : SnapshotOffset) : List Nat := [entry.topicId, entry.topicCreatedAtMicros, entry.partitionId]

structure FoldSnapshot where
  stream : String
  streamId : Nat
  streamCreatedAtMicros : Nat
  conversation : Nat
  fold : String
  asOf : List SnapshotOffset
  state : List UInt8
  deriving DecidableEq, Repr

/-- The entries are sorted, so a search finds the one with the key. -/
def FoldSnapshot.resumeOffset (snapshot : FoldSnapshot) (topicId topicCreatedAtMicros partition : Nat) : Nat :=
  match snapshot.asOf.find? fun entry => entry.key = [topicId, topicCreatedAtMicros, partition] with
  | some entry => entry.offset + 1
  | none => 0

def sortedKeys : List SnapshotOffset → Bool
  | first :: second :: rest => first.key < second.key && sortedKeys (second :: rest)
  | _ => true

def FoldSnapshot.validate (snapshot : FoldSnapshot) : Except String Unit :=
  if snapshot.stream = "" ∨ snapshot.fold = "" then throw "snapshot stream and fold must be non-empty"
  else if sortedKeys snapshot.asOf = false then throw "snapshot offsets must be sorted with no duplicate source"
  else pure ()

/-- The entries of one topic. Empty partitions are left out. -/
def topicOffsets (topic : Topic) (partitions : List (Nat × Nat)) : List SnapshotOffset :=
  (partitions.filter fun entry => 0 < entry.2).map fun entry => ⟨topic.id, topic.createdAtMicros, entry.1, entry.2 - 1⟩

def collectOffsets (stream : Stream) : List (String × List (Nat × Nat)) → Except String (List SnapshotOffset)
  | [] => pure []
  | (name, partitions) :: rest =>
    match stream.topics name with
    | none => throw ("topic `" ++ name ++ "` does not exist")
    | some topic => do
      let others ← collectOffsets stream rest
      pure (topicOffsets topic partitions ++ others)

def snapshotFromCheckpoint (stream : Stream) (conversation : Nat) (fold : String) (checkpoint : Checkpoint)
    (state : List UInt8) : Except String FoldSnapshot := do
  let asOf ← collectOffsets stream checkpoint.perTopic
  let snapshot : FoldSnapshot :=
    { stream := stream.name
      streamId := stream.id
      streamCreatedAtMicros := stream.createdAtMicros
      conversation
      fold
      asOf := sortByKey (·.key) asOf
      state }
  snapshot.validate
  pure snapshot

/-- The saved offsets of every topic, with the sources that exist now. -/
def resumeTopics (stream : Stream) (snapshot : FoldSnapshot) :
    List String → Except String (List (String × List (Nat × Nat)) × List (Nat × Nat))
  | [] => pure ([], [])
  | name :: rest =>
    match stream.topics name with
    | none => throw ("snapshot source topic " ++ name ++ " is missing")
    | some topic => do
      let (perTopic, sources) ← resumeTopics stream snapshot rest
      let offsets := (List.range topic.count).map fun partition =>
        (partition, snapshot.resumeOffset topic.id topic.createdAtMicros partition)
      pure (insertKey name offsets perTopic, (topic.id, topic.createdAtMicros) :: sources)

def checkpointFromSnapshot (stream : Stream) (snapshot : FoldSnapshot) (topics : List String) : Except String Checkpoint := do
  snapshot.validate
  if snapshot.stream ≠ stream.name then throw "snapshot stream does not match the client"
  else if snapshot.streamId ≠ stream.id ∨ snapshot.streamCreatedAtMicros ≠ stream.createdAtMicros then
    throw "snapshot stream generation changed"
  else
    let (perTopic, sources) ← resumeTopics stream snapshot topics
    if snapshot.asOf.any fun entry => decide ((entry.topicId, entry.topicCreatedAtMicros) ∉ sources) then
      throw "snapshot source topic generation changed"
    else pure ⟨perTopic⟩

/-- Fold from the newest snapshot of a store, or from the start. -/
def loadWith {S : Type} (stream : Stream) (latest : Option FoldSnapshot) (decode : List UInt8 → Except String S)
    (conversation : Nat) (topics : List String) (schedule : Schedule) (init : S) (fold : S → ContextMessage → S) :
    Except String S :=
  match latest with
  | some snapshot =>
    if snapshot.conversation ≠ conversation then throw "snapshot conversation does not match the fold"
    else do
      let checkpoint ← checkpointFromSnapshot stream snapshot topics
      match decode snapshot.state with
      | .error error => throw ("decode snapshot state: " ++ error)
      | .ok state => pure (load stream conversation topics schedule (.fromCheckpoint checkpoint) state fold)
  | none => pure (load stream conversation topics schedule .full init fold)

end LaserSdk.Context

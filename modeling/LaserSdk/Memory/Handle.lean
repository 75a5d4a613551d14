import LaserSdk.Lib.Runs
import LaserSdk.Memory.Fold
import LaserSdk.Poll.Drain
/-!
# A log-backed memory

One handle on a memory topic, and everything else that happens to the topic. A
catch-up takes a snapshot of the folded offsets, drains every partition
without the lock, and folds under it what it drained. A named write appends
its record and then puts the value into the projection. Calls run side by
side, so a call is several steps and other steps come between them.
-/

namespace LaserSdk.Memory

open Lib Poll

/-- The prefix of its keys, the namespace header of its records, the
conversation derived from a named id, and the partition the server gives all
records of that conversation. -/
structure LogMemory where
  memoryNamespace : String
  resourceNamespace : String
  derive : String → Nat
  place : String → Nat

section

variable {W : Type}

/-- What a drain found in one partition. -/
structure Batch (W : Type) where
  partition : Nat
  nextOffset : Nat
  messages : List (Placed W)

/-- A catch-up under way: the offsets it took, the partitions it has visited
and what it found there. `seen` is how long the partitions were when it
began, which the code does not keep. -/
structure CatchUp (W : Type) where
  start : Nat → Nat
  seen : Nat → Nat
  visited : Nat
  drained : List (Batch W)

/-- A named write whose record is appended and whose value is not in the
projection yet. -/
structure Insert where
  id : String
  value : Option Bytes
  deriving DecidableEq, Repr

/-- The topic, the handle and its calls. `order` is everything folded so far,
which the code does not keep. -/
structure State (W : Type) where
  topic : List (List (Message W))
  projection : Projection W
  offsets : Nat → Nat
  catchUps : Nat → Option (CatchUp W)
  inserts : Nat → Option Insert
  order : List (Placed W)

/-- A new handle on a topic. -/
def State.new (topic : List (List (Message W))) : State W := ⟨topic, .default, fun _ => 0, fun _ => none, fun _ => none, []⟩

def State.log (s : State W) (partition : Nat) : List (Message W) := s.topic.getD partition []

/-- The records of a partition where they lie. -/
def placed (partition : Nat) (log : List (Message W)) : List (Placed W) :=
  log.zipIdx.map fun found => ⟨partition, found.2, found.1⟩

def State.push (s : State W) (partition : Nat) (message : Message W) : State W :=
  { s with topic := s.topic.modify partition (· ++ [message]) }

/-! ## Named writes -/

def LogMemory.namedKey (m : LogMemory) (key : String) : String := m.memoryNamespace ++ "/" ++ key

/-- The record of `set_named`, or of `forget_named` when there is no value. -/
def namedRecord (id : String) : Option Bytes → MemoryRecord
  | some body => .item id "fact" body
  | none => .forget id

def LogMemory.message (m : LogMemory) (id : String) (payload : Payload W) : Message W :=
  ⟨some ⟨⟨m.derive id, none⟩, some m.resourceNamespace, none, none⟩, payload⟩

/-- What a named write appends: its record, or what a governor makes of it. -/
def LogMemory.named (m : LogMemory) (key : String) (value : Option Bytes) (governed : Option (Payload W)) : Message W :=
  m.message (m.namedKey key) (governed.getD (.record (namedRecord (m.namedKey key) value)))

/-! ## Steps -/

inductive Action (W : Type) where
  /-- Any writer appends a record. -/
  | append (partition : Nat) (message : Message W)
  /-- A named write appends its record. -/
  | publish (call : Nat) (key : String) (value : Option Bytes) (governed : Option (Payload W))
  | insert (call : Nat)
  | begin (call : Nat)
  | drain (call : Nat) (cap : Nat → Nat)
  | apply (call : Nat)

/-- What `update_named` does once it has caught up: its write, or the error of
the merge. -/
def State.updateNamed (m : LogMemory) (json : JsonText) (s : State W) (call : Nat) (key : String) (patch : Bytes)
    (governed : Option (Payload W)) : Except String (Action W) :=
  (mergeNamed json (s.projection.named (m.namedKey key)) patch).map fun merged => .publish call key (some merged) governed

def readBatch : Nat := 1000

/-- The next partition of a catch-up. -/
def CatchUp.drain (cap : Nat → Nat) (log : Nat → List (Message W)) (c : CatchUp W) : CatchUp W :=
  let batch := drainPartition cap (placed c.visited (log c.visited)) ⟨c.start c.visited, none⟩ readBatch
  { c with
    visited := c.visited + 1
    drained := if batch.messages.isEmpty then c.drained
      else c.drained ++ [⟨c.visited, batch.nextOffset, batch.messages⟩] }

variable [Add W] [Zero W]

/-- A batch is folded unless the partition moved on meanwhile. -/
def applyBatch (m : LogMemory) (start : Nat → Nat) (s : State W) (batch : Batch W) : State W :=
  if s.offsets batch.partition ≠ start batch.partition then s
  else
    { s with
      projection := batch.messages.foldl (Projection.absorb m.resourceNamespace) s.projection
      offsets := Function.update s.offsets batch.partition batch.nextOffset
      order := s.order ++ batch.messages }

def step (m : LogMemory) (s : State W) : Action W → Option (State W)
  | .append partition message => if partition < s.topic.length then some (s.push partition message) else none
  | .publish call key value governed =>
    let id := m.namedKey key
    if m.place id < s.topic.length ∧ (s.inserts call).isNone then
      some
        { s.push (m.place id) (m.named key value governed) with
          inserts := Function.update s.inserts call (some ⟨id, value⟩) }
    else none
  | .insert call =>
    (s.inserts call).map fun i =>
      { s with
        projection := { s.projection with named := Function.update s.projection.named i.id i.value }
        inserts := Function.update s.inserts call none }
  | .begin call =>
    if (s.catchUps call).isNone then
      some { s with catchUps := Function.update s.catchUps call (some ⟨s.offsets, fun p => (s.log p).length, 0, []⟩) }
    else none
  | .drain call cap =>
    match s.catchUps call with
    | none => none
    | some c =>
      if c.visited < boundedPartitions s.topic.length then
        some { s with catchUps := Function.update s.catchUps call (some (c.drain cap s.log)) }
      else none
  | .apply call =>
    match s.catchUps call with
    | none => none
    | some c =>
      if c.visited = boundedPartitions s.topic.length then
        some { c.drained.foldl (applyBatch m c.start) s with catchUps := Function.update s.catchUps call none }
      else none

/-- The steps of a catch-up with nothing in between. -/
def catchUpSteps (call : Nat) (cap : Nat → Nat → Nat) (partitions : Nat) : List (Action W) :=
  .begin call :: ((List.range (boundedPartitions partitions)).map (fun p => .drain call (cap p)) ++ [.apply call])

/-! ## When the projection keeps up -/

/-- Some record that writes the key is not folded yet. -/
def State.Unread (resourceNamespace : String) (s : State W) (key : String) : Prop :=
  ∃ partition offset message value, (s.log partition)[offset]? = some message ∧ s.offsets partition ≤ offset ∧
    message.write resourceNamespace = some (key, value)

/-- A governor leaves what a record writes as it is. A value is put into the
projection while a record of its key is unread, or is there already. A drain
reaches the tail. A batch that is not folded was folded by another catch-up as
far. -/
def Meets (m : LogMemory) (s : State W) : Action W → Prop
  | .append _ _ => True
  | .publish _ key value governed => (m.named key value governed).write m.resourceNamespace = some (m.namedKey key, value)
  | .insert call => ∀ i, s.inserts call = some i → s.Unread m.resourceNamespace i.id ∨ s.projection.named i.id = i.value
  | .begin _ => True
  | .drain call _ => ∀ c, s.catchUps call = some c → (s.log c.visited).length ≤ c.start c.visited + maxDrainMessages
  | .apply call => ∀ c, s.catchUps call = some c → ∀ batch ∈ c.drained,
    s.offsets batch.partition = c.start batch.partition ∨ batch.nextOffset ≤ s.offsets batch.partition

/-- The runs whose steps all meet the condition. -/
def Reaches (m : LogMemory) (s : State W) (actions : List (Action W)) (s' : State W) : Prop :=
  Run (fun s a s' => Meets m s a ∧ step m s a = some s') s actions s'

end

end LaserSdk.Memory

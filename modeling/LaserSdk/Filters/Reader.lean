import Mathlib.Data.Finmap
import Mathlib.Data.Finset.Sort
import LaserSdk.Filters.Progress
/-!
# The filtered reader

`FilteredReader` holds one `PartitionProgress` per partition and numbers the
pages it reads with one counter for all partitions. A progress is replaced when
the source changed, and when the group's assignment did; a rejoin drops them
all. What the server answers, and a call dropped while it waits for an answer,
are inputs here. Routes, filtered waits and the pace of the rounds choose when
a partition is read and are left out: any partition may be read at any time.
-/

namespace LaserSdk.Filters

/-! ## Errors -/

inductive FilterErrorReason where
  | invalidRequest
  | unsupported
  | versionSkew
  | notFound
  | conflict
  | sourceChanged
  | membershipStale
  | catalogUnavailable
  | revisionDisabled
  | tooLarge
  | unauthenticated
  | forbidden
  | unavailable
  | capacityExhausted
  | backend
  | unknown
  deriving DecidableEq, Repr

/-- The client errors that the reader tells apart. -/
inductive IggyError where
  | historyUnavailable
  | consumerGroupPartitionNotOwned
  | notPrimary
  | invalidIdentifier
  | disconnected
  | tcpError
  | quicError
  | staleClient
  | notConnected
  | connectionClosed
  | cannotEstablishConnection
  | cannotSendMessagesDueToClientDisconnection
  | transientNotAccepted
  | transientNotCommitted
  | cannotReadFile
  | cannotReadPartitions
  | partitionNotFound
  | producerSendFailed (cause : IggyError)
  | other (code : Nat)
  deriving DecidableEq, Repr

def isTransientIggyIoError : IggyError → Bool
  | .disconnected | .tcpError | .quicError | .staleClient | .notConnected | .connectionClosed
  | .cannotEstablishConnection | .cannotSendMessagesDueToClientDisconnection | .transientNotAccepted
  | .transientNotCommitted | .cannotReadFile | .cannotReadPartitions | .partitionNotFound => true
  | .producerSendFailed cause => isTransientIggyIoError cause
  | _ => false

def isRouteStale (error : IggyError) : Bool :=
  error == .notPrimary || error == .invalidIdentifier || isTransientIggyIoError error

inductive LaserError where
  | iggy (error : IggyError)
  | filter (reason : FilterErrorReason) (message : String)
  | invalid (message : String)
  | protocol (message : String)
  | filterFault (partitionId offset : Nat) (reason : FaultReason)
  | filterOversizedRecord (partitionId offset : Nat)
  deriving DecidableEq, Repr

namespace LaserError

def filterReason : LaserError → Option FilterErrorReason
  | .filter reason _ => some reason
  | _ => none

/-- A request that reached no primary of its partition. -/
def isRouteMoved : LaserError → Bool
  | .iggy error => isRouteStale error
  | error => error.filterReason == some .unavailable

/-- The group no longer assigns the partition to this member. -/
def isAssignmentLost (error : LaserError) : Bool :=
  error.filterReason == some .membershipStale || error == .iggy .consumerGroupPartitionNotOwned

def seedNotHeld (error : LaserError) : Bool := error.isAssignmentLost || error == .iggy .transientNotAccepted

/-- The history or the policy that the continuation was issued for has ended. -/
def restarts (error : LaserError) : Bool :=
  let reason := if error = .iggy .historyUnavailable then some .sourceChanged else error.filterReason
  reason == some .sourceChanged || reason == some .conflict

def notOwned : LaserError :=
  .invalid "the page or record belongs to another filtered reader, or was read before this reader rejoined its group"

def retiredRead : LaserError := .filter .membershipStale "the acknowledgment belongs to a retired partition read"

def notRead (partitionId : Nat) : LaserError :=
  .filter .membershipStale
    s!"partition {partitionId} is no longer read by this reader. Its unacknowledged records are read again"

def pastBoundary : LaserError := .invalid "the record is past the page acknowledgment boundary"

def otherReceipt : LaserError := .protocol "the acknowledgment receipt does not match its page"

def blocked (partitionId : Nat) : Blocked → LaserError
  | .fault offset reason => .filterFault partitionId offset reason
  | .oversized offset => .filterOversizedRecord partitionId offset

end LaserError

/-! ## Pages and records -/

/-- A record handed out. Its message is left out. -/
structure MatchedRecord where
  partitionId : Nat
  offset : Nat
  frontier : Nat
  evaluated : Bool
  sequence : Nat
  owner : Nat
  deriving DecidableEq, Repr

structure MatchedPage where
  partitionId : Nat
  records : List MatchedRecord
  policy : AppliedPolicy
  generation : SourceGeneration
  stop : StopReason
  examined : Nat
  frontier : Nat
  safeAckOffset : Option Nat
  sequence : Nat
  owner : Nat
  deriving DecidableEq, Repr

/-- The handle that the normal consumer acknowledges a record by. -/
structure RecordDelivery where
  partitionId : Nat
  offset : Nat
  sequence : Nat
  owner : Nat
  deriving DecidableEq, Repr

def MatchedRecord.delivery (record : MatchedRecord) : RecordDelivery :=
  { partitionId := record.partitionId, offset := record.offset, sequence := record.sequence, owner := record.owner }

/-! ## The reader -/

structure SourceIncarnation where
  streamId : Nat
  streamCreatedAtMicros : Nat
  topicId : Nat
  topicCreatedAtMicros : Nat
  deriving DecidableEq, Repr

def SourceGeneration.incarnation (generation : SourceGeneration) : SourceIncarnation :=
  { streamId := generation.streamId, streamCreatedAtMicros := generation.streamCreatedAtMicros,
    topicId := generation.topicId, topicCreatedAtMicros := generation.topicCreatedAtMicros }

/-- A progress with a number of its own. No function reads the number: it tells
the progress of a partition from the one that replaces it. -/
structure Held where
  life : Nat
  progress : PartitionProgress

structure Reader where
  owner : Nat
  initialAssignment : Bool
  request : FilteredPollRequest
  maxUnackedPages : Nat
  partitions : Finmap fun _ : Nat => Held
  revoked : Finset Nat
  selectedPartitions : Finset Nat
  sequence : Nat
  lostAssignments : Finset Nat
  /-- A start is stored on a partition that the group never stored. -/
  seed : Bool
  unseeded : Finset Nat
  buffered : List MatchedRecord
  pinnedSource : Option SourceIncarnation
  /-- How many progresses were made. -/
  created : Nat

/-- What a call returns. A dropped call returns nothing. -/
inductive Outcome (α : Type) where
  | ok (value : α)
  | error (error : LaserError)
  | dropped
  deriving DecidableEq, Repr

namespace PartitionProgress

def defer (p : PartitionProgress) (retryAt : Nat) : PartitionProgress := { p with retryAt := some retryAt }

end PartitionProgress

namespace Reader

/-- A new progress for a partition. -/
def renew (s : Reader) (partitionId : Nat) (start : FilteredStart) : Reader :=
  { s with partitions := s.partitions.insert partitionId ⟨s.created, .new start⟩, created := s.created + 1 }

def replace (s : Reader) (partitionId : Nat) (held : Held) (progress : PartitionProgress) : Reader :=
  { s with partitions := s.partitions.insert partitionId { held with progress := progress } }

def progress (s : Reader) (partitionId : Nat) : Except LaserError Held :=
  match s.partitions.lookup partitionId with
  | some held => .ok held
  | none => .error (.notRead partitionId)

def knows (s : Reader) (partitionId sequence : Nat) : Bool :=
  (s.partitions.lookup partitionId).any (·.progress.knows sequence)

/-- Whether the records of a page can still be acknowledged. -/
def owns (s : Reader) (page : MatchedPage) : Bool := s.owner == page.owner && s.knows page.partitionId page.sequence

def requireSequence (s : Reader) (partitionId sequence : Nat) : Except LaserError Unit :=
  if s.knows partitionId sequence then .ok () else .error .retiredRead

def requireOwner (s : Reader) (owner : Nat) : Except LaserError Unit :=
  if s.owner = owner then .ok () else .error .notOwned

/-- Forget a revoked partition once nothing of it is in flight. -/
def retire (s : Reader) (partitionId : Nat) : Reader :=
  if partitionId ∈ s.revoked ∧
      (s.partitions.lookup partitionId).any (fun held => held.progress.inFlight == 0 && held.progress.unstored.isNone) then
    { s with partitions := s.partitions.erase partitionId, revoked := s.revoked.erase partitionId }
  else s

/-- After an error that ended its history or policy, a partition starts over
from its stored offset. -/
def restartAfter (s : Reader) (partitionId : Nat) (error : LaserError) : Reader :=
  if error.restarts then
    let restarted := if (s.partitions.lookup partitionId).isSome then s.renew partitionId .next else s
    { restarted with buffered := restarted.buffered.filter (·.partitionId ≠ partitionId) }
  else s

/-! ## Storing progress -/

structure AckReceipt where
  partitionId : Nat
  offset : Nat
  generation : SourceGeneration
  deriving DecidableEq, Repr

inductive AckReply where
  | acknowledged (receipt : AckReceipt)
  | other
  deriving DecidableEq, Repr

/-- Store the completed prefix of one partition. -/
def flush (s : Reader) (partitionId : Nat) (answer : Option (Except LaserError AckReply)) : Outcome Unit × Reader :=
  match s.progress partitionId with
  | .error error => (.error error, s)
  | .ok held =>
    match held.progress.unstored with
    | none => (.ok (), s.retire partitionId)
    | some target =>
      match answer with
      | none => (.dropped, s)
      | some (.ok (.acknowledged receipt)) =>
        if receipt.partitionId = partitionId ∧ receipt.offset = target.offset ∧ receipt.generation = target.generation then
          (.ok (), (s.replace partitionId held (held.progress.stored target)).retire partitionId)
        else (.error .otherReceipt, s)
      | some (.ok .other) => (.error .otherReceipt, s)
      | some (.error error) => (.error error, s.restartAfter partitionId error)

/-- What a store was answered, and whether that was before its deadline. -/
structure Answer where
  reply : Except LaserError AckReply
  inTime : Bool

/-- Store like `flush`, again while no primary takes it. The answers are those
that came before the call returned or was dropped. -/
def store (s : Reader) (partitionId : Nat) : List Answer → Outcome Unit × Reader
  | [] => s.flush partitionId none
  | answer :: rest =>
    match s.flush partitionId (some answer.reply) with
    | (.error error, s') =>
      if error.isRouteMoved && answer.inTime then s'.store partitionId rest else (.error error, s')
    | stored => stored

/-- Store every partition. The first error is the result, and a dropped call
stops where it is. -/
def storeAll (answers : Nat → List Answer) : List Nat → Outcome Unit → Reader → Outcome Unit × Reader
  | [], outcome, s => (outcome, s)
  | partitionId :: rest, outcome, s =>
    match s.store partitionId (answers partitionId) with
    | (.dropped, s') => (.dropped, s')
    | (flushed, s') => storeAll answers rest (match outcome with | .ok () => flushed | other => other) s'

def flushCompleted (s : Reader) (answers : Nat → List Answer) : Outcome Unit × Reader :=
  storeAll answers (s.partitions.keys.sort (· ≤ ·)) (.ok ()) s

/-! ## Acknowledgments -/

/-- Complete part of a page that this reader still tracks, and store what that
makes safe. -/
def acknowledge (s : Reader) (owner partitionId sequence : Nat) (complete : PartitionProgress → Bool × PartitionProgress)
    (answers : List Answer) : Outcome Unit × Reader :=
  match s.requireOwner owner with
  | .error error => (.error error, s)
  | .ok () =>
    match s.requireSequence partitionId sequence with
    | .error error => (.error error, s)
    | .ok () =>
      match s.progress partitionId with
      | .error error => (.error error, s)
      | .ok held =>
        match complete held.progress with
        | (true, progress) => (s.replace partitionId held progress).store partitionId answers
        | (false, progress) => (.error .pastBoundary, s.replace partitionId held progress)

def ack (s : Reader) (record : MatchedRecord) : List Answer → Outcome Unit × Reader :=
  s.acknowledge record.owner record.partitionId record.sequence
    fun progress => (true, progress.completeRecord record.sequence record.offset)

def ackThrough (s : Reader) (record : MatchedRecord) : List Answer → Outcome Unit × Reader :=
  s.acknowledge record.owner record.partitionId record.sequence
    fun progress => progress.completeThrough record.sequence record.offset

def ackPage (s : Reader) (page : MatchedPage) : List Answer → Outcome Unit × Reader :=
  s.acknowledge page.owner page.partitionId page.sequence fun progress => (true, progress.completePage page.sequence)

def ackThroughDelivery (s : Reader) (delivery : RecordDelivery) : List Answer → Outcome Unit × Reader :=
  s.acknowledge delivery.owner delivery.partitionId delivery.sequence
    fun progress => progress.completeThrough delivery.sequence delivery.offset

/-- Complete through a delivery without storing. It asks for the owner only. -/
def handled (s : Reader) (delivery : RecordDelivery) : Reader :=
  if s.owner = delivery.owner then
    match s.partitions.lookup delivery.partitionId with
    | some held => s.replace delivery.partitionId held (held.progress.completeThrough delivery.sequence delivery.offset).2
    | none => s
  else s

/-! ## Reading -/

/-- The answer to a poll. A page's record bytes are checked and decoded first. -/
inductive ReadReply where
  | page (page : FilteredPage) (decoded : Except LaserError PolledMessages)
  | other

/-- What the local guard says of a filtered page. -/
inductive Guarded where
  | passed
  | notLoaded (error : LaserError)
  | refused (error : LaserError)

/-- Everything a read is told from outside. -/
structure ReadInput where
  seeding : Except LaserError Unit
  reply : Option (Except LaserError ReadReply)
  guarded : Guarded
  retryAt : Nat
  flushed : Option (Except LaserError AckReply)

inductive Read where
  | page (page : MatchedPage)
  | empty (more : Bool)
  | saturated
  deriving DecidableEq, Repr

def matchedPage (s : Reader) (partitionId : Nat) (page : FilteredPage) (polled : PolledMessages) : MatchedPage :=
  { partitionId := partitionId
    records := polled.offsets.map fun offset =>
      { partitionId := partitionId, offset := offset, frontier := page.frontier,
        evaluated := page.policy.mode == .filtered && !page.unevaluated.contains offset,
        sequence := s.sequence, owner := s.owner }
    policy := page.policy, generation := page.generation, stop := page.stop, examined := page.examined,
    frontier := page.frontier, safeAckOffset := page.safeAckOffset, sequence := s.sequence, owner := s.owner }

/-- A numeric group id names a group inside one topic incarnation. -/
def pinSource (s : Reader) (page : FilteredPage) : Except LaserError Reader :=
  match s.request.consumer with
  | .groupId id =>
    match s.pinnedSource with
    | none => .ok { s with pinnedSource := some page.generation.incarnation }
    | some pinned =>
      if pinned = page.generation.incarnation then .ok s
      else .error (.filter .notFound
        s!"the numeric consumer group {id} belongs to a replaced stream or topic, build a new reader")
  | _ => .ok s

/-- Number an accepted page, record it and hand it out. A page without records
is stored at once. -/
def deliver (s : Reader) (partitionId : Nat) (page : FilteredPage) (polled : PolledMessages) (input : ReadInput) :
    Outcome Read × Reader :=
  let numbered := { s with sequence := s.sequence + 1 }
  match numbered.progress partitionId with
  | .error error => (.error error, numbered)
  | .ok held =>
    let recorded := held.progress.record numbered.sequence page polled.offsets
    let progress := if recorded.blocked.isSome then recorded.defer input.retryAt else recorded
    let s' := numbered.replace partitionId held progress
    if polled.offsets = [] then
      match s'.flush partitionId input.flushed with
      | (.dropped, s'') => (.dropped, s'')
      | (_, s'') =>
        match recorded.blocked with
        | some blocked => (.error (.blocked partitionId blocked), s'')
        | none => (.ok (.empty (page.stop == .filled || page.stop == .budget)), s'')
    else (.ok (.page (s'.matchedPage partitionId page polled)), s')

/-- Check a page against the request, the pinned source and the local guard. -/
def accept (s : Reader) (partitionId : Nat) (page : FilteredPage) (decoded : Except LaserError PolledMessages)
    (input : ReadInput) : Outcome Read × Reader :=
  match decoded with
  | .error error => (.error error, s)
  | .ok polled =>
    match validatePage s.request page polled with
    | .error message => (.error (.protocol message), s)
    | .ok () =>
      match s.pinSource page with
      | .error error => (.error error, s)
      | .ok s =>
        match page.policy.mode, input.guarded with
        | .filtered, .notLoaded error => (.error error, s)
        | .filtered, .refused error => (.error error, s.restartAfter partitionId error)
        | _, _ => s.deliver partitionId page polled input

def pollFailed (s : Reader) (partitionId : Nat) (error : LaserError) : Outcome Read × Reader :=
  if error.isAssignmentLost then
    if partitionId ∈ s.lostAssignments then (.error error, s)
    else (.ok (.empty false), { s with lostAssignments := insert partitionId s.lostAssignments })
  else
    let restarted := s.restartAfter partitionId error
    if error.filterReason = some .conflict then (.ok (.empty true), restarted) else (.error error, restarted)

/-- Ask for the next page of a partition. -/
def poll (s : Reader) (partitionId : Nat) (input : ReadInput) : Outcome Read × Reader :=
  match s.progress partitionId with
  | .error error => (.error error, s)
  | .ok held =>
    if s.maxUnackedPages ≤ held.progress.inFlight then (.ok .saturated, s)
    else
      let asked := { s with request := { s.request with partitionId := partitionId, start := held.progress.start } }
      match input.reply with
      | none => (.dropped, asked)
      | some (.error error) => asked.pollFailed partitionId error
      | some (.ok .other) => (.error (.protocol "filtered poll: unexpected reply variant"), asked)
      | some (.ok (.page page decoded)) =>
        { asked with lostAssignments := asked.lostAssignments.erase partitionId }.accept partitionId page decoded input

def read (s : Reader) (partitionId : Nat) (input : ReadInput) : Outcome Read × Reader :=
  if s.seed && decide (partitionId ∈ s.unseeded) then
    match input.seeding with
    | .ok () => { s with unseeded := s.unseeded.erase partitionId }.poll partitionId input
    | .error error => if error.seedNotHeld then (.ok (.empty false), s) else (.error error, s)
  else s.poll partitionId input

/-- One partition of a round. A failing one waits before it is read again. -/
def roundRead (s : Reader) (partitionId : Nat) (input : ReadInput) (retryAt : Nat) : Outcome Read × Reader :=
  match s.read partitionId input with
  | (.error error, s') =>
    match s'.partitions.lookup partitionId with
    | some held => (.error error, s'.replace partitionId held (held.progress.defer retryAt))
    | none => (.error error, s')
  | result => result

/-! ## Following the assignment -/

/-- Stop reading a partition that left the assignment. It keeps its pages. -/
def revoke (s : Reader) (partitionId : Nat) : Reader :=
  { s with revoked := insert partitionId s.revoked }.retire partitionId

/-- Start on an assigned partition that is new, or came back before it was
forgotten. -/
def assign (start : FilteredStart) (s : Reader) (partitionId : Nat) : Reader :=
  if partitionId ∈ s.revoked ∨ (s.partitions.lookup partitionId).isNone then
    { s with
      revoked := s.revoked.erase partitionId
      unseeded := if s.seed then insert partitionId s.unseeded else s.unseeded
      buffered := s.buffered.filter (·.partitionId ≠ partitionId) }.renew partitionId start
  else s

/-- A rejoined group is another membership, with nothing of the old one. -/
def rejoin (s : Reader) : Reader :=
  { s with initialAssignment := false, owner := s.owner + 1, partitions := ∅, revoked := ∅, buffered := [], unseeded := ∅ }

def isSelected (s : Reader) (partitionId : Nat) : Bool :=
  decide (s.selectedPartitions = ∅) || decide (partitionId ∈ s.selectedPartitions)

/-- Follow a changed assignment. -/
def refreshMembership (s : Reader) (membership : List Nat) (rejoined : Bool) : Reader :=
  let assigned := (membership.filter s.isSelected).toFinset
  let joined := if rejoined then s.rejoin else s
  let left := (joined.partitions.keys.filter (· ∉ assigned)).sort (· ≤ ·)
  let followed := left.foldl revoke joined
  let start := if followed.initialAssignment then followed.request.start else .next
  let open' := { followed with
    initialAssignment := followed.initialAssignment && decide (assigned = ∅)
    unseeded := followed.unseeded.filter (· ∈ assigned) }
  (assigned.sort (· ≤ ·)).foldl (assign start) open'

/-! ## Building a reader -/

/-- A reader over the partitions that its membership starts with. `notHeld` are
those that could not be seeded yet. -/
def build (request : FilteredPollRequest) (maxUnackedPages : Nat) (selectedPartitions : Finset Nat) (seed : Bool)
    (notHeld : Finset Nat) (pinnedSource : Option SourceIncarnation) (membership : List Nat) : Reader :=
  let s : Reader :=
    { owner := 0, initialAssignment := membership.isEmpty, request := request, maxUnackedPages := maxUnackedPages,
      partitions := ∅, revoked := ∅, selectedPartitions := selectedPartitions, sequence := 0, lostAssignments := ∅,
      seed := seed, unseeded := notHeld, buffered := [], pinnedSource := pinnedSource, created := 0 }
  (membership.filter s.isSelected).foldl (fun s partitionId => s.renew partitionId request.start) s

end Reader

end LaserSdk.Filters

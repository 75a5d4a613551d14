import Mathlib.Data.Finset.Basic
/-!
# The filtered read protocol

What a filtered reader sends and what a server answers: the start of a read,
the continuation a page hands to the next request, the policy a page ran and
the page itself. `validatePage` is the reader's check of an answer against
the request it sent. It is the only thing the reader knows about the server.
-/

namespace LaserSdk.Filters

def filterOpVersion : Nat := 1

/-- Bytes of a digest. A digest read off the wire may have any length. -/
structure Digest32 where
  bytes : List UInt8
  deriving DecidableEq, Repr

def Digest32.validate (d : Digest32) : Bool := d.bytes.length == 32

inductive ExecutionMode where
  | filtered
  | unfiltered
  deriving DecidableEq, Repr

/-- The exact source history a page was read from. -/
structure SourceGeneration where
  streamId : Nat
  streamCreatedAtMicros : Nat
  topicId : Nat
  topicCreatedAtMicros : Nat
  partitionId : Nat
  partitionIncarnation : Nat
  deriving DecidableEq, Repr

/-- The partition owner a page was read under. -/
structure AckContext where
  ownerGeneration : Nat
  metadataOp : Nat
  deriving DecidableEq, Repr

/-- The resume point a page hands to the next request. -/
structure Continuation where
  groupId : Option Nat
  nextScanOffset : Nat
  generation : SourceGeneration
  digest : Option Digest32
  mode : ExecutionMode
  policyGeneration : Nat
  deriving DecidableEq, Repr

inductive FilteredStart where
  | next
  | first
  | last
  | offset (offset : Nat)
  | timestamp (micros : Nat)
  | continue (cursor : Continuation)
  deriving DecidableEq, Repr

inductive FilterConsumer where
  | consumer (name : String)
  | group (name : String)
  | groupId (id : Nat)
  deriving DecidableEq, Repr

def FilterConsumer.isGroup : FilterConsumer → Bool
  | .consumer _ => false
  | .group _ | .groupId _ => true

/-- Which filter a read executes. The reader checks only whether it is the
group's binding, so an inline filter is named by its digest. -/
inductive FilterRef where
  | inline (digest : Digest32)
  | revision (filterId revision : Nat)
  | bound
  | group
  deriving DecidableEq, Repr

structure FilteredPollRequest where
  partitionId : Nat
  consumer : FilterConsumer
  filter : FilterRef
  start : FilteredStart
  maxExamined : Option Nat
  deriving DecidableEq, Repr

inductive StopReason where
  | filled
  | budget
  | endOfVisible
  | fault
  | oversizedRecord
  deriving DecidableEq, Repr

inductive FaultReason where
  | missingSchema
  | schemaNotAllowed
  | schemaMismatch
  | malformed
  | tooLarge
  | tooDeep
  | foreignCodec
  | typeMismatch
  deriving DecidableEq, Repr

structure RecordFault where
  offset : Nat
  reason : FaultReason
  deriving DecidableEq, Repr

/-- The filter a page actually executed. -/
structure AppliedPolicy where
  groupId : Option Nat
  digest : Option Digest32
  filterId : Option Nat
  revision : Option Nat
  mode : ExecutionMode
  policyGeneration : Nat
  deriving DecidableEq, Repr

/-- A filtered policy names its digest and an unfiltered one has none. -/
def validatePolicyIdentity : ExecutionMode → Option Digest32 → Bool
  | .filtered, some digest => digest.validate
  | .filtered, none => false
  | .unfiltered, none => true
  | .unfiltered, some _ => false

def AppliedPolicy.validate (p : AppliedPolicy) : Bool :=
  validatePolicyIdentity p.mode p.digest &&
    (p.mode != .unfiltered || (p.groupId.isSome && p.filterId.isNone && p.revision.isNone))

/-- One page of a filtered read, without the record bytes: the reader decodes
those into `PolledMessages` before it checks the page. -/
structure FilteredPage where
  v : Nat
  partitionId : Nat
  policy : AppliedPolicy
  generation : SourceGeneration
  ackContext : AckContext
  nextScanOffset : Option Nat
  safeAckOffset : Option Nat
  frontier : Nat
  examined : Nat
  matched : Nat
  stop : StopReason
  fault : Option RecordFault
  unevaluated : List Nat
  deriving DecidableEq, Repr

/-- The start of the next request: continue after this page, or repeat the
original selector when nothing was examined. -/
def FilteredPage.nextStart (page : FilteredPage) (original : FilteredStart) : FilteredStart :=
  match page.nextScanOffset with
  | some next => .continue
      { groupId := page.policy.groupId, nextScanOffset := next, generation := page.generation,
        digest := page.policy.digest, mode := page.policy.mode,
        policyGeneration := page.policy.policyGeneration }
  | none => original

/-- The decoded record body: its head and the offsets of its messages. -/
structure PolledMessages where
  partitionId : Nat
  currentOffset : Nat
  incarnation : Nat
  ownerGeneration : Nat
  metadataOp : Nat
  offsets : List Nat
  deriving DecidableEq, Repr

/-! ## The reader's check of a page -/

/-- The head of the page and of its record body name the request's partition,
one frontier and one owner, and the counts stay within the request. -/
def headMatches (request : FilteredPollRequest) (page : FilteredPage) (polled : PolledMessages) : Bool :=
  page.v == filterOpVersion
    && page.partitionId == request.partitionId
    && page.generation.partitionId == request.partitionId
    && polled.partitionId == request.partitionId
    && polled.currentOffset == page.frontier
    && polled.incarnation == page.generation.partitionIncarnation
    && polled.ownerGeneration == page.ackContext.ownerGeneration
    && polled.metadataOp == page.ackContext.metadataOp
    && page.matched == polled.offsets.length
    && page.matched ≤ page.examined
    && request.maxExamined.all (page.examined ≤ ·)
    && page.policy.validate

/-- A strict group read runs a binding. An unfiltered page is the whole
examined range, so nothing was selected out of it. -/
def modeMatches (request : FilteredPollRequest) (page : FilteredPage) : Bool :=
  match page.policy.mode with
  | .filtered => true
  | .unfiltered => request.filter != .bound && page.matched == page.examined
      && page.policy.filterId.isNone && page.policy.revision.isNone

/-- A page continues a cursor only under its own history and policy. -/
def continues (cursor : Continuation) (page : FilteredPage) : Bool :=
  cursor.generation == page.generation
    && cursor.digest == page.policy.digest
    && cursor.groupId == page.policy.groupId
    && cursor.mode == page.policy.mode
    && cursor.policyGeneration == page.policy.policyGeneration

/-- The first offset the request lets the page examine, when it names one. -/
def FilteredStart.scanFrom : FilteredStart → Option Nat
  | .continue cursor => some cursor.nextScanOffset
  | .offset n => some n
  | .first => some 0
  | _ => none

/-- The last offset the page examined. -/
def FilteredPage.scannedTo (page : FilteredPage) : Option Nat :=
  match page.nextScanOffset with
  | some (n + 1) => some n
  | _ => none

/-- The scan boundary of the page: what it offers as safe is the last offset
it examined, within the frontier and not before the start. -/
def scanMatches (start : Option Nat) (page : FilteredPage) : Bool :=
  (if page.examined == 0 then page.safeAckOffset.isNone && page.nextScanOffset == start
    else page.scannedTo.isSome && page.safeAckOffset == page.scannedTo)
    && page.scannedTo.all (· ≤ page.frontier)
    && start.all (fun start => page.nextScanOffset.all (start ≤ ·))

/-- Returned offsets ascend strictly, inside the scanned range. -/
def offsetsMatch (start scannedTo : Option Nat) (frontier : Nat) : Option Nat → List Nat → Bool
  | _, [] => true
  | previous, offset :: rest =>
    previous.all (· < offset) && start.all (· ≤ offset) && scannedTo.any (offset ≤ ·)
      && offset ≤ frontier && offsetsMatch start scannedTo frontier (some offset) rest

/-- Unevaluated offsets are distinct returned ones, and a fault stands exactly
on a page that stopped at it, past what the page scanned. -/
def faultsMatch (page : FilteredPage) (polled : PolledMessages) : Bool :=
  decide page.unevaluated.Nodup
    && page.unevaluated.all (polled.offsets.contains ·)
    && (page.stop == .fault || page.stop == .oversizedRecord) == page.fault.isSome
    && page.fault.all (fun fault => page.scannedTo.all (· < fault.offset))

def invalidPage : String := "filtered page does not match its request or scan boundary"

def otherGroupPage : String := "filtered page identifies another consumer group"

/-- The group a request names by its id. -/
def FilterConsumer.namedGroup : FilterConsumer → Option Nat
  | .groupId id => some id
  | _ => none

def validatePage (request : FilteredPollRequest) (page : FilteredPage) (polled : PolledMessages) :
    Except String Unit :=
  if !headMatches request page polled then .error invalidPage
  else if !modeMatches request page then .error invalidPage
  else if !request.consumer.namedGroup.all (fun id => page.policy.groupId == some id) then .error otherGroupPage
  else if request.consumer.isGroup != page.policy.groupId.isSome then .error invalidPage
  else if !(match request.start with | .continue cursor => continues cursor page | _ => true) then .error invalidPage
  else if !scanMatches request.start.scanFrom page then .error invalidPage
  else if !offsetsMatch request.start.scanFrom page.scannedTo page.frontier none polled.offsets then
    .error invalidPage
  else if !faultsMatch page polled then .error invalidPage
  else .ok ()

end LaserSdk.Filters

import Mathlib
import LaserSdk.Filters.Read
/-!
# Progress of one partition

`PartitionProgress` keeps the read position of one partition and the pages
read ahead of their acknowledgments. A page's safe offset becomes an unstored
target only once it and every earlier page are fully handled.
-/

namespace LaserSdk.Filters

/-- The offset a completed prefix of pages makes safe to store, with the
group, the history and the partition owner it was read under. -/
structure AckTarget where
  groupId : Option Nat
  offset : Nat
  generation : SourceGeneration
  ackContext : AckContext
  policy : AppliedPolicy
  deriving DecidableEq, Repr

inductive Blocked where
  | fault (offset : Nat) (reason : FaultReason)
  | oversized (offset : Nat)
  deriving DecidableEq, Repr

/-- A page read but not yet fully handled. -/
structure PendingPage where
  sequence : Nat
  target : Option AckTarget
  outstanding : Finset Nat
  deriving DecidableEq

structure PartitionProgress where
  original : FilteredStart
  start : FilteredStart
  pages : List PendingPage
  unstored : Option AckTarget
  storedOffset : Option Nat
  blocked : Option Blocked
  retryAt : Option Nat
  firstSequence : Option Nat
  settledSequence : Nat
  waitFrom : Option Nat

namespace PartitionProgress

def new (start : FilteredStart) : PartitionProgress :=
  { original := start, start := start, pages := [], unstored := none, storedOffset := none,
    blocked := none, retryAt := none, firstSequence := none, settledSequence := 0, waitFrom := none }

def inFlight (p : PartitionProgress) : Nat := p.pages.length

def knows (p : PartitionProgress) (sequence : Nat) : Bool :=
  p.pages.any (·.sequence == sequence) ||
    p.firstSequence.any (fun first => first ≤ sequence && sequence ≤ p.settledSequence)

/-- Retire the completed prefix of `pages`. Its newest safe offset supersedes
any older unstored one. -/
def settlePages : List PendingPage → Option AckTarget → Nat → List PendingPage × Option AckTarget × Nat
  | [], unstored, settled => ([], unstored, settled)
  | page :: rest, unstored, settled =>
    if page.outstanding = ∅ then settlePages rest (page.target.or unstored) page.sequence
    else (page :: rest, unstored, settled)

def settle (p : PartitionProgress) : PartitionProgress :=
  let (pages, unstored, settled) := settlePages p.pages p.unstored p.settledSequence
  { p with pages := pages, unstored := unstored, settledSequence := settled }

/-- Where a filtered wait holds the partition from after `page`. -/
def waitAfter (page : FilteredPage) : Nat :=
  match page.nextScanOffset with
  | some next => next
  | none => if page.frontier = 0 then 0 else min (page.frontier + 1) (2 ^ 64 - 1)

def blockedBy (page : FilteredPage) : Option Blocked :=
  match page.stop, page.fault with
  | .fault, some fault => some (.fault fault.offset fault.reason)
  | .oversizedRecord, some fault => some (.oversized fault.offset)
  | _, _ => none

def targetOf (page : FilteredPage) : Option AckTarget :=
  page.safeAckOffset.map fun offset =>
    { groupId := page.policy.groupId, offset := offset, generation := page.generation,
      ackContext := page.ackContext, policy := page.policy }

/-- Queue a page. A page without records folds its safe offset into the
newest open page instead of queueing. -/
def enqueue (pages : List PendingPage) (sequence : Nat) (target : Option AckTarget)
    (outstanding : Finset Nat) : List PendingPage :=
  match pages.getLast? with
  | some newest =>
    if outstanding = ∅ then pages.dropLast ++ [{ newest with target := target.or newest.target }]
    else pages ++ [⟨sequence, target, outstanding⟩]
  | none => [⟨sequence, target, outstanding⟩]

/-- Track a page and its returned `offsets`, and continue after it. -/
def record (p : PartitionProgress) (sequence : Nat) (page : FilteredPage) (offsets : List Nat) :
    PartitionProgress :=
  settle { p with
    retryAt := none
    firstSequence := p.firstSequence.or (some sequence)
    start := page.nextStart p.original
    waitFrom := some (waitAfter page)
    blocked := blockedBy page
    pages := enqueue p.pages sequence (targetOf page) offsets.toFinset }

/-- Change the outstanding records of the first page `sequence`, if one is
tracked. -/
def onPage (sequence : Nat) (f : Finset Nat → Finset Nat) : List PendingPage → List PendingPage
  | [] => []
  | page :: rest =>
    if page.sequence = sequence then { page with outstanding := f page.outstanding } :: rest
    else page :: onPage sequence f rest

/-- Mark one returned record handled. -/
def completeRecord (p : PartitionProgress) (sequence offset : Nat) : PartitionProgress :=
  settle { p with pages := onPage sequence (·.erase offset) p.pages }

/-- Mark every record of a page handled. -/
def completePage (p : PartitionProgress) (sequence : Nat) : PartitionProgress :=
  settle { p with pages := onPage sequence (fun _ => ∅) p.pages }

/-- The records a completion through `offset` of page `sequence` leaves. -/
def throughPage (sequence offset : Nat) (page : PendingPage) : PendingPage :=
  if page.sequence < sequence then { page with outstanding := ∅ }
  else if page.sequence = sequence then { page with outstanding := page.outstanding.filter (offset < ·) }
  else page

/-- Mark every record through `offset` of page `sequence` handled. `false`
when the offset is past what the page makes safe. -/
def completeThrough (p : PartitionProgress) (sequence offset : Nat) : Bool × PartitionProgress :=
  match (p.pages.find? (·.sequence = sequence)).bind (·.target) with
  | none => (true, p)
  | some target =>
    if target.offset < offset then (false, p)
    else
      let settled := settle { p with pages := p.pages.map (throughPage sequence offset) }
      (true, if settled.unstored.all (·.offset < offset)
        then { settled with unstored := some { target with offset := offset } } else settled)

/-- `target` is stored. A newer target completed meanwhile stays pending. -/
def stored (p : PartitionProgress) (target : AckTarget) : PartitionProgress :=
  { p with
    storedOffset := some (p.storedOffset.elim target.offset (max · target.offset))
    unstored := if p.unstored = some target then none else p.unstored }

end PartitionProgress

end LaserSdk.Filters

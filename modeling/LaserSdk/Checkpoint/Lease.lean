import Mathlib
import LaserSdk.Lib.Checks
/-!
# Checkpoint leases

A backend asks for a lease by its duration. What is replicated carries the
deadline instead, counted from the epoch. Both are checked by
`validateLeaseRequest`, whose cap is a duration: we prove that a replicated
lease passes exactly when it ends within five minutes of the epoch.
-/

namespace LaserSdk.Checkpoint

open Lib

abbrev DestinationId := BitVec 128

abbrev CheckpointOwnerId := BitVec 128

abbrev CheckpointRequestId := BitVec 128

abbrev InvalidError := String

def maxCheckpointLeaseDurationMicros : UInt64 := 300_000_000

def operatorAssertionKeyIdBytes : Nat := 8

/-- The lease variants of `PublicCheckpointMutation`. -/
inductive PublicLeaseMutation where
  | acquireLease (destinationId : DestinationId) (destinationGeneration : UInt64) (owner : CheckpointOwnerId)
      (expectedLeaseSequence leaseDurationMicros : UInt64)
  | renewLease (destinationId : DestinationId) (destinationGeneration : UInt64) (owner : CheckpointOwnerId)
      (epoch expectedLeaseSequence leaseDurationMicros : UInt64)
  | takeoverLease (destinationId : DestinationId) (destinationGeneration : UInt64) (owner : CheckpointOwnerId)
      (expectedLeaseSequence leaseDurationMicros : UInt64)
  deriving DecidableEq, Repr

/-- The lease variants of `ReplicatedCheckpointMutationBody`. -/
inductive ReplicatedLeaseBody where
  | acquireLease (destinationId : DestinationId) (destinationGeneration : UInt64) (owner : CheckpointOwnerId)
      (expectedLeaseSequence deadlineMicros : UInt64)
  | renewLease (destinationId : DestinationId) (destinationGeneration : UInt64) (owner : CheckpointOwnerId)
      (epoch expectedLeaseSequence deadlineMicros : UInt64)
  | takeoverLease (destinationId : DestinationId) (destinationGeneration : UInt64) (owner : CheckpointOwnerId)
      (expectedLeaseSequence deadlineMicros : UInt64)
  deriving DecidableEq, Repr

structure VerifiedOperatorActor where
  requestId : CheckpointRequestId
  deploymentId : UInt32
  cloudUserId : UInt32
  destinationId : DestinationId
  destinationGeneration : UInt64
  expectedRevision : UInt64
  keyId : List UInt8
  issuedAtMicros : UInt64
  deriving DecidableEq, Repr

structure CheckpointMutationStamp where
  committedAtMicros : UInt64
  iggyActorId : UInt32
  operatorActor : Option VerifiedOperatorActor
  deriving DecidableEq, Repr

structure ReplicatedLeaseMutation where
  requestId : CheckpointRequestId
  expectedGlobalStateRevision : UInt64
  stamp : CheckpointMutationStamp
  mutation : ReplicatedLeaseBody
  deriving DecidableEq, Repr

/-- The lease a destination's state holds. -/
structure CheckpointOwnerLease where
  owner : CheckpointOwnerId
  epoch : UInt64
  sequence : UInt64
  deadlineMicros : UInt64
  deriving DecidableEq, Repr

/-! ## The validators -/

def validateLeaseRequest (destinationId : DestinationId) (destinationGeneration : UInt64) (owner : CheckpointOwnerId)
    (leaseDurationMicros : UInt64) : Except InvalidError Unit :=
  refuseIf (destinationId = 0 ∨ destinationGeneration = 0 ∨ owner = 0 ∨ leaseDurationMicros = 0 ∨
      leaseDurationMicros > maxCheckpointLeaseDurationMicros)
    "lease destination, owner, and generation must be nonzero, and duration must be within the configured cap"

def PublicLeaseMutation.validate : PublicLeaseMutation → Except InvalidError Unit
  | .acquireLease destinationId destinationGeneration owner _ leaseDurationMicros
  | .takeoverLease destinationId destinationGeneration owner _ leaseDurationMicros =>
    validateLeaseRequest destinationId destinationGeneration owner leaseDurationMicros
  | .renewLease destinationId destinationGeneration owner epoch _ leaseDurationMicros => do
    validateLeaseRequest destinationId destinationGeneration owner leaseDurationMicros
    refuseIf (epoch = 0) "lease epoch must be nonzero"

-- The deadline stands where the request has its duration.
def ReplicatedLeaseBody.validate : ReplicatedLeaseBody → Except InvalidError Unit
  | .acquireLease destinationId destinationGeneration owner _ deadlineMicros
  | .takeoverLease destinationId destinationGeneration owner _ deadlineMicros =>
    validateLeaseRequest destinationId destinationGeneration owner deadlineMicros
  | .renewLease destinationId destinationGeneration owner epoch _ deadlineMicros => do
    validateLeaseRequest destinationId destinationGeneration owner deadlineMicros
    refuseIf (epoch = 0) "replicated lease epoch must be nonzero"

/-- The evidence checks of `CheckpointMutationStamp::validate`. -/
def VerifiedOperatorActor.isInvalid (actor : VerifiedOperatorActor) : Bool :=
  actor.requestId == 0 || actor.deploymentId == 0 || actor.cloudUserId == 0 || actor.destinationId == 0 ||
    actor.destinationGeneration == 0 || actor.expectedRevision == 0 || actor.issuedAtMicros == 0 ||
    actor.keyId.length != operatorAssertionKeyIdBytes

def CheckpointMutationStamp.validate (stamp : CheckpointMutationStamp) : Except InvalidError Unit := do
  refuseIf (stamp.committedAtMicros = 0) "checkpoint committed timestamp must be nonzero"
  refuseIf (stamp.operatorActor.any VerifiedOperatorActor.isInvalid) "verified operator actor evidence is invalid"

def ReplicatedLeaseMutation.validate (mutation : ReplicatedLeaseMutation) : Except InvalidError Unit := do
  refuseIf (mutation.requestId = 0) "replicated checkpoint request id must be nonzero"
  mutation.stamp.validate
  mutation.mutation.validate

def CheckpointOwnerLease.validate (lease : CheckpointOwnerLease) : Except InvalidError Unit := do
  refuseIf (lease.owner = 0) "checkpoint owner id must be nonzero"
  refuseIf (lease.epoch = 0 ∨ lease.sequence = 0 ∨ lease.deadlineMicros = 0)
    "checkpoint lease epoch, sequence, and deadline must be nonzero"

/-! ## From a request to what is replicated -/

namespace PublicLeaseMutation

def leaseDurationMicros : PublicLeaseMutation → UInt64
  | .acquireLease _ _ _ _ duration | .renewLease _ _ _ _ _ duration | .takeoverLease _ _ _ _ duration => duration

/-- The replicated body of a lease committed at `t`. -/
def replicateAt (t : UInt64) : PublicLeaseMutation → ReplicatedLeaseBody
  | .acquireLease destinationId generation owner sequence duration =>
    .acquireLease destinationId generation owner sequence (t + duration)
  | .renewLease destinationId generation owner epoch sequence duration =>
    .renewLease destinationId generation owner epoch sequence (t + duration)
  | .takeoverLease destinationId generation owner sequence duration =>
    .takeoverLease destinationId generation owner sequence (t + duration)

/-- What both validators ask of a lease besides its time. -/
def Named : PublicLeaseMutation → Prop
  | .acquireLease destinationId generation owner _ _ | .takeoverLease destinationId generation owner _ _ =>
    destinationId ≠ 0 ∧ generation ≠ 0 ∧ owner ≠ 0
  | .renewLease destinationId generation owner epoch _ _ =>
    (destinationId ≠ 0 ∧ generation ≠ 0 ∧ owner ≠ 0) ∧ epoch ≠ 0

end PublicLeaseMutation

/-- The times that `validateLeaseRequest` lets pass. -/
def WithinCap (micros : UInt64) : Prop := micros ≠ 0 ∧ micros ≤ maxCheckpointLeaseDurationMicros

theorem validateLeaseRequest_ok {destinationId : DestinationId} {generation : UInt64} {owner : CheckpointOwnerId}
    {micros : UInt64} {u : Unit} :
    validateLeaseRequest destinationId generation owner micros = .ok u ↔
      (destinationId ≠ 0 ∧ generation ≠ 0 ∧ owner ≠ 0) ∧ WithinCap micros := by
  simp [validateLeaseRequest, WithinCap, not_or, and_assoc]

theorem PublicLeaseMutation.validate_ok {m : PublicLeaseMutation} {u : Unit} :
    m.validate = .ok u ↔ m.Named ∧ WithinCap m.leaseDurationMicros := by
  cases m with
  | acquireLease => exact validateLeaseRequest_ok
  | takeoverLease => exact validateLeaseRequest_ok
  | renewLease =>
    simp only [validate, bind_ok, validateLeaseRequest_ok, refuseIf_ok, Named, leaseDurationMicros]
    tauto

/-- The replicated body is checked as the request, with its deadline as the duration. -/
theorem ReplicatedLeaseBody.validate_replicateAt {m : PublicLeaseMutation} {t : UInt64} {u : Unit} :
    (m.replicateAt t).validate = .ok u ↔ m.Named ∧ WithinCap (t + m.leaseDurationMicros) := by
  cases m with
  | acquireLease => exact validateLeaseRequest_ok
  | takeoverLease => exact validateLeaseRequest_ok
  | renewLease =>
    simp only [PublicLeaseMutation.replicateAt, validate, bind_ok, validateLeaseRequest_ok, refuseIf_ok,
      PublicLeaseMutation.Named, PublicLeaseMutation.leaseDurationMicros]
    tauto

/-- A deadline that fits is never zero. -/
theorem deadline_ne_zero {t duration : UInt64} (ht : 1 ≤ t) (hfits : t.toNat + duration.toNat < 2 ^ 64) :
    t + duration ≠ 0 := by
  intro hzero
  have hsum := congrArg UInt64.toNat hzero
  rw [UInt64.toNat_add, Nat.mod_eq_of_lt hfits] at hsum
  have hpos := UInt64.le_iff_toNat_le.1 ht
  simp at hsum hpos
  omega

theorem withinCap_deadline {t duration : UInt64} (ht : 1 ≤ t) (hfits : t.toNat + duration.toNat < 2 ^ 64) :
    WithinCap (t + duration) ↔ t.toNat + duration.toNat ≤ 300_000_000 := by
  unfold WithinCap
  rw [UInt64.le_iff_toNat_le, UInt64.toNat_add, Nat.mod_eq_of_lt hfits]
  exact and_iff_right (deadline_ne_zero ht hfits)

/-- The lease that such a commit grants has no cap of its own. -/
theorem CheckpointOwnerLease.validate_granted {owner : CheckpointOwnerId} {epoch sequence t duration : UInt64}
    (howner : owner ≠ 0) (hepoch : epoch ≠ 0) (hsequence : sequence ≠ 0) (ht : 1 ≤ t)
    (hfits : t.toNat + duration.toNat < 2 ^ 64) :
    CheckpointOwnerLease.validate ⟨owner, epoch, sequence, t + duration⟩ = .ok () := by
  simp only [validate, bind_ok, refuseIf_ok, not_or]
  exact ⟨(), howner, hepoch, hsequence, deadline_ne_zero ht hfits⟩

/-- A lease that validates as a request, committed at `t`, validates as
replicated exactly when it ends within the cap on durations: both its body and
the mutation around it. -/
theorem replicated_lease_validates_iff {m : PublicLeaseMutation} {t : UInt64} (hvalid : m.validate = .ok ())
    (ht : 1 ≤ t) (hfits : t.toNat + m.leaseDurationMicros.toNat < 2 ^ 64) :
    ((m.replicateAt t).validate = .ok () ↔ t.toNat + m.leaseDurationMicros.toNat ≤ 300_000_000) ∧
    ∀ requestId revision actor, requestId ≠ 0 →
      (ReplicatedLeaseMutation.validate ⟨requestId, revision, ⟨t, actor, none⟩, m.replicateAt t⟩ = .ok () ↔
        t.toNat + m.leaseDurationMicros.toNat ≤ 300_000_000) := by
  have hbody : (m.replicateAt t).validate = .ok () ↔ t.toNat + m.leaseDurationMicros.toNat ≤ 300_000_000 := by
    rw [ReplicatedLeaseBody.validate_replicateAt, withinCap_deadline ht hfits]
    exact and_iff_right (PublicLeaseMutation.validate_ok.1 hvalid).1
  refine ⟨hbody, fun requestId revision actor hrequest => ?_⟩
  have hcommitted : t ≠ 0 := by
    rintro rfl
    exact absurd ht (by decide)
  rw [← hbody]
  simp only [ReplicatedLeaseMutation.validate, CheckpointMutationStamp.validate, bind_ok, refuseIf_ok]
  constructor
  · rintro ⟨-, -, -, -, h⟩
    exact h
  · exact fun h => ⟨(), hrequest, (), ⟨(), hcommitted, by simp⟩, h⟩

/-- A lease of thirty seconds. -/
def shortLease : PublicLeaseMutation := .acquireLease 10 1 30 0 30_000_000

theorem replicated_lease_near_epoch :
    (shortLease.replicateAt 1).validate = .ok () ∧ (shortLease.replicateAt 270_000_001).validate ≠ .ok () :=
  ⟨(replicated_lease_validates_iff (m := shortLease) (t := 1) (by decide) (by decide) (by decide)).1.2 (by decide),
    fun h => absurd ((replicated_lease_validates_iff (m := shortLease) (t := 270_000_001) (by decide) (by decide)
      (by decide)).1.1 h) (by decide)⟩

/-- A lease asked for today does not replicate. -/
theorem replicated_lease_refused : ¬ ∀ (m : PublicLeaseMutation) (t : UInt64), m.validate = .ok () → 1 ≤ t →
    t.toNat + m.leaseDurationMicros.toNat < 2 ^ 64 → (m.replicateAt t).validate = .ok () := by
  intro h
  have := h shortLease 1_700_000_000_000_000 (by decide) (by decide) (by decide)
  revert this
  decide

end LaserSdk.Checkpoint

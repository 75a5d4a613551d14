import Mathlib.Data.List.Sort
import LaserSdk.Control.Requests
/-!
# Cancel requests

Two readers of the same control records say whether a session is canceled.
`Session::cancel_requested` looks for a cancel mark on any record. The control
state folds the requests of the session's own route. The first one says more
than the second: it takes no notice of the partition, the kind or the order.
-/

namespace LaserSdk.Control

open Agent (AgentKind ConversationId)

/-- A record of the session on `agent.control`, as a read returns it. -/
structure ContextMessage where
  timestampMicros : Nat
  partition : Nat
  offset : Nat
  envelope : Option AgentEnvelope
  deriving DecidableEq, Repr

/-- A cancel mark: the operation or the task state. -/
def AgentEnvelope.marked (envelope : AgentEnvelope) : Bool :=
  envelope.operation = some operationSessionCancel || envelope.taskState = some .canceled

def cancelRequested (records : List ContextMessage) : Bool :=
  records.any fun record => record.envelope.any AgentEnvelope.marked

/-- The fields the control state sorts by. -/
def ContextMessage.fields (record : ContextMessage) : List Nat := [record.timestampMicros, record.partition, record.offset]

def inOrder (records : List ContextMessage) : List ContextMessage :=
  records.insertionSort fun r s => r.fields ≤ s.fields

/-- The request a record makes, at its position. -/
def ContextMessage.request (me : Option String) (record : ContextMessage) : Option (ControlPosition × ControlRequest) :=
  match record.envelope with
  | none => none
  | some envelope =>
    match controlRequest envelope me with
    | none => none
    | some request => some ((record.partition, record.offset), request)

/-- The control state of a session whose handle has no control book. -/
def controlState (me : Option String) (records : List ContextMessage) (route : Option Nat) : ControlState :=
  (fold ((inOrder records).filterMap (ContextMessage.request me)) route).1

/-- A cancel request: the command of that operation, or a canceled status. -/
def ContextMessage.Cancels (record : ContextMessage) : Prop :=
  ∃ envelope, record.envelope = some envelope ∧ controlAction envelope = some .cancel

/-- Some request on the route cancels the session, and those before it in time
order have lower offsets. -/
def CanceledOnRoute (records : List ContextMessage) (route : Nat) : Prop :=
  ∃ before record after, inOrder records = before ++ record :: after ∧ record.Cancels ∧ record.partition = route ∧
    ∀ earlier ∈ before, earlier.partition = route → (earlier.request none).isSome = true → earlier.offset < record.offset

/-! ## The fold -/

theorem take_cancel (e : Entry) (route : Option Nat) (record : ControlPosition × ControlRequest) :
    (e.take route record).state.flags.cancelRequested = (e.state.flags.cancelRequested ||
      (onRoute route record.1.1 && !(e.last.any fun last => !newer record.1 last) && decide (record.2.action = .cancel))) := by
  unfold Entry.take
  cases onRoute route record.1.1 with
  | false => simp
  | true =>
    unfold Entry.apply
    cases e.last.any fun last => !newer record.1 last with
    | true => simp
    | false =>
      obtain ⟨position, action, named, id⟩ := record
      cases action <;> simp [ControlState.apply, PendingControl.apply]

/-- The fold is canceled by a request of the route that no earlier one of the
route covers. -/
theorem foldEntry_cancel (records : List (ControlPosition × ControlRequest)) (route : Nat) :
    (foldEntry records (some route)).state.flags.cancelRequested = true ↔ ∃ before record after,
      records = before ++ record :: after ∧ record.2.action = .cancel ∧ record.1.1 = route ∧
        ∀ earlier ∈ before, earlier.1.1 = route → earlier.1.2 < record.1.2 := by
  induction records using List.reverseRecOn with
  | nil => simp [foldEntry, Entry.new, ControlState.new]
  | append_singleton records last ih =>
    -- The flag stays up: an earlier request raised it, or the last one does.
    rw [foldEntry_snoc, take_cancel, Bool.or_eq_true, ih]
    constructor
    · rintro (⟨before, record, after, rfl, hrest⟩ | hlast)
      · exact ⟨before, record, after ++ [last], by simp, hrest⟩
      · simp only [Bool.and_eq_true, Bool.not_eq_true', decide_eq_true_eq] at hlast
        obtain ⟨⟨hroute, hnew⟩, haction⟩ := hlast
        have hpartition := onRoute_some.1 hroute
        exact ⟨records, last, [], rfl, haction, hpartition, (foldEntry_unseen hpartition).1 hnew⟩
    · rintro ⟨before, record, after, hsplit, haction, hpartition, hnew⟩
      -- The request is the last one, or stands among those before it.
      rcases List.eq_nil_or_concat after with rfl | ⟨after, final, rfl⟩
      · obtain ⟨rfl, hlast⟩ := List.append_inj' hsplit rfl
        obtain rfl := List.singleton_inj.1 hlast
        refine .inr ?_
        rw [onRoute_some.2 hpartition, (foldEntry_unseen hpartition).2 hnew, haction]
        rfl
      · rw [List.concat_eq_append, ← List.cons_append, ← List.append_assoc] at hsplit
        obtain ⟨hinit, _⟩ := List.append_inj' hsplit rfl
        exact .inl ⟨before, record, after, hinit, haction, hpartition, hnew⟩

/-! ## The two readers -/

theorem marked_of_cancels {envelope : AgentEnvelope} (h : controlAction envelope = some .cancel) :
    envelope.marked = true := by
  unfold controlAction at h
  unfold AgentEnvelope.marked
  split at h
  -- A command by its operation, a status by its state.
  · split at h
    · cases h
    next operation hoperation =>
      split at h
      · cases h
      · split at h
        · cases h
        · split at h
          next hcancel => simp [hoperation, hcancel]
          · cases h
  · split at h
    next hstate => simp [hstate]
    · cases h
  · cases h

/-- For no agent in particular, a record makes the request of its action. -/
theorem request_eq_some {record : ContextMessage} {placed : ControlPosition × ControlRequest}
    (h : record.request none = some placed) : placed.1 = (record.partition, record.offset) ∧
      (placed.2.action = .cancel ↔ record.Cancels) := by
  unfold ContextMessage.request at h
  unfold ContextMessage.Cancels
  split at h
  · cases h
  next envelope henvelope =>
    unfold controlRequest at h
    cases haction : controlAction envelope with
    | none => simp [haction] at h
    | some action =>
      simp [haction] at h
      subst h
      simp [henvelope, haction]

theorem request_of_cancels {record : ContextMessage} (h : record.Cancels) : ∃ placed, record.request none = some placed := by
  obtain ⟨envelope, henvelope, haction⟩ := h
  unfold ContextMessage.request controlRequest
  rw [henvelope]
  simp [haction]

/-- A split of the requests comes from one of the records. -/
theorem filterMap_split {α β : Type} {f : α → Option β} {l : List α} {before after : List β} {b : β}
    (h : l.filterMap f = before ++ b :: after) :
    ∃ init a rest, l = init ++ a :: rest ∧ f a = some b ∧ init.filterMap f = before := by
  obtain ⟨init, tail, rfl, hinit, htail⟩ := List.filterMap_eq_append_iff.1 h
  obtain ⟨skipped, a, rest, rfl, hskipped, ha, _⟩ := List.filterMap_eq_cons_iff.1 htail
  refine ⟨init ++ skipped, a, rest, by simp, ha, ?_⟩
  rw [List.filterMap_append, hinit, List.filterMap_eq_nil_iff.2 hskipped, List.append_nil]

theorem controlState_cancel (records : List ContextMessage) (route : Nat) :
    (controlState none records (some route)).flags.cancelRequested = true ↔ CanceledOnRoute records route := by
  have hflag : (controlState none records (some route)).flags.cancelRequested =
      (foldEntry ((inOrder records).filterMap (ContextMessage.request none)) (some route)).state.flags.cancelRequested := rfl
  rw [hflag, foldEntry_cancel]
  constructor
  · rintro ⟨before, placed, after, hsplit, haction, hpartition, hnew⟩
    obtain ⟨init, record, rest, hrecords, hrecord, hinit⟩ := filterMap_split hsplit
    obtain ⟨hposition, hcancels⟩ := request_eq_some hrecord
    rw [hposition] at hpartition hnew
    refine ⟨init, record, rest, hrecords, hcancels.1 haction, hpartition, fun earlier hmem hsame hsome => ?_⟩
    obtain ⟨request, hrequest⟩ := Option.isSome_iff_exists.1 hsome
    have hearlier : request ∈ before := by
      rw [← hinit]
      exact List.mem_filterMap.2 ⟨earlier, hmem, hrequest⟩
    have hlower := hnew request hearlier
    rw [(request_eq_some hrequest).1] at hlower
    exact hlower hsame
  · rintro ⟨init, record, rest, hrecords, hcancels, hpartition, hnew⟩
    obtain ⟨placed, hplaced⟩ := request_of_cancels hcancels
    obtain ⟨hposition, haction⟩ := request_eq_some hplaced
    refine ⟨init.filterMap (ContextMessage.request none), placed, rest.filterMap (ContextMessage.request none), ?_,
      haction.2 hcancels, ?_, fun earlier hmem hsame => ?_⟩
    · rw [hrecords, List.filterMap_append, List.filterMap_cons_some hplaced]
    · rw [hposition]
      exact hpartition
    · obtain ⟨source, hsource, hrequest⟩ := List.mem_filterMap.1 hmem
      have hearlier := (request_eq_some hrequest).1
      rw [hearlier] at hsame ⊢
      rw [hposition]
      exact hnew source hsource hsame (by rw [hrequest, Option.isSome_some])

theorem cancelRequested_of_route {records : List ContextMessage} {route : Nat} (h : CanceledOnRoute records route) :
    cancelRequested records = true := by
  obtain ⟨before, record, after, hsplit, ⟨envelope, henvelope, haction⟩, _⟩ := h
  have hmem : record ∈ records := by
    rw [← List.mem_insertionSort fun r s : ContextMessage => r.fields ≤ s.fields]
    unfold inOrder at hsplit
    rw [hsplit]
    exact List.mem_append_right _ List.mem_cons_self
  unfold cancelRequested
  rw [List.any_eq_true]
  refine ⟨record, hmem, ?_⟩
  rw [henvelope]
  exact marked_of_cancels haction

/-- The readers agree exactly if a record with a cancel mark comes with a
cancel request of the route that counts. -/
theorem cancel_readers_agree_iff (conversation : ConversationId) (partitions : Nat) {route : Nat}
    (hroute : controlPartition conversation partitions = some route) (records : List ContextMessage) :
    cancelRequested records =
        (controlState none records (controlPartition conversation partitions)).flags.cancelRequested ↔
      ((∃ record ∈ records, record.envelope.any AgentEnvelope.marked = true) → CanceledOnRoute records route) := by
  have hscan : cancelRequested records = true ↔ ∃ record ∈ records, record.envelope.any AgentEnvelope.marked = true := by
    unfold cancelRequested
    rw [List.any_eq_true]
  rw [hroute, ← hscan, Bool.eq_iff_iff, controlState_cancel]
  exact ⟨fun hagree => hagree.1, fun himplies => ⟨himplies, cancelRequested_of_route⟩⟩

/-! ## A misrouted cancel -/

def cancelCommand : AgentEnvelope := ⟨.command, some "r-1", none, none, some operationSessionCancel, some []⟩

/-- The session 7 of a control topic with two partitions routes to one of
them. -/
def sessionRoute : Nat := (xxh32 (conversationText 7)).toNat % 2

theorem alone_canceled (route : Nat) : CanceledOnRoute [⟨5, route, 0, some cancelCommand⟩] route :=
  ⟨[], ⟨5, route, 0, some cancelCommand⟩, [], rfl, ⟨cancelCommand, rfl, by decide +kernel⟩, rfl,
    fun earlier hmem => absurd hmem List.not_mem_nil⟩

theorem routed_cancel_agrees : cancelRequested [⟨5, sessionRoute, 0, some cancelCommand⟩] = true ∧
    (controlState none [⟨5, sessionRoute, 0, some cancelCommand⟩] (controlPartition 7 2)).flags.cancelRequested = true := by
  have hroute : controlPartition 7 2 = some sessionRoute := by
    unfold controlPartition sessionRoute
    exact if_pos (by decide)
  have hcanceled := alone_canceled sessionRoute
  have hagree := (cancel_readers_agree_iff 7 2 hroute [⟨5, sessionRoute, 0, some cancelCommand⟩]).2 fun _ => hcanceled
  have hscan := cancelRequested_of_route hcanceled
  exact ⟨hscan, hagree.symm.trans hscan⟩

/-- The same command on the other partition: the fold refuses it and flags a
conflict, and the scan reports the session canceled. -/
theorem misrouted_cancel_disagrees :
    (1 - sessionRoute) ≠ sessionRoute ∧ cancelRequested [⟨5, 1 - sessionRoute, 0, some cancelCommand⟩] = true ∧
      (controlState none [⟨5, 1 - sessionRoute, 0, some cancelCommand⟩] (controlPartition 7 2)).flags =
        ⟨false, false, true⟩ := by
  decide +kernel

end LaserSdk.Control

import LaserSdk.Lib.Switches
import LaserSdk.Lib.Text
import LaserSdk.Poll.Cursor
/-!
# The quarantined agents

Operators put agents under quarantine and lift it by facts on the registry
topic, spread over its partitions. A registry folds what each refresh reads,
in the order of time within that refresh only, and remembers the record ids of
the facts it has folded. A new registry goes on with the state of the last. A
fact that an earlier refresh came too early for is folded after newer ones, and
it stays the last word unless the newest fact of its refresh says the same as
the newest of all.
-/

namespace LaserSdk.Registry

open Lib Poll

def maxAgentStringBytes : Nat := 256

inductive IdError where
  | empty
  | tooLong (got max : Nat)
  | invalidChar (c : Char)
  deriving DecidableEq, Repr

def validateId (s : String) (max : Nat) : Except IdError Unit :=
  if s.isEmpty then .error .empty
  else if max < s.utf8ByteSize then .error (.tooLong s.utf8ByteSize max)
  else
    match s.toList.find? isControl with
    | some c => .error (.invalidChar c)
    | none => .ok ()

/-- An agent's stable logical name. -/
structure AgentId where
  name : String
  valid : validateId name maxAgentStringBytes = .ok ()
  deriving DecidableEq

def AgentId.new (name : String) : Except IdError AgentId :=
  match h : validateId name maxAgentStringBytes with
  | .ok () => .ok ⟨name, h⟩
  | .error e => .error e

def operationQuarantine : String := "quarantine"

def operationUnquarantine : String := "unquarantine"

/-- What a refresh reads of an envelope. `body` is its text, if it is UTF-8. -/
structure AgentEnvelope where
  record : Option Nat
  operation : Option String
  body : Option String
  deriving DecidableEq, Repr

/-- A record of the registry topic, with its envelope if it decodes to one. -/
abbrev Message : Type := Located (Option AgentEnvelope)

def appliedFactCapacity : Nat := 16384

def appliedFactTtlMicros : Nat := 86400000000

structure AgentRegistry where
  cursor : Cursor
  quarantined : Finset AgentId
  appliedFacts : Finset Nat
  appliedFactOrder : List (Nat × Nat)

/-- What the registries of a stream share. -/
structure RegistryCache where
  quarantined : Finset AgentId
  offsets : List Nat
  appliedFacts : Finset Nat
  appliedFactOrder : List (Nat × Nat)

def RegistryCache.default : RegistryCache := ⟨∅, [], ∅, []⟩

/-- A registry goes on where the cache is. -/
def agentRegistry (cache : RegistryCache) : AgentRegistry :=
  ⟨Cursor.new.fromOffsets cache.offsets, cache.quarantined, cache.appliedFacts, cache.appliedFactOrder⟩

/-- The agent that the body names. -/
def AgentEnvelope.agent (envelope : AgentEnvelope) : Option AgentId :=
  envelope.body.bind fun body => (AgentId.new body).toOption

def applyQuarantine (quarantined : Finset AgentId) (envelope : AgentEnvelope) : Finset AgentId :=
  match envelope.agent with
  | none => quarantined
  | some agent => insert agent quarantined

def liftQuarantine (quarantined : Finset AgentId) (envelope : AgentEnvelope) : Finset AgentId :=
  match envelope.agent with
  | none => quarantined
  | some agent => quarantined.erase agent

def AgentEnvelope.privileged (envelope : AgentEnvelope) : Bool :=
  envelope.operation = some operationQuarantine || envelope.operation = some operationUnquarantine

namespace AgentRegistry

/-- What a refresh leaves in the cache. -/
def cache (r : AgentRegistry) : RegistryCache := ⟨r.quarantined, r.cursor.offsets, r.appliedFacts, r.appliedFactOrder⟩

/-- The id is remembered also of a fact that changes nothing. -/
def remember (r : AgentRegistry) (observedAtMicros : Nat) : Option Nat → AgentRegistry
  | none => r
  | some id =>
    { r with
      appliedFacts := insert id r.appliedFacts
      appliedFactOrder := r.appliedFactOrder ++ [(id, observedAtMicros)] }

/-- A fact that no verifier has to confirm. -/
def applyFact (r : AgentRegistry) (envelope : AgentEnvelope) (observedAtMicros : Nat) : AgentRegistry :=
  -- A record id that was folded already is a replay.
  if envelope.record.any (· ∈ r.appliedFacts) then r
  else
    let r := r.remember observedAtMicros envelope.record
    if envelope.operation = some operationQuarantine then { r with quarantined := applyQuarantine r.quarantined envelope }
    else { r with quarantined := liftQuarantine r.quarantined envelope }

def foldMessage (r : AgentRegistry) (message : Message) : AgentRegistry :=
  match message.body with
  | none => r
  | some envelope => if envelope.privileged then r.applyFact envelope message.timestamp else r

/-- Which ids are dropped from the front, and what is left. -/
def pruned (cutoff : Nat) : List (Nat × Nat) → Finset Nat → List (Nat × Nat) × Finset Nat
  | [], applied => ([], applied)
  | (id, observed) :: rest, applied =>
    if appliedFactCapacity < rest.length + 1 ∨ observed < cutoff then pruned cutoff rest (applied.erase id)
    else ((id, observed) :: rest, applied)

def prune (r : AgentRegistry) (nowMicros : Nat) : AgentRegistry :=
  let (order, applied) := pruned (nowMicros - appliedFactTtlMicros) r.appliedFactOrder r.appliedFacts
  { r with appliedFacts := applied, appliedFactOrder := order }

/-- What a refresh meets, the time it is called with, and whether the call is
on a new registry. -/
structure Call where
  view : View
  nowMicros : Nat
  reopened : Bool

def refresh (topic : Topic (Option AgentEnvelope)) (r : AgentRegistry) (call : Call) : AgentRegistry :=
  let (messages, cursor) := r.cursor.pollIggy topic call.view
  (messages.foldl foldMessage { r with cursor }).prune call.nowMicros

def refreshes (topic : Topic (Option AgentEnvelope)) (calls : List Call) (r : AgentRegistry) : AgentRegistry :=
  calls.foldl (fun r call => (if call.reopened then agentRegistry r.cache else r).refresh topic call) r

end AgentRegistry

/-! ## The facts of a topic -/

/-- The agent a fact is about and whether it is quarantined. -/
def factOf (message : Message) : Option (AgentId × Bool) :=
  message.body.bind fun envelope =>
    if envelope.privileged then envelope.agent.map fun agent => (agent, envelope.operation == some operationQuarantine) else none

/-- The record id of a fact. -/
def factId (message : Message) : Option Nat :=
  message.body.bind fun envelope => if envelope.privileged then envelope.record else none

/-- The facts folded in the order of time, then partition and offset. -/
def inAppendOrder (topic : Topic (Option AgentEnvelope)) : Finset AgentId :=
  (sortByKey Located.fields topic.records).foldl (applySwitch factOf) ∅

/-! ## One refresh -/

variable {topic : Topic (Option AgentEnvelope)} {r : AgentRegistry}

theorem remember_quarantined (r : AgentRegistry) (observed : Nat) (record : Option Nat) :
    (r.remember observed record).quarantined = r.quarantined := by
  cases record <;> rfl

theorem mem_remember {observed id : Nat} {record : Option Nat} (h : id ∈ (r.remember observed record).appliedFacts) :
    id ∈ r.appliedFacts ∨ record = some id := by
  cases record with
  | none => exact .inl h
  | some new =>
    rcases Finset.mem_insert.1 h with rfl | hold
    · exact .inr rfl
    · exact .inl hold

/-- A fact that is no replay turns its agent. -/
theorem foldMessage_quarantined {message : Message} (hfresh : ∀ id, factId message = some id → id ∉ r.appliedFacts) :
    (r.foldMessage message).quarantined = applySwitch factOf r.quarantined message := by
  unfold AgentRegistry.foldMessage applySwitch factOf
  unfold factId at hfresh
  cases hbody : message.body with
  | none => rfl
  | some envelope =>
    simp only [hbody, Option.bind_some] at hfresh ⊢
    by_cases hprivileged : envelope.privileged = true
    · have hnew : ¬ envelope.record.any (· ∈ r.appliedFacts) = true := by
        simpa [hprivileged, Option.any_eq_true] using hfresh
      rw [if_pos hprivileged, if_pos hprivileged, AgentRegistry.applyFact, if_neg hnew]
      by_cases hoperation : envelope.operation = some operationQuarantine
      · simp only [hoperation, if_true, applyQuarantine, remember_quarantined, beq_self_eq_true]
        cases envelope.agent <;> rfl
      · have hlift : (envelope.operation == some operationQuarantine) = false := beq_false_of_ne hoperation
        simp only [if_neg hoperation, liftQuarantine, remember_quarantined, hlift]
        cases envelope.agent <;> rfl
    · rw [if_neg hprivileged, if_neg hprivileged]

theorem mem_foldMessage {message : Message} {id : Nat} (h : id ∈ (r.foldMessage message).appliedFacts) :
    id ∈ r.appliedFacts ∨ factId message = some id := by
  unfold AgentRegistry.foldMessage at h
  unfold factId
  cases hbody : message.body with
  | none =>
    rw [hbody] at h
    exact .inl h
  | some envelope =>
    simp only [hbody, AgentRegistry.applyFact] at h
    simp only [Option.bind_some]
    split at h
    next hprivileged =>
      rw [if_pos hprivileged]
      split at h
      · exact .inl h
      · split at h <;> exact mem_remember h
    next => exact .inl h

theorem foldMessage_cursor (r : AgentRegistry) (message : Message) : (r.foldMessage message).cursor = r.cursor := by
  have hkept : ∀ record, (r.remember message.timestamp record).cursor = r.cursor := fun record => by cases record <;> rfl
  unfold AgentRegistry.foldMessage AgentRegistry.applyFact
  cases message.body with
  | none => rfl
  | some envelope =>
    dsimp only
    repeat' split
    · rfl
    · exact hkept _
    · exact hkept _
    · rfl

/-- None of the facts is among those applied, and no two have one id. -/
def Fresh (applied : Finset Nat) (messages : List Message) : Prop :=
  (messages.filterMap factId).Nodup ∧ ∀ id ∈ messages.filterMap factId, id ∉ applied

/-- Facts stay fresh while the others are folded. -/
theorem Fresh.append {applied after : Finset Nat} {first rest : List Message} (h : Fresh applied (first ++ rest))
    (hafter : ∀ id ∈ after, id ∈ applied ∨ id ∈ first.filterMap factId) : Fresh applied first ∧ Fresh after rest := by
  obtain ⟨hdistinct, hnew⟩ := h
  rw [List.filterMap_append] at hdistinct hnew
  obtain ⟨hfirst, hrest, hapart⟩ := List.nodup_append'.1 hdistinct
  refine ⟨⟨hfirst, fun id hid => hnew id (List.mem_append_left _ hid)⟩, hrest, fun id hid happlied => ?_⟩
  rcases hafter id happlied with hold | hnow
  · exact hnew id (List.mem_append_right _ hid) hold
  · exact hapart hnow hid

theorem mem_filterMap_singleton {message : Message} {id : Nat} : id ∈ [message].filterMap factId ↔ factId message = some id := by
  simp

theorem mem_foldMessages {messages : List Message} {id : Nat} (h : id ∈ (messages.foldl AgentRegistry.foldMessage r).appliedFacts) :
    id ∈ r.appliedFacts ∨ id ∈ messages.filterMap factId := by
  induction messages generalizing r with
  | nil => exact .inl h
  | cons message rest ih =>
    rw [show message :: rest = [message] ++ rest from rfl, List.filterMap_append, List.mem_append, mem_filterMap_singleton]
    rcases ih h with hfirst | hrest
    · rcases mem_foldMessage hfirst with hold | hnow
      · exact .inl hold
      · exact .inr (.inl hnow)
    · exact .inr (.inr hrest)

theorem foldMessages_quarantined {messages : List Message} (h : Fresh r.appliedFacts messages) :
    (messages.foldl AgentRegistry.foldMessage r).quarantined = messages.foldl (applySwitch factOf) r.quarantined := by
  induction messages generalizing r with
  | nil => rfl
  | cons message rest ih =>
    have hafter : ∀ id ∈ (r.foldMessage message).appliedFacts, id ∈ r.appliedFacts ∨ id ∈ [message].filterMap factId := by
      intro id hid
      rw [mem_filterMap_singleton]
      exact mem_foldMessage hid
    obtain ⟨hfirst, hrest⟩ := @Fresh.append _ _ [message] rest h hafter
    rw [List.foldl_cons, List.foldl_cons, ih hrest,
      foldMessage_quarantined fun id hid => hfirst.2 id (mem_filterMap_singleton.2 hid)]

theorem foldMessages_cursor (r : AgentRegistry) (messages : List Message) :
    (messages.foldl AgentRegistry.foldMessage r).cursor = r.cursor := by
  induction messages generalizing r with
  | nil => rfl
  | cons message rest ih => rw [List.foldl_cons, ih, foldMessage_cursor]

/-- Ids are dropped only. -/
theorem mem_pruned {cutoff id : Nat} {order : List (Nat × Nat)} {applied : Finset Nat}
    (h : id ∈ (AgentRegistry.pruned cutoff order applied).2) : id ∈ applied := by
  induction order generalizing applied with
  | nil => exact h
  | cons first rest ih =>
    rw [AgentRegistry.pruned] at h
    split at h
    · exact Finset.mem_of_mem_erase (ih h)
    · exact h

theorem refresh_cursor (topic : Topic (Option AgentEnvelope)) (r : AgentRegistry) (call : AgentRegistry.Call) :
    (r.refresh topic call).cursor = (r.cursor.pollIggy topic call.view).2 := foldMessages_cursor _ _

theorem refresh_quarantined (call : AgentRegistry.Call) (h : Fresh r.appliedFacts (r.cursor.pollIggy topic call.view).1) :
    (r.refresh topic call).quarantined = (r.cursor.pollIggy topic call.view).1.foldl (applySwitch factOf) r.quarantined :=
  foldMessages_quarantined h

theorem mem_refresh {call : AgentRegistry.Call} {id : Nat} (h : id ∈ (r.refresh topic call).appliedFacts) :
    id ∈ r.appliedFacts ∨ id ∈ (r.cursor.pollIggy topic call.view).1.filterMap factId :=
  @mem_foldMessages { r with cursor := (r.cursor.pollIggy topic call.view).2 } _ _ (mem_pruned h)

/-! ## Runs of refreshes -/

/-- What each refresh of a run reads. -/
def AgentRegistry.read (topic : Topic (Option AgentEnvelope)) (calls : List Call) (r : AgentRegistry) : List (List Message) :=
  (r.cursor.polls topic (calls.map (·.view))).1

/-- A new registry is the one that left the cache. -/
theorem agentRegistry_cache (h : r.cursor.batch = defaultBatch) : agentRegistry r.cache = r := by
  obtain ⟨⟨offsets, batch⟩, quarantined, applied, order⟩ := r
  cases h
  rfl

theorem refresh_batch (call : AgentRegistry.Call) (h : r.cursor.batch = defaultBatch) :
    (r.refresh topic call).cursor.batch = defaultBatch := by
  rw [refresh_cursor, pollIggy_batch, h]

theorem refreshes_cons (h : r.cursor.batch = defaultBatch) (call : AgentRegistry.Call) (rest : List AgentRegistry.Call) :
    r.refreshes topic (call :: rest) = (r.refresh topic call).refreshes topic rest := by
  unfold AgentRegistry.refreshes
  rw [List.foldl_cons, agentRegistry_cache h, ite_self]

theorem refreshes_cursor (h : r.cursor.batch = defaultBatch) (calls : List AgentRegistry.Call) :
    (r.refreshes topic calls).cursor = (r.cursor.polls topic (calls.map (·.view))).2 := by
  induction calls generalizing r with
  | nil => rfl
  | cons call rest ih =>
    rw [refreshes_cons h, ih (refresh_batch call h), refresh_cursor]
    rfl

/-- A run of refreshes folds what it reads, refresh by refresh. -/
theorem refreshes_quarantined {calls : List AgentRegistry.Call} (hbatch : r.cursor.batch = defaultBatch)
    (h : Fresh r.appliedFacts (r.read topic calls).flatten) :
    (r.refreshes topic calls).quarantined = (r.read topic calls).flatten.foldl (applySwitch factOf) r.quarantined := by
  induction calls generalizing r with
  | nil => rfl
  | cons call rest ih =>
    have hread : (r.read topic (call :: rest)).flatten =
        (r.cursor.pollIggy topic call.view).1 ++ ((r.refresh topic call).read topic rest).flatten := by
      unfold AgentRegistry.read
      rw [refresh_cursor]
      rfl
    rw [hread] at h ⊢
    obtain ⟨hfirst, hrest⟩ := h.append fun id hid => mem_refresh hid
    rw [List.foldl_append, ← refresh_quarantined call hfirst, ← ih (refresh_batch call hbatch) hrest, refreshes_cons hbatch]

/-- Once a run has read every record of a topic whose facts have distinct
record ids, the quarantined agents are those of the facts in the order of time
exactly when the refresh that reads the last facts about an agent ends as the
newest fact about it does. -/
theorem quarantined_in_order_iff (hids : (topic.records.filterMap factId).Nodup) (calls : List AgentRegistry.Call)
    (hread : ((agentRegistry .default).refreshes topic calls).cursor.Done topic) :
    ((agentRegistry .default).refreshes topic calls).quarantined = inAppendOrder topic ↔
      LastBatchAgrees factOf Located.fields topic.records ((agentRegistry .default).read topic calls) := by
  rw [refreshes_cursor rfl] at hread
  have hperm := polls_perm topic (calls.map (·.view)) hread
  have hfresh : Fresh (agentRegistry .default).appliedFacts ((agentRegistry .default).read topic calls).flatten :=
    ⟨(hperm.filterMap factId).nodup_iff.2 hids, fun id _ => Finset.notMem_empty id⟩
  rw [refreshes_quarantined rfl hfresh]
  exact foldl_batches_eq_iff hperm (fun x hx y hy => fields_injective hx hy) (polls_sorted topic _ _)

def planner : AgentId := ⟨"planner", by decide +kernel⟩

def plannerFact (timestamp id : Nat) (operation : String) : Appended (Option AgentEnvelope) :=
  ⟨timestamp, some ⟨some id, some operation, some planner.name⟩⟩

/-- The quarantine is lifted and imposed again, on another partition. -/
def imposedAgain : Topic (Option AgentEnvelope) :=
  [[plannerFact 1 7 operationUnquarantine], [plannerFact 2 8 operationQuarantine]]

/-- A refresh that finds so many records in the first partition and one in the
second. -/
def finding (first : Nat) : AgentRegistry.Call where
  view := ⟨some 2, fun partition => if partition = 0 then first else 1, fun _ _ => 100⟩
  nowMicros := 10
  reopened := true

theorem imposedAgain_done {calls : List AgentRegistry.Call}
    (h : ((agentRegistry .default).refreshes imposedAgain calls).cursor.offsets = [1, 1]) :
    ((agentRegistry .default).refreshes imposedAgain calls).cursor.Done imposedAgain := by
  intro partition
  rw [Cursor.next, h]
  rcases partition with _ | _ | partition
  · exact Nat.le_refl _
  · exact Nat.le_refl _
  · exact Nat.zero_le _

theorem one_refresh_in_order :
    ((agentRegistry .default).refreshes imposedAgain [finding 1]).quarantined = inAppendOrder imposedAgain ∧
      LastBatchAgrees factOf Located.fields imposedAgain.records ((agentRegistry .default).read imposedAgain [finding 1]) := by
  have hsame : ((agentRegistry .default).refreshes imposedAgain [finding 1]).quarantined = inAppendOrder imposedAgain := by
    decide +kernel
  exact ⟨hsame, (quarantined_in_order_iff (by decide +kernel) [finding 1] (imposedAgain_done (by decide +kernel))).1 hsame⟩

/-- The first refresh has drained the first partition when the lift is appended
to it, so the second reads the lift after the quarantine. -/
theorem lift_read_last :
    (imposedAgain.records.filterMap factId).Nodup ∧
      ((agentRegistry .default).refreshes imposedAgain [finding 0, finding 1]).cursor.Done imposedAgain ∧
      ((agentRegistry .default).refreshes imposedAgain [finding 0, finding 1]).quarantined = ∅ ∧
      inAppendOrder imposedAgain = {planner} :=
  ⟨by decide +kernel, imposedAgain_done (by decide +kernel), by decide +kernel, by decide +kernel⟩

end LaserSdk.Registry

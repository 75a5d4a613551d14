import LaserSdk.Agent.Held
/-!
# The warm-up against live deliveries

A process that starts reads the newest committed records back and marks the
keys it derives from them. The live delivery of a record passes its key to
the dedup window only behind the dispatch, the verified record ids, the pause
check, the budget and the fence. The warm-up knows two of these gates, the
addressee and the signature. `Watched` keeps beside the role's state the keys
live deliveries passed, and `warm_agrees` says when the two agree.
-/

namespace LaserSdk.Agent

open Lib

variable {w : Worker} {log : Log}

/-! ## The key of a live delivery -/

/-- The pause check of a live record, of a process that may not have started
the pause runtime. -/
def pauseCheck (w : Worker) (log : Log) (id : MessageId) (message : AgentMessage) (rounds : List Round) (n : Node) :
    Node × Option Hold :=
  if n.memory.pausing then hold w log message.provenance.conversationId id rounds n else (n, some .handle)

/-- The process at the pause check of a live record. -/
def entered (w : Worker) (id : MessageId) (received : Received) (a : Answers) (n : Node) : Node :=
  withGates n (enter w n.memory.gates id received a).1

/-- A live delivery is the first gates, the pause check and the work. -/
theorem deliver_eq (id : MessageId) (received : Received) (a : Answers) (rounds : List Round) (n : Node) :
    deliver w log id received a rounds n =
      match (enter w n.memory.gates id received a).2 with
      | .ends result => (entered w id received a n, result)
      | .passes message =>
        match pauseCheck w log id message rounds (entered w id received a n) with
        | (n, none) => (n, none)
        | (n, some .commit) => (n, some .held)
        | (n, some .handle) => n.work w id message a := by
  unfold deliver pauseCheck entered
  dsimp only
  cases (enter w n.memory.gates id received a).2 with
  | ends result => rfl
  | passes message =>
    dsimp only
    split <;> rfl

/-- The key the second half of a delivery passes to the dedup window. -/
def workKey (w : Worker) (g : Gates) (id : MessageId) (message : AgentMessage) (a : Answers) : Option String :=
  if reachesDedup w g id message a then dedupKey message.provenance else none

/-- The key a live delivery passes to the dedup window. -/
def liveKey (w : Worker) (log : Log) (id : MessageId) (received : Received) (a : Answers) (rounds : List Round)
    (n : Node) : Option String :=
  match (enter w n.memory.gates id received a).2 with
  | .ends _ => none
  | .passes message =>
    match pauseCheck w log id message rounds (entered w id received a n) with
    | (n, some .handle) => workKey w n.memory.gates id message a
    | _ => none

/-- The window after a key, if there is one, was passed to it. -/
def passedTo (dedup : Window String MessageId) (id : MessageId) (key : Option String) : Window String MessageId :=
  match key with
  | some key => (dedup.insert key id).2
  | none => dedup

theorem observe_dedup (g : Gates) (id : MessageId) (message : AgentMessage) :
    (observe g id message).2.dedup = passedTo g.dedup id (dedupKey message.provenance) := by
  unfold observe passedTo
  cases dedupKey message.provenance <;> rfl

/-- The second half of a delivery changes the dedup window by its key only. -/
theorem work_dedup (g : Gates) (id : MessageId) (message : AgentMessage) (a : Answers) :
    (work w g id message a).1.dedup = passedTo g.dedup id (workKey w g id message a) := by
  unfold work workKey reachesDedup
  by_cases hbudget : (w.agent.isSome && !a.admitted) = true
  · rw [if_pos hbudget, hbudget]
    rfl
  · rw [if_neg hbudget]
    rw [Bool.not_eq_true] at hbudget
    rw [hbudget, Bool.not_false, Bool.true_and]
    dsimp only
    cases hfence : (passFence g id message a).1 with
    | false => exact passFence_dedup g id message a
    | true =>
      simp only [Bool.not_true, Bool.false_eq_true, if_false, if_true]
      have hobserved : (observe (passFence g id message a).2 id message).2.dedup =
          passedTo g.dedup id (dedupKey message.provenance) := by
        rw [observe_dedup, passFence_dedup]
      split <;> exact hobserved

/-- The live delivery changes the dedup window it finds after the pause check
by its key only. -/
theorem deliver_dedup {id : MessageId} {received : Received} {a : Answers} {rounds : List Round} {n : Node}
    {message : AgentMessage} (hpasses : (enter w n.memory.gates id received a).2 = .passes message) :
    (deliver w log id received a rounds n).1.memory.gates.dedup =
      passedTo (pauseCheck w log id message rounds (entered w id received a n)).1.memory.gates.dedup id
        (liveKey w log id received a rounds n) := by
  rw [deliver_eq, liveKey, hpasses]
  dsimp only
  split
  next n' heq => rw [heq]; rfl
  next n' heq => rw [heq]; rfl
  next n' heq =>
    rw [heq]
    exact work_dedup n'.memory.gates id message a

/-! ## The gates the warm-up does not know -/

/-- The record is let through by each gate that the warm-up does not check. -/
structure Consumes (w : Worker) (log : Log) (id : MessageId) (message : AgentMessage) (a : Answers)
    (rounds : List Round) (n : Node) : Prop where
  /-- It is work for the role. -/
  work : w.dispatch message = .work
  /-- Its verified record id was not seen before. -/
  unseen : seenRecord w n.memory.gates message = false
  /-- It is neither parked nor settled through its parking. -/
  handled : (pauseCheck w log id message rounds (entered w id (.decoded message) a n)).2 = some .handle
  /-- Its session is within its budget, and its fence is not below the mark. -/
  reaches : reachesDedup w (pauseCheck w log id message rounds (entered w id (.decoded message) a n)).1.memory.gates id
    message a = true

theorem warmDedupKey_some {id : MessageId} {message : AgentMessage} {key : String} :
    warmDedupKey w id (.decoded message) = some key ↔
      w.misaddressed message = false ∧ w.verified id message = true ∧ dedupKey message.provenance = some key := by
  unfold warmDedupKey Worker.verified
  cases haddressed : w.misaddressed message with
  | true => simp [haddressed]
  | false =>
    cases w.verifier with
    | none => simp [haddressed]
    | some verifies => simp [haddressed]

theorem verify_passes_iff {verifies : MessageId → Bool} (hverifier : w.verifier = some verifies) {g : Gates}
    {id : MessageId} {message : AgentMessage} {a : Answers} (hverified : w.verified id message = true) :
    (verify verifies g id message a).2 = .passes message ↔ seenRecord w g message = false := by
  unfold Worker.verified at hverified
  rw [hverifier] at hverified
  unfold verify seenRecord
  rw [if_pos hverified, hverifier, Option.isSome_some, Bool.true_and]
  cases hrecord : message.envelope.bind (·.record) with
  | none => simp
  | some record =>
    rw [Option.any_some]
    dsimp only
    rw [Window.insert_fst]
    cases g.verifiedRecords.holder record <;> simp

/-- A record that leaves a key at start comes to the pause check exactly when
it is work whose record id is new. -/
theorem enter_passes_iff {g : Gates} {id : MessageId} {message : AgentMessage} {a : Answers}
    (haddressed : w.misaddressed message = false) (hverified : w.verified id message = true) :
    (enter w g id (.decoded message) a).2 = .passes message ↔
      w.dispatch message = .work ∧ seenRecord w g message = false := by
  unfold enter
  simp only [haddressed, Bool.false_eq_true, if_false]
  by_cases hwork : w.dispatch message = .work
  · rw [if_neg (not_not.2 hwork)]
    cases hverifier : w.verifier with
    | none => simp [hwork, seenRecord, hverifier]
    | some verifies =>
      simp only [hwork, true_and]
      exact verify_passes_iff hverifier hverified
  · rw [if_pos hwork]
    simp [hwork]

/-- The live delivery passes the key the warm-up would derive exactly when
the other gates let the record through. -/
theorem liveKey_iff {id : MessageId} {message : AgentMessage} {a : Answers} {rounds : List Round} {n : Node}
    {key : String} (hwarm : warmDedupKey w id (.decoded message) = some key) :
    liveKey w log id (.decoded message) a rounds n = some key ↔ Consumes w log id message a rounds n := by
  obtain ⟨haddressed, hverified, hkey⟩ := warmDedupKey_some.1 hwarm
  have hiff := @enter_passes_iff w n.memory.gates id message a haddressed hverified
  constructor
  · intro hlive
    unfold liveKey at hlive
    split at hlive
    · cases hlive
    next passed hpasses =>
      obtain ⟨heq, _⟩ := enter_passes hpasses
      cases heq
      obtain ⟨hwork, hunseen⟩ := hiff.1 hpasses
      split at hlive
      next n' hcheck =>
        unfold workKey at hlive
        split at hlive
        next hreaches => exact ⟨hwork, hunseen, by rw [hcheck], by rwa [hcheck]⟩
        next => cases hlive
      next => cases hlive
  · intro h
    have hpasses := hiff.2 ⟨h.work, h.unseen⟩
    have hcheck : pauseCheck w log id message rounds (entered w id (.decoded message) a n) =
        ((pauseCheck w log id message rounds (entered w id (.decoded message) a n)).1, some .handle) := by
      rw [← h.handled]
    unfold liveKey workKey
    rw [hpasses]
    dsimp only
    rw [hcheck]
    dsimp only
    rw [if_pos h.reaches, hkey]

/-! ## Runs of the role -/

/-- The role's processes, and the key each live delivery passed to the dedup
window with its record. -/
structure Watched where
  state : State
  live : List (MessageId × String)

/-- The live pair an action adds. -/
def passed (w : Worker) (log : Log) (s : State) : Action → List (MessageId × String)
  | .deliver member id a rounds =>
    match log id with
    | some received => ((liveKey w log id received a rounds (s.node member)).map (id, ·)).toList
    | none => []
  | _ => []

def Watched.next (w : Worker) (log : Log) (s : Watched) (action : Action) : Watched :=
  ⟨Agent.next w log s.state action, s.live ++ passed w log s.state action⟩

def Watched.init (w : Worker) : Watched := ⟨.init w, []⟩

/-- The live delivery of a record that was processed passed the key. -/
def Watched.Consumed (s : Watched) (key : String) : Prop := ∃ id ∈ s.state.finished, (id, key) ∈ s.live

/-- The warm-up finds no key on processed records that no live delivery of
one passed, and a process that starts drops no record for such a key. -/
structure WarmAgrees (w : Worker) (log : Log) (s : Watched) : Prop where
  observed : ∀ id ∈ warmRanges w s.state.stored, id ∈ s.state.finished → ∀ key,
    (log id).bind (warmDedupKey w id) = some key → s.Consumed key
  started : ∀ retained key id, (Memory.started w log s.state retained).gates.dedup.holder key = some id →
    id ∈ s.state.finished → s.Consumed key

/-- Every live delivery that returns, of a record the warm-up would take a key
from, gets the record through the gates the warm-up does not know, unless an
earlier delivery of it or of a processed record passed the key. -/
def Consuming (w : Worker) (log : Log) (s : Watched) : Action → Prop
  | .deliver member id a rounds => id.partition < w.partitions → ∀ message key, log id = some (.decoded message) →
      warmDedupKey w id (.decoded message) = some key →
      (deliver w log id (.decoded message) a rounds (s.state.node member)).2.isSome →
      Consumes w log id message a rounds (s.state.node member) ∨ ∃ other ∈ id :: s.state.finished, (other, key) ∈ s.live
  | _ => True

def ConsumingStep (w : Worker) (log : Log) (s : Watched) (action : Action) (s' : Watched) : Prop :=
  Consuming w log s action ∧ s.next w log action = s'

/-- What the warm-up may come to read agrees with the live deliveries. -/
def Agreeing (w : Worker) (log : Log) (s : Watched) : Prop :=
  ∀ id ∈ s.state.finished, id.partition < w.partitions → ∀ key, (log id).bind (warmDedupKey w id) = some key → s.Consumed key

theorem mem_warmRanges {stored : Nat → Option Nat} {id : MessageId} :
    id ∈ warmRanges w stored ↔
      id.partition < w.partitions ∧ ∃ offset, stored id.partition = some offset ∧ id ∈ warmRange w id.partition offset := by
  unfold warmRanges
  rw [List.mem_flatMap]
  constructor
  · rintro ⟨partition, hpartition, hmem⟩
    split at hmem
    next offset hstored =>
      obtain ⟨_, _, rfl⟩ := List.mem_map.1 hmem
      exact ⟨List.mem_range.1 hpartition, offset, hstored, hmem⟩
    next => cases hmem
  · rintro ⟨hpartition, offset, hstored, hmem⟩
    refine ⟨id.partition, List.mem_range.2 hpartition, ?_⟩
    rw [hstored]
    exact hmem

theorem WarmAgrees.of_agreeing {s : Watched} (h : Agreeing w log s) : WarmAgrees w log s where
  observed := fun id hmem hfinished key hkey => h id hfinished (mem_warmRanges.1 hmem).1 key hkey
  started := by
    intro retained key id hholder
    have hmem := Window.mem_of_holder hholder
    unfold Memory.started at hmem
    dsimp only at hmem
    split at hmem
    · refine forall_warmDedupWindow (P := fun key id => id ∈ s.state.finished → s.Consumed key) ?_ ?_ key id hmem
      · intro key id hempty
        cases hempty
      · intro id hread key hkey hfinished
        refine h id hfinished (mem_warmRanges.1 hread).1 key ?_
        split at hkey
        · exact hkey
        · cases hkey
    · cases hmem

/-! ## Steps and runs -/

/-- A process takes the deliveries that return. -/
theorem finished_next (s : State) (action : Action) {id : MessageId} (h : id ∈ (next w log s action).finished) :
    id ∈ s.finished ∨ ∃ member a rounds received, action = .deliver member id a rounds ∧ log id = some received ∧
      (deliver w log id received a rounds (s.node member)).2.isSome := by
  cases action with
  | deliver member other a rounds =>
    rw [next] at h
    split at h
    · exact .inl h
    next received hlog =>
      dsimp only at h
      split at h
      next hreturned =>
        rcases List.mem_append.1 h with hold | hnew
        · exact .inl hold
        · cases List.mem_singleton.1 hnew
          exact .inr ⟨member, a, rounds, received, rfl, hlog, hreturned⟩
      next => exact .inl h
  | reconcile member session round =>
    rw [next] at h
    split at h <;> exact .inl h
  | commit other =>
    rw [next] at h
    split at h <;> exact .inl h
  | elsewhere event =>
    rw [next] at h
    split at h <;> exact .inl h
  | reassign => exact .inl h
  | start => exact .inl h
  | startLate => exact .inl h

theorem finished_subset (s : State) (action : Action) : s.finished ⊆ (next w log s action).finished := by
  intro id hmem
  cases action with
  | deliver member other a rounds =>
    rw [next]
    split
    · exact hmem
    · dsimp only
      split
      · exact List.mem_append_left _ hmem
      · exact hmem
  | reconcile member session round =>
    rw [next]
    split <;> exact hmem
  | commit other =>
    rw [next]
    split <;> exact hmem
  | elsewhere event =>
    rw [next]
    split <;> exact hmem
  | reassign => exact hmem
  | start => exact hmem
  | startLate => exact hmem

theorem Watched.Consumed.next {s : Watched} {key : String} (h : s.Consumed key) (action : Action) :
    (s.next w log action).Consumed key := by
  obtain ⟨id, hfinished, hlive⟩ := h
  exact ⟨id, finished_subset s.state action hfinished, List.mem_append_left _ hlive⟩

/-- A consuming step keeps what the warm-up may read in agreement. -/
theorem next_agreeing {s : Watched} {action : Action} (hs : Agreeing w log s) (hstep : Consuming w log s action) :
    Agreeing w log (s.next w log action) := by
  intro id hfinished hpartition key hkey
  rcases finished_next s.state action hfinished with hold | ⟨member, a, rounds, received, rfl, hlog, hreturned⟩
  · exact (hs id hold hpartition key hkey).next _
  · rw [hlog, Option.bind_some] at hkey
    obtain ⟨message, rfl, _⟩ := warmDedupKey_eq hkey
    rcases hstep hpartition message key hlog hkey hreturned with hgates | ⟨other, hother, hlive⟩
    · -- The delivery passed the key itself.
      refine ⟨id, hfinished, List.mem_append_right _ ?_⟩
      simp [passed, hlog, (liveKey_iff hkey).2 hgates]
    · refine ⟨other, ?_, List.mem_append_left _ hlive⟩
      rcases List.mem_cons.1 hother with rfl | hbefore
      · exact hfinished
      · exact finished_subset s.state _ hbefore

theorem mem_warmRange_self (w : Worker) (id : MessageId) : id ∈ warmRange w id.partition id.offset := by
  unfold warmRange
  refine List.mem_map.2 ⟨id.offset, ?_, rfl⟩
  rw [List.mem_range'_1]
  omega

/-- A delivery that returns finishes its record. -/
theorem next_deliver_finished {s : State} {member : Nat} {id : MessageId} {a : Answers} {rounds : List Round}
    {received : Received} (hlog : log id = some received)
    (hreturned : (deliver w log id received a rounds (s.node member)).2.isSome) :
    (next w log s (.deliver member id a rounds)).finished = s.finished ++ [id] := by
  rw [next, hlog]
  dsimp only
  rw [if_pos hreturned]
  rfl

theorem next_commit {s : State} {id : MessageId} (h : id ∈ s.finished) :
    next w log s (.commit id) = { s with stored := Function.update s.stored id.partition (some id.offset) } := by
  rw [next, if_pos h]

/-- A delivery that returns without meeting the condition leaves a key that
no processed record passed, as soon as it is committed. -/
theorem not_warmAgrees_of_not_consuming {s : Watched} {action : Action} (h : ¬ Consuming w log s action) :
    ∃ id, ¬ WarmAgrees w log ((s.next w log action).next w log (.commit id)) := by
  cases action with
  | deliver member id a rounds =>
    unfold Consuming at h
    push Not at h
    obtain ⟨hpartition, message, key, hlog, hkey, hreturned, hgates, hbefore⟩ := h
    have hfinished := next_deliver_finished hlog hreturned
    have hmem : id ∈ (next w log s.state (.deliver member id a rounds)).finished := by
      rw [hfinished]
      exact List.mem_append_right _ List.mem_cons_self
    refine ⟨id, fun hagrees => ?_⟩
    have hconsumed := hagrees.observed id ?_ ?_ key (by rw [hlog]; exact hkey)
    · obtain ⟨other, hother, hlive⟩ := hconsumed
      -- The commit finishes nothing and passes no key.
      have hother : other ∈ s.state.finished ++ [id] := by
        rw [← hfinished]
        unfold Watched.next at hother
        dsimp only at hother
        rwa [next_commit hmem] at hother
      have hlive : (other, key) ∈ s.live ++ passed w log s.state (.deliver member id a rounds) := by
        simpa [Watched.next, passed] using hlive
      rcases List.mem_append.1 hlive with hold | hnew
      · refine hbefore other ?_ hold
        rcases List.mem_append.1 hother with hdone | hself
        · exact List.mem_cons_of_mem _ hdone
        · exact List.mem_cons.2 (.inl (List.mem_singleton.1 hself))
      · have hkeys : liveKey w log id (.decoded message) a rounds (s.state.node member) = some key := by
          simp only [passed, hlog, Option.mem_toList, Option.map_eq_some_iff, Prod.mk.injEq] at hnew
          obtain ⟨_, hpassed, _, rfl⟩ := hnew
          exact hpassed
        exact hgates ((liveKey_iff hkey).1 hkeys)
    · refine mem_warmRanges.2 ⟨hpartition, id.offset, ?_, mem_warmRange_self w id⟩
      unfold Watched.next
      dsimp only
      rw [next_commit hmem]
      exact Function.update_self ..
    · exact finished_subset _ _ hmem
  | reconcile => exact absurd trivial h
  | commit => exact absurd trivial h
  | reassign => exact absurd trivial h
  | start => exact absurd trivial h
  | startLate => exact absurd trivial h
  | elsewhere => exact absurd trivial h

/-- In every run whose steps are consuming, the warm-up of a process that
starts agrees with the live deliveries. A step that is not, followed by the
commit of its record, ends the agreement. -/
theorem warm_agrees (w : Worker) (log : Log) :
    (∀ actions s, Run (ConsumingStep w log) (.init w) actions s → WarmAgrees w log s) ∧
    ∀ s action, ¬ Consuming w log s action → ∃ id, ¬ WarmAgrees w log ((s.next w log action).next w log (.commit id)) := by
  constructor
  · intro actions s hrun
    apply WarmAgrees.of_agreeing
    refine hrun.inv (Agreeing w log) (fun id hmem => by cases hmem) fun s action s' hs ⟨hconsuming, hnext⟩ => ?_
    rw [← hnext]
    exact next_agreeing hs hconsuming
  · intro s action h
    exact not_warmAgrees_of_not_consuming h

/-- The charge is handled and committed. A process that starts then finds its
key, which the live delivery passed. -/
theorem handled_charge_agrees : ∃ s,
    Run (ConsumingStep warmed chargeLog) (.init warmed)
      [launch, .deliver 0 chargeId calmAnswers [resumed], .commit chargeId] s ∧
    chargeId ∈ warmRanges warmed s.state.stored ∧ s.Consumed "order-7" := by
  have hdeliver : Consuming warmed chargeLog ((Watched.init warmed).next warmed chargeLog launch)
      (.deliver 0 chargeId calmAnswers [resumed]) := by
    intro _ message key hlog _ _
    cases hlog
    exact .inl ⟨by decide, by decide, by decide, by decide⟩
  have hrun : Run (ConsumingStep warmed chargeLog) (.init warmed)
      [launch, .deliver 0 chargeId calmAnswers [resumed], .commit chargeId] _ :=
    .snoc (.snoc (.snoc .nil ⟨trivial, rfl⟩) ⟨hdeliver, rfl⟩) ⟨trivial, rfl⟩
  refine ⟨_, hrun, by decide, ?_⟩
  exact ((warm_agrees warmed chargeLog).1 _ _ hrun).observed chargeId (by decide) (by decide) "order-7" rfl

/-! ## A stale holder's record -/

/-- A charge of one session under a fence, with or without a key. -/
def fenced (fence : Nat) (key : Option String) : AgentMessage :=
  { charge with provenance := { charge.provenance with fenceToken := some fence, idempotencyKey := key } }

/-- The new holder's first record, a late one of the old holder, and the new
holder's retry of it. -/
def handoverLog : Log := fun id =>
  if id = ⟨0, 0⟩ then some (.decoded (fenced 5 none))
  else if id = ⟨0, 1⟩ then some (.decoded (fenced 3 (some "order-7")))
  else if id = ⟨0, 2⟩ then some (.decoded (fenced 5 (some "order-7")))
  else none

def handover : List Action :=
  [launch, .deliver 0 ⟨0, 0⟩ calmAnswers [resumed], .commit ⟨0, 0⟩, .deliver 0 ⟨0, 1⟩ calmAnswers [resumed],
    .commit ⟨0, 1⟩, launch]

/-- The old holder's record is dropped at the fence and committed. After a
restart its key, which no delivery passed, drops the new holder's retry. -/
theorem fenced_out_record_takes_the_slot : ∃ s,
    Run (fun s action s' => s.next warmed handoverLog action = s') (.init warmed) handover s ∧ s.live = [] ∧
      ¬ WarmAgrees warmed handoverLog s ∧
      (deliver warmed handoverLog ⟨0, 2⟩ (.decoded (fenced 5 (some "order-7"))) calmAnswers [resumed]
        (s.state.node 0)).2 = some .duplicate := by
  refine ⟨_, Run.foldl (Watched.next warmed handoverLog) handover, by decide, fun hagrees => ?_, by decide⟩
  obtain ⟨id, _, hlive⟩ := hagrees.observed ⟨0, 1⟩ (by decide) (by decide) "order-7" rfl
  cases hlive

end LaserSdk.Agent

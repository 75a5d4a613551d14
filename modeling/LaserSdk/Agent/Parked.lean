import Mathlib.Data.List.DropRight
import LaserSdk.Agent.Held
/-!
# Parked work of one runtime

One process of the role runs alone: it crashes, starts with an empty memory
and reads the whole lane again. What it holds in memory is on the lane, and
the completions of the lane are known to it, but for those whose publish
returned an error though the event landed. A recovery read finds these too.
-/

namespace LaserSdk.Agent

open Lib

/-! ## Replays -/

/-- The record one turn of the drain reads back and replays. -/
def takesUp (w : Worker) (log : Log) (assignedOnly : Bool) (answers : SourceAddress → ReplayAnswers)
    (address : SourceAddress) (n : Node) : Option Received :=
  if assignedOnly && !n.memory.reads address.partition then none
  else
    match (answers address).control with
    | none => none
    | some control =>
      if control.paused.isSome || control.cancelRequested then none
      else (fetchSource w log address (answers address).fetched).join

/-- The replays of a drain: each source with the process as the replay meets
it. A turn that goes on is a drain of its one source. -/
def drainReplays (w : Worker) (log : Log) (session : ConversationId) (assignedOnly : Bool)
    (answers : SourceAddress → ReplayAnswers) : List (SourceAddress × List Parking) → Node → List (SourceAddress × Node)
  | [], _ => []
  | group :: rest, n =>
    let replays := if (takesUp w log assignedOnly answers group.1 n).isSome then [(group.1, n)] else []
    match drainFrom w log session assignedOnly answers [group] n with
    | (n, some .all) => replays ++ drainReplays w log session assignedOnly answers rest n
    | _ => replays

/-- The session is neither paused nor canceled, and the resume acknowledged. -/
def Round.drains (round : Round) : Bool :=
  round.acknowledged && round.control.any fun control => control.paused.isNone && !control.cancelRequested

def holdReplays (w : Worker) (log : Log) (session : ConversationId) : List Round → Node → List (SourceAddress × Node)
  | [], _ => []
  | round :: rest, n =>
    if round.drains then
      let replays := drainReplays w log session false round.replays (w.pending (n.memory.roles session)) n
      match drain w log session false round.replays n with
      | (n, some .interrupted) => replays ++ holdReplays w log session rest n
      | _ => replays
    else []

/-- A replay: its session, its source and the lane at that time. -/
structure Replayed where
  session : ConversationId
  address : SourceAddress
  lane : List LaneEvent

/-- The replays an action makes. -/
def replays (w : Worker) (log : Log) (s : State) : Action → List Replayed
  | .deliver member id a rounds =>
    match log id with
    | none => []
    | some received =>
      match enter w (s.members member).gates id received a with
      | (_, .ends _) => []
      | (gates, .passes message) =>
        let session := message.provenance.conversationId
        if (s.members member).pausing then
          (holdReplays w log session rounds (withGates (s.node member) gates)).map fun r => ⟨session, r.1, r.2.lane⟩
        else []
  | .reconcile member session round =>
    if (s.members member).pausing && round.drains then
      let groups := w.pending ((s.members member).roles session)
      (drainReplays w log session true round.replays groups (s.node member)).map fun r => ⟨session, r.1, r.2.lane⟩
    else []
  | _ => []

/-! ## Runs of one process -/

/-- The action is of the one process, and its recovery reads the whole lane. -/
def Action.Solo : Action → Prop
  | .deliver member _ _ _ | .reconcile member _ _ => member = 0
  | .reassign member _ missed | .start member _ _ missed | .startLate member missed => member = 0 ∧ missed = fun _ => 0
  | .commit _ | .elsewhere _ => True

/-- The action reads the lane, or ends the process. -/
def Action.recovers : Action → Bool
  | .reassign _ _ _ | .start _ _ _ _ | .startLate _ _ => true
  | _ => false

def Action.rounds : Action → List Round
  | .deliver _ _ _ rounds => rounds
  | .reconcile _ _ round => [round]
  | _ => []

/-- A completion of the parking lands though its publish returns an error. -/
def Action.lands (a : Action) (p : Parking) : Prop :=
  ∃ round ∈ a.rounds, (round.replays p.source).unparked p = .landed

/-- Since its last recovery read the process was told that a completion of
the parking failed, and it had landed. -/
def LandedUnseen (actions : List Action) (p : Parking) : Prop :=
  ∃ a ∈ actions.rtakeWhile (!·.recovers), a.lands p

/-! ## What a process knows of one session -/

variable {w : Worker} {log : Log}

structure Recorded (w : Worker) (lane : List LaneEvent) (session : ConversationId) (role : RoleState) : Prop where
  nodup : role.parked.Nodup
  parked : ∀ p ∈ role.parked, p.role = w.me ∧ p ∉ role.handled ∧ ⟨session, .parked, p⟩ ∈ lane
  handled : ∀ p ∈ role.handled, p.role = w.me ∧ ⟨session, .unparked, p⟩ ∈ lane

/-- `late` are the parkings with a completion on the lane that the process
could not know of. -/
structure Known (w : Worker) (late : Parking → Prop) (lane : List LaneEvent) (session : ConversationId)
    (role : RoleState) : Prop extends Recorded w lane session role where
  seen : ∀ p, w.owns p = true → ⟨session, .unparked, p⟩ ∈ lane → p ∈ role.handled ∨ late p

/-- The role's event that names a source. -/
def Named (w : Worker) (lane : List LaneEvent) (session : ConversationId) (address : SourceAddress) : Prop :=
  ∃ event ∈ lane, event.session = session ∧ event.parking.role = w.me ∧ event.parking.source = address

theorem Recorded.named_of_knows {lane : List LaneEvent} {session : ConversationId} {role : RoleState}
    (h : Recorded w lane session role) {address : SourceAddress} (hknows : role.knows address = true) :
    Named w lane session address := by
  simp only [RoleState.knows, Bool.or_eq_true, List.any_eq_true, decide_eq_true_eq] at hknows
  rcases hknows with ⟨p, hp, rfl⟩ | ⟨p, hp, rfl⟩
  · obtain ⟨hrole, _, hevent⟩ := h.parked p hp
    exact ⟨_, hevent, rfl, hrole, rfl⟩
  · obtain ⟨hrole, hevent⟩ := h.handled p hp
    exact ⟨_, hevent, rfl, hrole, rfl⟩

theorem Recorded.mono {lane lane' : List LaneEvent} (hsub : ∀ e ∈ lane, e ∈ lane') {session : ConversationId}
    {role : RoleState} (h : Recorded w lane session role) : Recorded w lane' session role := by
  refine ⟨h.nodup, fun p hp => ?_, fun p hp => ?_⟩
  · obtain ⟨hrole, hopen, hevent⟩ := h.parked p hp
    exact ⟨hrole, hopen, hsub _ hevent⟩
  · obtain ⟨hrole, hevent⟩ := h.handled p hp
    exact ⟨hrole, hsub _ hevent⟩

theorem Known.weaken {late late' : Parking → Prop} (hlate : ∀ p, late p → late' p) {lane : List LaneEvent}
    {session : ConversationId} {role : RoleState} (h : Known w late lane session role) :
    Known w late' lane session role :=
  ⟨h.toRecorded, fun p howns hevent => (h.seen p howns hevent).imp_right (hlate p)⟩

/-- One more event on the lane: if it completes a parking of the topic, the
process knows of it, or could not. -/
theorem Known.append {late : Parking → Prop} {lane : List LaneEvent} {session : ConversationId} {role : RoleState}
    (h : Known w late lane session role) {event : LaneEvent}
    (hevent : ∀ p, w.owns p = true → ⟨session, .unparked, p⟩ = event → p ∈ role.handled ∨ late p) :
    Known w late (lane ++ [event]) session role := by
  refine ⟨h.toRecorded.mono fun e he => List.mem_append_left _ he, fun p howns hmem => ?_⟩
  rcases List.mem_append.1 hmem with hold | hnew
  · exact h.seen p howns hold
  · exact hevent p howns (List.mem_singleton.1 hnew)

theorem Recorded.park {lane : List LaneEvent} {session : ConversationId} {role : RoleState}
    (h : Recorded w lane session role) {p : Parking} (hrole : p.role = w.me) (hnew : p ∉ role.handled)
    (hevent : ⟨session, .parked, p⟩ ∈ lane) :
    Recorded w lane session { role with parked := role.parked.insert p } := by
  refine ⟨h.nodup.insert, fun q hq => ?_, h.handled⟩
  rcases List.mem_insert_iff.1 hq with rfl | hold
  · exact ⟨hrole, hnew, hevent⟩
  · exact h.parked q hold

theorem Recorded.complete {lane : List LaneEvent} {session : ConversationId} {role : RoleState}
    (h : Recorded w lane session role) {p : Parking} (hrole : p.role = w.me)
    (hevent : ⟨session, .unparked, p⟩ ∈ lane) :
    Recorded w lane session { role with parked := role.parked.erase p, handled := role.handled.insert p } := by
  refine ⟨h.nodup.erase p, fun q hq => ?_, fun q hq => ?_⟩
  · obtain ⟨hne, hparked⟩ := h.nodup.mem_erase_iff.1 hq
    obtain ⟨hq, hopen, hlane⟩ := h.parked q hparked
    refine ⟨hq, fun hmem => ?_, hlane⟩
    rcases List.mem_insert_iff.1 hmem with heq | hhandled
    · exact hne heq
    · exact hopen hhandled
  · rcases List.mem_insert_iff.1 hq with rfl | hold
    · exact ⟨hrole, hevent⟩
    · exact h.handled q hold

/-! ## One process -/

def Faithful (w : Worker) (late : Parking → Prop) (n : Node) : Prop :=
  ∀ session, Known w late n.lane session (n.memory.roles session)

theorem Faithful.setRole {late : Parking → Prop} {n : Node} (hn : Faithful w late n) {session : ConversationId}
    {role : RoleState} (hrole : Known w late n.lane session role) :
    Faithful w late { n with memory := n.memory.setRole session role } := by
  intro other
  unfold Memory.setRole
  dsimp only
  by_cases hsession : other = session
  · rw [hsession, Function.update_self]
    exact hrole
  · rw [Function.update_of_ne hsession]
    exact hn other

/-- A parking event changes nothing that is known of completions. -/
theorem Faithful.append_parked {late : Parking → Prop} {n : Node} (hn : Faithful w late n) (session : ConversationId)
    (p : Parking) : Faithful w late (n.append session .parked p) := by
  intro other
  apply (hn other).append
  intro q _ heq
  cases heq

theorem park_faithful {late : Parking → Prop} {n : Node} (hn : Faithful w late n) (session : ConversationId)
    (id : MessageId) (request : ControlPosition) (sent : Sent) :
    Faithful w late (park w session id request sent n).1 ∧ ((park w session id request sent n).2 = true →
      Named w (park w session id request sent n).1.lane session (w.address id)) := by
  unfold park
  dsimp only
  split
  next hknows => exact ⟨hn, fun _ => (hn session).named_of_knows hknows⟩
  next hunknown =>
    have happended := hn.append_parked session ⟨w.address id, w.me, request⟩
    have hevent : ⟨session, .parked, ⟨w.address id, w.me, request⟩⟩ ∈
        (n.append session .parked ⟨w.address id, w.me, request⟩).lane := by simp [Node.append]
    cases sent with
    | lost => exact ⟨hn, nofun⟩
    | landed => exact ⟨happended, nofun⟩
    | confirmed =>
      have hnew : (⟨w.address id, w.me, request⟩ : Parking) ∉ (n.memory.roles session).handled := by
        intro hmem
        apply hunknown
        simp only [RoleState.knows, Bool.or_eq_true, List.any_eq_true, decide_eq_true_eq]
        exact .inr ⟨_, hmem, rfl⟩
      refine ⟨happended.setRole ?_, fun _ => ⟨_, hevent, rfl, rfl, rfl⟩⟩
      exact ⟨(happended session).toRecorded.park rfl hnew hevent, (happended session).seen⟩

/-- Completions, of which one may fail after it landed. -/
theorem complete_faithful {late : Parking → Prop} {session : ConversationId} {report : Parking → Report}
    {sent : Parking → Sent} {held : List Parking} (hheld : ∀ p ∈ held, p.role = w.me) {n : Node}
    (hn : Faithful w late n)
    (hlate : (complete session report sent held n).2 = false → ∀ p ∈ held, sent p = .landed → late p) :
    Faithful w late (complete session report sent held n).1 := by
  induction held generalizing n with
  | nil => exact hn
  | cons p rest ih =>
    have hrole : p.role = w.me := hheld p List.mem_cons_self
    have hevent : ⟨session, .unparked, p⟩ ∈ (n.append session .unparked p).lane := by simp [Node.append]
    unfold complete at hlate ⊢
    dsimp only at hlate ⊢
    cases hsent : sent p with
    | lost => exact hn
    | landed =>
      intro other
      apply (hn other).append
      intro q _ heq
      cases heq
      rw [hsent] at hlate
      exact .inr (hlate rfl _ List.mem_cons_self hsent)
    | confirmed =>
      rw [hsent] at hlate
      apply ih fun q hq => hheld q (List.mem_cons_of_mem _ hq)
      · -- The completion is on the lane and in memory.
        intro other
        have hother : other ≠ session → Known w late (n.append session .unparked p).lane other (n.memory.roles other) := by
          intro hne
          apply (hn other).append
          intro q _ heq
          cases heq
          exact absurd rfl hne
        have hmono : Recorded w (n.append session .unparked p).lane session (n.memory.roles session) :=
          (hn session).toRecorded.mono fun e he => List.mem_append_left _ he
        unfold Memory.setRole
        dsimp only
        by_cases hsession : other = session
        · subst hsession
          rw [Function.update_self]
          refine ⟨hmono.complete hrole hevent, fun q howns hmem => ?_⟩
          rcases List.mem_append.1 hmem with hold | hnew
          · exact ((hn other).seen q howns hold).imp_left List.mem_insert_of_mem
          · cases List.mem_singleton.1 hnew
            exact .inl List.mem_insert_self
        · rw [Function.update_of_ne hsession]
          exact hother hsession
      · exact fun hfalse q hq => hlate hfalse q (List.mem_cons_of_mem _ hq)

/-- Completions add to the lane, and only what they complete to the handled
records. -/
theorem complete_frame {session : ConversationId} {report : Parking → Report} {sent : Parking → Sent}
    (held : List Parking) (n : Node) :
    (∀ e ∈ n.lane, e ∈ (complete session report sent held n).1.lane) ∧
      ∀ p ∈ ((complete session report sent held n).1.memory.roles session).handled,
        p ∈ (n.memory.roles session).handled ∨ p ∈ held := by
  induction held generalizing n with
  | nil => exact ⟨fun e he => he, fun p hp => .inl hp⟩
  | cons p rest ih =>
    unfold complete
    dsimp only
    cases sent p with
    | lost => exact ⟨fun e he => he, fun q hq => .inl hq⟩
    | landed => exact ⟨fun e he => List.mem_append_left _ he, fun q hq => .inl hq⟩
    | confirmed =>
      obtain ⟨hlane, hhandled⟩ := ih { n.append session .unparked p with
        reports := n.reports ++ [report p]
        memory := n.memory.setRole session { n.memory.roles session with
          parked := (n.memory.roles session).parked.erase p
          handled := (n.memory.roles session).handled.insert p } }
      refine ⟨fun e he => hlane e (List.mem_append_left _ he), fun q hq => ?_⟩
      rcases hhandled q hq with hmem | hmem
      · simp only [Memory.setRole, Function.update_self] at hmem
        rcases List.mem_insert_iff.1 hmem with rfl | hold
        · exact .inr List.mem_cons_self
        · exact .inl hold
      · exact .inr (List.mem_cons_of_mem _ hmem)

/-! ## A drain -/

/-- A source a drain still has to take up, with its parkings. -/
structure Waiting (w : Worker) (session : ConversationId) (n : Node) (group : SourceAddress × List Parking) : Prop where
  nonempty : group.2 ≠ []
  held : ∀ p ∈ group.2, p.source = group.1 ∧ p.role = w.me ∧ p.source.stream = w.source.streamId ∧
    p.source.topic = w.source.topicId
  incomplete : ∀ p ∈ group.2, p ∉ (n.memory.roles session).handled ∧ ⟨session, .parked, p⟩ ∈ n.lane

theorem pending_waiting {session : ConversationId} {n : Node} (h : Recorded w n.lane session (n.memory.roles session)) :
    ∀ group ∈ w.pending (n.memory.roles session), Waiting w session n group := by
  intro group hgroup
  unfold Worker.pending at hgroup
  obtain ⟨address, haddress, rfl⟩ := List.mem_map.1 hgroup
  have hheld : ∀ p ∈ w.held (n.memory.roles session), p ∈ (n.memory.roles session).parked ∧
      p.source.stream = w.source.streamId ∧ p.source.topic = w.source.topicId := by
    intro p hp
    unfold Worker.held at hp
    rw [List.mem_insertionSort] at hp
    obtain ⟨hparked, htopic⟩ := List.mem_filter.1 hp
    simp only [Bool.and_eq_true, decide_eq_true_eq] at htopic
    exact ⟨hparked, htopic.1.1, htopic.1.2⟩
  refine ⟨?_, fun p hp => ?_, fun p hp => ?_⟩
  · obtain ⟨p, hp, rfl⟩ := List.mem_map.1 (List.mem_dedup.1 haddress)
    exact List.ne_nil_of_mem (List.mem_filter.2 ⟨hp, by simp⟩)
  · obtain ⟨hp, hsource⟩ := List.mem_filter.1 hp
    obtain ⟨hparked, hstream, htopic⟩ := hheld p hp
    exact ⟨by simpa using hsource, (h.parked p hparked).1, hstream, htopic⟩
  · obtain ⟨hparked, _⟩ := hheld p (List.mem_filter.1 hp).1
    exact (h.parked p hparked).2

theorem pending_nodup (role : RoleState) : ((w.pending role).map (·.1)).Nodup := by
  unfold Worker.pending
  rw [List.map_map]
  convert List.nodup_dedup ((w.held role).map (·.source)) using 1
  exact List.map_id _

theorem turn_faithful {late : Parking → Prop} {session : ConversationId} {assignedOnly : Bool}
    {answers : SourceAddress → ReplayAnswers} {group : SourceAddress × List Parking} {n : Node}
    (hn : Faithful w late n) (hheld : ∀ p ∈ group.2, p.role = w.me)
    (hlate : (drainFrom w log session assignedOnly answers [group] n).2 = none →
      ∀ p ∈ group.2, (answers group.1).unparked p = .landed → late p) :
    Faithful w late (drainFrom w log session assignedOnly answers [group] n).1 := by
  obtain heq | heq | ⟨received, _, ⟨_, heq⟩ | ⟨outcome, _, heq, hstops⟩⟩ :=
    @turn_cases w log session assignedOnly answers group n
  · rwa [heq]
  · rw [heq]
    exact hn.setRole ⟨⟨(hn session).nodup, (hn session).parked, (hn session).handled⟩, (hn session).seen⟩
  · rw [heq]
    exact hn
  · rw [heq]
    exact complete_faithful hheld hn fun hfalse => hlate (hstops hfalse)

theorem turn_frame (session : ConversationId) (assignedOnly : Bool) (answers : SourceAddress → ReplayAnswers)
    (group : SourceAddress × List Parking) (n : Node) :
    (∀ e ∈ n.lane, e ∈ (drainFrom w log session assignedOnly answers [group] n).1.lane) ∧
      ∀ p ∈ ((drainFrom w log session assignedOnly answers [group] n).1.memory.roles session).handled,
        p ∈ (n.memory.roles session).handled ∨ p ∈ group.2 := by
  obtain heq | heq | ⟨received, _, ⟨_, heq⟩ | ⟨outcome, _, heq, _⟩⟩ :=
    @turn_cases w log session assignedOnly answers group n
  · rw [heq]
    exact ⟨fun e he => he, fun p hp => .inl hp⟩
  · rw [heq]
    refine ⟨fun e he => he, fun p hp => .inl ?_⟩
    simpa [Node.abandon, Memory.setRole] using hp
  · rw [heq]
    exact ⟨fun e he => he, fun p hp => .inl hp⟩
  · rw [heq]
    exact complete_frame group.2 (withGates n (replay w n.memory.gates group.1.id received (answers group.1).delivery).1)

/-- A turn leaves the other sources waiting. -/
theorem turn_waiting {session : ConversationId} {assignedOnly : Bool} {answers : SourceAddress → ReplayAnswers}
    {group other : SourceAddress × List Parking} {n : Node} (hgroup : Waiting w session n group)
    (hother : Waiting w session n other) (hne : group.1 ≠ other.1) :
    Waiting w session (drainFrom w log session assignedOnly answers [group] n).1 other := by
  obtain ⟨hlane, hhandled⟩ := @turn_frame w log session assignedOnly answers group n
  refine ⟨hother.nonempty, hother.held, fun p hp => ?_⟩
  obtain ⟨hopen, hevent⟩ := hother.incomplete p hp
  refine ⟨fun hmem => ?_, hlane _ hevent⟩
  rcases hhandled p hmem with hmem | hmem
  · exact hopen hmem
  · apply hne
    rw [← (hgroup.held p hmem).1, (hother.held p hp).1]

theorem drainFrom_faithful {late : Parking → Prop} {session : ConversationId} {assignedOnly : Bool}
    {answers : SourceAddress → ReplayAnswers} {groups : List (SourceAddress × List Parking)}
    (hgroups : ∀ group ∈ groups, ∀ p ∈ group.2, p.source = group.1 ∧ p.role = w.me) {n : Node}
    (hn : Faithful w late n)
    (hlate : (drainFrom w log session assignedOnly answers groups n).2 = none →
      ∀ p, (answers p.source).unparked p = .landed → late p) :
    Faithful w late (drainFrom w log session assignedOnly answers groups n).1 := by
  induction groups generalizing n with
  | nil => exact hn
  | cons group rest ih =>
    have hgroup := hgroups group List.mem_cons_self
    rw [drainFrom_cons] at hlate ⊢
    have hturn := @turn_faithful w log late session assignedOnly answers group n hn fun p hp => (hgroup p hp).2
    split at hlate
    next n' heq =>
      rw [heq] at hturn
      exact ih (fun g hg => hgroups g (List.mem_cons_of_mem _ hg)) (hturn nofun) hlate
    next =>
      refine hturn fun hnone p hp hlanded => hlate hnone p ?_
      rwa [(hgroup p hp).1]

theorem drain_faithful {late : Parking → Prop} {n : Node} (hn : Faithful w late n) (session : ConversationId)
    (assignedOnly : Bool) {answers : SourceAddress → ReplayAnswers}
    (hlate : (drain w log session assignedOnly answers n).2 = none →
      ∀ p, (answers p.source).unparked p = .landed → late p) :
    Faithful w late (drain w log session assignedOnly answers n).1 := by
  refine drainFrom_faithful (fun group hgroup p hp => ?_) hn hlate
  obtain ⟨hsource, hrole, _⟩ := (pending_waiting (hn session).toRecorded group hgroup).held p hp
  exact ⟨hsource, hrole⟩

theorem takesUp_generation {assignedOnly : Bool} {answers : SourceAddress → ReplayAnswers} {address : SourceAddress}
    {n : Node} (h : (takesUp w log assignedOnly answers address n).isSome = true) :
    address.generation = some w.source.generation := by
  obtain ⟨received, htakes⟩ := Option.isSome_iff_exists.1 h
  unfold takesUp at htakes
  split at htakes
  · cases htakes
  · split at htakes
    · cases htakes
    · split at htakes
      · cases htakes
      · exact (fetchSource_found (Option.join_eq_some_iff.1 htakes)).1

/-- A replay has an incomplete parking on the lane, as far as the process can
know. -/
def Due (w : Worker) (late : Parking → Prop) (session : ConversationId) (address : SourceAddress)
    (lane : List LaneEvent) : Prop :=
  ∃ event ∈ lane, event.kind = .parked ∧ event.session = session ∧ event.parking.role = w.me ∧
    event.parking.source = address ∧ ({ event with kind := .unparked } ∈ lane → late event.parking)

theorem Waiting.due {late : Parking → Prop} {session : ConversationId} {n : Node}
    {group : SourceAddress × List Parking} (h : Waiting w session n group) (hn : Faithful w late n)
    (hgeneration : group.1.generation = some w.source.generation) : Due w late session group.1 n.lane := by
  obtain ⟨p, hp⟩ := List.exists_mem_of_ne_nil _ h.nonempty
  obtain ⟨hsource, hrole, hstream, htopic⟩ := h.held p hp
  obtain ⟨hopen, hevent⟩ := h.incomplete p hp
  refine ⟨_, hevent, rfl, rfl, hrole, hsource, fun hcompleted => ?_⟩
  rw [← hsource] at hgeneration
  have howns : w.owns p = true := by simp [Worker.owns, hrole, hstream, htopic, hgeneration]
  rcases (hn session).seen p howns hcompleted with hhandled | hlate
  · exact absurd hhandled hopen
  · exact hlate

theorem drainReplays_due {late : Parking → Prop} {session : ConversationId} {assignedOnly : Bool}
    {answers : SourceAddress → ReplayAnswers} {groups : List (SourceAddress × List Parking)} {n : Node}
    (hn : Faithful w late n) (hgroups : ∀ group ∈ groups, Waiting w session n group)
    (hnodup : (groups.map (·.1)).Nodup) :
    ∀ r ∈ drainReplays w log session assignedOnly answers groups n, Due w late session r.1 r.2.lane := by
  induction groups generalizing n with
  | nil => exact fun r hr => absurd hr List.not_mem_nil
  | cons group rest ih =>
    have hgroup := hgroups group List.mem_cons_self
    obtain ⟨hfirst, hrest⟩ := List.nodup_cons.1 hnodup
    have hhere : ∀ r ∈ (if (takesUp w log assignedOnly answers group.1 n).isSome then [(group.1, n)] else []),
        Due w late session r.1 r.2.lane := by
      intro r hr
      split at hr
      next htakes =>
        obtain rfl := List.mem_singleton.1 hr
        exact hgroup.due hn (takesUp_generation htakes)
      · cases hr
    unfold drainReplays
    dsimp only
    split
    next n' heq =>
      -- The turn went on: the process knows all its completions, and the
      -- sources after it still wait.
      have hturn := @turn_faithful w log late session assignedOnly answers group n hn fun p hp => (hgroup.held p hp).2.1
      have hwaiting : ∀ other ∈ rest, Waiting w session n' other := by
        intro other hother
        have hne : group.1 ≠ other.1 := fun h => hfirst (List.mem_map.2 ⟨other, hother, h.symm⟩)
        have hkept := @turn_waiting w log session assignedOnly answers group other n hgroup
          (hgroups other (List.mem_cons_of_mem _ hother)) hne
        rwa [heq] at hkept
      rw [heq] at hturn
      intro r hr
      rcases List.mem_append.1 hr with hr | hr
      · exact hhere r hr
      · exact ih (hturn nofun) hwaiting hrest r hr
    · exact hhere

/-! ## The pause check -/

theorem hold_faithful {late : Parking → Prop} (session : ConversationId) (id : MessageId) {rounds : List Round}
    (hlate : ∀ round ∈ rounds, ∀ p, (round.replays p.source).unparked p = .landed → late p) {n : Node}
    (hn : Faithful w late n) : Faithful w late (hold w log session id rounds n).1 ∧
      ((hold w log session id rounds n).2 = some .commit →
        Named w (hold w log session id rounds n).1.lane session (w.address id)) := by
  have hsettled : ∀ {n : Node}, Faithful w late n → some (settled w session id n) = some .commit →
      Named w n.lane session (w.address id) := by
    intro n hn hcommit
    refine (hn session).named_of_knows ?_
    unfold settled at hcommit
    split at hcommit
    next hhandled =>
      unfold RoleState.knows
      rw [hhandled, Bool.or_true]
    · cases hcommit
  refine hold_rule (Faithful w late) (fun n result => Faithful w late n ∧ (result = some .commit →
    Named w n.lane session (w.address id))) (fun n hn => ⟨hn, nofun⟩) (fun n request sent hn => ?_)
    (fun n round hround hn => ?_) (fun n hn => ⟨hn, hsettled hn⟩) hn
  · obtain ⟨hparked, hnamed⟩ := park_faithful hn session id request sent
    refine ⟨hparked, fun hcommit => hnamed ?_⟩
    split at hcommit
    next htrue => exact htrue
    · cases hcommit
  · exact drain_faithful hn session false fun _ => hlate round hround

theorem holdReplays_due {late : Parking → Prop} (session : ConversationId) (rounds : List Round) {n : Node}
    (hn : Faithful w late n) : ∀ r ∈ holdReplays w log session rounds n, Due w late session r.1 r.2.lane := by
  induction rounds generalizing n with
  | nil => exact fun r hr => absurd hr List.not_mem_nil
  | cons round rest ih =>
    have hdrain := @drainReplays_due w log late session false round.replays _ n hn
      (pending_waiting (hn session).toRecorded) (pending_nodup _)
    unfold holdReplays
    dsimp only
    split
    · split
      next n' heq =>
        have hdrained := @drain_faithful w log late n hn session false round.replays
        rw [heq] at hdrained
        intro r hr
        rcases List.mem_append.1 hr with hr | hr
        · exact hdrain r hr
        · exact ih (hdrained nofun) r hr
      · exact hdrain
    · exact fun r hr => absurd hr List.not_mem_nil

theorem reconcile_faithful {late : Parking → Prop} (session : ConversationId) {round : Round}
    (hlate : ∀ p, (round.replays p.source).unparked p = .landed → late p) {n : Node} (hn : Faithful w late n) :
    Faithful w late (reconcile w log session round n) :=
  reconcile_rule (Faithful w late) (fun _ hn => drain_faithful hn session true fun _ => hlate) hn

/-- A live delivery touches the gates, and the rest of the process through the
pause check. -/
theorem deliver_cases (id : MessageId) (received : Received) (a : Answers) (rounds : List Round) (n : Node) :
    -- Turned away at the gates, or no pause runtime.
    (∃ gates, (deliver w log id received a rounds n).1 = withGates n gates) ∨
      n.memory.pausing = true ∧ ∃ session before after, (deliver w log id received a rounds n).1 =
        withGates (hold w log session id rounds (withGates n before)).1 after := by
  unfold deliver
  dsimp only
  split
  · exact .inl ⟨_, rfl⟩
  next message _ =>
    split
    next hpausing =>
      refine .inr ⟨hpausing, message.provenance.conversationId, (enter w n.memory.gates id received a).1, ?_⟩
      split
      next n' heq =>
        rw [heq]
        exact ⟨n'.memory.gates, rfl⟩
      next n' heq =>
        rw [heq]
        exact ⟨n'.memory.gates, rfl⟩
      next n' heq =>
        rw [heq]
        exact ⟨_, rfl⟩
    · exact .inl ⟨_, rfl⟩

/-! ## Recovery -/

theorem mem_scanLane {lane : List LaneEvent} {session : ConversationId} {event : LaneEvent} :
    event ∈ scanLane w lane session 0 ↔ event ∈ lane ∧ event.session = session ∧ event.parking.role = w.me := by
  unfold scanLane
  rw [List.drop_zero, List.mem_filter, List.mem_filter]
  simp [and_assoc]

/-- A read of the whole lane finds the role's events of either kind. -/
theorem mem_scanned {lane : List LaneEvent} {session : ConversationId} {kind : LaneKind} {p : Parking} :
    p ∈ (((scanLane w lane session 0).filter (·.kind = kind)).map (·.parking)).dedup ↔
      p.role = w.me ∧ ⟨session, kind, p⟩ ∈ lane := by
  rw [List.mem_dedup]
  constructor
  · intro hp
    obtain ⟨event, hevent, rfl⟩ := List.mem_map.1 hp
    obtain ⟨hscanned, hkind⟩ := List.mem_filter.1 hevent
    obtain ⟨hlane, rfl, hrole⟩ := mem_scanLane.1 hscanned
    rw [decide_eq_true_eq] at hkind
    rw [← hkind]
    exact ⟨hrole, hlane⟩
  · rintro ⟨hrole, hlane⟩
    exact List.mem_map.2 ⟨_, List.mem_filter.2 ⟨mem_scanLane.2 ⟨hlane, rfl, hrole⟩, by simp⟩, rfl⟩

/-- After it, the process knows of every completion. -/
theorem merge_known {lane : List LaneEvent} {m : Memory}
    (hm : ∀ session, Recorded w lane session (m.roles session)) (late : Parking → Prop) (session : ConversationId) :
    Known w late lane session ((m.merge w lane fun _ => 0).roles session) := by
  unfold Memory.merge RoleState.merge
  dsimp only
  refine ⟨⟨((List.nodup_dedup _).union _).filter _, fun p hp => ?_, fun p hp => ?_⟩, fun p howns hlane => ?_⟩
  · obtain ⟨hunion, hopen⟩ := List.mem_filter.1 hp
    have hnew : p ∉ (m.roles session).handled ∪ handledIn (scanLane w lane session 0) := by simpa using hopen
    rcases List.mem_union_iff.1 hunion with hold | hscanned
    · obtain ⟨hrole, _, hevent⟩ := (hm session).parked p hold
      exact ⟨hrole, hnew, hevent⟩
    · obtain ⟨hrole, hevent⟩ := mem_scanned.1 hscanned
      exact ⟨hrole, hnew, hevent⟩
  · rcases List.mem_union_iff.1 hp with hold | hscanned
    · exact (hm session).handled p hold
    · exact mem_scanned.1 hscanned
  · have hrole : p.role = w.me := by
      simp only [Worker.owns, Bool.and_eq_true, decide_eq_true_eq] at howns
      exact howns.1.1.1
    exact .inl (List.mem_union_iff.2 (.inr (mem_scanned.2 ⟨hrole, hlane⟩)))

theorem fresh_recorded (lane : List LaneEvent) (session : ConversationId) : Recorded w lane session ⟨[], [], []⟩ :=
  ⟨List.nodup_nil, nofun, nofun⟩

/-! ## Whole runs -/

structure Standing (w : Worker) (actions : List Action) (s : State) : Prop where
  recorded : ∀ session, Recorded w s.lane session ((s.members 0).roles session)
  started : (s.members 0).pausing = true → w.agent.isSome = true
  faithful : (s.members 0).pausing = true → Faithful w (LandedUnseen actions) (s.node 0)

theorem landedUnseen_snoc {actions : List Action} {a : Action} (h : a.recovers = false) (p : Parking) :
    LandedUnseen (actions ++ [a]) p ↔ LandedUnseen actions p ∨ a.lands p := by
  unfold LandedUnseen
  rw [List.rtakeWhile_concat_pos _ _ _ (by simp [h])]
  simp [or_and_right, exists_or]

/-- The member's node after it was set. -/
theorem setNode_self (s : State) (n : Node) : (s.setNode 0 n).node 0 = n := by
  simp [State.node, State.setNode, State.setMember]

/-- Another node of the process in its place, as its pause runtime left it. -/
theorem Standing.setNode {actions : List Action} {s : State} (hagent : w.agent.isSome = true) {n : Node}
    (hn : Faithful w (LandedUnseen actions) n) : Standing w actions (s.setNode 0 n) := by
  have hnode := setNode_self s n
  refine ⟨fun session => ?_, fun _ => hagent, fun _ => ?_⟩
  · have hrecorded := (hn session).toRecorded
    rwa [← hnode] at hrecorded
  · rwa [hnode]

/-- Only the gates changed, or what the group shares. -/
theorem Standing.same {actions actions' : List Action} {s s' : State} (h : Standing w actions s)
    (hlane : s'.lane = s.lane) (hroles : (s'.members 0).roles = (s.members 0).roles)
    (hpausing : (s'.members 0).pausing = (s.members 0).pausing)
    (hlate : ∀ p, LandedUnseen actions p → LandedUnseen actions' p) : Standing w actions' s' := by
  refine ⟨fun session => ?_, fun hp => h.started (hpausing ▸ hp), fun hp session => ?_⟩
  · rw [hlane, hroles]
    exact h.recorded session
  · unfold State.node
    dsimp only
    rw [hlane, hroles]
    exact (h.faithful (hpausing ▸ hp) session).weaken hlate

/-- The process read the whole lane, or its pause runtime is not started. -/
theorem standing_setMember {actions : List Action} {s : State} {m : Memory}
    (hm : ∀ session, Recorded w s.lane session (m.roles session)) (hagent : m.pausing = true → w.agent.isSome = true)
    (hknown : m.pausing = true → ∀ session, Known w (LandedUnseen actions) s.lane session (m.roles session)) :
    Standing w actions (s.setMember 0 m) := by
  have hself : (s.setMember 0 m).members 0 = m := by simp [State.setMember]
  refine ⟨fun session => ?_, fun hp => ?_, fun hp session => ?_⟩
  · rw [hself]
    exact hm session
  · rw [hself] at hp
    exact hagent hp
  · unfold State.node
    rw [hself] at hp ⊢
    exact hknown hp session

theorem standing_startPause {actions : List Action} {s : State} {m : Memory}
    (hm : ∀ session, Recorded w s.lane session (m.roles session)) (hagent : m.pausing = true → w.agent.isSome = true) :
    Standing w actions (s.setMember 0 (m.startPause w s.lane fun _ => 0)) := by
  unfold Memory.startPause
  split
  next hsome =>
    have hknown := merge_known hm (LandedUnseen actions)
    exact standing_setMember (fun session => (hknown session).toRecorded) (fun _ => hsome) fun _ => hknown
  next hnone => exact standing_setMember hm hagent fun hp => absurd (hagent hp) hnone

theorem started_roles (s : State) (retained : MessageId → Bool) (session : ConversationId) :
    (Memory.started w log s retained).roles session = ⟨[], [], []⟩ := by
  unfold Memory.started
  dsimp only
  split <;> rfl

theorem started_pausing (s : State) (retained : MessageId → Bool) : (Memory.started w log s retained).pausing = false := by
  unfold Memory.started
  dsimp only
  split <;> rfl

theorem standing_snoc {actions : List Action} {s : State} (h : Standing w actions s) {a : Action} (ha : a.Solo) :
    Standing w (actions ++ [a]) (next w log s a) := by
  have hgrow : a.recovers = false → ∀ p, LandedUnseen actions p → LandedUnseen (actions ++ [a]) p :=
    fun hr p hp => (landedUnseen_snoc hr p).2 (.inl hp)
  have hlands : a.recovers = false → ∀ round ∈ a.rounds, ∀ p, (round.replays p.source).unparked p = .landed →
      LandedUnseen (actions ++ [a]) p :=
    fun hr round hround p hlanded => (landedUnseen_snoc hr p).2 (.inr ⟨round, hround, hlanded⟩)
  cases a with
  | deliver member id a rounds =>
    obtain rfl : member = 0 := ha
    rw [next]
    split
    · exact h.same rfl rfl rfl (hgrow rfl)
    next received _ =>
      have hnode : Standing w (actions ++ [.deliver 0 id a rounds])
          (s.setNode 0 (deliver w log id received a rounds (s.node 0)).1) := by
        obtain ⟨gates, heq⟩ | ⟨hpausing, session, before, after, heq⟩ :=
          @deliver_cases w log id received a rounds (s.node 0)
        · rw [heq]
          refine h.same rfl ?_ ?_ (hgrow rfl)
          · simp [State.setNode, State.setMember, withGates, State.node]
          · simp [State.setNode, State.setMember, withGates, State.node]
        · rw [heq]
          have hbefore : Faithful w (LandedUnseen (actions ++ [.deliver 0 id a rounds])) (withGates (s.node 0) before) :=
            fun session => (h.faithful hpausing session).weaken (hgrow rfl)
          exact .setNode (h.started hpausing) (hold_faithful session id (hlands rfl) hbefore).1
      dsimp only
      split
      · exact hnode.same rfl rfl rfl fun p hp => hp
      · exact hnode
  | reconcile member session round =>
    obtain rfl : member = 0 := ha
    rw [next]
    split
    next hpausing =>
      have hbefore : Faithful w (LandedUnseen (actions ++ [.reconcile 0 session round])) (s.node 0) :=
        fun session => (h.faithful hpausing session).weaken (hgrow rfl)
      exact .setNode (h.started hpausing)
        (reconcile_faithful session (hlands rfl round (List.mem_singleton_self _)) hbefore)
    · exact h.same rfl rfl rfl (hgrow rfl)
  | commit id =>
    rw [next]
    split
    · exact h.same rfl rfl rfl (hgrow rfl)
    · exact h.same rfl rfl rfl (hgrow rfl)
  | reassign member assignment missed =>
    obtain ⟨rfl, rfl⟩ := ha
    rw [next]
    dsimp only
    split
    · exact standing_setMember (fun session => (merge_known h.recorded (fun _ => False) session).toRecorded)
        h.started fun _ => merge_known h.recorded _
    next hidle => exact standing_setMember h.recorded h.started fun hp => absurd hp hidle
  | start member retained control missed =>
    obtain ⟨rfl, rfl⟩ := ha
    have hrecorded : ∀ session, Recorded w s.lane session ((Memory.started w log s retained).roles session) := by
      intro session
      rw [started_roles]
      exact fresh_recorded s.lane session
    have hidle : (Memory.started w log s retained).pausing ≠ true := by
      rw [started_pausing]
      exact Bool.false_ne_true
    rw [next]
    split
    · exact standing_startPause hrecorded fun hp => absurd hp hidle
    · exact standing_setMember hrecorded (fun hp => absurd hp hidle) fun hp => absurd hp hidle
  | startLate member missed =>
    obtain ⟨rfl, rfl⟩ := ha
    exact standing_startPause h.recorded h.started
  | elsewhere event =>
    rw [next]
    split
    · exact h.same rfl rfl rfl (hgrow rfl)
    next hforeign =>
      refine ⟨fun session => ?_, h.started, fun hp session => ?_⟩
      · exact (h.recorded session).mono fun e he => List.mem_append_left _ he
      · refine ((h.faithful hp session).weaken (hgrow rfl)).append fun p howns heq => ?_
        rw [← heq] at hforeign
        exact absurd howns hforeign

theorem init_standing (w : Worker) : Standing w [] (.init w) :=
  ⟨fun session => fresh_recorded _ session, nofun, nofun⟩

theorem run_standing {actions : List Action} {s : State} (hrun : Run (Step w log) (.init w) actions s)
    (hsolo : ∀ a ∈ actions, a.Solo) : Standing w actions s := by
  induction hrun with
  | nil => exact init_standing w
  | snoc _ hstep ih =>
    have hlast := hsolo _ (List.mem_append_right _ (List.mem_singleton_self _))
    rw [← hstep]
    exact standing_snoc (ih fun a ha => hsolo a (List.mem_append_left _ ha)) hlast

theorem replays_due {actions : List Action} {s : State} (h : Standing w actions s) {a : Action} (ha : a.Solo) :
    ∀ r ∈ replays w log s a, Due w (LandedUnseen actions) r.session r.address r.lane := by
  intro r hr
  cases a with
  | deliver member id a rounds =>
    obtain rfl : member = 0 := ha
    rw [replays] at hr
    split at hr
    · cases hr
    · split at hr
      · cases hr
      next gates message _ =>
        dsimp only at hr
        split at hr
        next hpausing =>
          obtain ⟨replayed, hmem, rfl⟩ := List.mem_map.1 hr
          have hbefore : Faithful w (LandedUnseen actions) (withGates (s.node 0) gates) := h.faithful hpausing
          exact holdReplays_due _ rounds hbefore replayed hmem
        · cases hr
  | reconcile member session round =>
    obtain rfl : member = 0 := ha
    rw [replays] at hr
    split at hr
    next hdrains =>
      obtain ⟨hpausing, _⟩ := Bool.and_eq_true_iff.1 hdrains
      obtain ⟨replayed, hmem, rfl⟩ := List.mem_map.1 hr
      have hnode := h.faithful hpausing
      exact drainReplays_due hnode (pending_waiting (hnode session).toRecorded) (pending_nodup _) replayed hmem
    · cases hr
  | commit _ | reassign _ _ _ | start _ _ _ _ | startLate _ _ | elsewhere _ => cases hr

/-- In every run of one runtime, a record the pause check commits is named by
an event of its lane, and a source is replayed only while some parking of it
has no completion on the lane, but for one that landed though its publish
returned an error, until the next recovery read. -/
theorem parked_until_completed {actions : List Action} {s : State} (hrun : Run (Step w log) (.init w) actions s)
    (hsolo : ∀ a ∈ actions, a.Solo) :
    (∀ gates session id rounds n, (s.members 0).pausing = true →
      hold w log session id rounds (withGates (s.node 0) gates) = (n, some .commit) →
        ∃ event ∈ n.lane, event.session = session ∧ event.parking.role = w.me ∧ event.parking.source = w.address id) ∧
    ∀ a : Action, a.Solo → ∀ r ∈ replays w log s a, ∃ event ∈ r.lane, event.kind = .parked ∧
      event.session = r.session ∧ event.parking.role = w.me ∧ event.parking.source = r.address ∧
        ({ event with kind := .unparked } ∈ r.lane →
          ∃ earlier ∈ actions.rtakeWhile (!·.recovers), earlier.lands event.parking) := by
  have hstanding := run_standing hrun hsolo
  refine ⟨fun gates session id rounds n hpausing hcommit => ?_, fun a ha r hr => replays_due hstanding ha r hr⟩
  have hbefore : Faithful w (fun _ => True) (withGates (s.node 0) gates) :=
    fun session => (hstanding.faithful hpausing session).weaken fun _ _ => trivial
  have hheld := (@hold_faithful w log _ session id rounds (fun _ _ _ _ => trivial) _ hbefore).2
  rw [hcommit] at hheld
  exact hheld rfl

theorem parkCharge_solo : ∀ a ∈ parkCharge, a.Solo := by
  intro a ha
  simp only [parkCharge, launch, List.mem_cons, List.not_mem_nil, or_false] at ha
  rcases ha with rfl | rfl | rfl
  · exact ⟨rfl, rfl⟩
  · rfl
  · trivial

/-- The charge is delivered again while its session is paused: it is committed
and its parking is on the lane. After the resume it is replayed, with that
parking incomplete. -/
theorem charge_parked_until_completed : ∃ s, Run (Step plain chargeLog) (.init plain) parkCharge s ∧
    (∃ n, hold plain chargeLog 7 chargeId [paused] (withGates (s.node 0) (.new plain)) = (n, some .commit) ∧
      ∃ event ∈ n.lane, event.session = 7 ∧ event.parking.role = plain.me ∧
        event.parking.source = plain.address chargeId) ∧
    ∃ r ∈ replays plain chargeLog s resumeCharge, r.address = plain.address chargeId ∧ ∃ event ∈ r.lane,
      event.kind = .parked ∧ event.parking.source = r.address ∧ { event with kind := .unparked } ∉ r.lane := by
  obtain ⟨hcommit, hreplay⟩ := parked_until_completed (run_after plain parkCharge) parkCharge_solo
  refine ⟨_, run_after plain parkCharge, ⟨_, rfl, hcommit _ 7 chargeId [paused] _ rfl rfl⟩, ?_⟩
  refine ⟨_, List.mem_singleton_self _, rfl, ?_⟩
  obtain ⟨event, hevent, hkind, _, _, hsource, hlate⟩ := hreplay resumeCharge rfl _ (List.mem_singleton_self _)
  refine ⟨event, hevent, hkind, hsource, fun hcompleted => ?_⟩
  obtain ⟨earlier, hmem, round, hround, hlanded⟩ := hlate hcompleted
  have hearlier := (List.rtakeWhile_suffix _ _).subset hmem
  simp only [parkCharge, launch, List.mem_cons, List.not_mem_nil, or_false] at hearlier
  rcases hearlier with rfl | rfl | rfl
  · cases hround
  · cases List.mem_singleton.1 hround
    cases hlanded
  · cases hround

/-- A resumed round whose completions land though their publish fails. -/
def unconfirmed : Round :=
  { resumed with replays := fun _ => ⟨some ⟨none, false⟩, some true, calmAnswers, fun _ => .landed⟩ }

/-- The completion of the charge landed and its publish returned an error: the
next round replays the charge, and its only parking has a completion. -/
theorem charge_replayed_after_completion :
    ∃ s, Run (Step plain chargeLog) (.init plain) (parkCharge ++ [.reconcile 0 7 unconfirmed]) s ∧
      (∀ a ∈ parkCharge ++ [.reconcile 0 7 unconfirmed], a.Solo) ∧
      ∃ r ∈ replays plain chargeLog s resumeCharge, r.session = 7 ∧ r.address = plain.address chargeId ∧
        ∀ event ∈ r.lane, event.kind = .parked → { event with kind := .unparked } ∈ r.lane := by
  refine ⟨_, run_after plain _, fun a ha => ?_, _, List.mem_singleton_self _, rfl, rfl, by decide⟩
  rcases List.mem_append.1 ha with hold | hnew
  · exact parkCharge_solo a hold
  · cases List.mem_singleton.1 hnew
    rfl

end LaserSdk.Agent

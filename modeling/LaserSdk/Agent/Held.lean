import LaserSdk.Agent.Marks
/-!
# Held work is settled

In every run of a role's processes, through any order of pauses, resumes,
rebalances and restarts, what stands parked on the lane or in a memory is
work of the topic. So the record a completion reports was handled,
dead-lettered or dropped because of another record, unless the gates turned
its replay away for a mark of its own. Such marks are left by the live
delivery that parked it, under a verifier, by the warm-up of a restarted
process that reads past it, and by an earlier replay.
-/

namespace LaserSdk.Agent

open Lib

variable {w : Worker} {log : Log}

/-- A parking of the role names work of the topic. -/
def Backed (w : Worker) (log : Log) (p : Parking) : Prop :=
  w.owns p = true → ∃ message, log p.source.id = some (.decoded message) ∧ Workable w message

structure SoundMemory (w : Worker) (log : Log) (m : Memory) : Prop where
  gates : Marked log m.gates
  parked : ∀ session, ∀ p ∈ (m.roles session).parked, p.role = w.me ∧ Backed w log p

/-- The report tells how the replay of its record ended, and the record is
settled exactly when no mark of its own turned it away. -/
def Judged (w : Worker) (log : Log) (r : Report) : Prop :=
  ∃ message, log r.parking.source.id = some (.decoded message) ∧
    (replay w r.before r.parking.source.id (.decoded message) r.answers).2 = some r.outcome ∧
    (Settles log r.before r.parking.source.id message r.outcome ↔
      turnedAway w r.before r.parking.source.id message r.answers = false)

structure Sound (w : Worker) (log : Log) (n : Node) : Prop where
  memory : SoundMemory w log n.memory
  lane : ∀ event ∈ n.lane, Backed w log event.parking
  reports : ∀ r ∈ n.reports, Judged w log r

/-! ## One turn of a drain -/

theorem drainFrom_cons (session : ConversationId) (assignedOnly : Bool) (answers : SourceAddress → ReplayAnswers)
    (group : SourceAddress × List Parking) (rest : List (SourceAddress × List Parking)) (n : Node) :
    drainFrom w log session assignedOnly answers (group :: rest) n =
      match drainFrom w log session assignedOnly answers [group] n with
      | (n, some .all) => drainFrom w log session assignedOnly answers rest n
      | stopped => stopped := by
  obtain ⟨address, held⟩ := group
  simp only [drainFrom]
  repeat' split
  all_goals first | rfl | simp_all

/-- What one turn does to the process: nothing, it gives the source up, or it
reads the record back and replays it. The replay fails, or completions follow
it. -/
theorem turn_cases (session : ConversationId) (assignedOnly : Bool) (answers : SourceAddress → ReplayAnswers)
    (group : SourceAddress × List Parking) (n : Node) :
    let turn := drainFrom w log session assignedOnly answers [group] n
    -- Nothing, or the source is gone.
    turn.1 = n ∨ turn.1 = n.abandon session group.2 ∨
      -- A replay, that fails or is completed.
      ∃ received, fetchSource w log group.1 (answers group.1).fetched = some (some received) ∧
        let replayed := replay w n.memory.gates group.1.id received (answers group.1).delivery
        (replayed.2 = none ∧ turn.1 = withGates n replayed.1 ∨ ∃ outcome, replayed.2 = some outcome ∧
          let completed := complete session (⟨session, ·, n.memory.gates, (answers group.1).delivery, outcome⟩)
            (answers group.1).unparked group.2 (withGates n replayed.1)
          turn.1 = completed.1 ∧ (completed.2 = false → turn.2 = none)) := by
  obtain ⟨address, held⟩ := group
  simp only [drainFrom]
  split
  · exact .inl rfl
  · split
    · exact .inl rfl
    · split
      · exact .inl rfl
      · split
        · exact .inl rfl
        · exact .inr (.inl rfl)
        next received hfetched =>
          refine .inr (.inr ⟨received, hfetched, ?_⟩)
          split
          next hnone => exact .inl ⟨hnone, rfl⟩
          next outcome hsome =>
            refine .inr ⟨outcome, hsome, ?_⟩
            unfold withGates
            split
            next n' heq => simp [heq]
            next n' heq => simp [heq]

/-! ## Rules for the pause check -/

/-- The pause check ends with an error, parks the record or finds it settled.
Drains come before, and keep the invariant `I`. -/
theorem hold_rule {session : ConversationId} {id : MessageId} {rounds : List Round} (I : Node → Prop)
    (Q : Node → Option Hold → Prop) (hnone : ∀ n, I n → Q n none)
    (hpark : ∀ n request sent, I n →
      Q (park w session id request sent n).1 (if (park w session id request sent n).2 then some .commit else none))
    (hdrain : ∀ n, ∀ round ∈ rounds, I n → I (drain w log session false round.replays n).1)
    (hsettled : ∀ n, I n → Q n (some (settled w session id n))) {n : Node} (hn : I n) :
    Q (hold w log session id rounds n).1 (hold w log session id rounds n).2 := by
  induction rounds generalizing n with
  | nil => exact hnone n hn
  | cons round rest ih =>
    unfold hold
    split
    · exact hnone n hn
    · split
      · exact hnone n hn
      · split
        next request _ =>
          have hparked := hpark n request round.parked hn
          split
          next n' heq =>
            rw [heq] at hparked
            exact hparked
          next n' heq =>
            rw [heq] at hparked
            exact hparked
        · split
          · have hdrained := hdrain n round List.mem_cons_self hn
            split
            next n' heq =>
              rw [heq] at hdrained
              exact hnone n' hdrained
            next n' heq =>
              rw [heq] at hdrained
              exact ih (fun n round hround => hdrain n round (List.mem_cons_of_mem _ hround)) hdrained
            next n' heq =>
              rw [heq] at hdrained
              exact hsettled n' hdrained
          · exact hsettled n hn

theorem reconcile_rule {session : ConversationId} {round : Round} (I : Node → Prop)
    (hdrain : ∀ n, I n → I (drain w log session true round.replays n).1) {n : Node} (hn : I n) :
    I (reconcile w log session round n) := by
  unfold reconcile
  split
  · exact hn
  · split
    · exact hn
    · split
      · exact hdrain n hn
      · exact hn

/-! ## One process -/

theorem SoundMemory.setRole {m : Memory} (hm : SoundMemory w log m) (session : ConversationId) {role : RoleState}
    (hrole : ∀ p ∈ role.parked, p.role = w.me ∧ Backed w log p) : SoundMemory w log (m.setRole session role) := by
  refine ⟨hm.gates, fun other p hmem => ?_⟩
  unfold Memory.setRole at hmem
  dsimp only at hmem
  by_cases hsession : other = session
  · subst hsession
    rw [Function.update_self] at hmem
    exact hrole p hmem
  · rw [Function.update_of_ne hsession] at hmem
    exact hm.parked other p hmem

theorem SoundMemory.withGates {m : Memory} (hm : SoundMemory w log m) {gates : Gates} (hg : Marked log gates) :
    SoundMemory w log { m with gates } := ⟨hg, hm.parked⟩

theorem Sound.append {n : Node} (hn : Sound w log n) (session : ConversationId) (kind : LaneKind) {p : Parking}
    (hp : Backed w log p) : Sound w log (n.append session kind p) := by
  refine ⟨hn.memory, fun event hmem => ?_, hn.reports⟩
  rcases List.mem_append.1 hmem with hold | hnew
  · exact hn.lane event hold
  · cases List.mem_singleton.1 hnew
    exact hp

theorem park_sound {n : Node} (hn : Sound w log n) {id : MessageId} {message : AgentMessage}
    (hlog : log id = some (.decoded message)) (hwork : Workable w message) (session : ConversationId)
    (request : ControlPosition) (sent : Sent) : Sound w log (park w session id request sent n).1 := by
  have hbacked : Backed w log ⟨w.address id, w.me, request⟩ := fun _ => ⟨message, hlog, hwork⟩
  unfold park
  dsimp only
  split
  · exact hn
  · cases sent with
    | lost => exact hn
    | landed => exact hn.append session .parked hbacked
    | confirmed =>
      have happended := hn.append session .parked hbacked
      refine ⟨happended.memory.setRole session fun p hmem => ?_, happended.lane, happended.reports⟩
      rcases List.mem_insert_iff.1 hmem with rfl | hold
      · exact ⟨rfl, hbacked⟩
      · exact hn.memory.parked session p hold

/-- Completions report what they are given and leave fewer parkings. -/
theorem complete_sound {session : ConversationId} {report : Parking → Report} {sent : Parking → Sent}
    {held : List Parking} (hheld : ∀ p ∈ held, Backed w log p ∧ Judged w log (report p)) {n : Node}
    (hn : Sound w log n) : Sound w log (complete session report sent held n).1 := by
  induction held generalizing n with
  | nil => exact hn
  | cons p rest ih =>
    obtain ⟨hbacked, hjudged⟩ := hheld p List.mem_cons_self
    have happended := hn.append session .unparked hbacked
    have hreported : Sound w log { n.append session .unparked p with reports := n.reports ++ [report p] } := by
      refine ⟨happended.memory, happended.lane, fun r hmem => ?_⟩
      rcases List.mem_append.1 hmem with hold | hnew
      · exact hn.reports r hold
      · cases List.mem_singleton.1 hnew
        exact hjudged
    unfold complete
    dsimp only
    cases sent p with
    | lost => exact hn
    | landed => exact hreported
    | confirmed =>
      apply ih fun q hq => hheld q (List.mem_cons_of_mem _ hq)
      refine ⟨hn.memory.setRole session fun q hq => ?_, hreported.lane, hreported.reports⟩
      exact hn.memory.parked session q (List.mem_of_mem_erase hq)

/-- The held records a drain takes up: of the role, from its own topic, each
with the address it is grouped under. -/
def Held (w : Worker) (log : Log) (address : SourceAddress) (p : Parking) : Prop :=
  p.source = address ∧ p.role = w.me ∧ p.source.stream = w.source.streamId ∧ p.source.topic = w.source.topicId ∧
    Backed w log p

theorem pending_held {m : Memory} (hm : SoundMemory w log m) (session : ConversationId) :
    ∀ group ∈ w.pending (m.roles session), ∀ p ∈ group.2, Held w log group.1 p := by
  intro group hgroup p hp
  unfold Worker.pending at hgroup
  obtain ⟨address, _, rfl⟩ := List.mem_map.1 hgroup
  obtain ⟨hheld, hsource⟩ := List.mem_filter.1 hp
  unfold Worker.held at hheld
  rw [List.mem_insertionSort] at hheld
  obtain ⟨hparked, htopic⟩ := List.mem_filter.1 hheld
  simp only [Bool.and_eq_true, decide_eq_true_eq] at htopic hsource
  obtain ⟨hrole, hbacked⟩ := hm.parked session p hparked
  exact ⟨hsource, hrole, htopic.1.1, htopic.1.2, hbacked⟩

theorem fetchSource_found {address : SourceAddress} {fetched : Option Bool} {received : Received}
    (h : fetchSource w log address fetched = some (some received)) :
    address.generation = some w.source.generation ∧ log address.id = some received := by
  unfold fetchSource at h
  split at h
  · cases h
  next hgeneration =>
    refine ⟨not_not.1 hgeneration, ?_⟩
    cases fetched with
    | none => cases h
    | some found =>
      cases found with
      | false => cases h
      | true => exact Option.some.inj h

/-- The replay of a record that is read back is judged for each of its
parkings. -/
theorem replay_judged {session : ConversationId} {address : SourceAddress} {p : Parking} (hp : Held w log address p)
    {received : Received} (hgeneration : address.generation = some w.source.generation)
    (hlog : log address.id = some received) {before : Gates} (hg : Marked log before) {a : Answers} {outcome : Outcome}
    (h : (replay w before address.id received a).2 = some outcome) :
    Judged w log ⟨session, p, before, a, outcome⟩ := by
  obtain ⟨rfl, hrole, hstream, htopic, hbacked⟩ := hp
  obtain ⟨message, hmessage, hwork⟩ := hbacked (by simp [Worker.owns, hrole, hstream, htopic, hgeneration])
  rw [hlog] at hmessage
  cases hmessage
  exact ⟨message, hlog, h, replay_settles_iff hg hlog hwork h⟩

theorem turn_sound {session : ConversationId} {assignedOnly : Bool} {answers : SourceAddress → ReplayAnswers}
    {group : SourceAddress × List Parking} (hheld : ∀ p ∈ group.2, Held w log group.1 p) {n : Node} (hn : Sound w log n) :
    Sound w log (drainFrom w log session assignedOnly answers [group] n).1 := by
  rcases @turn_cases w log session assignedOnly answers group n with heq | heq | ⟨received, hfetched, hreplay⟩
  · rwa [heq]
  · -- The source is gone: its parkings stay listed as held.
    rw [heq]
    exact ⟨hn.memory.setRole session (hn.memory.parked session), hn.lane, hn.reports⟩
  · obtain ⟨hgeneration, hlog⟩ := fetchSource_found hfetched
    have hnode : Sound w log (withGates n (replay w n.memory.gates group.1.id received (answers group.1).delivery).1) :=
      ⟨hn.memory.withGates (replay_marked hn.memory.gates hlog), hn.lane, hn.reports⟩
    rcases hreplay with ⟨_, heq⟩ | ⟨outcome, hresult, heq, _⟩
    · rwa [heq]
    · rw [heq]
      refine complete_sound (fun p hp => ?_) hnode
      obtain ⟨_, _, _, _, hbacked⟩ := hheld p hp
      exact ⟨hbacked, replay_judged (hheld p hp) hgeneration hlog hn.memory.gates hresult⟩

theorem drainFrom_sound {session : ConversationId} {assignedOnly : Bool} {answers : SourceAddress → ReplayAnswers}
    {groups : List (SourceAddress × List Parking)} (hgroups : ∀ group ∈ groups, ∀ p ∈ group.2, Held w log group.1 p)
    {n : Node} (hn : Sound w log n) : Sound w log (drainFrom w log session assignedOnly answers groups n).1 := by
  induction groups generalizing n with
  | nil => exact hn
  | cons group rest ih =>
    have hturn := @turn_sound w log session assignedOnly answers group (hgroups group List.mem_cons_self) n hn
    rw [drainFrom_cons]
    split
    next n' heq =>
      rw [heq] at hturn
      exact ih (fun group hgroup => hgroups group (List.mem_cons_of_mem _ hgroup)) hturn
    · exact hturn

theorem drain_sound {n : Node} (hn : Sound w log n) (session : ConversationId) (assignedOnly : Bool)
    (answers : SourceAddress → ReplayAnswers) : Sound w log (drain w log session assignedOnly answers n).1 :=
  drainFrom_sound (pending_held hn.memory session) hn

theorem hold_sound {id : MessageId} {message : AgentMessage} (hlog : log id = some (.decoded message))
    (hwork : Workable w message) (session : ConversationId) (rounds : List Round) {n : Node} (hn : Sound w log n) :
    Sound w log (hold w log session id rounds n).1 :=
  hold_rule (Sound w log) (fun n _ => Sound w log n) (fun _ hn => hn)
    (fun _ request sent hn => park_sound hn hlog hwork session request sent)
    (fun _ round _ hn => drain_sound hn session false round.replays) (fun _ hn => hn) hn

theorem reconcile_sound {n : Node} (hn : Sound w log n) (session : ConversationId) (round : Round) :
    Sound w log (reconcile w log session round n) :=
  reconcile_rule (Sound w log) (fun _ hn => drain_sound hn session true round.replays) hn

theorem node_work_sound {n : Node} (hn : Sound w log n) {id : MessageId} {message : AgentMessage}
    (hlog : log id = some (.decoded message)) (a : Answers) : Sound w log (n.work w id message a).1 :=
  ⟨hn.memory.withGates (work_marked hn.memory.gates hlog), hn.lane, hn.reports⟩

theorem deliver_sound {n : Node} (hn : Sound w log n) {id : MessageId} {received : Received}
    (hlog : log id = some received) (a : Answers) (rounds : List Round) :
    Sound w log (deliver w log id received a rounds n).1 := by
  have hentered : Sound w log (withGates n (enter w n.memory.gates id received a).1) :=
    ⟨hn.memory.withGates (enter_marked hn.memory.gates), hn.lane, hn.reports⟩
  unfold deliver
  dsimp only
  split
  · exact hentered
  next message hpasses =>
    obtain ⟨rfl, hwork⟩ := enter_passes hpasses
    split
    · have hheld := hold_sound hlog hwork message.provenance.conversationId rounds hentered
      split
      next n' heq => rwa [heq] at hheld
      next n' heq => rwa [heq] at hheld
      next n' heq =>
        rw [heq] at hheld
        exact node_work_sound hheld hlog a
    · exact node_work_sound hentered hlog a

/-! ## All processes -/

theorem merge_sound {m : Memory} (hm : SoundMemory w log m) {lane : List LaneEvent}
    (hlane : ∀ event ∈ lane, Backed w log event.parking) (missed : ConversationId → Nat) :
    SoundMemory w log (m.merge w lane missed) := by
  refine ⟨hm.gates, fun session p hmem => ?_⟩
  unfold Memory.merge RoleState.merge at hmem
  obtain ⟨hunion, _⟩ := List.mem_filter.1 hmem
  rcases List.mem_union_iff.1 hunion with hold | hscanned
  · exact hm.parked session p hold
  · obtain ⟨event, hevent, rfl⟩ := List.mem_map.1 (List.mem_dedup.1 hscanned)
    obtain ⟨hread, hrole⟩ := List.mem_filter.1 (List.mem_filter.1 hevent).1
    have hmem : event ∈ lane := (List.mem_filter.1 (List.mem_of_mem_drop hread)).1
    exact ⟨by simpa using hrole, hlane event hmem⟩

theorem startPause_sound {m : Memory} (hm : SoundMemory w log m) {lane : List LaneEvent}
    (hlane : ∀ event ∈ lane, Backed w log event.parking) (missed : ConversationId → Nat) :
    SoundMemory w log (m.startPause w lane missed) := by
  have hmerged := merge_sound hm hlane missed
  unfold Memory.startPause
  split
  · exact ⟨hmerged.gates, hmerged.parked⟩
  · exact hm

theorem fresh_sound (w : Worker) (log : Log) : SoundMemory w log (.fresh w) :=
  ⟨marked_new w log, fun session p hmem => by cases hmem⟩

theorem started_sound (s : State) (retained : MessageId → Bool) : SoundMemory w log (.started w log s retained) := by
  have hfresh := fresh_sound w log
  unfold Memory.started
  dsimp only
  split
  · refine ⟨warmDedupWindow_marked (fun id received hread => ?_) s.stored hfresh.gates, hfresh.parked⟩
    split at hread
    · exact hread
    · cases hread
  · exact hfresh

structure SoundState (w : Worker) (log : Log) (s : State) : Prop where
  members : ∀ member, SoundMemory w log (s.members member)
  lane : ∀ event ∈ s.lane, Backed w log event.parking
  reports : ∀ r ∈ s.reports, Judged w log r

theorem SoundState.node {s : State} (hs : SoundState w log s) (member : Nat) : Sound w log (s.node member) :=
  ⟨hs.members member, hs.lane, hs.reports⟩

theorem SoundState.setMember {s : State} (hs : SoundState w log s) (member : Nat) {m : Memory}
    (hm : SoundMemory w log m) : SoundState w log (s.setMember member m) := by
  refine ⟨fun other => ?_, hs.lane, hs.reports⟩
  unfold State.setMember
  dsimp only
  by_cases hother : other = member
  · rwa [hother, Function.update_self]
  · rw [Function.update_of_ne hother]
    exact hs.members other

theorem SoundState.setNode {s : State} (hs : SoundState w log s) (member : Nat) {n : Node} (hn : Sound w log n) :
    SoundState w log (s.setNode member n) :=
  ⟨(hs.setMember member hn.memory).members, hn.lane, hn.reports⟩

theorem next_sound {s : State} (hs : SoundState w log s) (a : Action) : SoundState w log (next w log s a) := by
  cases a with
  | deliver member id a rounds =>
    rw [next]
    split
    · exact hs
    next received hlog =>
      have hdelivered := hs.setNode member (deliver_sound (hs.node member) hlog a rounds)
      dsimp only
      split
      · exact ⟨hdelivered.members, hdelivered.lane, hdelivered.reports⟩
      · exact hdelivered
  | reconcile member session round =>
    rw [next]
    split
    · exact hs.setNode member (reconcile_sound (hs.node member) session round)
    · exact hs
  | commit id =>
    rw [next]
    split
    · exact ⟨hs.members, hs.lane, hs.reports⟩
    · exact hs
  | reassign member assignment missed =>
    have hassigned : SoundMemory w log { s.members member with assignment } :=
      ⟨(hs.members member).gates, (hs.members member).parked⟩
    rw [next]
    apply hs.setMember
    split
    · exact merge_sound hassigned hs.lane missed
    · exact hassigned
  | start member retained control missed =>
    rw [next]
    apply hs.setMember
    split
    · exact startPause_sound (started_sound s retained) hs.lane missed
    · exact started_sound s retained
  | startLate member missed => exact hs.setMember member (startPause_sound (hs.members member) hs.lane missed)
  | elsewhere event =>
    rw [next]
    split
    · exact hs
    next hforeign =>
      refine ⟨hs.members, fun e hmem => ?_, hs.reports⟩
      rcases List.mem_append.1 hmem with hold | hnew
      · exact hs.lane e hold
      · cases List.mem_singleton.1 hnew
        exact fun howns => absurd howns hforeign

theorem init_sound (w : Worker) (log : Log) : SoundState w log (.init w) :=
  ⟨fun _ => fresh_sound w log, fun event hmem => (by cases hmem), fun r hmem => (by cases hmem)⟩

/-- In every run, the replay behind a completion settled its record exactly
when no mark of the record's own turned it away. -/
theorem held_settles_iff {actions : List Action} {s : State} (hrun : Run (Step w log) (.init w) actions s) :
    ∀ r ∈ s.reports, ∃ message, log r.parking.source.id = some (.decoded message) ∧
      (replay w r.before r.parking.source.id (.decoded message) r.answers).2 = some r.outcome ∧
      (Settles log r.before r.parking.source.id message r.outcome ↔
        turnedAway w r.before r.parking.source.id message r.answers = false) := by
  have hsound : SoundState w log s := by
    refine hrun.inv (SoundState w log) (init_sound w log) fun s a s' hs hstep => ?_
    rw [← hstep]
    exact next_sound hs a
  exact hsound.reports

/-! ## A held charge -/

/-- A worker of the role `billing` that takes every command on one topic. -/
def billing (verifier : Option (MessageId → Bool)) (warmDedup : Bool) : Worker where
  agent := some "billing"
  topic := "agent.commands"
  operations := none
  verifier
  warmDedup
  dedupWindow := 8
  maxAttempts := 3
  partitions := 1
  source := ⟨1, 2, 3⟩

def chargeId : MessageId := ⟨0, 0⟩

def charge : AgentMessage where
  provenance := ⟨7, none, none, some "billing", none, some "order-7", some "c-1", none⟩
  envelope := some ⟨.command, some "charge", some "billing", some "r-1"⟩

def chargeLog : Log := fun id => if id = chargeId then some (.decoded charge) else none

/-- Every publish is confirmed and the handler succeeds at once. -/
def calmAnswers : Answers := ⟨true, true, 10, 10, true, fun _ => .handled⟩

def resumed : Round where
  control := some ⟨none, false⟩
  acknowledged := true
  parked := .confirmed
  replays := fun _ => ⟨some ⟨none, false⟩, some true, calmAnswers, fun _ => .confirmed⟩

def paused : Round := { resumed with control := some ⟨some (0, 4), false⟩ }

def launch : Action := .start 0 (fun _ => true) true fun _ => 0

/-- The charge arrives while its session is paused, and is committed. -/
def parkCharge : List Action := [launch, .deliver 0 chargeId calmAnswers [paused], .commit chargeId]

def resumeCharge : Action := .reconcile 0 7 resumed

def plain : Worker := billing none false

def signed : Worker := billing (some fun _ => true) false

def warmed : Worker := billing none true

/-- The state after actions, with the charge as the only record. -/
def after (w : Worker) (actions : List Action) : State := actions.foldl (next w chargeLog) (.init w)

theorem run_after (w : Worker) (actions : List Action) : Run (Step w chargeLog) (.init w) actions (after w actions) :=
  Run.foldl (next w chargeLog) actions

/-- Without a verifier and without a warm-up nothing marks the held charge,
and the resume handles it. -/
theorem held_charge_settles : ∃ s, Run (Step plain chargeLog) (.init plain) (parkCharge ++ [resumeCharge]) s ∧
    ∃ r ∈ s.reports, r.outcome = .handled ∧ ∃ message, chargeLog r.parking.source.id = some (.decoded message) ∧
      Settles chargeLog r.before r.parking.source.id message r.outcome := by
  refine ⟨_, run_after plain _, _, List.mem_singleton_self _, rfl, ?_⟩
  obtain ⟨message, hlog, _, hiff⟩ :=
    held_settles_iff (run_after plain (parkCharge ++ [resumeCharge])) _ (List.mem_singleton_self _)
  cases hlog
  exact ⟨charge, rfl, hiff.2 (by decide)⟩

/-- A charge that was parked and committed is reported handled though the
handler never saw it: under a verifier its own live delivery marked its
record id, and after a restart the warm-up marked its key. -/
theorem held_charge_drops_itself :
    (∃ s, Run (Step signed chargeLog) (.init signed) (parkCharge ++ [resumeCharge]) s ∧
      ∃ r ∈ s.reports, ⟨7, .parked, r.parking⟩ ∈ s.lane ∧ r.parking.source.id = chargeId ∧
        ¬ Settles chargeLog r.before chargeId charge r.outcome) ∧
    ∃ s, Run (Step warmed chargeLog) (.init warmed) (parkCharge ++ [launch, resumeCharge]) s ∧
      ∃ r ∈ s.reports, ⟨7, .parked, r.parking⟩ ∈ s.lane ∧ r.parking.source.id = chargeId ∧
        ¬ Settles chargeLog r.before chargeId charge r.outcome := by
  constructor
  · refine ⟨_, run_after signed _, _, List.mem_singleton_self _, by decide, rfl, ?_⟩
    exact fun h => h
  · refine ⟨_, run_after warmed _, _, List.mem_singleton_self _, by decide, rfl, ?_⟩
    intro h
    exact absurd (ownKey_of_settles h) (by decide)

end LaserSdk.Agent

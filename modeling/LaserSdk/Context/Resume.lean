import Mathlib.Data.Countable.Basic
import Mathlib.Logic.Equiv.List
import LaserSdk.Context.Reads
import LaserSdk.Context.Snapshot
/-!
# Resuming equals folding everything

Going on from a snapshot folds what lies below its checkpoint and then what
lies past it, and a full fold takes all of it in the order of the timestamps.
The two agree for every fold exactly when no record past the checkpoint sorts
before one below it. A checkpoint is a vector of tails read one after another,
so writers can make it otherwise.
-/

namespace LaserSdk.Context

open Lib Poll

variable {conversation : Nat} {topics : List String} {checkpoint resumed : Checkpoint} {stream before after : Stream}

/-! ## Resuming -/

theorem load_full {S : Type} (schedule : Schedule) (init : S) (fold : S → ContextMessage → S) :
    load stream conversation topics schedule .full init fold =
      (inOrder topics.eraseDups ((fullAssembler conversation topics).collected stream .whole schedule)).foldl fold init := by
  rw [load, history, readOnce_whole rfl]
  rfl

theorem load_at {S : Type} (schedule : Schedule) (init : S) (fold : S → ContextMessage → S) :
    load stream conversation topics schedule (.at checkpoint) init fold =
      (inOrder topics.eraseDups ((belowAssembler conversation topics checkpoint).collected stream .whole schedule)).foldl fold init := by
  rw [load, history, readOnce_whole rfl]
  rfl

theorem load_fromCheckpoint {S : Type} (schedule : Schedule) (init : S) (fold : S → ContextMessage → S) :
    load stream conversation topics schedule (.fromCheckpoint checkpoint) init fold =
      (inOrder topics.eraseDups ((pastAssembler conversation topics checkpoint).collected stream .whole schedule)).foldl fold init := by
  rw [load, history, readOnce_whole rfl]
  rfl

/-- No message past the checkpoint sorts before one below it. -/
def Checkpoint.Cuts (checkpoint : Checkpoint) (topics : List String) (messages : List ContextMessage) : Prop :=
  ∀ below ∈ messages, ∀ past ∈ messages, below.offset < checkpoint.next below.topic below.partitionId →
    checkpoint.next past.topic past.partitionId ≤ past.offset → below.fields topics ≤ past.fields topics

instance (checkpoint : Checkpoint) (topics : List String) (messages : List ContextMessage) :
    Decidable (checkpoint.Cuts topics messages) :=
  inferInstanceAs (Decidable (∀ below ∈ messages, ∀ past ∈ messages, below.offset < checkpoint.next below.topic below.partitionId →
    checkpoint.next past.topic past.partitionId ≤ past.offset → below.fields topics ≤ past.fields topics))

theorem mem_full (schedule other : Schedule) {message : ContextMessage} :
    message ∈ history stream conversation topics schedule .full ↔
      message ∈ (fullAssembler conversation topics).collected stream .whole other := by
  rw [history, readOnce_whole rfl, inOrder, mem_sortByKey, mem_collected]
  exact mem_collected.symm

theorem mem_below (a b : Schedule) {message : ContextMessage} :
    message ∈ (belowAssembler conversation topics checkpoint).collected stream .whole a ↔
      message ∈ (fullAssembler conversation topics).collected stream .whole b ∧
        message.offset < checkpoint.next message.topic message.partitionId := by
  rw [mem_collected, mem_collected]
  constructor
  · rintro ⟨hname, topic, record, htopic, hpartition, hrecord, -, hlimit, hdecoded⟩
    have hlt : message.offset < (topic.log message.partitionId).length := (List.getElem?_eq_some_iff.1 hrecord).1
    exact ⟨⟨hname, topic, record, htopic, hpartition, hrecord, Nat.zero_le _, hlt, hdecoded⟩, hlimit⟩
  · rintro ⟨⟨hname, topic, record, htopic, hpartition, hrecord, -, -, hdecoded⟩, hbelow⟩
    exact ⟨hname, topic, record, htopic, hpartition, hrecord, Nat.zero_le _, hbelow, hdecoded⟩

theorem mem_past (a b : Schedule)
    (hsame : ∀ name ∈ topics, ∀ topic, stream.topics name = some topic → ∀ partition < topic.count,
      resumed.next name partition = checkpoint.next name partition) {message : ContextMessage} :
    message ∈ (pastAssembler conversation topics resumed).collected stream .whole a ↔
      message ∈ (fullAssembler conversation topics).collected stream .whole b ∧
        checkpoint.next message.topic message.partitionId ≤ message.offset := by
  rw [mem_collected, mem_collected]
  constructor
  · rintro ⟨hname, topic, record, htopic, hpartition, hrecord, hstart, hlimit, hdecoded⟩
    rw [← hsame message.topic (List.mem_eraseDups.1 hname) topic htopic message.partitionId hpartition]
    exact ⟨⟨hname, topic, record, htopic, hpartition, hrecord, Nat.zero_le _, hlimit, hdecoded⟩, hstart⟩
  · rintro ⟨⟨hname, topic, record, htopic, hpartition, hrecord, -, hlimit, hdecoded⟩, hpast⟩
    rw [← hsame message.topic (List.mem_eraseDups.1 hname) topic htopic message.partitionId hpartition] at hpast
    exact ⟨hname, topic, record, htopic, hpartition, hrecord, hpast, hlimit, hdecoded⟩

/-- The parts fold one after the other as the whole does, whatever the fold,
exactly when the checkpoint cuts the messages. -/
theorem cuts_iff (a b c : Schedule)
    (hsame : ∀ name ∈ topics, ∀ topic, stream.topics name = some topic → ∀ partition < topic.count,
      resumed.next name partition = checkpoint.next name partition) :
    inOrder topics.eraseDups ((belowAssembler conversation topics checkpoint).collected stream .whole a) ++
        inOrder topics.eraseDups ((pastAssembler conversation topics resumed).collected stream .whole b) =
      inOrder topics.eraseDups ((fullAssembler conversation topics).collected stream .whole c) ↔
    checkpoint.Cuts topics.eraseDups (history stream conversation topics c .full) := by
  refine (sortByKey_append_iff (fun x hx y hy => fields_inj hx hy) (collected_cut c a b hsame)).trans ?_
  constructor
  · intro h below hbelow past hpast hlt hle
    rw [mem_full c c] at hbelow hpast
    exact h below ((mem_below a c).2 ⟨hbelow, hlt⟩) past ((mem_past b c hsame).2 ⟨hpast, hle⟩)
  · intro h below hbelow past hpast
    obtain ⟨hbelow, hlt⟩ := (mem_below a c).1 hbelow
    obtain ⟨hpast, hle⟩ := (mem_past b c hsame).1 hpast
    exact h below ((mem_full c c).2 hbelow) past ((mem_full c c).2 hpast) hlt hle

/-! ## Every fold -/

instance : Countable ContextMessage := by
  have hinj : Function.Injective fun m : ContextMessage =>
      (m.partitionId, m.offset, (m.provenance.conversationId, m.provenance.rootConversationId, m.provenance.parentConversationId),
        m.payload.map UInt8.toNat, m.topic.toList.map Char.toNat, m.timestampMicros, m.streamId, m.topicId) := by
    rintro ⟨p, o, ⟨c, r, q⟩, l, t, m, s, i⟩ ⟨p', o', ⟨c', r', q'⟩, l', t', m', s', i'⟩ h
    simp only [Prod.mk.injEq] at h
    obtain ⟨rfl, rfl, ⟨rfl, rfl, rfl⟩, hpayload, htopic, rfl, rfl, rfl⟩ := h
    rw [List.map_injective_iff.2 (fun _ _ => UInt8.toNat_inj.1) hpayload,
      String.toList_injective (List.map_injective_iff.2 (fun _ _ => Char.toNat_inj.1) htopic)]
  exact hinj.countable

/-- Bytes that a state can be read back from. -/
theorem exists_codec (S : Type) [Countable S] :
    ∃ (encode : S → List UInt8) (decode : List UInt8 → Except String S), ∀ s, decode (encode s) = .ok s := by
  obtain ⟨code, hcode⟩ := exists_injective_nat S
  classical
  refine ⟨fun s => List.replicate (code s) 0,
    fun bytes => if h : ∃ s, code s = bytes.length then .ok h.choose else .error "", fun s => ?_⟩
  have hex : ∃ s', code s' = (List.replicate (code s) (0 : UInt8)).length := ⟨s, by rw [List.length_replicate]⟩
  dsimp only
  rw [dif_pos hex]
  congr 1
  apply hcode
  rw [hex.choose_spec, List.length_replicate]

/-- A state that is read back from a snapshot is folded on from its
checkpoint. -/
theorem loadWith_snapshot {S : Type} {loaded built later : Stream} {foldName : String} {encode : S → List UInt8}
    {decode : List UInt8 → Except String S} (hcodec : ∀ s, decode (encode s) = .ok s)
    (hloaded : Within topics loaded checkpoint.perTopic) (hbuilt : loaded.Grows built) (hlater : built.Grows later)
    (hstream : later.name ≠ "") (hfold : foldName ≠ "") (htopics : ∀ name ∈ topics, (built.topics name).isSome)
    (a b : Schedule) (init : S) (fold : S → ContextMessage → S) :
    ∃ snapshot resumed, snapshotFromCheckpoint built conversation foldName checkpoint
        (encode (load loaded conversation topics a (.at checkpoint) init fold)) = .ok snapshot ∧
      (∀ name ∈ topics, ∀ topic, later.topics name = some topic → ∀ partition < topic.count,
        resumed.next name partition = checkpoint.next name partition) ∧
      loadWith later (some snapshot) decode conversation topics b init fold =
        .ok ((inOrder topics.eraseDups ((belowAssembler conversation topics checkpoint).collected later .whole a) ++
          inOrder topics.eraseDups ((pastAssembler conversation topics resumed).collected later .whole b)).foldl fold init) := by
  have hwithin := hloaded.grow hbuilt
  rw [hlater.name] at hstream
  obtain ⟨snapshot, asOf, hsnapshot, hasOf, hvalid, rfl⟩ := @snapshotFromCheckpoint_ok conversation topics checkpoint built foldName
    (encode (load loaded conversation topics a (.at checkpoint) init fold)) hwithin hstream hfold htopics
  obtain ⟨resumed, hresumed, hsame⟩ := checkpointFromSnapshot_ok hwithin hasOf hvalid rfl ⟨rfl, rfl, rfl⟩ htopics hlater
  have hbelow : (belowAssembler conversation topics checkpoint).collected loaded .whole a =
      (belowAssembler conversation topics checkpoint).collected later .whole a := by
    rw [collected_below_grow hbuilt hloaded.next_le a a, collected_below_grow hlater hwithin.next_le a a]
  refine ⟨_, resumed, hsnapshot, hsame, ?_⟩
  unfold loadWith
  dsimp only
  rw [if_neg (by simp), hresumed]
  simp only [hcodec]
  show Except.ok _ = _
  rw [load_at, hbelow, load_fromCheckpoint, List.foldl_append]

/-- Resuming from the snapshot of a captured checkpoint returns what a full
fold returns, for every fold, exactly when the checkpoint cuts the messages
of the conversation. -/
theorem resume_eq_full_iff {start stop loaded built later : Stream} {foldName : String}
    (hcapture : Captures start topics checkpoint stop) (hloaded : stop.Grows loaded) (hbuilt : loaded.Grows built)
    (hlater : built.Grows later) (hstream : later.name ≠ "") (hfold : foldName ≠ "")
    (htopics : ∀ name ∈ topics, (built.topics name).isSome) (a b c : Schedule) :
    (∀ (S : Type) (encode : S → List UInt8) (decode : List UInt8 → Except String S), (∀ s, decode (encode s) = .ok s) →
      ∀ (init : S) (fold : S → ContextMessage → S), ∃ snapshot,
        snapshotFromCheckpoint built conversation foldName checkpoint
          (encode (load loaded conversation topics a (.at checkpoint) init fold)) = .ok snapshot ∧
        loadWith later (some snapshot) decode conversation topics b init fold =
          .ok (load later conversation topics c .full init fold)) ↔
    checkpoint.Cuts topics.eraseDups (history later conversation topics c .full) := by
  have hwithin := hcapture.within.grow hloaded
  constructor
  · intro h
    -- A fold that keeps the messages shows their order.
    obtain ⟨encode, decode, hcodec⟩ := exists_codec (List ContextMessage)
    obtain ⟨snapshot, hsnapshot, hequal⟩ := h _ encode decode hcodec [] fun seen message => seen ++ [message]
    obtain ⟨snapshot', resumed, hsnapshot', hsame, hload⟩ :=
      @loadWith_snapshot conversation topics checkpoint _ loaded built later foldName encode decode
        hcodec hwithin hbuilt hlater hstream hfold htopics a b [] fun seen message => seen ++ [message]
    rw [hsnapshot] at hsnapshot'
    cases hsnapshot'
    rw [hload, load_full] at hequal
    have hlists := Except.ok.inj hequal
    rw [List.foldl_append_eq_append, List.foldl_append_eq_append, ← List.flatMap_def, ← List.flatMap_def,
      List.flatMap_singleton', List.flatMap_singleton'] at hlists
    exact (cuts_iff a b c hsame).1 hlists
  · intro hcuts S encode decode hcodec init fold
    obtain ⟨snapshot, resumed, hsnapshot, hsame, hload⟩ :=
      @loadWith_snapshot conversation topics checkpoint _ loaded built later foldName encode decode
        hcodec hwithin hbuilt hlater hstream hfold htopics a b init fold
    refine ⟨snapshot, hsnapshot, ?_⟩
    rw [hload, load_full, (cuts_iff a b c hsame).2 hcuts]

/-! ## Two captures -/

/-- A stream with one topic. -/
def sessions (partitions : List (List Record)) : Stream where
  name := "agents"
  id := 1
  createdAtMicros := 100
  topics name := if name = "agent.sessions" then some ⟨2, 20, partitions⟩ else none
  distinct := by
    intro a b x y ha hb _
    split at ha
    next ha' =>
      split at hb
      next hb' => rw [ha', hb']
      next => cases hb
    next => cases ha

theorem sessions_grows {before after : List (List Record)} (hlength : before.length ≤ after.length)
    (hlog : ∀ partition, before.getD partition [] <+: after.getD partition []) : (sessions before).Grows (sessions after) := by
  refine ⟨rfl, rfl, rfl, fun name topic htopic => ?_⟩
  unfold sessions at htopic
  dsimp only at htopic
  split at htopic
  next hname =>
    cases htopic
    refine ⟨⟨2, 20, after⟩, ?_, rfl, rfl, hlength, hlog⟩
    exact if_pos hname
  next => cases htopic

def note (timestamp : Nat) (byte : UInt8) : Record := ⟨timestamp, some ⟨7, none, none⟩, [byte]⟩

/-- Every reply full, every partition in turn. -/
def inTurn : Schedule := ⟨fun _ _ _ => readBatch, id, fun _ => List.Perm.refl _⟩

/-- A fold that keeps the payloads in order. -/
def keepPayload (seen : List UInt8) (message : ContextMessage) : List UInt8 := seen ++ message.payload

/-- A conversation in one partition goes on where it stopped. -/
theorem one_partition_resumes :
    ∃ snapshot, snapshotFromCheckpoint (sessions [[note 1 10]]) 7 "planner" ⟨[("agent.sessions", [(0, 1)])]⟩
        (load (sessions [[note 1 10]]) 7 ["agent.sessions"] inTurn (.at ⟨[("agent.sessions", [(0, 1)])]⟩) [] keepPayload) = .ok snapshot ∧
      loadWith (sessions [[note 1 10, note 2 20]]) (some snapshot) .ok 7 ["agent.sessions"] inTurn [] keepPayload =
        .ok (load (sessions [[note 1 10, note 2 20]]) 7 ["agent.sessions"] inTurn .full [] keepPayload) := by
  have hlookUp : CaptureStep ⟨sessions [[note 1 10]], ["agent.sessions"], none, []⟩
      ⟨sessions [[note 1 10]], [], some ⟨"agent.sessions", [0], []⟩, []⟩ :=
    @CaptureStep.lookUp ⟨sessions [[note 1 10]], ["agent.sessions"], none, []⟩ _ _ ⟨2, 20, [[note 1 10]]⟩ rfl rfl rfl
  have htail : CaptureStep ⟨sessions [[note 1 10]], [], some ⟨"agent.sessions", [0], []⟩, []⟩
      ⟨sessions [[note 1 10]], [], some ⟨"agent.sessions", [], [(0, 1)]⟩, []⟩ :=
    @CaptureStep.readTail ⟨sessions [[note 1 10]], [], some ⟨"agent.sessions", [0], []⟩, []⟩ _ 0 rfl (by decide)
  have hclose : CaptureStep ⟨sessions [[note 1 10]], [], some ⟨"agent.sessions", [], [(0, 1)]⟩, []⟩
      ⟨sessions [[note 1 10]], [], none, [("agent.sessions", [(0, 1)])]⟩ :=
    @CaptureStep.close _ ⟨"agent.sessions", [], [(0, 1)]⟩ rfl rfl
  have hcapture : Captures (sessions [[note 1 10]]) ["agent.sessions"] ⟨[("agent.sessions", [(0, 1)])]⟩ (sessions [[note 1 10]]) :=
    ((Relation.ReflTransGen.single hlookUp).tail htail).tail hclose
  have hgrows : (sessions [[note 1 10]]).Grows (sessions [[note 1 10]]) :=
    sessions_grows (Nat.le_refl _) fun _ => List.prefix_refl _
  have hlater : (sessions [[note 1 10]]).Grows (sessions [[note 1 10, note 2 20]]) := by
    refine sessions_grows (Nat.le_refl _) fun partition => ?_
    cases partition with
    | zero => exact ⟨[note 2 20], rfl⟩
    | succ partition => exact List.prefix_refl _
  exact (resume_eq_full_iff hcapture hgrows hgrows hlater (by decide) (by decide) (by decide) inTurn inTurn inTurn).2
    (by decide +kernel) (List UInt8) id .ok (fun _ => rfl) [] keepPayload

/-- Both partitions get a record after the first tail was read and before the
second: the newer record lies below the checkpoint and the older past it. -/
theorem torn_capture_reorders :
    Captures (sessions [[], []]) ["agent.sessions"] ⟨[("agent.sessions", [(0, 0), (1, 1)])]⟩ (sessions [[note 1 10], [note 2 20]]) ∧
      ∃ snapshot, snapshotFromCheckpoint (sessions [[note 1 10], [note 2 20]]) 7 "planner" ⟨[("agent.sessions", [(0, 0), (1, 1)])]⟩
          (load (sessions [[note 1 10], [note 2 20]]) 7 ["agent.sessions"] inTurn
            (.at ⟨[("agent.sessions", [(0, 0), (1, 1)])]⟩) [] keepPayload) = .ok snapshot ∧
        loadWith (sessions [[note 1 10], [note 2 20]]) (some snapshot) .ok 7 ["agent.sessions"] inTurn [] keepPayload = .ok [20, 10] ∧
        load (sessions [[note 1 10], [note 2 20]]) 7 ["agent.sessions"] inTurn .full [] keepPayload = [10, 20] := by
  have hgrows : (sessions [[], []]).Grows (sessions [[note 1 10], [note 2 20]]) := by
    refine sessions_grows (Nat.le_refl _) fun partition => ?_
    match partition with
    | 0 => exact List.nil_prefix
    | 1 => exact List.nil_prefix
    | partition + 2 => exact List.nil_prefix
  refine ⟨?_, ⟨_, rfl, ?_, ?_⟩⟩
  · have hlookUp : CaptureStep ⟨sessions [[], []], ["agent.sessions"], none, []⟩
        ⟨sessions [[], []], [], some ⟨"agent.sessions", [0, 1], []⟩, []⟩ :=
      @CaptureStep.lookUp ⟨sessions [[], []], ["agent.sessions"], none, []⟩ _ _ ⟨2, 20, [[], []]⟩ rfl rfl rfl
    have hfirst : CaptureStep ⟨sessions [[], []], [], some ⟨"agent.sessions", [0, 1], []⟩, []⟩
        ⟨sessions [[], []], [], some ⟨"agent.sessions", [1], [(0, 0)]⟩, []⟩ :=
      @CaptureStep.readTail ⟨sessions [[], []], [], some ⟨"agent.sessions", [0, 1], []⟩, []⟩ _ 0 rfl (by decide)
    have hsecond : CaptureStep ⟨sessions [[note 1 10], [note 2 20]], [], some ⟨"agent.sessions", [1], [(0, 0)]⟩, []⟩
        ⟨sessions [[note 1 10], [note 2 20]], [], some ⟨"agent.sessions", [], [(0, 0), (1, 1)]⟩, []⟩ :=
      @CaptureStep.readTail ⟨sessions [[note 1 10], [note 2 20]], [], some ⟨"agent.sessions", [1], [(0, 0)]⟩, []⟩ _ 1 rfl (by decide)
    have hclose : CaptureStep ⟨sessions [[note 1 10], [note 2 20]], [], some ⟨"agent.sessions", [], [(0, 0), (1, 1)]⟩, []⟩
        ⟨sessions [[note 1 10], [note 2 20]], [], none, [("agent.sessions", [(0, 0), (1, 1)])]⟩ :=
      @CaptureStep.close _ ⟨"agent.sessions", [], [(0, 0), (1, 1)]⟩ rfl rfl
    exact ((((Relation.ReflTransGen.single hlookUp).tail hfirst).tail (.grow hgrows)).tail hsecond).tail hclose
  · decide +kernel
  · decide +kernel

end LaserSdk.Context

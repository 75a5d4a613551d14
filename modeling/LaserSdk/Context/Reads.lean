import Mathlib.Data.List.Perm.Basic
import LaserSdk.Context.Capture
/-!
# What a replay reads

A replay reads its whole range, so the records of a conversation are those
below a checkpoint and those past it, and the first ones stay as the stream
grows.
-/

namespace LaserSdk.Context

open Lib Poll

/-! ## Ranges -/

theorem readLoop_whole {α : Type} {cap : Nat → Nat} {log : List α} {fuel start last : Nat}
    (hfuel : ((log.take (last + 1)).drop start).length < fuel) :
    readLoop cap log .whole fuel ⟨start, some last⟩ = (log.take (last + 1)).drop start := by
  induction fuel generalizing start with
  | zero => exact absurd hfuel (Nat.not_lt_zero _)
  | succ fuel ih =>
    unfold readLoop
    dsimp only
    have hreach : ((log.take (last + 1)).drop start).length ≤ last + 1 - start := by
      rw [List.length_drop, List.length_take]
      omega
    split
    next hfurther =>
      rw [drainPartition_eq] at hfurther ⊢
      dsimp only [within] at hfurther ⊢
      have hfull : contextReadWindow ≤ (((log.take (last + 1)).drop start).take maxDrainMessages).length := by
        simp only [readsFurther, Bool.and_eq_true, decide_eq_true_eq] at hfurther
        exact hfurther.1.2
      have hlength : (((log.take (last + 1)).drop start).take maxDrainMessages).length = maxDrainMessages := by
        rw [List.length_take] at hfull ⊢
        unfold contextReadWindow at hfull
        unfold maxDrainMessages at hfull ⊢
        omega
      rw [hlength, ih, ← List.drop_drop, List.take_append_drop]
      rw [← List.drop_drop, List.length_drop]
      rw [List.length_take] at hlength
      unfold maxDrainMessages at hlength ⊢
      omega
    next hlast =>
      rw [drainPartition_eq] at hlast ⊢
      dsimp only [within] at hlast ⊢
      apply List.take_of_length_le
      by_contra hlong
      refine hlast ?_
      have hlength : (((log.take (last + 1)).drop start).take maxDrainMessages).length = maxDrainMessages := by
        rw [List.length_take]
        omega
      simp only [readsFurther, hlength, Bool.and_eq_true, decide_eq_true_eq, Option.all_some]
      refine ⟨⟨trivial, Nat.le_refl _⟩, ?_⟩
      omega

/-- A replay reads every record of its range. -/
theorem readPartition_whole {α : Type} (cap : Nat → Nat) (log : List α) (start : Nat) (limit : Option Nat) :
    readPartition cap log start limit .whole = (log.take (limit.getD log.length)).drop start := by
  have hrange : partitionRange log.length start limit .whole =
      if limit.getD log.length = 0 ∨ limit.getD log.length - 1 < start then none
      else some ⟨start, some (limit.getD log.length - 1)⟩ := by
    cases limit <;> rfl
  unfold readPartition
  rw [hrange]
  generalize limit.getD log.length = next
  by_cases hempty : next = 0 ∨ next - 1 < start
  · rw [if_pos hempty]
    refine (List.drop_eq_nil_of_le ?_).symm
    rw [List.length_take]
    omega
  · rw [if_neg hempty]
    have hnext : next - 1 + 1 = next := by omega
    dsimp only
    rw [readLoop_whole, hnext]
    rw [List.length_drop, List.length_take]
    omega

section

variable {stream : Stream} {assembler : ContextAssembler} {schedule : Schedule}

theorem matched_whole (name : String) (topic : Topic) (partition : Nat) :
    assembler.matched stream .whole schedule name topic partition =
      (((topic.log partition).zipIdx.take ((assembler.limit name partition).getD (topic.log partition).length)).drop
        (assembler.start name partition)).filterMap (assembler.message stream name topic partition) := by
  rw [ContextAssembler.matched, readPartition_whole, List.length_zipIdx]

theorem message_some {name : String} {topic : Topic} {partition : Nat} {found : Record × Nat} {message : ContextMessage}
    (h : assembler.message stream name topic partition found = some message) :
    message.topic = name ∧ message.partitionId = partition ∧ message.offset = found.2 := by
  unfold ContextAssembler.message at h
  split at h
  next => cases h
  next provenance hprovenance =>
    split at h
    · cases h
      exact ⟨rfl, rfl, rfl⟩
    · cases h

theorem mem_range_zipIdx {log : List Record} {start limit : Nat} {found : Record × Nat} :
    found ∈ (log.zipIdx.take limit).drop start ↔ log[found.2]? = some found.1 ∧ start ≤ found.2 ∧ found.2 < limit := by
  rw [List.mem_iff_getElem?]
  constructor
  · rintro ⟨i, hi⟩
    rw [List.getElem?_drop, List.getElem?_take] at hi
    split at hi
    next hlt =>
      rw [List.getElem?_zipIdx] at hi
      obtain ⟨record, hrecord, rfl⟩ := Option.map_eq_some_iff.1 hi
      exact ⟨by simpa using hrecord, by simp, by simpa using hlt⟩
    next => cases hi
  · rintro ⟨hrecord, hstart, hlimit⟩
    refine ⟨found.2 - start, ?_⟩
    rw [List.getElem?_drop, List.getElem?_take, if_pos (by omega), List.getElem?_zipIdx,
      show start + (found.2 - start) = found.2 by omega, hrecord]
    simp

/-- The messages of a replay, one by one. -/
theorem mem_collected {message : ContextMessage} :
    message ∈ assembler.collected stream .whole schedule ↔
      message.topic ∈ assembler.sources ∧ ∃ topic record, stream.topics message.topic = some topic ∧
        message.partitionId < topic.count ∧ (topic.log message.partitionId)[message.offset]? = some record ∧
        assembler.start message.topic message.partitionId ≤ message.offset ∧
        message.offset < (assembler.limit message.topic message.partitionId).getD (topic.log message.partitionId).length ∧
        assembler.message stream message.topic topic message.partitionId (record, message.offset) = some message := by
  rw [ContextAssembler.collected, List.mem_flatMap]
  constructor
  · rintro ⟨name, hname, hmessage⟩
    split at hmessage
    next => cases hmessage
    next topic htopic =>
      obtain ⟨partition, hpartition, hmatched⟩ := List.mem_flatMap.1 hmessage
      rw [matched_whole] at hmatched
      obtain ⟨⟨record, offset⟩, hfound, hdecoded⟩ := List.mem_filterMap.1 hmatched
      obtain ⟨rfl, rfl, rfl⟩ := message_some hdecoded
      obtain ⟨hrecord, hstart, hlimit⟩ := mem_range_zipIdx.1 hfound
      exact ⟨hname, topic, record, htopic, List.mem_range.1 hpartition, hrecord, hstart, hlimit, hdecoded⟩
  · rintro ⟨hname, topic, record, htopic, hpartition, hrecord, hstart, hlimit, hdecoded⟩
    refine ⟨message.topic, hname, ?_⟩
    rw [htopic]
    refine List.mem_flatMap.2 ⟨message.partitionId, List.mem_range.2 hpartition, ?_⟩
    rw [matched_whole]
    exact List.mem_filterMap.2 ⟨(record, message.offset), mem_range_zipIdx.2 ⟨hrecord, hstart, hlimit⟩, hdecoded⟩

/-- The fields of the order tell the messages apart. -/
theorem fields_inj {a b : ContextMessage} (ha : a ∈ assembler.collected stream .whole schedule)
    (hb : b ∈ assembler.collected stream .whole schedule) (h : a.fields assembler.sources = b.fields assembler.sources) :
    a = b := by
  obtain ⟨haname, topic, record, htopic, -, hrecord, -, -, hdecoded⟩ := mem_collected.1 ha
  obtain ⟨hbname, topic', record', htopic', -, hrecord', -, -, hdecoded'⟩ := mem_collected.1 hb
  simp only [ContextMessage.fields, List.cons.injEq, and_true] at h
  obtain ⟨-, hindex, hpartition, hoffset⟩ := h
  have hname : a.topic = b.topic := (List.idxOf_inj haname).1 hindex
  rw [← hname] at htopic' hdecoded'
  rw [htopic] at htopic'
  cases htopic'
  rw [← hpartition, ← hoffset] at hrecord' hdecoded'
  rw [hrecord] at hrecord'
  cases hrecord'
  rw [hdecoded] at hdecoded'
  exact Option.some.inj hdecoded'

/-- What a replay folds does not depend on how its reads went. -/
theorem readOnce_whole (hpolicy : assembler.policy = none) :
    assembler.readOnce stream .whole schedule = inOrder assembler.sources (assembler.collected stream .whole schedule) := by
  rw [ContextAssembler.readOnce, hpolicy]
  refine (sortByKey_congr ?_ (schedule.perm _).symm).symm
  intro a ha b hb
  exact fields_inj ha hb

end

/-! ## Below and past a checkpoint -/

section

variable (conversation : Nat) (topics : List String)

def fullAssembler : ContextAssembler := ⟨conversation, topics, false, none, none, none⟩

def belowAssembler (checkpoint : Checkpoint) : ContextAssembler := ⟨conversation, topics, false, none, none, some checkpoint⟩

def pastAssembler (checkpoint : Checkpoint) : ContextAssembler := ⟨conversation, topics, false, none, some checkpoint, none⟩

end

variable {conversation : Nat} {topics : List String} {checkpoint resumed : Checkpoint} {stream before after : Stream}

theorem matched_full (schedule : Schedule) (name : String) (topic : Topic) (partition : Nat) :
    (fullAssembler conversation topics).matched stream .whole schedule name topic partition =
      (topic.log partition).zipIdx.filterMap ((fullAssembler conversation topics).message stream name topic partition) := by
  rw [matched_whole]
  show ((_ : List (Record × Nat)).take (topic.log partition).length |>.drop 0).filterMap _ = _
  rw [List.drop_zero, List.take_of_length_le (by rw [List.length_zipIdx])]

theorem matched_below (schedule : Schedule) (name : String) (topic : Topic) (partition : Nat) :
    (belowAssembler conversation topics checkpoint).matched stream .whole schedule name topic partition =
      ((topic.log partition).zipIdx.take (checkpoint.next name partition)).filterMap
        ((fullAssembler conversation topics).message stream name topic partition) := by
  rw [matched_whole]
  show ((_ : List (Record × Nat)).take (checkpoint.next name partition) |>.drop 0).filterMap _ = _
  rw [List.drop_zero]
  rfl

theorem matched_past (schedule : Schedule) (name : String) (topic : Topic) (partition : Nat) :
    (pastAssembler conversation topics checkpoint).matched stream .whole schedule name topic partition =
      ((topic.log partition).zipIdx.drop (checkpoint.next name partition)).filterMap
        ((fullAssembler conversation topics).message stream name topic partition) := by
  rw [matched_whole]
  show ((_ : List (Record × Nat)).take (topic.log partition).length |>.drop (checkpoint.next name partition)).filterMap _ = _
  rw [List.take_of_length_le (by rw [List.length_zipIdx])]
  rfl

/-- A checkpoint cuts the messages of a conversation in two. -/
theorem collected_cut (a b c : Schedule)
    (hsame : ∀ name ∈ topics, ∀ topic, stream.topics name = some topic → ∀ partition < topic.count,
      resumed.next name partition = checkpoint.next name partition) :
    ((fullAssembler conversation topics).collected stream .whole a).Perm
      ((belowAssembler conversation topics checkpoint).collected stream .whole b ++
        (pastAssembler conversation topics resumed).collected stream .whole c) := by
  refine List.Perm.trans ?_ (List.flatMap_append_perm _ _ _).symm
  refine List.Perm.flatMap_left _ fun name hname => ?_
  have hmem : name ∈ topics := List.mem_eraseDups.1 hname
  cases htopic : stream.topics name with
  | none => exact List.Perm.refl _
  | some topic =>
    refine List.Perm.trans ?_ (List.flatMap_append_perm _ _ _).symm
    refine List.Perm.flatMap_left _ fun partition hpartition => ?_
    rw [matched_full, matched_below, matched_past, hsame name hmem topic htopic partition (List.mem_range.1 hpartition),
      ← List.filterMap_append, List.take_append_drop]

/-- What lies below a checkpoint stays as the stream grows. -/
theorem collected_below_grow (hgrows : before.Grows after)
    (hwithin : ∀ name partition, checkpoint.next name partition ≤ before.tail name partition) (a b : Schedule) :
    (belowAssembler conversation topics checkpoint).collected before .whole a =
      (belowAssembler conversation topics checkpoint).collected after .whole b := by
  refine List.flatMap_congr fun name _ => ?_
  have hnone : ∀ topic partition, checkpoint.next name partition = 0 →
      (belowAssembler conversation topics checkpoint).matched after .whole b name topic partition = [] := by
    intro topic partition hzero
    rw [matched_below, hzero]
    rfl
  cases htopic : before.topics name with
  | none =>
    cases hlater : after.topics name with
    | none => rfl
    | some later =>
      refine (List.flatMap_eq_nil_iff.2 fun partition _ => hnone later partition ?_).symm
      have hle := hwithin name partition
      rw [Stream.tail, htopic] at hle
      exact Nat.le_zero.1 hle
  | some topic =>
    obtain ⟨later, hlater, htopicGrows⟩ := hgrows.topics name topic htopic
    rw [hlater]
    have htail : ∀ partition, checkpoint.next name partition ≤ (topic.log partition).length := by
      intro partition
      have hle := hwithin name partition
      rw [Stream.tail, htopic] at hle
      exact hle
    have hmore := htopicGrows.partitions
    refine flatMap_range_eq ?_ (fun partition _ => ?_) fun partition hge hlt => ?_
    · unfold Topic.count boundedPartitions
      omega
    · obtain ⟨rest, hrest⟩ := htopicGrows.log partition
      rw [matched_below, matched_below, ← hrest, List.zipIdx_append,
        List.take_append_of_le_length (by rw [List.length_zipIdx]; exact htail partition)]
      congr 1
      funext found
      simp only [ContextAssembler.message, hgrows.id, htopicGrows.id]
    · apply hnone
      have hempty : topic.log partition = [] := by
        have hpast : topic.partitions.length ≤ partition := by
          unfold Topic.count boundedPartitions at hge hlt
          omega
        rw [Topic.log, List.getD_eq_getElem?_getD, List.getElem?_eq_none hpast]
        rfl
      have hle := htail partition
      rw [hempty] at hle
      exact Nat.le_zero.1 hle

end LaserSdk.Context

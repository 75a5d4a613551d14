import Mathlib.Data.List.Lex
import Mathlib.Data.List.Perm.Basic
import LaserSdk.Lib.SortByKey
import LaserSdk.Poll.Drain
/-!
# A cursor over a topic

A cursor keeps the next offset to read of each partition. A poll drains the
partitions one after another and merges what it read by the time of the
records, then partition and offset. The topic grows meanwhile, so a drain sees
the partition as far as it has come by then.
-/

namespace LaserSdk.Poll

open Lib

section

variable {β : Type}

/-- A record as it is appended, with the server's time. -/
structure Appended (β : Type) where
  timestamp : Nat
  body : β
  deriving DecidableEq, Repr

/-- A record where it lies. -/
structure Located (β : Type) where
  timestamp : Nat
  partition : Nat
  offset : Nat
  body : β
  deriving DecidableEq, Repr

/-- All that the partitions of a topic ever hold. -/
abbrev Topic (β : Type) : Type := List (List (Appended β))

def located (partition : Nat) (log : List (Appended β)) : List (Located β) :=
  log.zipIdx.map fun found => ⟨found.1.timestamp, partition, found.2, found.1.body⟩

def Topic.log (topic : Topic β) (partition : Nat) : List (Located β) := located partition (topic.getD partition [])

/-- The records partition by partition. -/
def Topic.records (topic : Topic β) : List (Located β) := (List.range topic.length).flatMap topic.log

/-- The fields of the order of a merge. -/
def Located.fields (record : Located β) : List Nat := [record.timestamp, record.partition, record.offset]

/-- What a poll meets: the partitions the server reports, if there is a topic,
how many records each of them holds when it is drained, and where the byte cap
stops the replies. -/
structure View where
  partitions : Option Nat
  seen : Nat → Nat
  cap : Nat → Nat → Nat

def defaultBatch : Nat := 1000

structure Cursor where
  offsets : List Nat
  batch : Nat
  deriving DecidableEq, Repr

namespace Cursor

def new : Cursor := ⟨[], defaultBatch⟩

def fromOffsets (c : Cursor) (offsets : List Nat) : Cursor := { c with offsets }

/-- The next offset of a partition. -/
def next (c : Cursor) (partition : Nat) : Nat := c.offsets.getD partition 0

variable (topic : Topic β) (view : View)

/-- The drain of one partition. -/
def drain (c : Cursor) (partition : Nat) : PartitionBatch (Located β) :=
  drainPartition (view.cap partition) ((topic.log partition).take (view.seen partition)) ⟨c.next partition, none⟩ c.batch

def pollIggy (c : Cursor) : List (Located β) × Cursor :=
  match view.partitions with
  | none => ([], c)
  | some reported =>
    let partitions := boundedPartitions reported
    let drains := (List.range partitions).map (c.drain topic view)
    (sortByKey Located.fields (drains.flatMap (·.messages)),
      { c with offsets := drains.map (·.nextOffset) ++ c.offsets.drop partitions })

/-- What the polls of a run read, and the cursor after them. -/
def polls : List View → Cursor → List (List (Located β)) × Cursor
  | [], c => ([], c)
  | view :: rest, c =>
    let (batch, c) := c.pollIggy topic view
    let (batches, c) := polls rest c
    (batch :: batches, c)

end Cursor

end

/-! ## Where records lie -/

variable {β : Type} {topic : Topic β} {view : View} {c : Cursor}

theorem mem_located {partition : Nat} {log : List (Appended β)} {record : Located β} :
    record ∈ located partition log ↔
      record.partition = partition ∧ log[record.offset]? = some ⟨record.timestamp, record.body⟩ := by
  obtain ⟨timestamp, place, offset, body⟩ := record
  simp only [located, List.mem_map, List.mem_zipIdx_iff_getElem?, Prod.exists, Located.mk.injEq]
  constructor
  · rintro ⟨found, index, hfound, rfl, rfl, rfl, rfl⟩
    exact ⟨rfl, hfound⟩
  · rintro ⟨rfl, hfound⟩
    exact ⟨_, offset, hfound, rfl, rfl, rfl, rfl⟩

theorem Topic.log_past {partition : Nat} (h : topic.length ≤ partition) : topic.log partition = [] := by
  rw [Topic.log, List.getD_eq_getElem?_getD, List.getElem?_eq_none h]
  rfl

/-- The fields of the order tell the records of a topic apart. -/
theorem fields_injective {x y : Located β} (hx : x ∈ topic.records) (hy : y ∈ topic.records) (h : x.fields = y.fields) : x = y := by
  obtain ⟨p, -, hp⟩ := List.mem_flatMap.1 hx
  obtain ⟨q, -, hq⟩ := List.mem_flatMap.1 hy
  obtain ⟨rfl, hfound⟩ := mem_located.1 hp
  obtain ⟨rfl, hfound'⟩ := mem_located.1 hq
  obtain ⟨timestamp, place, offset, body⟩ := x
  obtain ⟨timestamp', place', offset', body'⟩ := y
  simp only [Located.fields, List.cons.injEq, and_true] at h
  obtain ⟨rfl, rfl, rfl⟩ := h
  rw [hfound] at hfound'
  cases hfound'
  rfl

/-! ## What polls read -/

/-- What a cursor has behind it, up to a partition. -/
def Cursor.behind (topic : Topic β) (c : Cursor) (count : Nat) : List (Located β) :=
  (List.range count).flatMap fun partition => (topic.log partition).take (c.next partition)

/-- A drain reads on where the cursor stands. -/
theorem drain_reads (topic : Topic β) (view : View) (c : Cursor) (partition : Nat) :
    (topic.log partition).take (c.drain topic view partition).nextOffset =
      (topic.log partition).take (c.next partition) ++ (c.drain topic view partition).messages := by
  rw [Cursor.drain, drainPartition_eq]
  dsimp only [within]
  rw [List.take_add]
  congr 1
  rw [List.drop_take, List.take_take]
  exact (List.prefix_iff_eq_take.1 (List.take_prefix _ _)).symm

theorem next_pollIggy (topic : Topic β) (c : Cursor) {view : View} {reported : Nat} (h : view.partitions = some reported)
    (partition : Nat) : (c.pollIggy topic view).2.next partition =
      if partition < boundedPartitions reported then (c.drain topic view partition).nextOffset else c.next partition := by
  simp only [Cursor.pollIggy, h, Cursor.next, List.getD_eq_getElem?_getD]
  split
  next hlt =>
    rw [List.getElem?_append_left (by simpa using hlt)]
    simp [hlt]
  next hge =>
    rw [List.getElem?_append_right (by simpa using hge)]
    simp only [List.length_map, List.length_range, List.getElem?_drop]
    congr 2
    omega

/-- A poll reads what the cursor then has behind it and had not before. -/
theorem pollIggy_reads (topic : Topic β) (c : Cursor) {view : View} {count : Nat} (hcount : maxTopicPartitions ≤ count) :
    ((c.pollIggy topic view).2.behind topic count).Perm (c.behind topic count ++ (c.pollIggy topic view).1) := by
  cases hpartitions : view.partitions with
  | none => simp [Cursor.pollIggy, hpartitions]
  | some reported =>
    have hbound : boundedPartitions reported ≤ count := Nat.le_trans (Nat.min_le_right _ _) hcount
    -- What the partitions give, and nothing past those reported.
    let given := fun partition => if partition < boundedPartitions reported then (c.drain topic view partition).messages else []
    have hread : (c.pollIggy topic view).2.behind topic count =
        (List.range count).flatMap fun partition => (topic.log partition).take (c.next partition) ++ given partition := by
      refine List.flatMap_congr fun partition _ => ?_
      rw [next_pollIggy topic c hpartitions]
      by_cases hlt : partition < boundedPartitions reported
      · simp only [given, if_pos hlt]
        exact drain_reads topic view c partition
      · simp [given, hlt]
    have hgiven : (List.range count).flatMap given =
        ((List.range (boundedPartitions reported)).map (c.drain topic view)).flatMap (·.messages) := by
      rw [List.flatMap_map]
      refine (flatMap_range_eq hbound (fun partition hlt => ?_) fun partition hpast _ => ?_).symm
      · exact (if_pos hlt).symm
      · exact if_neg (Nat.not_lt.2 hpast)
    rw [hread]
    refine (List.flatMap_append_perm _ _ _).symm.trans ?_
    rw [hgiven]
    simp only [Cursor.pollIggy, hpartitions]
    exact (List.Perm.refl _).append (sortByKey_perm _).symm

theorem polls_read (topic : Topic β) (views : List View) (c : Cursor) {count : Nat} (hcount : maxTopicPartitions ≤ count) :
    ((c.polls topic views).2.behind topic count).Perm (c.behind topic count ++ (c.polls topic views).1.flatten) := by
  induction views generalizing c with
  | nil => simp [Cursor.polls]
  | cons view rest ih =>
    refine (ih (c.pollIggy topic view).2).trans ?_
    rw [Cursor.polls, List.flatten_cons, ← List.append_assoc]
    exact (pollIggy_reads topic c hcount).append_right _

theorem pollIggy_batch (topic : Topic β) (view : View) (c : Cursor) : (c.pollIggy topic view).2.batch = c.batch := by
  unfold Cursor.pollIggy
  split <;> rfl

theorem pollIggy_sorted (topic : Topic β) (view : View) (c : Cursor) :
    (c.pollIggy topic view).1.Pairwise fun x y => x.fields ≤ y.fields := by
  unfold Cursor.pollIggy
  split
  · exact List.Pairwise.nil
  · exact sortByKey_pairwise _

theorem polls_sorted (topic : Topic β) (views : List View) (c : Cursor) :
    ∀ batch ∈ (c.polls topic views).1, batch.Pairwise fun x y => x.fields ≤ y.fields := by
  induction views generalizing c with
  | nil => simp [Cursor.polls]
  | cons view rest ih =>
    intro batch hbatch
    rcases List.mem_cons.1 hbatch with hfirst | hlater
    · rw [hfirst]
      exact pollIggy_sorted topic view c
    · exact ih _ batch hlater

/-- A cursor that has passed every record of a topic. -/
def Cursor.Done (topic : Topic β) (c : Cursor) : Prop := ∀ partition, (topic.log partition).length ≤ c.next partition

/-- Polls from the start that pass every record read each of them once. -/
theorem polls_perm (topic : Topic β) (views : List View) {batch : Nat} (h : (Cursor.polls topic views ⟨[], batch⟩).2.Done topic) :
    (Cursor.polls topic views ⟨[], batch⟩).1.flatten.Perm topic.records := by
  have hread := polls_read topic views ⟨[], batch⟩ (Nat.le_max_left maxTopicPartitions topic.length)
  have hstart : Cursor.behind topic ⟨[], batch⟩ (max maxTopicPartitions topic.length) = [] := by
    simp [Cursor.behind, Cursor.next]
  have hend : (Cursor.polls topic views ⟨[], batch⟩).2.behind topic (max maxTopicPartitions topic.length) = topic.records := by
    refine (flatMap_range_eq (Nat.le_max_right _ _) (fun partition _ => ?_) fun partition hpast _ => ?_).symm
    · exact (List.take_of_length_le (h partition)).symm
    · rw [Topic.log_past hpast, List.take_nil]
  rw [hstart, hend, List.nil_append] at hread
  exact hread.symm

end LaserSdk.Poll

import Mathlib.Logic.Relation
import LaserSdk.Context.Replay
/-!
# Capturing a checkpoint

`checkpoint` looks up one topic after another and reads the tails of a topic's
partitions in any order. Writers append, and partitions and topics appear,
between any two of its reads. So the tails it records are of different
moments, and all that is known of them is that each lies within its partition.
-/

namespace LaserSdk.Context

open Lib Poll

/-! ## Growth -/

structure Topic.Grows (before after : Topic) : Prop where
  id : after.id = before.id
  createdAtMicros : after.createdAtMicros = before.createdAtMicros
  partitions : before.partitions.length ≤ after.partitions.length
  log : ∀ partition, before.log partition <+: after.log partition

/-- A later state of a stream whose topics nobody deletes. -/
structure Stream.Grows (before after : Stream) : Prop where
  name : after.name = before.name
  id : after.id = before.id
  createdAtMicros : after.createdAtMicros = before.createdAtMicros
  topics : ∀ name topic, before.topics name = some topic → ∃ later, after.topics name = some later ∧ topic.Grows later

/-- How many records a partition holds. -/
def Stream.tail (stream : Stream) (name : String) (partition : Nat) : Nat :=
  match stream.topics name with
  | none => 0
  | some topic => (topic.log partition).length

theorem Stream.Grows.tail_le {before after : Stream} (h : before.Grows after) (name : String) (partition : Nat) :
    before.tail name partition ≤ after.tail name partition := by
  unfold Stream.tail
  cases htopic : before.topics name with
  | none => exact Nat.zero_le _
  | some topic =>
    obtain ⟨later, hlater, hgrows⟩ := h.topics name topic htopic
    rw [hlater]
    exact (hgrows.log partition).length_le

/-! ## The capture -/

/-- The topic whose tails are being read: the partitions left and the tails
known. -/
structure OpenTopic where
  name : String
  pending : List Nat
  offsets : List (Nat × Nat)

structure Capturing where
  stream : Stream
  waiting : List String
  current : Option OpenTopic
  perTopic : List (String × List (Nat × Nat))

inductive CaptureStep : Capturing → Capturing → Prop
  /-- Others append, or add partitions and topics. -/
  | grow {s : Capturing} {stream : Stream} (h : s.stream.Grows stream) : CaptureStep s { s with stream }
  | missing {s : Capturing} {name : String} {rest : List String} (hcurrent : s.current = none)
      (hwaiting : s.waiting = name :: rest) (htopic : s.stream.topics name = none) :
      CaptureStep s { s with waiting := rest, perTopic := insertKey name [] s.perTopic }
  | lookUp {s : Capturing} {name : String} {rest : List String} {topic : Topic} (hcurrent : s.current = none)
      (hwaiting : s.waiting = name :: rest) (htopic : s.stream.topics name = some topic) :
      CaptureStep s { s with waiting := rest, current := some ⟨name, List.range topic.count, []⟩ }
  | readTail {s : Capturing} {o : OpenTopic} {partition : Nat} (hcurrent : s.current = some o) (hpending : partition ∈ o.pending) :
      CaptureStep s
        { s with
          current := some { o with
            pending := o.pending.erase partition
            offsets := insertKey partition (s.stream.tail o.name partition) o.offsets } }
  | close {s : Capturing} {o : OpenTopic} (hcurrent : s.current = some o) (hpending : o.pending = []) :
      CaptureStep s { s with current := none, perTopic := insertKey o.name o.offsets s.perTopic }

/-- A run of `checkpoint` from one state of the stream to a later one. -/
def Captures (start : Stream) (topics : List String) (checkpoint : Checkpoint) (stop : Stream) : Prop :=
  Relation.ReflTransGen CaptureStep ⟨start, topics, none, []⟩ ⟨stop, [], none, checkpoint.perTopic⟩

/-! ## What a checkpoint says -/

/-- The tails of one topic. -/
structure Tails (stream : Stream) (name : String) (offsets : List (Nat × Nat)) : Prop where
  sorted : SortedKeys offsets
  bounded : ∀ entry ∈ offsets, entry.2 ≤ stream.tail name entry.1

/-- A checkpoint of the topics whose offsets the stream has. -/
structure Within (topics : List String) (stream : Stream) (perTopic : List (String × List (Nat × Nat))) : Prop where
  sorted : SortedKeys perTopic
  named : ∀ entry ∈ perTopic, entry.1 ∈ topics
  tails : ∀ entry ∈ perTopic, Tails stream entry.1 entry.2

theorem Tails.grow {before after : Stream} (hgrows : before.Grows after) {name : String} {offsets : List (Nat × Nat)}
    (h : Tails before name offsets) : Tails after name offsets :=
  ⟨h.sorted, fun entry hentry => Nat.le_trans (h.bounded entry hentry) (hgrows.tail_le name entry.1)⟩

theorem Within.grow {topics : List String} {before after : Stream} (hgrows : before.Grows after)
    {perTopic : List (String × List (Nat × Nat))} (h : Within topics before perTopic) : Within topics after perTopic :=
  ⟨h.sorted, h.named, fun entry hentry => (h.tails entry hentry).grow hgrows⟩

theorem Within.insert {topics : List String} {stream : Stream} {perTopic : List (String × List (Nat × Nat))}
    (h : Within topics stream perTopic) {name : String} {offsets : List (Nat × Nat)} (hname : name ∈ topics)
    (htails : Tails stream name offsets) : Within topics stream (insertKey name offsets perTopic) := by
  refine ⟨h.sorted.insertKey name offsets, fun entry hentry => ?_, fun entry hentry => ?_⟩
  · rcases mem_insertKey hentry with rfl | hold
    · exact hname
    · exact h.named entry hold
  · rcases mem_insertKey hentry with rfl | hold
    · exact htails
    · exact h.tails entry hold

/-- What holds at every point of a capture. -/
structure Sound (topics : List String) (s : Capturing) : Prop where
  within : Within topics s.stream s.perTopic
  waiting : ∀ name ∈ s.waiting, name ∈ topics
  current : ∀ o, s.current = some o → o.name ∈ topics ∧ Tails s.stream o.name o.offsets

theorem Sound.step {topics : List String} {s s' : Capturing} (h : Sound topics s) (hstep : CaptureStep s s') :
    Sound topics s' := by
  cases hstep with
  | grow hgrows =>
    refine ⟨h.within.grow hgrows, h.waiting, fun o ho => ?_⟩
    obtain ⟨hname, htails⟩ := h.current o ho
    exact ⟨hname, htails.grow hgrows⟩
  | @missing name rest hcurrent hwaiting htopic =>
    have hnames := h.waiting
    rw [hwaiting, List.forall_mem_cons] at hnames
    exact ⟨h.within.insert hnames.1 ⟨List.Pairwise.nil, nofun⟩, hnames.2, h.current⟩
  | @lookUp name rest topic hcurrent hwaiting htopic =>
    have hnames := h.waiting
    rw [hwaiting, List.forall_mem_cons] at hnames
    refine ⟨h.within, hnames.2, ?_⟩
    rintro o ⟨⟩
    exact ⟨hnames.1, List.Pairwise.nil, nofun⟩
  | @readTail o partition hcurrent hpending =>
    obtain ⟨hname, htails⟩ := h.current o hcurrent
    refine ⟨h.within, h.waiting, ?_⟩
    rintro o' ⟨⟩
    refine ⟨hname, htails.sorted.insertKey _ _, fun entry hentry => ?_⟩
    rcases mem_insertKey hentry with rfl | hold
    · exact Nat.le_refl _
    · exact htails.bounded entry hold
  | @close o hcurrent hpending =>
    obtain ⟨hname, htails⟩ := h.current o hcurrent
    exact ⟨h.within.insert hname htails, h.waiting, nofun⟩

/-- However the capture ran, its offsets lie within the partitions. -/
theorem Captures.within {start stop : Stream} {topics : List String} {checkpoint : Checkpoint}
    (h : Captures start topics checkpoint stop) : Within topics stop checkpoint.perTopic := by
  have hsound : ∀ s, Relation.ReflTransGen CaptureStep ⟨start, topics, none, []⟩ s → Sound topics s := by
    intro s hrun
    induction hrun with
    | refl => exact ⟨⟨List.Pairwise.nil, nofun, nofun⟩, fun _ hname => hname, nofun⟩
    | tail _ hstep ih => exact ih.step hstep
  exact (hsound _ h).within

theorem Within.next_le {topics : List String} {stream : Stream} {checkpoint : Checkpoint}
    (h : Within topics stream checkpoint.perTopic) (name : String) (partition : Nat) :
    checkpoint.next name partition ≤ stream.tail name partition := by
  unfold Checkpoint.next
  cases htopic : checkpoint.perTopic.lookup name with
  | none => exact Nat.zero_le _
  | some offsets =>
    cases hoffset : offsets.lookup partition with
    | none => simp [hoffset]
    | some next =>
      simp only [Option.bind_some, hoffset, Option.getD_some]
      exact (h.tails _ (mem_of_lookup htopic)).bounded _ (mem_of_lookup hoffset)

end LaserSdk.Context

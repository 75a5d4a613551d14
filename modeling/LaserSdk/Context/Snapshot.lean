import LaserSdk.Context.Capture
/-!
# What a snapshot keeps

A snapshot of a captured checkpoint passes its own check and remembers every
offset of the checkpoint: on a later state of the stream it gives the offsets
back, and zero for the partitions that came after it.
-/

namespace LaserSdk.Context

open Lib Poll

variable {conversation : Nat} {topics : List String} {checkpoint resumed : Checkpoint} {stream before after : Stream}

/-! ## Building -/

theorem collectOffsets_cons {name : String} {partitions : List (Nat × Nat)} {rest : List (String × List (Nat × Nat))}
    {asOf : List SnapshotOffset} (h : collectOffsets stream ((name, partitions) :: rest) = .ok asOf) :
    ∃ topic others, stream.topics name = some topic ∧ collectOffsets stream rest = .ok others ∧
      asOf = topicOffsets topic partitions ++ others := by
  unfold collectOffsets at h
  cases htopic : stream.topics name with
  | none =>
    rw [htopic] at h
    cases h
  | some topic =>
    rw [htopic] at h
    cases hrest : collectOffsets stream rest with
    | error message =>
      rw [hrest] at h
      cases h
    | ok others =>
      rw [hrest] at h
      cases h
      exact ⟨topic, others, rfl, rfl, rfl⟩

theorem collectOffsets_ok {perTopic : List (String × List (Nat × Nat))}
    (h : ∀ entry ∈ perTopic, (stream.topics entry.1).isSome) : ∃ asOf, collectOffsets stream perTopic = .ok asOf := by
  induction perTopic with
  | nil => exact ⟨[], rfl⟩
  | cons entry rest ih =>
    rw [List.forall_mem_cons] at h
    obtain ⟨others, hothers⟩ := ih h.2
    obtain ⟨topic, htopic⟩ := Option.isSome_iff_exists.1 h.1
    refine ⟨topicOffsets topic entry.2 ++ others, ?_⟩
    unfold collectOffsets
    rw [htopic, hothers]
    rfl

theorem mem_topicOffsets {topic : Topic} {partitions : List (Nat × Nat)} {e : SnapshotOffset} :
    e ∈ topicOffsets topic partitions ↔
      ∃ entry ∈ partitions, 0 < entry.2 ∧ e = ⟨topic.id, topic.createdAtMicros, entry.1, entry.2 - 1⟩ := by
  simp only [topicOffsets, List.mem_map, List.mem_filter, decide_eq_true_eq]
  constructor
  · rintro ⟨entry, ⟨hentry, hpos⟩, rfl⟩
    exact ⟨entry, hentry, hpos, rfl⟩
  · rintro ⟨entry, hentry, hpos, rfl⟩
    exact ⟨entry, ⟨hentry, hpos⟩, rfl⟩

theorem mem_collectOffsets {perTopic : List (String × List (Nat × Nat))} {asOf : List SnapshotOffset}
    (h : collectOffsets stream perTopic = .ok asOf) {e : SnapshotOffset} :
    e ∈ asOf ↔ ∃ source ∈ perTopic, ∃ topic, stream.topics source.1 = some topic ∧ e ∈ topicOffsets topic source.2 := by
  induction perTopic generalizing asOf with
  | nil =>
    cases h
    simp
  | cons source rest ih =>
    obtain ⟨topic, others, htopic, hrest, rfl⟩ := collectOffsets_cons h
    rw [List.mem_append, ih hrest]
    simp only [List.mem_cons, exists_eq_or_imp, htopic, Option.some.injEq, exists_eq_left']

/-- No two entries of a snapshot are of one partition. -/
theorem collectOffsets_distinct {perTopic : List (String × List (Nat × Nat))} {asOf : List SnapshotOffset}
    (hsorted : SortedKeys perTopic) (htails : ∀ source ∈ perTopic, SortedKeys source.2)
    (h : collectOffsets stream perTopic = .ok asOf) : asOf.Pairwise fun a b => a.key ≠ b.key := by
  induction perTopic generalizing asOf with
  | nil =>
    cases h
    exact List.Pairwise.nil
  | cons source rest ih =>
    obtain ⟨topic, others, htopic, hrest, rfl⟩ := collectOffsets_cons h
    obtain ⟨hfirst, hsortedRest⟩ := List.pairwise_cons.1 hsorted
    rw [List.forall_mem_cons] at htails
    refine List.pairwise_append.2 ⟨?_, ih hsortedRest htails.2 hrest, fun a ha b hb => ?_⟩
    · refine List.pairwise_map.2 ((htails.1.sublist List.filter_sublist).imp fun hlt => ?_)
      simpa [SnapshotOffset.key] using Nat.ne_of_lt hlt
    · obtain ⟨entry, -, -, rfl⟩ := mem_topicOffsets.1 ha
      obtain ⟨source', hsource', topic', htopic', hb⟩ := (mem_collectOffsets hrest).1 hb
      obtain ⟨entry', -, -, rfl⟩ := mem_topicOffsets.1 hb
      intro hkey
      simp only [SnapshotOffset.key, List.cons.injEq] at hkey
      have hname := stream.distinct htopic htopic' hkey.1
      exact absurd hname (ne_of_lt (hfirst source' hsource'))

theorem sortedKeys_of_pairwise {asOf : List SnapshotOffset} (h : asOf.Pairwise fun a b => a.key < b.key) :
    sortedKeys asOf = true := by
  induction asOf with
  | nil => rfl
  | cons first rest ih =>
    obtain ⟨hfirst, hrest⟩ := List.pairwise_cons.1 h
    cases rest with
    | nil => rfl
    | cons second rest =>
      rw [sortedKeys, Bool.and_eq_true]
      exact ⟨decide_eq_true (hfirst second List.mem_cons_self), ih hrest⟩

/-- A snapshot of a captured checkpoint passes its own check. -/
theorem sortedKeys_sortByKey {asOf : List SnapshotOffset} (h : asOf.Pairwise fun a b => a.key ≠ b.key) :
    sortedKeys (sortByKey (·.key) asOf) = true := by
  apply sortedKeys_of_pairwise
  have hne : (sortByKey (·.key) asOf).Pairwise fun a b : SnapshotOffset => a.key ≠ b.key :=
    ((sortByKey_perm asOf).pairwise_iff fun hab => Ne.symm hab).2 h
  exact (sortByKey_pairwise asOf).imp₂ (fun a b hle hne => lt_of_le_of_ne hle hne) hne

theorem snapshotFromCheckpoint_ok {foldName : String} {state : List UInt8} (hwithin : Within topics stream checkpoint.perTopic)
    (hstream : stream.name ≠ "") (hfold : foldName ≠ "") (htopics : ∀ name ∈ topics, (stream.topics name).isSome) :
    ∃ snapshot asOf, snapshotFromCheckpoint stream conversation foldName checkpoint state = .ok snapshot ∧
      collectOffsets stream checkpoint.perTopic = .ok asOf ∧ snapshot.validate = .ok () ∧
      snapshot = ⟨stream.name, stream.id, stream.createdAtMicros, conversation, foldName, sortByKey (·.key) asOf, state⟩ := by
  obtain ⟨asOf, hasOf⟩ := collectOffsets_ok fun entry hentry => htopics entry.1 (hwithin.named entry hentry)
  have hdistinct := collectOffsets_distinct hwithin.sorted (fun source hsource => (hwithin.tails source hsource).sorted) hasOf
  have hvalid : (⟨stream.name, stream.id, stream.createdAtMicros, conversation, foldName, sortByKey (·.key) asOf, state⟩ :
      FoldSnapshot).validate = .ok () := by
    unfold FoldSnapshot.validate
    rw [if_neg (by simp [hstream, hfold]), if_neg (by rw [sortedKeys_sortByKey hdistinct]; simp)]
    rfl
  refine ⟨_, asOf, ?_, hasOf, hvalid, rfl⟩
  unfold snapshotFromCheckpoint
  rw [hasOf]
  show (FoldSnapshot.validate _ >>= fun _ => pure _) = _
  rw [hvalid]
  rfl

/-- A snapshot remembers every offset of its checkpoint. -/
theorem resumeOffset_eq {snapshot : FoldSnapshot} {asOf : List SnapshotOffset} {name : String} {topic : Topic}
    (hwithin : Within topics stream checkpoint.perTopic) (hasOf : collectOffsets stream checkpoint.perTopic = .ok asOf)
    (hsnapshot : snapshot.asOf = sortByKey (·.key) asOf) (htopic : stream.topics name = some topic) (partition : Nat) :
    snapshot.resumeOffset topic.id topic.createdAtMicros partition = checkpoint.next name partition := by
  unfold FoldSnapshot.resumeOffset
  rw [hsnapshot]
  split
  next entry hfind =>
    have hkey := List.find?_some hfind
    obtain ⟨source, hsource, topic', htopic', hentry⟩ := (mem_collectOffsets hasOf).1 (mem_sortByKey.1 (List.mem_of_find?_eq_some hfind))
    obtain ⟨pair, hpair, hpos, rfl⟩ := mem_topicOffsets.1 hentry
    simp only [decide_eq_true_eq, SnapshotOffset.key, List.cons.injEq, and_true] at hkey
    obtain ⟨hid, -, rfl⟩ := hkey
    have hname : source.1 = name := stream.distinct htopic' htopic hid
    have hlookup := hwithin.sorted.lookup_of_mem hsource
    have hoffset := (hwithin.tails source hsource).sorted.lookup_of_mem hpair
    rw [Checkpoint.next, ← hname, hlookup, Option.bind_some, hoffset, Option.getD_some]
    dsimp only
    omega
  next hfind =>
    rw [List.find?_eq_none] at hfind
    unfold Checkpoint.next
    cases hlookup : checkpoint.perTopic.lookup name with
    | none => rfl
    | some offsets =>
      rw [Option.bind_some]
      cases hoffset : offsets.lookup partition with
      | none => rfl
      | some next =>
        rw [Option.getD_some]
        by_contra hne
        have hmem : (⟨topic.id, topic.createdAtMicros, partition, next - 1⟩ : SnapshotOffset) ∈ asOf :=
          (mem_collectOffsets hasOf).2 ⟨_, mem_of_lookup hlookup, topic, htopic,
            mem_topicOffsets.2 ⟨_, mem_of_lookup hoffset, by omega, rfl⟩⟩
        exact hfind _ (mem_sortByKey.2 hmem) (decide_eq_true rfl)

theorem lookup_map_self {β : Type} (f : Nat → β) (l : List Nat) {i : Nat} (h : i ∈ l) :
    (l.map fun i => (i, f i)).lookup i = some (f i) := by
  induction l with
  | nil => cases h
  | cons j rest ih =>
    rw [List.map_cons, List.lookup_cons]
    by_cases hij : i = j
    · simp [hij]
    · rw [beq_eq_false_iff_ne.2 hij]
      exact ih ((List.mem_cons.1 h).resolve_left hij)

theorem resumeTopics_ok {snapshot : FoldSnapshot} (htopics : ∀ name ∈ topics, (stream.topics name).isSome) :
    ∃ perTopic sources, resumeTopics stream snapshot topics = .ok (perTopic, sources) ∧
      ∀ name ∈ topics, ∀ topic, stream.topics name = some topic →
        (topic.id, topic.createdAtMicros) ∈ sources ∧
        ∀ partition < topic.count, (⟨perTopic⟩ : Checkpoint).next name partition =
          snapshot.resumeOffset topic.id topic.createdAtMicros partition := by
  induction topics with
  | nil => exact ⟨[], [], rfl, nofun⟩
  | cons name rest ih =>
    rw [List.forall_mem_cons] at htopics
    obtain ⟨perTopic, sources, hrest, hall⟩ := ih htopics.2
    obtain ⟨topic, htopic⟩ := Option.isSome_iff_exists.1 htopics.1
    let offsets := (List.range topic.count).map fun partition =>
      (partition, snapshot.resumeOffset topic.id topic.createdAtMicros partition)
    refine ⟨insertKey name offsets perTopic, (topic.id, topic.createdAtMicros) :: sources, ?_, ?_⟩
    · unfold resumeTopics
      rw [htopic, hrest]
      rfl
    · intro other hother topic' htopic'
      by_cases hsame : other = name
      · subst hsame
        rw [htopic] at htopic'
        cases htopic'
        refine ⟨List.mem_cons_self, fun partition hpartition => ?_⟩
        rw [Checkpoint.next, lookup_insertKey, Option.bind_some, lookup_map_self _ _ (List.mem_range.2 hpartition)]
        rfl
      · obtain ⟨hsource, hnext⟩ := hall other ((List.mem_cons.1 hother).resolve_left hsame) topic' htopic'
        refine ⟨List.mem_cons_of_mem _ hsource, fun partition hpartition => ?_⟩
        rw [Checkpoint.next, lookup_insertKey_ne hsame]
        exact hnext partition hpartition

theorem checkpointFromSnapshot_ok {snapshot : FoldSnapshot} {asOf : List SnapshotOffset}
    (hwithin : Within topics before checkpoint.perTopic) (hasOf : collectOffsets before checkpoint.perTopic = .ok asOf)
    (hvalid : snapshot.validate = .ok ()) (hsnapshot : snapshot.asOf = sortByKey (·.key) asOf)
    (hstream : snapshot.stream = before.name ∧ snapshot.streamId = before.id ∧
      snapshot.streamCreatedAtMicros = before.createdAtMicros)
    (htopics : ∀ name ∈ topics, (before.topics name).isSome) (hgrows : before.Grows after) :
    ∃ resumed, checkpointFromSnapshot after snapshot topics = .ok resumed ∧
      ∀ name ∈ topics, ∀ topic, after.topics name = some topic → ∀ partition < topic.count,
        resumed.next name partition = checkpoint.next name partition := by
  have hexist : ∀ name ∈ topics, ∃ topic later, before.topics name = some topic ∧ after.topics name = some later ∧
      topic.Grows later := by
    intro name hname
    obtain ⟨topic, htopic⟩ := Option.isSome_iff_exists.1 (htopics name hname)
    obtain ⟨later, hlater, htopicGrows⟩ := hgrows.topics name topic htopic
    exact ⟨topic, later, htopic, hlater, htopicGrows⟩
  obtain ⟨perTopic, sources, hresume, hall⟩ := @resumeTopics_ok topics after snapshot fun name hname => by
    obtain ⟨topic, later, -, hlater, -⟩ := hexist name hname
    exact Option.isSome_iff_exists.2 ⟨later, hlater⟩
  -- Every entry is of a topic that is still the same one.
  have hcurrent : (snapshot.asOf.any fun entry => decide ((entry.topicId, entry.topicCreatedAtMicros) ∉ sources)) = false := by
    rw [List.any_eq_false]
    intro entry hentry
    rw [hsnapshot] at hentry
    obtain ⟨source, hsource, topic, htopic, hoffsets⟩ := (mem_collectOffsets hasOf).1 (mem_sortByKey.1 hentry)
    obtain ⟨pair, -, -, rfl⟩ := mem_topicOffsets.1 hoffsets
    have hname := hwithin.named source hsource
    obtain ⟨later, hlater, htopicGrows⟩ := hgrows.topics source.1 topic htopic
    have hsources := (hall source.1 hname later hlater).1
    rw [htopicGrows.id, htopicGrows.createdAtMicros] at hsources
    simpa using hsources
  refine ⟨⟨perTopic⟩, ?_, ?_⟩
  · unfold checkpointFromSnapshot
    rw [hvalid]
    show (if snapshot.stream ≠ after.name then _ else _) = _
    rw [if_neg (by rw [hstream.1, hgrows.name]; simp), if_neg (by rw [hstream.2.1, hstream.2.2, hgrows.id, hgrows.createdAtMicros]; simp),
      hresume]
    show (if _ then _ else _) = _
    rw [hcurrent]
    rfl
  · intro name hname later hlater partition hpartition
    obtain ⟨topic, later', htopic, hlater', htopicGrows⟩ := hexist name hname
    rw [hlater] at hlater'
    cases hlater'
    rw [(hall name hname later hlater).2 partition hpartition, htopicGrows.id, htopicGrows.createdAtMicros]
    exact resumeOffset_eq hwithin hasOf hsnapshot htopic partition

end LaserSdk.Context

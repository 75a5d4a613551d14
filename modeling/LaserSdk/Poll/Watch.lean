import LaserSdk.Poll.Cursor
/-!
# The change feed as a stream

A watch reader polls the change topic and keeps the records of one index. Its
stream hands out a batch record by record and ends at the first batch that is
empty. A batch is empty once it is filtered, so a stretch of foreign records as
long as a drain ends the stream too. We prove when it reads the whole topic.
-/

namespace LaserSdk.Poll

open Lib

/-- One advancement of a materialized view. -/
structure ChangeRecord where
  v : Nat
  index : String
  partitionId : Nat
  fromOffset : Nat
  toOffset : Nat
  rows : Nat
  stream : Option String
  deriving DecidableEq, Repr

/-- A record of the change topic, with its change record if it decodes to one. -/
abbrev Change : Type := Located (Option ChangeRecord)

structure WatchReader where
  cursor : Cursor
  index : Option String
  deriving DecidableEq, Repr

/-- The stream between two items. `polled` counts the polls made so far. -/
structure StreamState where
  reader : WatchReader
  buffered : List ChangeRecord
  stop : Bool
  polled : Nat
  deriving DecidableEq, Repr

/-- The end of a stream, with the reader as its last poll leaves it, or the next item. -/
inductive StreamNext (ε : Type) where
  | ended (reader : WatchReader)
  | item (item : Except ε ChangeRecord) (state : StreamState)

namespace WatchReader

def fromOffsets (r : WatchReader) (offsets : List Nat) : WatchReader := { r with cursor := r.cursor.fromOffsets offsets }

/-- What a poll makes of a message. -/
def accepts (r : WatchReader) (message : Change) : Option ChangeRecord :=
  message.body.filter fun record => r.index.all (record.index = ·)

section

variable {ε : Type} (topic : Topic (Option ChangeRecord))

/-- A poll that meets an error changes nothing of the reader. -/
def poll (r : WatchReader) : Except ε View → Except ε (List ChangeRecord × WatchReader)
  | .error e => .error e
  | .ok view =>
    let (messages, cursor) := r.cursor.pollIggy topic view
    .ok (messages.filterMap r.accepts, { r with cursor })

end

def stream (r : WatchReader) : StreamState := ⟨r, [], false, 0⟩

end WatchReader

section

variable {ε : Type} (topic : Topic (Option ChangeRecord)) (answers : Nat → Except ε View)

/-- One turn of the stream. `answers` is what each poll meets. -/
def StreamState.next (s : StreamState) : StreamNext ε :=
  if s.stop then .ended s.reader
  else
    match s.buffered with
    | record :: rest => .item (.ok record) { s with buffered := rest }
    | [] =>
      match s.reader.poll topic (answers s.polled) with
      | .error e => .item (.error e) { s with stop := true, polled := s.polled + 1 }
      | .ok ([], reader) => .ended reader
      | .ok (record :: rest, reader) => .item (.ok record) ⟨reader, rest, false, s.polled + 1⟩

/-- All that a stream yields, if it ends within so many turns. -/
def StreamState.collect : Nat → StreamState → Option (List (Except ε ChangeRecord) × WatchReader)
  | 0, _ => none
  | turns + 1, s =>
    match s.next topic answers with
    | .ended reader => some ([], reader)
    | .item item s => (collect turns s).map fun (items, reader) => (item :: items, reader)

end

/-! ## Turns and polls -/

section

variable {ε : Type} {topic : Topic (Option ChangeRecord)} {answers : Nat → Except ε View} {s : StreamState}

/-- A stream ends in one way. -/
theorem StreamState.collect_unique {m n : Nat} {x y : List (Except ε ChangeRecord) × WatchReader}
    (hx : s.collect topic answers m = some x) (hy : s.collect topic answers n = some y) : x = y := by
  induction m generalizing n s x y with
  | zero => cases hx
  | succ m ih =>
    cases n with
    | zero => cases hy
    | succ n =>
      simp only [collect] at hx hy
      cases hnext : s.next topic answers with
      | ended reader =>
        rw [hnext] at hx hy
        exact Option.some.inj (hx.symm.trans hy)
      | item item s' =>
        rw [hnext] at hx hy
        obtain ⟨x', hx', rfl⟩ := Option.map_eq_some_iff.1 hx
        obtain ⟨y', hy', rfl⟩ := Option.map_eq_some_iff.1 hy
        rw [ih hx' hy']

/-- What is buffered is handed out before anything else. -/
theorem StreamState.collect_buffered {reader reader' : WatchReader} {buffered : List ChangeRecord} {polled turns : Nat}
    {items : List (Except ε ChangeRecord)}
    (h : StreamState.collect topic answers turns ⟨reader, [], false, polled⟩ = some (items, reader')) :
    StreamState.collect topic answers (buffered.length + turns) ⟨reader, buffered, false, polled⟩ =
      some (buffered.map .ok ++ items, reader') := by
  induction buffered with
  | nil => simpa using h
  | cons record rest ih =>
    rw [List.length_cons, Nat.succ_add, collect]
    simp [next, ih]

end

/-! ## A topic that stays as it is -/

section

variable (topic : Topic (Option ChangeRecord))

/-- Every poll meets the whole topic, as nothing is appended. -/
def Quiet {ε : Type} (answers : Nat → Except ε View) : Prop :=
  ∀ poll, ∃ view, answers poll = .ok view ∧ view.partitions = some topic.length ∧
    ∀ partition, (topic.log partition).length ≤ view.seen partition

/-- What a cursor has before it. -/
def Cursor.unread (c : Cursor) (partition : Nat) : List Change := (topic.log partition).drop (c.next partition)

/-- What a round of drains takes from a partition. -/
def Cursor.chunk (c : Cursor) (round partition : Nat) : List Change :=
  ((c.unread topic partition).drop (round * maxDrainMessages)).take maxDrainMessages

/-- The next offsets after so many rounds. -/
def Cursor.reached (c : Cursor) (rounds partition : Nat) : Nat :=
  if partition < boundedPartitions topic.length then
    c.next partition + ((c.unread topic partition).take (rounds * maxDrainMessages)).length
  else c.next partition

/-- A round of drains, merged. -/
def Cursor.round (c : Cursor) (round : Nat) : List Change :=
  sortByKey Located.fields ((List.range (boundedPartitions topic.length)).flatMap (c.chunk topic round))

end

section

variable {ε : Type} {topic : Topic (Option ChangeRecord)} {answers : Nat → Except ε View} {start c : Cursor} {view : View}
  {round : Nat}

theorem drop_length_take {α : Type} (l : List α) (n : Nat) : l.drop (l.take n).length = l.drop n := by
  rcases Nat.le_total n l.length with hle | hge
  · rw [List.length_take_of_le hle]
  · rw [List.take_of_length_le hge, List.drop_length, List.drop_eq_nil_of_le hge]

/-- A drain of the next round. -/
theorem drain_round {partition : Nat} (hat : c.next partition = start.reached topic round partition)
    (hseen : (topic.log partition).length ≤ view.seen partition) (hlt : partition < boundedPartitions topic.length) :
    (c.drain topic view partition).messages = start.chunk topic round partition ∧
      (c.drain topic view partition).nextOffset = start.reached topic (round + 1) partition := by
  have hunread : (topic.log partition).drop (c.next partition) =
      (start.unread topic partition).drop (round * maxDrainMessages) := by
    rw [hat, Cursor.reached, if_pos hlt, ← List.drop_drop]
    exact drop_length_take _ _
  rw [Cursor.drain, drainPartition_eq, List.take_of_length_le hseen]
  dsimp only [within]
  rw [hunread]
  refine ⟨rfl, ?_⟩
  rw [hat, Cursor.reached, Cursor.reached, if_pos hlt, if_pos hlt, Nat.add_assoc, ← List.length_append, ← List.take_add,
    Nat.add_one_mul]

theorem pollIggy_round (hat : ∀ partition, c.next partition = start.reached topic round partition)
    (hpartitions : view.partitions = some topic.length)
    (hseen : ∀ partition, (topic.log partition).length ≤ view.seen partition) :
    (c.pollIggy topic view).1 = start.round topic round ∧
      ∀ partition, (c.pollIggy topic view).2.next partition = start.reached topic (round + 1) partition := by
  constructor
  · simp only [Cursor.pollIggy, hpartitions, Cursor.round, List.flatMap_map]
    congr 1
    refine List.flatMap_congr fun partition hpartition => ?_
    exact (drain_round (hat partition) (hseen partition) (List.mem_range.1 hpartition)).1
  · intro partition
    rw [next_pollIggy topic c hpartitions]
    split
    next hlt => exact (drain_round (hat partition) (hseen partition) hlt).2
    next hge => rw [hat, Cursor.reached, Cursor.reached, if_neg hge, if_neg hge]

/-- A reader after so many rounds of a stream that `r` began. -/
structure WatchReader.After (topic : Topic (Option ChangeRecord)) (r : WatchReader) (rounds : Nat) (reader : WatchReader) :
    Prop where
  next : ∀ partition, reader.cursor.next partition = r.cursor.reached topic rounds partition
  index : reader.index = r.index

variable {r reader : WatchReader}

theorem After.accepts (h : r.After topic round reader) : reader.accepts = r.accepts := by
  funext message
  rw [WatchReader.accepts, WatchReader.accepts, h.index]

theorem poll_round (hquiet : Quiet topic answers) (h : r.After topic round reader) :
    ∃ reader', r.After topic (round + 1) reader' ∧
      reader.poll topic (answers round) = .ok ((r.cursor.round topic round).filterMap r.accepts, reader') := by
  obtain ⟨view, hview, hpartitions, hseen⟩ := hquiet round
  obtain ⟨hbatch, hnext⟩ := pollIggy_round h.next hpartitions hseen
  refine ⟨{ reader with cursor := (reader.cursor.pollIggy topic view).2 }, ⟨hnext, h.index⟩, ?_⟩
  rw [hview]
  simp only [WatchReader.poll, hbatch, After.accepts h]

/-- A stream yields the rounds up to the first without a match. -/
theorem collect_rounds (hquiet : Quiet topic answers) {rounds : Nat} (h : r.After topic round reader)
    (hfound : ∀ k, round ≤ k → k < round + rounds → (r.cursor.round topic k).filterMap r.accepts ≠ [])
    (hnone : (r.cursor.round topic (round + rounds)).filterMap r.accepts = []) :
    ∃ turns reader', r.After topic (round + rounds + 1) reader' ∧
      StreamState.collect topic answers turns ⟨reader, [], false, round⟩ =
        some ((((List.range' round rounds).flatMap (r.cursor.round topic)).filterMap r.accepts).map .ok, reader') := by
  induction rounds generalizing round reader with
  | zero =>
    obtain ⟨reader', hafter, hpoll⟩ := poll_round hquiet h
    refine ⟨1, reader', hafter, ?_⟩
    rw [Nat.add_zero] at hnone
    simp [StreamState.collect, StreamState.next, hpoll, hnone]
  | succ rounds ih =>
    obtain ⟨reader', hafter, hpoll⟩ := poll_round hquiet h
    obtain ⟨turns, last, hlast, hrest⟩ := ih hafter (fun k hk hlt => hfound k (by omega) (by omega))
      (by rw [← hnone]; congr 2; omega)
    have hsome := hfound round (Nat.le_refl _) (by omega)
    cases hbatch : (r.cursor.round topic round).filterMap r.accepts with
    | nil => exact absurd hbatch hsome
    | cons record batch =>
      have hbuffered := @StreamState.collect_buffered _ _ _ _ _ batch _ _ _ hrest
      refine ⟨batch.length + turns + 1, last, by rw [show round + (rounds + 1) = round + 1 + rounds by omega]; exact hlast, ?_⟩
      rw [StreamState.collect, StreamState.next]
      simp [hpoll, hbatch, hbuffered, List.range'_succ]

end

/-! ## What the rounds hold -/

section

variable {topic : Topic (Option ChangeRecord)} {c : Cursor} {r : WatchReader} {change : Change}

theorem mem_chunk {round partition : Nat} (h : change ∈ c.chunk topic round partition) : change ∈ topic.log partition :=
  List.mem_of_mem_drop (List.mem_of_mem_drop (List.mem_of_mem_take h))

theorem partition_chunk {round partition : Nat} (h : change ∈ c.chunk topic round partition) : change.partition = partition :=
  (mem_located.1 (mem_chunk h)).1

theorem mem_records {partition : Nat} (h : change ∈ topic.log partition) : change ∈ topic.records := by
  refine List.mem_flatMap.2 ⟨partition, List.mem_range.2 ?_, h⟩
  by_contra hpast
  rw [Topic.log_past (Nat.not_lt.1 hpast)] at h
  cases h

theorem round_none {round : Nat} : (r.cursor.round topic round).filterMap r.accepts = [] ↔
    ∀ partition < boundedPartitions topic.length, ∀ change ∈ r.cursor.chunk topic round partition, r.accepts change = none := by
  simp only [Cursor.round, List.filterMap_eq_nil_iff, mem_sortByKey, List.mem_flatMap, List.mem_range]
  constructor
  · exact fun h partition hlt change hchange => h change ⟨partition, hlt, hchange⟩
  · rintro h change ⟨partition, hlt, hchange⟩
    exact h partition hlt change hchange

/-- Some round has nothing left to read. -/
theorem exists_round_none (topic : Topic (Option ChangeRecord)) (r : WatchReader) :
    ∃ round, (r.cursor.round topic round).filterMap r.accepts = [] := by
  refine ⟨topic.flatten.length, round_none.2 fun partition _ change hchange => ?_⟩
  have hlength : (r.cursor.unread topic partition).length ≤ topic.flatten.length := by
    rw [Cursor.unread, List.length_drop, Topic.log, located, List.length_map, List.length_zipIdx, List.getD_eq_getElem?_getD]
    cases hlog : topic[partition]? with
    | none => simp
    | some log =>
      have hsub := (List.sublist_flatten_of_mem (List.mem_of_getElem? hlog)).length_le
      simp only [Option.getD_some]
      omega
  have hmax : topic.flatten.length ≤ topic.flatten.length * maxDrainMessages := Nat.le_mul_of_pos_right _ (by decide)
  rw [Cursor.chunk, List.drop_eq_nil_of_le (hlength.trans hmax), List.take_nil] at hchange
  cases hchange

/-- What the first rounds take from a partition. -/
theorem flatMap_chunk (c : Cursor) (rounds partition : Nat) :
    (List.range rounds).flatMap (fun round => c.chunk topic round partition) =
      (c.unread topic partition).take (rounds * maxDrainMessages) := by
  induction rounds with
  | zero => simp
  | succ rounds ih =>
    rw [List.range_succ, List.flatMap_append, ih, Nat.add_one_mul, List.take_add]
    simp [Cursor.chunk]

/-- The part with one tag of what tagged lists give. -/
theorem filter_flatMap_range {α : Type} {f : Nat → List α} {tag : α → Nat} (h : ∀ i, ∀ a ∈ f i, tag a = i) (n i : Nat) :
    ((List.range n).flatMap f).filter (tag · = i) = if i < n then f i else [] := by
  have hother : ∀ j, j ≠ i → (f j).filter (tag · = i) = [] := by
    intro j hne
    refine List.filter_eq_nil_iff.2 fun a ha => ?_
    simpa [h j a ha] using hne
  have hown : (f i).filter (tag · = i) = f i := List.filter_eq_self.2 fun a ha => by simp [h i a ha]
  induction n with
  | zero => simp
  | succ n ih =>
    rw [List.range_succ, List.flatMap_append, List.filter_append, ih]
    simp only [List.flatMap_cons, List.flatMap_nil, List.append_nil]
    rcases Nat.lt_trichotomy i n with hlt | rfl | hgt
    · rw [if_pos hlt, if_pos (by omega), hother n (by omega), List.append_nil]
    · rw [if_neg (by omega), if_pos (by omega), hown, List.nil_append]
    · rw [if_neg (by omega), if_neg (by omega), hother n (by omega), List.append_nil]

/-- Times do not go back within a partition. -/
def Clocked (topic : Topic (Option ChangeRecord)) : Prop := ∀ log ∈ topic, log.Pairwise fun a b => a.timestamp ≤ b.timestamp

theorem log_sorted (hclock : Clocked topic) (partition : Nat) :
    (topic.log partition).Pairwise fun a b => a.fields ≤ b.fields := by
  rw [Topic.log, located, List.pairwise_map, List.getD_eq_getElem?_getD]
  cases hlog : topic[partition]? with
  | none => simp
  | some log =>
    rw [Option.getD_some, List.pairwise_iff_getElem]
    intro i j hi hj hlt
    simp only [List.length_zipIdx] at hi hj
    have htime := List.pairwise_iff_getElem.1 (hclock log (List.mem_of_getElem? hlog)) i j hi hj hlt
    simp only [List.getElem_zipIdx, Located.fields, Nat.zero_add]
    rcases Nat.lt_or_eq_of_le htime with hlater | heq
    · exact le_of_lt (List.Lex.rel hlater)
    · rw [heq]
      exact le_of_lt (List.Lex.cons (List.Lex.cons (List.Lex.rel hlt)))

/-- A round keeps each partition's order. -/
theorem round_filter (hclock : Clocked topic) (c : Cursor) (round partition : Nat) :
    (c.round topic round).filter (·.partition = partition) =
      if partition < boundedPartitions topic.length then c.chunk topic round partition else [] := by
  have hperm : ((c.round topic round).filter (·.partition = partition)).Perm
      (if partition < boundedPartitions topic.length then c.chunk topic round partition else []) := by
    have := (@sortByKey_perm _ _ _ Located.fields
      ((List.range (boundedPartitions topic.length)).flatMap (c.chunk topic round))).filter (·.partition = partition)
    rwa [filter_flatMap_range fun i a ha => partition_chunk ha] at this
  refine eq_of_sorted ?_ ((sortByKey_pairwise _).filter _) ?_ hperm
  · intro a ha b hb
    have hmem : ∀ x ∈ (c.round topic round).filter (·.partition = partition), x ∈ topic.records := by
      intro x hx
      have hx := hperm.mem_iff.1 hx
      split at hx
      · exact mem_records (mem_chunk hx)
      · cases hx
    exact fields_injective (hmem a ha) (hmem b hb)
  · split
    · exact ((log_sorted hclock partition).drop.drop).take
    · exact List.Pairwise.nil

end

/-! ## Reading the whole topic -/

section

variable {ε : Type} {topic : Topic (Option ChangeRecord)} {answers : Nat → Except ε View} {r : WatchReader}

/-- The stream ends, has yielded the matching records of each partition from
where the reader stood, each once and in their order, and stands at the tail of
every partition. -/
def WatchReader.ReadsAll (topic : Topic (Option ChangeRecord)) (answers : Nat → Except ε View) (r : WatchReader) : Prop :=
  ∃ (turns : Nat) (read : List Change) (reader : WatchReader),
    r.stream.collect topic answers turns = some ((read.filterMap r.accepts).map .ok, reader) ∧
    (∀ partition, read.filter (·.partition = partition) =
      (r.cursor.unread topic partition).filter fun change => (r.accepts change).isSome) ∧
    reader.cursor.Done topic

/-- No partition past the first 1,024 has anything unread, and a round of
drains that leaves something unread holds a match. -/
def WatchReader.Covers (topic : Topic (Option ChangeRecord)) (r : WatchReader) : Prop :=
  (∀ partition, maxTopicPartitions ≤ partition → r.cursor.unread topic partition = []) ∧
  ∀ round, (∃ partition, (round + 1) * maxDrainMessages < (r.cursor.unread topic partition).length) →
    ∃ partition, ∃ change ∈ r.cursor.chunk topic round partition, (r.accepts change).isSome

/-- A stream ends after its first round without a match. -/
theorem stream_ends (hquiet : Quiet topic answers) (r : WatchReader) :
    ∃ rounds, (∀ k < rounds, (r.cursor.round topic k).filterMap r.accepts ≠ []) ∧
      (r.cursor.round topic rounds).filterMap r.accepts = [] ∧
      ∃ turns reader, r.After topic (rounds + 1) reader ∧ r.stream.collect topic answers turns =
        some ((((List.range rounds).flatMap (r.cursor.round topic)).filterMap r.accepts).map .ok, reader) := by
  classical
  have hexists := exists_round_none topic r
  have hfirst := fun k (hlt : k < Nat.find hexists) => Nat.find_min hexists hlt
  have hstart : r.After topic 0 r := ⟨fun partition => by simp [Cursor.reached], rfl⟩
  obtain ⟨turns, reader, hafter, hcollect⟩ := @collect_rounds _ _ _ 0 r r hquiet (Nat.find hexists) hstart
    (fun k _ hlt => hfirst k (by omega)) (by rw [Nat.zero_add]; exact Nat.find_spec hexists)
  rw [Nat.zero_add] at hafter
  rw [← List.range_eq_range'] at hcollect
  exact ⟨Nat.find hexists, hfirst, Nat.find_spec hexists, turns, reader, hafter, hcollect⟩

theorem filterMap_matching {α β : Type} (f : α → Option β) (l : List α) :
    (l.filter fun a => (f a).isSome).filterMap f = l.filterMap f := by
  induction l with
  | nil => rfl
  | cons a l ih =>
    cases hf : f a <;> simp [hf, ih]

theorem unread_eq_nil {partition : Nat} {c : Cursor}
    (hpast : ∀ partition, maxTopicPartitions ≤ partition → c.unread topic partition = [])
    (h : ¬ partition < boundedPartitions topic.length) : c.unread topic partition = [] := by
  rcases Nat.lt_or_ge partition topic.length with hlt | hge
  · apply hpast
    unfold boundedPartitions at h
    omega
  · rw [Cursor.unread, Topic.log_past hge, List.drop_nil]

/-- Rounds reach the tail exactly when they reach past all that was unread. -/
theorem done_iff {reader : WatchReader} {rounds : Nat} (h : r.After topic rounds reader) :
    reader.cursor.Done topic ↔ (∀ partition, maxTopicPartitions ≤ partition → r.cursor.unread topic partition = []) ∧
      ∀ partition, (r.cursor.unread topic partition).length ≤ rounds * maxDrainMessages := by
  have hlog : ∀ partition, (topic.log partition).length ≤ r.cursor.next partition + (r.cursor.unread topic partition).length := by
    intro partition
    rw [Cursor.unread, List.length_drop]
    omega
  unfold Cursor.Done
  simp only [h.next, Cursor.reached, List.length_take]
  constructor
  · intro hdone
    constructor
    · intro partition hpast
      have hle := hdone partition
      rw [if_neg (by unfold boundedPartitions; omega)] at hle
      exact List.drop_eq_nil_of_le hle
    · intro partition
      have hle := hdone partition
      split at hle
      · rw [Cursor.unread, List.length_drop] at hle ⊢
        omega
      · rw [Cursor.unread, List.drop_eq_nil_of_le hle]
        exact Nat.zero_le _
  · rintro ⟨hpast, hreach⟩ partition
    split
    · rw [Nat.min_eq_right (hreach partition)]
      exact hlog partition
    · rename_i hbeyond
      have hle := hlog partition
      rw [unread_eq_nil hpast hbeyond] at hle
      exact hle

theorem covers_of_readsAll (hquiet : Quiet topic answers) (h : r.ReadsAll topic answers) : r.Covers topic := by
  obtain ⟨rounds, hfound, -, turns, reader, hafter, hcollect⟩ := stream_ends hquiet r
  obtain ⟨turns', read, reader', hcollect', -, hdone⟩ := h
  obtain rfl : reader = reader' := congrArg Prod.snd (StreamState.collect_unique hcollect hcollect')
  obtain ⟨hpast, hreach⟩ := (done_iff hafter).1 hdone
  refine ⟨hpast, ?_⟩
  rintro round ⟨partition, hlong⟩
  have hlt : round < rounds := by
    by_contra hge
    have hle := hreach partition
    have := Nat.mul_le_mul_right maxDrainMessages (show rounds + 1 ≤ round + 1 by omega)
    omega
  by_contra hnone
  refine hfound round hlt (round_none.2 fun p _ change hchange => ?_)
  by_contra hsome
  exact hnone ⟨p, change, hchange, Option.isSome_iff_ne_none.2 hsome⟩

theorem readsAll_of_covers (hclock : Clocked topic) (hquiet : Quiet topic answers) (h : r.Covers topic) :
    r.ReadsAll topic answers := by
  obtain ⟨hpast, hcovers⟩ := h
  obtain ⟨rounds, -, hnone, turns, reader, hafter, hcollect⟩ := stream_ends hquiet r
  have hreach : ∀ partition, (r.cursor.unread topic partition).length ≤ (rounds + 1) * maxDrainMessages := by
    by_contra hlong
    simp only [not_forall, Nat.not_le] at hlong
    obtain ⟨partition, change, hchange, hsome⟩ := hcovers rounds hlong
    have hlt : partition < boundedPartitions topic.length := by
      by_contra hge
      rw [Cursor.chunk, unread_eq_nil hpast hge, List.drop_nil] at hchange
      cases hchange
    rw [round_none.1 hnone partition hlt change hchange] at hsome
    cases hsome
  refine ⟨turns, ((List.range rounds).flatMap (r.cursor.round topic)).filter fun change => (r.accepts change).isSome,
    reader, ?_, ?_, (done_iff hafter).2 ⟨hpast, hreach⟩⟩
  · rw [hcollect, filterMap_matching]
  · intro partition
    have hread : ((List.range rounds).flatMap (r.cursor.round topic)).filter (·.partition = partition) =
        if partition < boundedPartitions topic.length then (r.cursor.unread topic partition).take (rounds * maxDrainMessages)
        else [] := by
      rw [List.filter_flatMap]
      simp only [round_filter hclock]
      split
      · exact flatMap_chunk r.cursor rounds partition
      · simp
    rw [List.filter_comm, hread]
    split
    next hlt =>
      -- What the last round took holds no match.
      have hlast : (r.cursor.unread topic partition).drop (rounds * maxDrainMessages) = r.cursor.chunk topic rounds partition := by
        rw [Cursor.chunk, List.take_of_length_le]
        have hle := hreach partition
        rw [Nat.add_one_mul] at hle
        rw [List.length_drop]
        omega
      have hfiltered : (r.cursor.chunk topic rounds partition).filter (fun change => (r.accepts change).isSome) = [] := by
        refine List.filter_eq_nil_iff.2 fun change hchange => ?_
        simp [round_none.1 hnone partition hlt change hchange]
      conv_rhs => rw [← List.take_append_drop (rounds * maxDrainMessages) (r.cursor.unread topic partition)]
      rw [List.filter_append, hlast, hfiltered, List.append_nil]
    next hge => rw [unread_eq_nil hpast hge]

/-- The stream of a quiet topic reads it to the tail exactly when the reader
covers it. -/
theorem stream_readsAll_iff (hclock : Clocked topic) (hquiet : Quiet topic answers) :
    r.ReadsAll topic answers ↔ r.Covers topic :=
  ⟨covers_of_readsAll hquiet, readsAll_of_covers hclock hquiet⟩

/-- One drain is enough for short partitions. -/
theorem covers_of_short (hpartitions : topic.length ≤ maxTopicPartitions) (h : ∀ log ∈ topic, log.length ≤ maxDrainMessages) :
    r.Covers topic := by
  have hshort : ∀ partition, (r.cursor.unread topic partition).length ≤ maxDrainMessages := by
    intro partition
    rw [Cursor.unread, List.length_drop, Topic.log, located, List.length_map, List.length_zipIdx, List.getD_eq_getElem?_getD]
    cases hlog : topic[partition]? with
    | none => simp
    | some log => exact Nat.le_trans (Nat.sub_le _ _) (h log (List.mem_of_getElem? hlog))
  constructor
  · intro partition hpast
    rw [Cursor.unread, Topic.log_past (hpartitions.trans hpast), List.drop_nil]
  · rintro round ⟨partition, hlong⟩
    have hle := hshort partition
    rw [Nat.add_one_mul] at hlong
    omega

end

/-- A server that answers every poll in full. -/
def answersOf (topic : Topic (Option ChangeRecord)) : Nat → Except String View := fun _ =>
  .ok ⟨some topic.length, fun partition => (topic.log partition).length, fun _ _ => maxDrainMessages⟩

theorem answersOf_quiet (topic : Topic (Option ChangeRecord)) : Quiet topic (answersOf topic) :=
  fun _ => ⟨_, rfl, rfl, fun _ => Nat.le_refl _⟩

def changeOf (index : String) : ChangeRecord := ⟨1, index, 0, 0, 0, 1, none⟩

def shortFeed : Topic (Option ChangeRecord) :=
  [[⟨1, some (changeOf "mine")⟩, ⟨2, none⟩], [⟨1, some (changeOf "other")⟩, ⟨3, some (changeOf "mine")⟩]]

theorem shortFeed_read : WatchReader.ReadsAll shortFeed (answersOf shortFeed) ⟨.new, some "mine"⟩ :=
  (stream_readsAll_iff (by simp [Clocked, shortFeed]) (answersOf_quiet _)).2 (covers_of_short (by decide) (by decide))

/-- A record behind as many foreign records as a drain holds. -/
def hidden : Topic (Option ChangeRecord) := [List.replicate maxDrainMessages ⟨0, none⟩ ++ [⟨0, some (changeOf "mine")⟩]]

theorem located_take {β : Type} (partition n : Nat) (log : List (Appended β)) :
    (located partition log).take n = located partition (log.take n) := by
  apply List.ext_getElem?
  intro i
  simp only [located, List.getElem?_take, List.getElem?_map, List.getElem?_zipIdx]
  split <;> rfl

/-- The stream of a quiet topic ends before its tail. -/
theorem stream_ends_early : ¬ ∀ (topic : Topic (Option ChangeRecord)) (answers : Nat → Except String View) (r : WatchReader),
    Clocked topic → Quiet topic answers → r.ReadsAll topic answers := by
  intro h
  have hclock : Clocked hidden := by
    intro log hlog
    cases List.mem_singleton.1 hlog
    refine List.pairwise_append.2 ⟨List.pairwise_replicate.2 (.inr (Nat.le_refl _)), List.pairwise_singleton _ _, ?_⟩
    simp
  have hcovers := covers_of_readsAll (answersOf_quiet hidden) (h hidden _ ⟨.new, some "mine"⟩ hclock (answersOf_quiet _))
  have hlog : ∀ partition, Cursor.unread hidden .new partition = hidden.log partition := fun partition => rfl
  obtain ⟨partition, change, hchange, hsome⟩ := hcovers.2 0 ⟨0, by
    rw [hlog, Topic.log, located, List.length_map, List.length_zipIdx, hidden, List.getD_cons_zero]
    simp⟩
  -- Every record of the first drain is foreign.
  rw [Cursor.chunk, hlog, Nat.zero_mul, List.drop_zero, Topic.log, located_take] at hchange
  obtain ⟨-, hfound⟩ := mem_located.1 hchange
  have hforeign : change.body = none := by
    cases partition with
    | zero =>
      rw [hidden, List.getD_cons_zero, List.take_left' (List.length_replicate ..)] at hfound
      have heq := List.eq_of_mem_replicate (List.mem_of_getElem? hfound)
      exact congrArg Appended.body heq
    | succ partition =>
      simp [hidden] at hfound
  rw [WatchReader.accepts, hforeign] at hsome
  cases hsome

end LaserSdk.Poll

import Mathlib.Data.List.TakeWhile
import LaserSdk.Context.Replay
/-!
# Replaying a partition with gaps

The offsets of a partition ascend, but some may be missing, and a server may
answer a poll with fewer records than asked. A replay drains chunk after chunk
and still returns each record of its range once and in order. Without gaps its
drain is the one of a list of records.
-/

namespace LaserSdk.Context.Gaps

open Lib Poll

variable {α : Type}

structure Message (α : Type) where
  offset : Nat
  body : α
  deriving DecidableEq, Repr

structure Partition (α : Type) where
  records : List (Message α)
  ascending : records.Pairwise fun x y => x.offset < y.offset

/-- The records at an offset or after it. -/
def Partition.since (partition : Partition α) (offset : Nat) : List (Message α) :=
  partition.records.filter (offset ≤ ·.offset)

/-- The records of a range, its end included. -/
def Partition.between (partition : Partition α) (start last : Nat) : List (Message α) :=
  partition.records.filter fun message => start ≤ message.offset ∧ message.offset ≤ last

/-- The offset of the last record, which every reply reports. -/
def Partition.currentOffset (partition : Partition α) : Nat := (partition.records.getLast?.map Message.offset).getD 0

/-- `u64::saturating_add(1)`. -/
def oneAfter (offset : Nat) : Nat := min (offset + 1) (2 ^ 64 - 1)

/-- The next offset to write. -/
def Partition.tail (partition : Partition α) : Nat := (partition.records.getLast?.map fun message => oneAfter message.offset).getD 0

/-- A server that answers a poll with a first run of the records at the offset
or after it: at most as many as asked, and one at least if there is one. -/
structure Server (partition : Partition α) where
  reply : (offset count : Nat) → List (Message α)
  initial : ∀ offset count, reply offset count <+: partition.since offset
  short : ∀ offset count, (reply offset count).length ≤ count
  nonempty : ∀ offset count, 0 < count → partition.since offset ≠ [] → reply offset count ≠ []

section

variable {partition : Partition α} (server : Server partition) (stop : Option Nat) (batch : Nat)

/-- `None` stands for a loop that goes on. -/
def drainLoop : (fuel offset : Nat) → (messages : List (Message α)) → Option (PartitionBatch (Message α))
  | 0, _, _ => none
  | fuel + 1, offset, messages =>
    let received := server.reply offset (min (max batch 1) (maxDrainMessages - messages.length))
    match received.getLast? with
    | none => some ⟨messages, offset⟩
    | some newest =>
      let next := oneAfter newest.offset
      match stop.filter fun last => received.any (last < ·.offset) with
      | some last => some ⟨messages ++ received.takeWhile (·.offset ≤ last), oneAfter last⟩
      | none =>
        let messages := messages ++ received
        -- A reply can stop short, so only the current offset proves the tail.
        if partition.currentOffset < next then some ⟨messages, next⟩
        else if maxDrainMessages ≤ messages.length then some ⟨messages, next⟩
        else if stop.any (· < next) then some ⟨messages, next⟩
        else drainLoop fuel next messages

/-- Every poll brings a message, so the ceiling bounds the polls. -/
def drainPartition (range : DrainRange) : Option (PartitionBatch (Message α)) :=
  if range.stop.any (· < range.start) then some ⟨[], range.start⟩
  else drainLoop server range.stop batch maxDrainMessages range.start []

/-- The chunks of a replay. -/
def replayLoop : (fuel : Nat) → DrainRange → Option (List (Message α))
  | 0, _ => none
  | fuel + 1, range => do
    let chunk ← drainPartition server batch range
    if readsFurther .whole chunk.messages.length chunk.nextOffset range.stop then
      (replayLoop fuel { range with start := chunk.nextOffset }).map (chunk.messages ++ ·)
    else some chunk.messages

end

/-! ## Runs of records -/

variable {partition : Partition α}

theorem since_ascending (partition : Partition α) (offset : Nat) :
    (partition.since offset).Pairwise fun x y => x.offset < y.offset := partition.ascending.filter _

theorem since_since {offset later : Nat} (h : offset ≤ later) :
    (partition.since offset).filter (later ≤ ·.offset) = partition.since later := by
  unfold Partition.since
  rw [List.filter_filter]
  refine List.filter_congr fun message _ => ?_
  rw [Bool.eq_iff_iff]
  simp only [Bool.and_eq_true, decide_eq_true_eq]
  omega

/-- What follows a run starts after its newest record. -/
theorem since_after_run {offset : Nat} {before rest : List (Message α)} {newest : Message α}
    (h : partition.since offset = before ++ newest :: rest) : partition.since (newest.offset + 1) = rest := by
  have hmem : newest ∈ partition.since offset := by simp [h]
  have hoffset : offset ≤ newest.offset := of_decide_eq_true (List.mem_filter.1 hmem).2
  have hascending := since_ascending partition offset
  rw [h] at hascending
  obtain ⟨-, htail, hsplit⟩ := List.pairwise_append.1 hascending
  obtain ⟨hrest, -⟩ := List.pairwise_cons.1 htail
  have hbefore : before.filter (newest.offset + 1 ≤ ·.offset) = [] := by
    refine List.filter_eq_nil_iff.2 fun message hmessage => ?_
    have := hsplit message hmessage newest (List.mem_cons_self ..)
    simp only [decide_eq_true_eq]
    omega
  have hkept : rest.filter (newest.offset + 1 ≤ ·.offset) = rest := by
    refine List.filter_eq_self.2 fun message hmessage => ?_
    have := hrest message hmessage
    simp only [decide_eq_true_eq]
    omega
  rw [← @since_since α partition offset (newest.offset + 1) (by omega), h, List.filter_append, hbefore, List.filter_cons,
    if_neg (by simp), hkept, List.nil_append]

theorem between_eq (partition : Partition α) (start last : Nat) :
    partition.between start last = (partition.since start).filter (·.offset ≤ last) := by
  unfold Partition.between Partition.since
  rw [List.filter_filter]
  refine List.filter_congr fun message _ => ?_
  rw [Bool.eq_iff_iff]
  simp only [Bool.and_eq_true, decide_eq_true_eq]
  omega

theorem between_past {start last : Nat} (h : last < start) : partition.between start last = [] := by
  refine List.filter_eq_nil_iff.2 fun message _ => ?_
  simp only [decide_eq_true_eq]
  omega

theorem offset_le_current {message : Message α} (h : message ∈ partition.records) : message.offset ≤ partition.currentOffset := by
  rcases List.eq_nil_or_concat partition.records with hnone | ⟨before, newest, hrecords⟩
  · rw [hnone] at h
    cases h
  · have hascending := partition.ascending
    rw [hrecords, List.concat_eq_append] at hascending h
    rw [Partition.currentOffset, hrecords, List.concat_eq_append, List.getLast?_concat, Option.map_some, Option.getD_some]
    rcases List.mem_append.1 h with hbefore | hlast
    · exact Nat.le_of_lt ((List.pairwise_append.1 hascending).2.2 message hbefore newest (List.mem_singleton_self _))
    · rw [List.mem_singleton.1 hlast]

/-- Nothing follows the newest record of the partition. -/
theorem since_past_current {offset : Nat} (h : partition.currentOffset < offset) : partition.since offset = [] := by
  refine List.filter_eq_nil_iff.2 fun message hmessage => ?_
  have := offset_le_current hmessage
  simp only [decide_eq_true_eq]
  omega

/-- A run within the range, and what the range holds after it. -/
theorem between_run {offset last : Nat} {before rest : List (Message α)} {newest : Message α}
    (h : partition.since offset = before ++ newest :: rest) (hwithin : ∀ message ∈ before ++ [newest], message.offset ≤ last) :
    partition.between offset last = before ++ [newest] ++ partition.between (newest.offset + 1) last := by
  have hrun : (before ++ [newest]).filter (·.offset ≤ last) = before ++ [newest] := by
    refine List.filter_eq_self.2 fun message hmessage => ?_
    simpa using hwithin message hmessage
  rw [between_eq, between_eq, since_after_run h, h, show before ++ newest :: rest = (before ++ [newest]) ++ rest by simp,
    List.filter_append, hrun]

theorem filter_ascending {l : List (Message α)} (h : l.Pairwise fun x y => x.offset < y.offset) (last : Nat) :
    l.filter (·.offset ≤ last) = l.takeWhile (·.offset ≤ last) := by
  induction l with
  | nil => rfl
  | cons first rest ih =>
    obtain ⟨hfirst, hrest⟩ := List.pairwise_cons.1 h
    by_cases hle : first.offset ≤ last
    · simp [hle, ih hrest]
    · have hnone : rest.filter (·.offset ≤ last) = [] := by
        refine List.filter_eq_nil_iff.2 fun message hmessage => ?_
        have := hfirst message hmessage
        simp only [decide_eq_true_eq]
        omega
      simp [hle, hnone]

/-- A run that passes the end of the range holds all of the range. -/
theorem between_cut {offset last : Nat} {run rest : List (Message α)} (h : partition.since offset = run ++ rest)
    (hpast : ∃ message ∈ run, last < message.offset) :
    partition.between offset last = run.takeWhile (·.offset ≤ last) := by
  have hcut : (run.takeWhile (·.offset ≤ last)).length ≠ run.length := by
    intro hall
    obtain ⟨message, hmessage, hlast⟩ := hpast
    have hsame := List.IsPrefix.eq_of_length (List.takeWhile_prefix (fun message : Message α => message.offset ≤ last)) hall
    rw [← hsame] at hmessage
    have hwithin := List.mem_takeWhile_imp hmessage
    simp only [decide_eq_true_eq] at hwithin
    omega
  rw [between_eq, filter_ascending (since_ascending partition offset), h, List.takeWhile_append, if_neg hcut]

/-! ## One drain -/

theorem oneAfter_eq {offset last : Nat} (hlast : last < 2 ^ 64 - 1) (h : offset ≤ last) : oneAfter offset = offset + 1 := by
  unfold oneAfter
  omega

/-- A drain reads the start of its range, up to its end or to the ceiling. -/
theorem drainLoop_reads (server : Server partition) {batch last fuel offset : Nat} {messages : List (Message α)}
    (hlast : last < 2 ^ 64 - 1) (hroom : messages.length < maxDrainMessages)
    (hfuel : maxDrainMessages - messages.length ≤ fuel) :
    ∃ read next, drainLoop server (some last) batch fuel offset messages = some ⟨messages ++ read, next⟩ ∧
      partition.between offset last = read ++ partition.between next last ∧
      (maxDrainMessages ≤ (messages ++ read).length ∨ partition.between next last = []) := by
  induction fuel generalizing offset messages with
  | zero => omega
  | succ fuel ih =>
    rw [drainLoop]
    generalize hcount : min (max batch 1) (maxDrainMessages - messages.length) = count
    obtain ⟨rest, hsince⟩ := server.initial offset count
    have hnonempty := server.nonempty offset count (by omega)
    generalize server.reply offset count = received at *
    dsimp only
    cases hnewest : received.getLast? with
    | none =>
      -- An empty reply: nothing is left.
      have hnone : partition.since offset = [] := by
        by_contra hsome
        exact hnonempty hsome (List.getLast?_eq_none_iff.1 hnewest)
      refine ⟨[], offset, by simp, by simp, .inr ?_⟩
      rw [between_eq, hnone]
      rfl
    | some newest =>
      obtain ⟨before, rfl⟩ := List.getLast?_eq_some_iff.1 hnewest
      dsimp only
      by_cases hpast : ∃ message ∈ before ++ [newest], last < message.offset
      · -- The reply passes the end of the range.
        have hany : (before ++ [newest]).any (last < ·.offset) = true := by simpa using hpast
        rw [Option.filter_some, if_pos hany]
        refine ⟨_, _, rfl, ?_, .inr ?_⟩
        · rw [oneAfter_eq hlast (Nat.le_refl _), between_past (Nat.lt_succ_self last), List.append_nil]
          exact between_cut hsince.symm hpast
        · rw [oneAfter_eq hlast (Nat.le_refl _)]
          exact between_past (Nat.lt_succ_self last)
      · have hwithin : ∀ message ∈ before ++ [newest], message.offset ≤ last := by
          intro message hmessage
          by_contra hgt
          exact hpast ⟨message, hmessage, by omega⟩
        have hany : ¬ (before ++ [newest]).any (last < ·.offset) = true := by simpa using hpast
        have hnext := oneAfter_eq hlast (hwithin newest (by simp))
        have hsplit : partition.since offset = before ++ newest :: rest := by simpa using hsince.symm
        have hrun := between_run hsplit hwithin
        rw [Option.filter_some, if_neg hany]
        dsimp only
        rw [hnext]
        split
        next htail =>
          refine ⟨before ++ [newest], newest.offset + 1, rfl, hrun, .inr ?_⟩
          rw [between_eq, since_past_current htail]
          rfl
        next =>
          split
          next hfull => exact ⟨before ++ [newest], newest.offset + 1, rfl, hrun, .inl hfull⟩
          next hfull =>
            split
            next hend =>
              refine ⟨before ++ [newest], newest.offset + 1, rfl, hrun, .inr (between_past ?_)⟩
              simpa using hend
            next =>
              obtain ⟨read, next, hloop, hread, hended⟩ := @ih (newest.offset + 1) (messages ++ (before ++ [newest]))
                (by omega) (by simp; omega)
              refine ⟨before ++ [newest] ++ read, next, ?_, ?_, ?_⟩
              · rw [hloop, List.append_assoc]
              · rw [hrun, hread]
                simp
              · rwa [← List.append_assoc]

/-- What a chunk reads and what it leaves. -/
theorem drainPartition_reads (server : Server partition) {batch start last : Nat} (hlast : last < 2 ^ 64 - 1) :
    ∃ chunk, drainPartition server batch ⟨start, some last⟩ = some chunk ∧
      partition.between start last = chunk.messages ++ partition.between chunk.nextOffset last ∧
      (maxDrainMessages ≤ chunk.messages.length ∨ partition.between chunk.nextOffset last = []) := by
  unfold drainPartition
  split
  next hempty =>
    exact ⟨_, rfl, rfl, .inr (between_past (by simpa using hempty))⟩
  next =>
    obtain ⟨read, next, hloop, hread, hended⟩ := @drainLoop_reads α partition server batch last maxDrainMessages start []
      hlast (by simp [maxDrainMessages]) (by simp)
    exact ⟨_, hloop, hread, hended⟩

/-! ## Without gaps -/

/-- The records of a log at the offsets from `start` on. -/
def placed (start : Nat) : List α → List (Message α)
  | [] => []
  | body :: rest => ⟨start, body⟩ :: placed (start + 1) rest

@[simp] theorem length_placed (start : Nat) (log : List α) : (placed start log).length = log.length := by
  induction log generalizing start with
  | nil => rfl
  | cons body rest ih => simp [placed, ih]

theorem placed_append (start : Nat) (log more : List α) :
    placed start (log ++ more) = placed start log ++ placed (start + log.length) more := by
  induction log generalizing start with
  | nil => rfl
  | cons body rest ih => simp [placed, ih, Nat.add_assoc, Nat.add_comm 1]

theorem drop_placed (start count : Nat) (log : List α) :
    (placed start log).drop count = placed (start + count) (log.drop count) := by
  induction log generalizing start count with
  | nil => simp [placed]
  | cons body rest ih =>
    cases count with
    | zero => rfl
    | succ count => simp [placed, ih, Nat.add_assoc, Nat.add_comm 1]

theorem take_placed (start count : Nat) (log : List α) : (placed start log).take count = placed start (log.take count) := by
  induction log generalizing start count with
  | nil => simp [placed]
  | cons body rest ih =>
    cases count with
    | zero => rfl
    | succ count => simp [placed, ih]

theorem mem_placed {start : Nat} {log : List α} {message : Message α} (h : message ∈ placed start log) :
    start ≤ message.offset ∧ message.offset < start + log.length := by
  induction log generalizing start with
  | nil => cases h
  | cons body rest ih =>
    rw [List.length_cons]
    rcases List.mem_cons.1 h with rfl | hrest
    · exact ⟨Nat.le_refl _, by simp⟩
    · have := ih hrest
      omega

theorem placed_ascending (start : Nat) (log : List α) : (placed start log).Pairwise fun x y => x.offset < y.offset := by
  induction log generalizing start with
  | nil => exact .nil
  | cons body rest ih => exact .cons (fun message hmessage => (mem_placed hmessage).1) (ih (start + 1))

/-- The part of a log up to an offset. -/
theorem takeWhile_placed (start last : Nat) (log : List α) :
    (placed start log).takeWhile (·.offset ≤ last) = placed start (log.take (last + 1 - start)) := by
  induction log generalizing start with
  | nil => simp [placed]
  | cons body rest ih =>
    by_cases hle : start ≤ last
    · have hcount : last + 1 - start = last + 1 - (start + 1) + 1 := by omega
      rw [placed, List.takeWhile_cons_of_pos (by simpa using hle), ih, hcount, List.take_succ_cons, placed]
    · rw [placed, List.takeWhile_cons_of_neg (by simpa using hle), show last + 1 - start = 0 by omega]
      rfl

theorem any_placed (start last : Nat) (log : List α) :
    (placed start log).any (last < ·.offset) = decide (log ≠ [] ∧ last + 1 < start + log.length) := by
  rcases List.eq_nil_or_concat log with rfl | ⟨before, newest, rfl⟩
  · rfl
  · rw [Bool.eq_iff_iff, List.any_eq_true, decide_eq_true_iff]
    simp only [decide_eq_true_eq, List.concat_eq_append]
    constructor
    · rintro ⟨message, hmessage, hlast⟩
      have := (mem_placed hmessage).2
      exact ⟨by simp, by omega⟩
    · rintro ⟨-, hlast⟩
      refine ⟨⟨start + before.length, newest⟩, ?_, ?_⟩
      · simp [placed_append, placed]
      · rw [List.length_append, List.length_singleton] at hlast
        exact Nat.lt_of_succ_lt_succ hlast

theorem getLast_placed (start : Nat) (log : List α) (newest : α) :
    (placed start (log ++ [newest])).getLast? = some ⟨start + log.length, newest⟩ := by
  rw [placed_append, placed, placed, List.getLast?_concat]

/-- A reply without gaps is cut by its offsets as it is by its length. -/
theorem cutAt_placed (stop : Option Nat) (offset : Nat) {read : List α} (hread : read ≠ []) :
    cutAt stop offset (placed offset read) =
      (stop.filter fun last => (placed offset read).any (last < ·.offset)).map fun last =>
        ⟨(placed offset read).takeWhile (·.offset ≤ last), last + 1⟩ := by
  cases stop with
  | none => rfl
  | some last =>
    rw [Option.filter_some, any_placed]
    by_cases hlt : last + 1 < offset + read.length
    · simp [cutAt, hread, hlt, takeWhile_placed, take_placed]
    · simp [cutAt, hlt]

/-- A log whose records are at the offsets 0, 1, 2 and so on. -/
def dense (log : List α) : Partition α := ⟨placed 0 log, placed_ascending 0 log⟩

theorem since_dense (log : List α) (offset : Nat) : (dense log).since offset = (dense log).records.drop offset := by
  have hsplit := List.take_append_drop offset (placed 0 log)
  have hbefore : ((placed 0 log).take offset).filter (offset ≤ ·.offset) = [] := by
    refine List.filter_eq_nil_iff.2 fun message hmessage => ?_
    rw [take_placed] at hmessage
    have hlt := (mem_placed hmessage).2
    rw [List.length_take] at hlt
    simp only [decide_eq_true_eq]
    omega
  have hafter : ((placed 0 log).drop offset).filter (offset ≤ ·.offset) = (placed 0 log).drop offset := by
    refine List.filter_eq_self.2 fun message hmessage => ?_
    rw [drop_placed] at hmessage
    have hle := (mem_placed hmessage).1
    simp only [decide_eq_true_eq]
    omega
  show (placed 0 log).filter (offset ≤ ·.offset) = (placed 0 log).drop offset
  rw [← hsplit, List.filter_append, hbefore, hafter, List.nil_append, hsplit]

/-- The server of a log, with a byte cap at each offset. -/
def capped (cap : Nat → Nat) (log : List α) : Server (dense log) where
  reply offset count := pollMessages cap (dense log).records offset count
  initial offset count := by
    rw [since_dense]
    exact List.take_prefix _ _
  short offset count := (pollMessages_length offset count).1
  nonempty offset count hcount hsome := by
    rw [since_dense, Ne, List.drop_eq_nil_iff, Nat.not_le] at hsome
    exact List.ne_nil_of_length_pos ((pollMessages_length offset count).2 hcount hsome)

theorem pollMessages_dense (cap : Nat → Nat) (log : List α) (offset count : Nat) : ∃ read,
    pollMessages cap (dense log).records offset count = placed offset read ∧ read.length ≤ log.length - offset := by
  refine ⟨(log.drop offset).take (min count (cap offset + 1)), ?_, by simp⟩
  rw [pollMessages, dense, drop_placed, take_placed, Nat.zero_add]

theorem currentOffset_dense (log : List α) : (dense log).currentOffset = log.length - 1 := by
  rcases List.eq_nil_or_concat log with rfl | ⟨before, newest, rfl⟩
  · rfl
  · simp [Partition.currentOffset, dense, placed_append, placed]

/-- On a log without gaps the two drains are one. -/
theorem drainLoop_dense {cap : Nat → Nat} {log : List α} (hlog : log.length < 2 ^ 64) {stop : Option Nat}
    {batch fuel offset : Nat} {messages : List (Message α)} (hroom : messages.length < maxDrainMessages)
    (hfuel : maxDrainMessages - messages.length ≤ fuel) :
    drainLoop (capped cap log) stop batch fuel offset messages =
      some (Poll.drainLoop cap (dense log).records stop batch fuel offset messages) := by
  induction fuel generalizing offset messages with
  | zero => omega
  | succ fuel ih =>
    rw [drainLoop, Poll.drainLoop]
    generalize hcount : min (max batch 1) (maxDrainMessages - messages.length) = count
    have hreply : (capped cap log).reply offset count = pollMessages cap (dense log).records offset count := rfl
    obtain ⟨read, hread, hbound⟩ := pollMessages_dense cap log offset count
    rw [hreply, hread]
    rcases List.eq_nil_or_concat read with rfl | ⟨before, newest, rfl⟩
    · rfl
    · rw [List.concat_eq_append] at hread hbound ⊢
      rw [List.length_append, List.length_singleton] at hbound
      have hnext : oneAfter (offset + before.length) = offset + (placed offset (before ++ [newest])).length := by
        rw [length_placed, List.length_append, List.length_singleton, ← Nat.add_assoc]
        exact @oneAfter_eq (offset + before.length) (log.length - 1) (by omega) (by omega)
      have hsome : (placed offset (before ++ [newest])).isEmpty = false := by simp [placed_append, placed]
      have hcurrent : (dense log).currentOffset = (dense log).records.length - 1 := by
        rw [currentOffset_dense, dense, length_placed]
      dsimp only
      rw [getLast_placed, hsome, if_neg Bool.false_ne_true, cutAt_placed stop offset (by simp)]
      dsimp only
      rw [hnext, hcurrent]
      cases hcut : stop.filter fun last => (placed offset (before ++ [newest])).any (last < ·.offset) with
      | some last =>
        -- The cut is below the newest record of the reply.
        obtain ⟨-, hany⟩ := Option.filter_eq_some_iff.1 hcut
        rw [any_placed, decide_eq_true_iff, List.length_append, List.length_singleton] at hany
        rw [Option.map_some]
        dsimp only
        rw [@oneAfter_eq last (log.length - 1) (by omega) (by omega)]
      | none =>
        rw [Option.map_none]
        dsimp only
        generalize offset + (placed offset (before ++ [newest])).length = next
        by_cases htail : (dense log).records.length - 1 < next
        · rw [if_pos htail, if_pos htail]
        · rw [if_neg htail, if_neg htail]
          by_cases hfull : maxDrainMessages ≤ (messages ++ placed offset (before ++ [newest])).length
          · rw [if_pos hfull, if_pos hfull]
          · rw [if_neg hfull, if_neg hfull]
            by_cases hend : stop.any (· < next) = true
            · rw [if_pos hend, if_pos hend]
            · rw [if_neg hend, if_neg hend]
              refine ih (by omega) ?_
              rw [List.length_append, length_placed, List.length_append, List.length_singleton]
              omega

/-- A drain of a log without gaps, as the rest of the model has it. -/
theorem drainPartition_dense (cap : Nat → Nat) {log : List α} (hlog : log.length < 2 ^ 64) (range : DrainRange) (batch : Nat) :
    drainPartition (capped cap log) batch range = some (Poll.drainPartition cap (dense log).records range batch) := by
  unfold drainPartition Poll.drainPartition
  split
  · rfl
  · exact drainLoop_dense hlog (by simp [maxDrainMessages]) (Nat.le_refl _)

/-! ## The whole range -/

theorem replayLoop_reads (server : Server partition) {batch start last fuel : Nat} (hlast : last < 2 ^ 64 - 1)
    (hfuel : (partition.between start last).length < fuel) :
    replayLoop server batch fuel ⟨start, some last⟩ = some (partition.between start last) := by
  induction fuel generalizing start with
  | zero => omega
  | succ fuel ih =>
    obtain ⟨chunk, hchunk, hread, hended⟩ := @drainPartition_reads α partition server batch start last hlast
    rw [replayLoop, hchunk, Option.bind_eq_bind, Option.bind_some, hread]
    split
    next hfurther =>
      -- Only a full chunk is followed by another, so less is left.
      simp only [readsFurther, Bool.and_eq_true, decide_eq_true_eq] at hfurther
      have hfull : contextReadWindow ≤ chunk.messages.length := hfurther.1.2
      have hpos : 0 < contextReadWindow := by decide
      rw [hread, List.length_append] at hfuel
      rw [ih (by omega)]
      rfl
    next hlastChunk =>
      have hnone : partition.between chunk.nextOffset last = [] := by
        rcases hended with hfull | hnone
        · apply between_past
          by_contra hle
          apply hlastChunk
          simp only [readsFurther, Bool.and_eq_true, decide_eq_true_eq, Option.all_some]
          exact ⟨⟨trivial, hfull⟩, by omega⟩
        · exact hnone
      rw [hnone, List.append_nil]

theorem tail_lt (partition : Partition α) : partition.tail < 2 ^ 64 := by
  unfold Partition.tail
  cases partition.records.getLast? with
  | none => simp
  | some newest =>
    rw [Option.map_some, Option.getD_some, oneAfter]
    omega

/-- A replay ends one before an offset to write. -/
theorem partitionRange_whole {tail start : Nat} {limit : Option Nat} {range : DrainRange}
    (h : partitionRange tail start limit .whole = some range) :
    range = ⟨start, some (limit.getD tail - 1)⟩ ∧ limit.getD tail ≠ 0 := by
  have hrange : partitionRange tail start limit .whole =
      if limit.getD tail = 0 ∨ limit.getD tail - 1 < start then none else some ⟨start, some (limit.getD tail - 1)⟩ := by
    cases limit <;> rfl
  rw [hrange] at h
  split at h
  · cases h
  next hsome =>
    cases h
    exact ⟨rfl, fun hzero => hsome (.inl hzero)⟩

/-- A replay from any offset to the end it pins terminates and returns exactly
the records of that range, in order. -/
theorem replay_reads_range (server : Server partition) (batch : Nat) {start : Nat} {limit : Option Nat}
    (hlimit : ∀ next, limit = some next → next < 2 ^ 64) {range : DrainRange}
    (hrange : partitionRange partition.tail start limit .whole = some range) :
    ∃ last, range = ⟨start, some last⟩ ∧ ∀ fuel, partition.records.length < fuel →
      replayLoop server batch fuel range = some (partition.between start last) := by
  obtain ⟨rfl, hnext⟩ := partitionRange_whole hrange
  refine ⟨_, rfl, fun fuel hfuel => replayLoop_reads server ?_ (Nat.lt_of_le_of_lt (List.length_filter_le _ _) hfuel)⟩
  have hlt : limit.getD partition.tail < 2 ^ 64 := by
    cases limit with
    | none => exact tail_lt partition
    | some next => exact hlimit next rfl
  omega

/-- Records at the offsets 0, 5 and 9. -/
def sparse : Partition Unit := ⟨[⟨0, ()⟩, ⟨5, ()⟩, ⟨9, ()⟩], by simp⟩

/-- A server that gives one record at a time. -/
def oneByOne (partition : Partition α) : Server partition where
  reply offset count := (partition.since offset).take (min count 1)
  initial _ _ := List.take_prefix _ _
  short offset count := by
    rw [List.length_take]
    omega
  nonempty offset count hcount hsome := by
    intro hnone
    rcases List.take_eq_nil_iff.1 hnone with hzero | hnil
    · omega
    · exact hsome hnil

theorem sparse_replayed : partitionRange sparse.tail 3 (some 8) .whole = some ⟨3, some 7⟩ ∧
    replayLoop (oneByOne sparse) 500 4 ⟨3, some 7⟩ = some [⟨5, ()⟩] := by
  have hrange : partitionRange sparse.tail 3 (some 8) .whole = some ⟨3, some 7⟩ := rfl
  obtain ⟨last, hlast, hreplay⟩ := replay_reads_range (oneByOne sparse) 500 (by simp) hrange
  cases hlast
  exact ⟨hrange, hreplay 4 (by decide)⟩

end LaserSdk.Context.Gaps

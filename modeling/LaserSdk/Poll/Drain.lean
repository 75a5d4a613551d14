import Mathlib.Data.List.Basic
/-!
# Draining a partition

A read of one partition is a loop of polls that stops at the tail, at the end
of its range or at a ceiling on the records it holds. A partition is the list
of its records by offset, as the last poll finds it. The server answers a poll
with the records at the polled offset: at least one if there is one, and fewer
than asked where its byte cap stops the reply.
-/

namespace LaserSdk.Poll

/-- The most messages one drain accumulates. -/
def maxDrainMessages : Nat := 10000

def maxTopicPartitions : Nat := 1024

def boundedPartitions (reported : Nat) : Nat := min reported maxTopicPartitions

/-- From `start` toward the tail, or up to and including `stop`. -/
structure DrainRange where
  start : Nat
  stop : Option Nat
  deriving DecidableEq, Repr

structure PartitionBatch (α : Type) where
  messages : List α
  nextOffset : Nat
  deriving DecidableEq, Repr

section

variable {α : Type} (cap : Nat → Nat) (log : List α)

/-- A reply. `cap` says at each offset where the byte cap stops it. -/
def pollMessages (offset count : Nat) : List α := (log.drop offset).take (min count (cap offset + 1))

/-- What is left of a reply that passes the end of the range. -/
def cutAt (stop : Option Nat) (offset : Nat) (received : List α) : Option (PartitionBatch α) :=
  stop.bind fun last =>
    if last + 1 < offset + received.length then some ⟨received.take (last + 1 - offset), last + 1⟩ else none

def drainLoop (stop : Option Nat) (batch : Nat) : Nat → Nat → List α → PartitionBatch α
  | 0, offset, messages => ⟨messages, offset⟩
  | fuel + 1, offset, messages =>
    let count := min (max batch 1) (maxDrainMessages - messages.length)
    let received := pollMessages cap log offset count
    if received.isEmpty then ⟨messages, offset⟩
    else
      match cutAt stop offset received with
      | some kept => ⟨messages ++ kept.messages, kept.nextOffset⟩
      | none =>
        let next := offset + received.length
        let messages := messages ++ received
        -- Only the partition's current offset proves the tail.
        if log.length - 1 < next then ⟨messages, next⟩
        else if maxDrainMessages ≤ messages.length then ⟨messages, next⟩
        else if stop.any (· < next) then ⟨messages, next⟩
        else drainLoop stop batch fuel next messages

/-- Every poll brings a message, so the ceiling bounds the polls too. -/
def drainPartition (range : DrainRange) (batch : Nat) : PartitionBatch α :=
  if range.stop.any (· < range.start) then ⟨[], range.start⟩
  else drainLoop cap log range.stop batch maxDrainMessages range.start []

end

/-- Partitions without records add nothing to what is read. -/
theorem flatMap_range_eq {α : Type} {f g : Nat → List α} {m n : Nat} (hle : m ≤ n) (hfg : ∀ i < m, f i = g i)
    (hg : ∀ i, m ≤ i → i < n → g i = []) : (List.range m).flatMap f = (List.range n).flatMap g := by
  induction n with
  | zero =>
    cases Nat.le_zero.1 hle
    rfl
  | succ n ih =>
    rcases Nat.eq_or_lt_of_le hle with rfl | hlt
    · exact List.flatMap_congr fun i hi => hfg i (List.mem_range.1 hi)
    · rw [List.range_succ, List.flatMap_append, ih (by omega) fun i hi hin => hg i hi (by omega)]
      simp [hg n (by omega) (by omega)]

/-! ## What a drain reads -/

variable {α : Type} {cap : Nat → Nat} {log : List α} {stop : Option Nat}

/-- The records that a range may reach. -/
def within (stop : Option Nat) (log : List α) : List α :=
  match stop with
  | none => log
  | some last => log.take (last + 1)

theorem cutAt_some {offset : Nat} {received : List α} {kept : PartitionBatch α} (h : cutAt stop offset received = some kept) :
    ∃ last, stop = some last ∧ last + 1 < offset + received.length ∧
      kept = ⟨received.take (last + 1 - offset), last + 1⟩ := by
  obtain ⟨last, hlast, hcut⟩ := Option.bind_eq_some_iff.1 h
  split at hcut
  next hlt =>
    cases hcut
    exact ⟨last, hlast, hlt, rfl⟩
  next => cases hcut

theorem cutAt_none {offset : Nat} {received : List α} (h : cutAt stop offset received = none) :
    ∀ last, stop = some last → offset + received.length ≤ last + 1 := by
  rintro last rfl
  have hcut : (if last + 1 < offset + received.length then
      some (⟨received.take (last + 1 - offset), last + 1⟩ : PartitionBatch α) else none) = none := h
  split at hcut
  next => cases hcut
  next hle => omega

/-- A reply that is not cut starts what is left of the range. -/
theorem within_take {offset n : Nat} (h : ∀ last, stop = some last → offset + n ≤ last + 1) :
    ((within stop log).drop offset).take n = (log.drop offset).take n := by
  cases stop with
  | none => rfl
  | some last =>
    have hle := h last rfl
    rw [within, List.drop_take, List.take_take, Nat.min_eq_left (by omega)]

theorem within_length_le : (within stop log).length ≤ log.length := by
  cases stop with
  | none => exact Nat.le_refl _
  | some last => exact List.length_take_le' _ _

theorem pollMessages_length (offset count : Nat) :
    (pollMessages cap log offset count).length ≤ count ∧
      (0 < count → offset < log.length → 0 < (pollMessages cap log offset count).length) := by
  rw [pollMessages, List.length_take, List.length_drop]
  constructor
  · omega
  · intro hcount hoffset
    omega

/-- A reply is as long a start of the log as it says. -/
theorem pollMessages_eq (offset count : Nat) :
    (log.drop offset).take (pollMessages cap log offset count).length = pollMessages cap log offset count := by
  rw [pollMessages, List.length_take, ← List.take_take, List.take_length]

theorem drainLoop_eq {batch fuel offset : Nat} {messages : List α} (hfuel : maxDrainMessages - messages.length ≤ fuel)
    (hstop : ∀ last, stop = some last → offset ≤ last + 1) :
    drainLoop cap log stop batch fuel offset messages =
      ⟨messages ++ ((within stop log).drop offset).take (maxDrainMessages - messages.length),
        offset + (((within stop log).drop offset).take (maxDrainMessages - messages.length)).length⟩ := by
  induction fuel generalizing offset messages with
  | zero =>
    have hroom : maxDrainMessages - messages.length = 0 := by omega
    simp [drainLoop, hroom]
  | succ fuel ih =>
    unfold drainLoop
    dsimp only
    generalize hcount : min (max batch 1) (maxDrainMessages - messages.length) = count
    obtain ⟨hle, hpos⟩ := @pollMessages_length _ cap log offset count
    have hstart := @pollMessages_eq _ cap log offset count
    generalize pollMessages cap log offset count = received at *
    have hroom : count ≤ maxDrainMessages - messages.length := by omega
    split
    next hempty =>
      -- The ceiling or the tail is reached.
      have hnone : ((within stop log).drop offset).take (maxDrainMessages - messages.length) = [] := by
        have hlength : received.length = 0 := by rw [List.isEmpty_iff.1 hempty]; rfl
        rcases Nat.lt_or_ge offset log.length with hlt | hge
        · have hzero : maxDrainMessages - messages.length = 0 := by
            by_contra hroom
            have := hpos (by omega) hlt
            omega
          rw [hzero, List.take_zero]
        · rw [List.drop_eq_nil_of_le (Nat.le_trans within_length_le hge), List.take_nil]
      rw [hnone, List.append_nil]
      rfl
    next hsome =>
      have hlength : 0 < received.length := by
        rw [List.isEmpty_iff] at hsome
        exact List.length_pos_iff.2 hsome
      split
      next kept hcut =>
        obtain ⟨last, rfl, hlt, rfl⟩ := cutAt_some hcut
        have hoffset := hstop last rfl
        have htaken : ((within (some last) log).drop offset).take (maxDrainMessages - messages.length) =
            received.take (last + 1 - offset) := by
          rw [within, List.drop_take, List.take_take, ← hstart, List.take_take]
          congr 1
          omega
        rw [htaken, List.length_take, Nat.min_eq_left (by omega)]
        dsimp only
        congr 1
        omega
      next hcut =>
        have hbound := cutAt_none hcut
        have hwithin : ((within stop log).drop offset).take received.length = received := by
          rw [within_take hbound, hstart]
        have hlast : ((within stop log).drop offset).length ≤ received.length →
            ((within stop log).drop offset).take (maxDrainMessages - messages.length) = received := by
          intro hshort
          have heq : (within stop log).drop offset = received := by rw [← hwithin, List.take_of_length_le hshort]
          rw [heq, List.take_of_length_le (by omega)]
        split
        next htail =>
          rw [hlast]
          rw [List.length_drop]
          have := @within_length_le _ log stop
          omega
        next htail =>
          rw [List.length_append]
          split
          next hfull =>
            have heq : maxDrainMessages - messages.length = received.length := by omega
            rw [heq, hwithin]
          next hfull =>
            split
            next hend =>
              obtain ⟨last, rfl, hlt⟩ := (Option.any_eq_true _ _).1 hend
              rw [hlast]
              rw [List.length_drop, within, List.length_take]
              have := of_decide_eq_true hlt
              omega
            next hend =>
              have hroom : maxDrainMessages - messages.length =
                  received.length + (maxDrainMessages - (messages ++ received).length) := by
                rw [List.length_append]
                omega
              rw [ih (by rw [List.length_append]; omega) hbound, hroom, List.take_add, hwithin, List.drop_drop,
                List.append_assoc, List.length_append, List.length_append, Nat.add_assoc]

/-- A drain reads its range up to the ceiling. -/
theorem drainPartition_eq (range : DrainRange) (batch : Nat) :
    drainPartition cap log range batch =
      ⟨((within range.stop log).drop range.start).take maxDrainMessages,
        range.start + (((within range.stop log).drop range.start).take maxDrainMessages).length⟩ := by
  unfold drainPartition
  split
  next hpast =>
    obtain ⟨last, hlast, hlt⟩ := (Option.any_eq_true _ _).1 hpast
    have hnone : (within range.stop log).drop range.start = [] := by
      rw [hlast, within]
      apply List.drop_eq_nil_of_le
      rw [List.length_take]
      have := of_decide_eq_true hlt
      omega
    rw [hnone, List.take_nil]
    rfl
  next hinside =>
    rw [drainLoop_eq (by simp)]
    · rfl
    · intro last hlast
      by_contra hlt
      refine hinside ((Option.any_eq_true _ _).2 ⟨last, hlast, ?_⟩)
      simp only [decide_eq_true_eq]
      omega

end LaserSdk.Poll

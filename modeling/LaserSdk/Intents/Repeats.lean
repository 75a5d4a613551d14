import Mathlib.Data.List.Dedup
import LaserSdk.Intents.Stability
/-!
# The votes as a set

Two counted votes at one place of the fold's order are the same vote, so the
copies of a vote stand next to each other and a copy changes nothing. The
fold is then one over the sorted votes without copies, which the set of votes
determines.
-/

namespace LaserSdk.Intents

/-- A vote read twice in a row counts once. -/
theorem fold_twice (t : Tally) (vote : Vote) (rest : List Vote) :
    fold t (vote :: vote :: rest) = fold t (vote :: rest) := by
  cases hfirst : t.ballots.lookup vote.voter with
  | none => simp [fold, hfirst, List.lookup_append]
  | some existing =>
    by_cases hsame : existing = vote.choice
    · simp [fold, hfirst, hsame]
    · simp [fold, hfirst, hsame]

/-- What follows a vote can be exchanged for what folds the same way. -/
theorem fold_cons_congr {vote : Vote} {rest rest' : List Vote} (h : ∀ t, fold t rest = fold t rest') (t : Tally) :
    fold t (vote :: rest) = fold t (vote :: rest') := by
  simp only [fold, h]

/-- In sorted votes the next copy of the first vote is the second vote. -/
theorem copy_is_next {intent : Intent} {now : Nat} {vote : Vote} {rest : List Vote}
    (hsorted : (vote :: rest).Pairwise Vote.le) (hcounted : ∀ v ∈ vote :: rest, counted intent now v = true)
    (hcopy : vote ∈ rest) : ∃ rest', rest = vote :: rest' := by
  cases rest with
  | nil => cases hcopy
  | cons next rest =>
    obtain ⟨hfirst, htail⟩ := List.pairwise_cons.1 hsorted
    have hle : vote.le next := hfirst next List.mem_cons_self
    have hge : next.le vote := by
      rcases List.mem_cons.1 hcopy with rfl | hlater
      · exact hle
      · exact (List.pairwise_cons.1 htail).1 vote hlater
    obtain rfl := Vote.le_antisymm (hcounted vote (by simp)) (hcounted next (by simp)) hle hge
    exact ⟨rest, rfl⟩

/-- The loop over sorted votes is the loop over them without copies. -/
theorem fold_dedup {intent : Intent} {now : Nat} {votes : List Vote} (hsorted : votes.Pairwise Vote.le)
    (hcounted : ∀ v ∈ votes, counted intent now v = true) (t : Tally) : fold t votes = fold t votes.dedup := by
  induction votes generalizing t with
  | nil => rfl
  | cons vote rest ih =>
    have hrest := fun t => ih (List.pairwise_cons.1 hsorted).2 (fun v hv => hcounted v (List.mem_cons_of_mem _ hv)) t
    by_cases hcopy : vote ∈ rest
    · rw [List.dedup_cons_of_mem hcopy, ← hrest]
      obtain ⟨rest', rfl⟩ := copy_is_next hsorted hcounted hcopy
      exact fold_twice t vote rest'
    · rw [List.dedup_cons_of_notMem hcopy]
      exact fold_cons_congr hrest t

section

variable {intent : Intent} {now : Nat} {votes votes' : List Vote}

theorem mem_valid_congr (h : ∀ v, v ∈ votes ↔ v ∈ votes') (v : Vote) :
    v ∈ valid intent votes now ↔ v ∈ valid intent votes' now := by
  simp only [mem_valid, List.mem_filter, h]

/-- Without copies the folded votes are those of the set, in one order. -/
theorem valid_dedup_eq (h : ∀ v, v ∈ votes ↔ v ∈ votes') :
    (valid intent votes now).dedup = (valid intent votes' now).dedup := by
  have hperm : (valid intent votes now).dedup.Perm (valid intent votes' now).dedup := by
    refine (List.perm_ext_iff_of_nodup (List.nodup_dedup _) (List.nodup_dedup _)).2 fun v => ?_
    rw [List.mem_dedup, List.mem_dedup]
    exact mem_valid_congr h v
  refine hperm.eq_of_pairwise (fun a b ha hb => ?_) ((valid_sorted ..).sublist (List.dedup_sublist _))
    ((valid_sorted ..).sublist (List.dedup_sublist _))
  exact Vote.le_antisymm (valid_counted (List.mem_dedup.1 ha)) (valid_counted (List.mem_dedup.1 hb))

theorem fold_valid_eq (h : ∀ v, v ∈ votes ↔ v ∈ votes') (t : Tally) :
    fold t (valid intent votes now) = fold t (valid intent votes' now) :=
  calc fold t (valid intent votes now)
      = fold t (valid intent votes now).dedup := fold_dedup (valid_sorted ..) (fun _ => valid_counted) t
    _ = fold t (valid intent votes' now).dedup := by rw [valid_dedup_eq h]
    _ = fold t (valid intent votes' now) := (fold_dedup (valid_sorted ..) (fun _ => valid_counted) t).symm

end

/-- The votes as a set decide, evidence included: the order they arrive in and
how often each arrives do not matter. -/
theorem decide_of_set (digestOf : List UInt8 → String) (intent : Intent) (votes votes' : List Vote) (now : Nat)
    (h : ∀ v, v ∈ votes' ↔ v ∈ votes) : decide digestOf intent votes' now = decide digestOf intent votes now := by
  simp only [decide, decideValid, fold_valid_eq h]

/-- Votes of two voters, the other way around and the first one three times. -/
theorem decide_of_repeated_votes : quorumIntent.validate (fun _ => oneDigest) = .ok () ∧
    (∃ d, decide (fun _ => oneDigest) quorumIntent [ballot "b" .allow 20, ballot "a" .block 30] 1000 = .ok (some d)) ∧
    decide (fun _ => oneDigest) quorumIntent
        [ballot "a" .block 30, ballot "b" .allow 20, ballot "b" .allow 20, ballot "b" .allow 20] 1000 =
      decide (fun _ => oneDigest) quorumIntent [ballot "b" .allow 20, ballot "a" .block 30] 1000 := by
  refine ⟨by decide, ⟨_, rfl⟩, decide_of_set _ _ _ _ _ fun v => ?_⟩
  simp only [List.mem_cons, List.not_mem_nil, or_false]
  tauto

end LaserSdk.Intents

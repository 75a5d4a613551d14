import Mathlib.Data.List.Sort
import Mathlib.Data.Finset.Card
import LaserSdk.Lib.Checks
/-!
# Durable intents

An intent proposes an effect, votes name it, and `decide` folds the votes
into a decision or into nothing while the outcome is open. The digest of a
body is a parameter: only its value on the intent's own body is ever compared.
-/

namespace LaserSdk.Intents

open LaserSdk.Lib

abbrev AgentId := String

inductive IntentPolicy where
  | all
  | any
  | atLeast (required : Nat)
  deriving DecidableEq, Repr

inductive VoteChoice where
  | allow
  | block
  | abstain
  deriving DecidableEq, Repr

inductive IntentOutcome where
  | committed
  | aborted
  deriving DecidableEq, Repr

structure Intent where
  intentId : Nat
  body : List UInt8
  digest : String
  eligibleVoters : List AgentId
  mandatoryVoters : List AgentId
  policy : IntentPolicy
  policyVersion : Nat
  deadlineMicros : Nat
  atMicros : Nat
  deriving DecidableEq, Repr

structure Vote where
  intentId : Nat
  intentDigest : String
  policyVersion : Nat
  voter : AgentId
  choice : VoteChoice
  atMicros : Nat
  deriving DecidableEq, Repr

structure Decision where
  intentId : Nat
  intentDigest : String
  policyVersion : Nat
  outcome : IntentOutcome
  reason : String
  votesConsidered : List (AgentId × VoteChoice)
  atMicros : Nat
  deriving DecidableEq, Repr

inductive IntentError where
  | noEligibleVoters
  | duplicateEligibleVoter (voter : AgentId)
  | duplicateMandatoryVoter (voter : AgentId)
  | mandatoryVoterNotEligible (voter : AgentId)
  | invalidThreshold (required eligible : Nat)
  | invalidDeadline (proposed deadline : Nat)
  | digestMismatch
  | ineligibleVoter (voter : AgentId)
  | decisionIntentMismatch
  deriving DecidableEq, Repr

def IntentError.message : IntentError → String
  | .noEligibleVoters => "an intent requires at least one eligible voter"
  | .duplicateEligibleVoter voter => s!"eligible voter '{voter}' appears more than once"
  | .duplicateMandatoryVoter voter => s!"mandatory voter '{voter}' appears more than once"
  | .mandatoryVoterNotEligible voter => s!"mandatory voter '{voter}' is not eligible"
  | .invalidThreshold required eligible => s!"threshold {required} is invalid for {eligible} eligible voters"
  | .invalidDeadline proposed deadline => s!"deadline {deadline} must be after proposal time {proposed}"
  | .digestMismatch => "intent digest does not match its body"
  | .ineligibleVoter voter => s!"voter '{voter}' is not eligible for this intent"
  | .decisionIntentMismatch => "decision is not bound to this intent body and policy version"

/-! ## Validation -/

/-- The loop over the eligible voters, with the set inserted so far. -/
def checkEligible (seen : List AgentId) : List AgentId → Except IntentError Unit
  | [] => .ok ()
  | voter :: rest =>
    if voter ∈ seen then .error (.duplicateEligibleVoter voter) else checkEligible (voter :: seen) rest

/-- The loop over the mandatory voters. -/
def checkMandatory (eligible seen : List AgentId) : List AgentId → Except IntentError Unit
  | [] => .ok ()
  | voter :: rest =>
    if voter ∈ seen then .error (.duplicateMandatoryVoter voter)
    else if voter ∉ eligible then .error (.mandatoryVoterNotEligible voter)
    else checkMandatory eligible (voter :: seen) rest

def checkThreshold (policy : IntentPolicy) (eligible : Nat) : Except IntentError Unit :=
  match policy with
  | .atLeast required =>
    refuseIf (required = 0 ∨ required > eligible) (.invalidThreshold required eligible)
  | _ => .ok ()

section

variable (digestOf : List UInt8 → String)

def Intent.validate (intent : Intent) : Except IntentError Unit := do
  refuseIf (intent.eligibleVoters = []) .noEligibleVoters
  checkEligible [] intent.eligibleVoters
  checkMandatory intent.eligibleVoters [] intent.mandatoryVoters
  checkThreshold intent.policy intent.eligibleVoters.length
  refuseIf (intent.deadlineMicros ≤ intent.atMicros) (.invalidDeadline intent.atMicros intent.deadlineMicros)
  refuseIf (intent.digest ≠ digestOf intent.body) .digestMismatch

/-- Cast a ballot at `now`, bound to the intent's digest and policy version. -/
def Vote.cast (intent : Intent) (voter : AgentId) (choice : VoteChoice) (now : Nat) : Except IntentError Vote := do
  intent.validate digestOf
  refuseIf (voter ∉ intent.eligibleVoters) (.ineligibleVoter voter)
  return ⟨intent.intentId, intent.digest, intent.policyVersion, voter, choice, now⟩

def Decision.authorizes (decision : Decision) (intent : Intent) : Except IntentError Bool := do
  intent.validate digestOf
  refuseIf (decision.intentId ≠ intent.intentId ∨ decision.intentDigest ≠ intent.digest ∨
    decision.policyVersion ≠ intent.policyVersion) .decisionIntentMismatch
  return decision.outcome == .committed

end

/-! ## The fold over the votes -/

def choiceRank : VoteChoice → Nat
  | .allow => 0
  | .block => 1
  | .abstain => 2

/-- Bound to the intent, by an eligible voter, stamped between the proposal
and the deadline and not after `now`. -/
def counted (intent : Intent) (now : Nat) (vote : Vote) : Bool :=
  vote.intentId == intent.intentId && vote.intentDigest == intent.digest &&
    vote.policyVersion == intent.policyVersion && intent.eligibleVoters.contains vote.voter &&
    decide (vote.atMicros ≥ intent.atMicros) && decide (vote.atMicros ≤ intent.deadlineMicros) &&
    decide (vote.atMicros ≤ now)

/-- The order the votes are folded in: by voter, then by time, then by choice. -/
def Vote.le (left right : Vote) : Prop :=
  left.voter < right.voter ∨ left.voter = right.voter ∧
    (left.atMicros < right.atMicros ∨ left.atMicros = right.atMicros ∧ choiceRank left.choice ≤ choiceRank right.choice)

instance : DecidableRel Vote.le := fun _ _ => inferInstanceAs (Decidable (_ ∨ _))

/-- What the loop over the votes keeps: the first choice of each voter, the
evidence and the latest time. -/
structure Tally where
  ballots : List (AgentId × VoteChoice)
  considered : List (AgentId × VoteChoice)
  terminalAt : Nat
  deriving DecidableEq, Repr

/-- The loop over the sorted votes. It stops at a vote against the same
voter's first choice and returns that voter. -/
def fold (t : Tally) : List Vote → Tally × Option AgentId
  | [] => (t, none)
  | vote :: rest =>
    let t := { t with terminalAt := max t.terminalAt vote.atMicros }
    match t.ballots.lookup vote.voter with
    | none =>
      fold { t with ballots := t.ballots ++ [(vote.voter, vote.choice)]
                    considered := t.considered ++ [(vote.voter, vote.choice)] } rest
    | some existing =>
      if existing = vote.choice then fold t rest
      else ({ t with considered := t.considered ++ [(vote.voter, vote.choice)] }, some vote.voter)

def sealed (intent : Intent) (outcome : IntentOutcome) (reason : String)
    (votesConsidered : List (AgentId × VoteChoice)) (atMicros : Nat) : Decision :=
  ⟨intent.intentId, intent.digest, intent.policyVersion, outcome, reason, votesConsidered, atMicros⟩

def quorumMet (policy : IntentPolicy) (total allow : Nat) : Bool :=
  match policy with
  | .all => allow = total
  | .any => allow ≥ 1
  | .atLeast required => allow ≥ required

/-- No further vote can complete the quorum. -/
def impossible (policy : IntentPolicy) (total responded allow : Nat) : Bool :=
  match policy with
  | .all => responded > allow
  | .any => responded = total ∧ allow = 0
  | .atLeast required => allow + (total - responded) < required

/-- What `decide` returns after the loop. -/
def conclude (intent : Intent) (now : Nat) (t : Tally) : Option Decision :=
  match intent.mandatoryVoters.find? (fun voter => (t.ballots.lookup voter).any (· != .allow)) with
  | some voter => some (sealed intent .aborted s!"mandatory voter '{voter}' did not allow" t.considered t.terminalAt)
  | none =>
    let allow := (t.ballots.filter (·.2 == .allow)).length
    let responded := t.ballots.length
    let total := intent.eligibleVoters.length
    let mandatoryMet := intent.mandatoryVoters.all (fun voter => t.ballots.lookup voter == some .allow)
    if quorumMet intent.policy total allow && mandatoryMet then
      some (sealed intent .committed "quorum met" t.considered t.terminalAt)
    else
      let impossible := impossible intent.policy total responded allow
      let deadlinePassed := now ≥ intent.deadlineMicros
      if impossible || deadlinePassed then
        let reason :=
          if deadlinePassed && !mandatoryMet then "mandatory approval not reached by deadline"
          else if impossible then "quorum became impossible"
          else "quorum not reached by deadline"
        some (sealed intent .aborted reason t.considered (if deadlinePassed then intent.deadlineMicros else t.terminalAt))
      else none

def Tally.new (intent : Intent) : Tally := ⟨[], [], intent.atMicros⟩

/-- The counted votes in the order they are folded. -/
def valid (intent : Intent) (votes : List Vote) (now : Nat) : List Vote :=
  (votes.filter (counted intent now)).insertionSort Vote.le

def decideValid (intent : Intent) (now : Nat) (valid : List Vote) : Option Decision :=
  match fold (Tally.new intent) valid with
  | (t, some voter) =>
    some (sealed intent .aborted s!"voter '{voter}' cast conflicting votes" t.considered t.terminalAt)
  | (t, none) => conclude intent now t

/-- Fold the votes into a decision, or into nothing while the outcome remains
reachable before the deadline. -/
def decide (digestOf : List UInt8 → String) (intent : Intent) (votes : List Vote) (now : Nat) :
    Except IntentError (Option Decision) := do
  intent.validate digestOf
  return decideValid intent now (valid intent votes now)

/-! ## What validation gives -/

structure Validated (intent : Intent) : Prop where
  nonempty : intent.eligibleVoters ≠ []
  eligible : intent.eligibleVoters.Nodup
  mandatory : ∀ v ∈ intent.mandatoryVoters, v ∈ intent.eligibleVoters
  threshold : ∀ required, intent.policy = .atLeast required → 0 < required ∧ required ≤ intent.eligibleVoters.length
  deadline : intent.atMicros < intent.deadlineMicros

theorem checkEligible_ok {seen voters : List AgentId} {u : Unit} :
    checkEligible seen voters = .ok u ↔ voters.Nodup ∧ ∀ v ∈ voters, v ∉ seen := by
  induction voters generalizing seen with
  | nil => simp [checkEligible]
  | cons v rest ih =>
    unfold checkEligible
    split
    · rename_i h; simp [h]
    · rename_i h
      simp only [ih, List.nodup_cons, List.mem_cons, forall_eq_or_imp, not_or]
      constructor
      · rintro ⟨hn, hr⟩
        exact ⟨⟨fun hv => (hr v hv).1 rfl, hn⟩, h, fun w hw => (hr w hw).2⟩
      · rintro ⟨⟨hv, hn⟩, -, hr⟩
        exact ⟨hn, fun w hw => ⟨fun he => hv (he ▸ hw), hr w hw⟩⟩

theorem checkMandatory_ok {eligible seen voters : List AgentId} {u : Unit}
    (h : checkMandatory eligible seen voters = .ok u) : ∀ v ∈ voters, v ∈ eligible := by
  induction voters generalizing seen with
  | nil => simp
  | cons v rest ih =>
    simp only [checkMandatory] at h
    split at h
    · cases h
    · split at h
      · cases h
      · rename_i hv
        intro w hw
        rcases List.mem_cons.1 hw with rfl | hw
        · simpa using hv
        · exact ih h w hw

theorem Validated.of_validate {digestOf : List UInt8 → String} {intent : Intent} {u : Unit}
    (h : intent.validate digestOf = .ok u) : Validated intent := by
  simp only [Intent.validate, bind_ok, refuseIf_ok, checkEligible_ok, exists_const] at h
  obtain ⟨hne, hn, _, hm, _, ht, hd, -⟩ := h
  refine ⟨hne, hn.1, checkMandatory_ok hm, ?_, by omega⟩
  intro required hp
  simp only [checkThreshold, hp, refuseIf_ok] at ht
  omega

theorem decide_eq {digestOf : List UInt8 → String} {intent : Intent} (h : intent.validate digestOf = .ok ())
    (votes : List Vote) (now : Nat) :
    decide digestOf intent votes now = .ok (decideValid intent now (valid intent votes now)) := by
  unfold decide
  rw [h]
  rfl

theorem decideValid_bound {intent : Intent} {now : Nat} {votes : List Vote} {d : Decision}
    (h : decideValid intent now votes = some d) : ∃ outcome reason considered atMicros,
      d = sealed intent outcome reason considered atMicros := by
  unfold decideValid at h
  split at h
  · exact ⟨_, _, _, _, (Option.some.inj h).symm⟩
  · unfold conclude at h
    dsimp only at h
    split at h
    · exact ⟨_, _, _, _, (Option.some.inj h).symm⟩
    · split at h
      · exact ⟨_, _, _, _, (Option.some.inj h).symm⟩
      · split at h
        · exact ⟨_, _, _, _, (Option.some.inj h).symm⟩
        · cases h

/-- A decision is bound to its intent, so it authorizes exactly when it
committed. -/
theorem authorizes_of_decide {digestOf : List UInt8 → String} {intent : Intent} {votes : List Vote} {now : Nat}
    {d : Decision} (h : decide digestOf intent votes now = .ok (some d)) :
    d.authorizes digestOf intent = .ok (d.outcome == .committed) := by
  unfold decide at h
  simp only [bind_ok, pure_ok] at h
  obtain ⟨_, hv, h⟩ := h
  obtain ⟨outcome, reason, considered, atMicros, rfl⟩ := decideValid_bound h
  simp only [Decision.authorizes, bind_ok, refuseIf_ok, pure_ok]
  exact ⟨(), hv, (), by simp [sealed], trivial⟩

/-! ## What the loop computes -/

/-- Two votes of `votes` give different choices of `voter`. -/
def Conflict (votes : List Vote) (voter : AgentId) : Prop :=
  ∃ a ∈ votes, ∃ b ∈ votes, a.voter = voter ∧ b.voter = voter ∧ a.choice ≠ b.choice

theorem Conflict.mono {votes more : List Vote} {voter : AgentId} (h : Conflict votes voter)
    (hsub : ∀ v ∈ votes, v ∈ more) : Conflict more voter := by
  obtain ⟨a, ha, b, hb, h⟩ := h
  exact ⟨a, hsub a ha, b, hsub b hb, h⟩

/-- The state of the loop after `done`, while no vote conflicted. -/
structure Tallied (start : Nat) (t : Tally) (done : List Vote) : Prop where
  agree : ∀ voter, ¬ Conflict done voter
  ballot : ∀ voter choice, t.ballots.lookup voter = some choice ↔ ∃ v ∈ done, v.voter = voter ∧ v.choice = choice
  distinct : (t.ballots.map (·.1)).Nodup
  latest : t.terminalAt = (done.map (·.atMicros)).foldl max start

theorem Tallied.new (intent : Intent) : Tallied intent.atMicros (Tally.new intent) [] where
  agree := by simp [Conflict]
  ballot := by simp [Tally.new]
  distinct := by simp [Tally.new]
  latest := by simp [Tally.new]

theorem Tallied.lookup_none {start : Nat} {t : Tally} {done : List Vote} (h : Tallied start t done) {voter : AgentId} :
    t.ballots.lookup voter = none ↔ ∀ v ∈ done, v.voter ≠ voter := by
  constructor
  · intro hn v hv he
    have := (h.ballot voter v.choice).2 ⟨v, hv, he, rfl⟩
    simp [hn] at this
  · intro hall
    cases hc : t.ballots.lookup voter with
    | none => rfl
    | some choice =>
      obtain ⟨v, hv, he, -⟩ := (h.ballot voter choice).1 hc
      exact absurd he (hall v hv)

/-- A vote keeps the voters agreed when it gives its voter's first choice. -/
theorem agree_snoc {done : List Vote} (h : ∀ voter, ¬ Conflict done voter) {vote : Vote}
    (hsame : ∀ v ∈ done, v.voter = vote.voter → v.choice = vote.choice) : ∀ voter, ¬ Conflict (done ++ [vote]) voter := by
  rintro voter ⟨a, ha, b, hb, hav, hbv, hne⟩
  simp only [List.mem_append, List.mem_singleton] at ha hb
  rcases ha with ha | rfl <;> rcases hb with hb | rfl
  · exact h voter ⟨a, ha, b, hb, hav, hbv, hne⟩
  · exact hne (hsame a ha (hav.trans hbv.symm))
  · exact hne (hsame b hb (hbv.trans hav.symm)).symm
  · exact hne rfl

theorem Tallied.first {start : Nat} {t : Tally} {done : List Vote} (h : Tallied start t done) {vote : Vote}
    (hn : t.ballots.lookup vote.voter = none) (considered : List (AgentId × VoteChoice)) :
    Tallied start ⟨t.ballots ++ [(vote.voter, vote.choice)], considered, max t.terminalAt vote.atMicros⟩
      (done ++ [vote]) where
  agree := agree_snoc h.agree fun v hv he => absurd he (h.lookup_none.1 hn v hv)
  ballot voter choice := by
    simp only [List.lookup_append, List.lookup_cons, List.lookup_nil, List.mem_append, List.mem_singleton]
    by_cases hv : voter = vote.voter
    · subst hv
      simp only [hn, beq_self_eq_true, Option.none_or, Option.some.injEq]
      constructor
      · intro hc; exact ⟨vote, .inr rfl, rfl, hc⟩
      · rintro ⟨v, hv | rfl, he, hc⟩
        · exact absurd he (h.lookup_none.1 hn v hv)
        · exact hc
    · rw [beq_false_of_ne hv, Option.or_none, h.ballot]
      constructor
      · rintro ⟨v, hv, he⟩; exact ⟨v, .inl hv, he⟩
      · rintro ⟨v, hm | rfl, he, hc⟩
        · exact ⟨v, hm, he, hc⟩
        · exact absurd he.symm hv
  distinct := by
    simp only [List.map_append, List.map_cons, List.map_nil, List.nodup_append, List.mem_singleton]
    refine ⟨h.distinct, by simp, ?_⟩
    rintro voter hv _ rfl rfl
    obtain ⟨⟨w, c⟩, hm, rfl⟩ := List.mem_map.1 hv
    rw [List.lookup_eq_none_iff] at hn
    simpa using hn _ hm
  latest := by simp [h.latest]

theorem Tallied.repeated {start : Nat} {t : Tally} {done : List Vote} (h : Tallied start t done) {vote : Vote}
    (hs : t.ballots.lookup vote.voter = some vote.choice) :
    Tallied start { t with terminalAt := max t.terminalAt vote.atMicros } (done ++ [vote]) where
  agree := by
    obtain ⟨w, hw, hwv, hwc⟩ := (h.ballot _ _).1 hs
    refine agree_snoc h.agree fun v hv he => ?_
    by_contra hne
    exact h.agree vote.voter ⟨v, hv, w, hw, he, hwv, hwc ▸ hne⟩
  ballot voter choice := by
    simp only [h.ballot, List.mem_append, List.mem_singleton]
    constructor
    · rintro ⟨v, hv, he⟩; exact ⟨v, .inl hv, he⟩
    · rintro ⟨v, hv | rfl, he, hc⟩
      · exact ⟨v, hv, he, hc⟩
      · exact (h.ballot _ _).1 (he ▸ hc ▸ hs)
  distinct := h.distinct
  latest := by simp [h.latest]

/-- Where the loop stopped: `vote` gives another choice than an earlier vote
of its voter, and what follows it is never read. -/
structure Stopped (start : Nat) (t : Tally) (done pre : List Vote) (vote : Vote) : Prop where
  against : ∃ a ∈ done ++ pre, a.voter = vote.voter ∧ a.choice ≠ vote.choice
  result : ∃ t', Tallied start t' (done ++ pre) ∧ ∀ post, fold t (pre ++ vote :: post) =
    (⟨t'.ballots, t'.considered ++ [(vote.voter, vote.choice)], max t'.terminalAt vote.atMicros⟩, some vote.voter)

/-- Either the loop reaches the end of the votes or it stopped at one. -/
theorem fold_spec {start : Nat} {t : Tally} {done : List Vote} (h : Tallied start t done) (rest : List Vote) :
    (∃ t', fold t rest = (t', none) ∧ Tallied start t' (done ++ rest)) ∨
      ∃ pre vote post, rest = pre ++ vote :: post ∧ Stopped start t done pre vote := by
  induction rest generalizing t done with
  | nil => exact .inl ⟨t, rfl, by simpa using h⟩
  | cons vote rest ih =>
    -- A step that reads `vote` and goes on carries both cases of the induction over.
    have continued : ∀ t1, Tallied start t1 (done ++ [vote]) → (∀ l, fold t (vote :: l) = fold t1 l) →
        (∃ t', fold t (vote :: rest) = (t', none) ∧ Tallied start t' (done ++ vote :: rest)) ∨
          ∃ pre v post, vote :: rest = pre ++ v :: post ∧ Stopped start t done pre v := by
      intro t1 h1 hstep
      rcases ih h1 with ⟨t', hf, ht⟩ | ⟨pre, v, post, rfl, hag, t', ht, hf⟩
      · exact .inl ⟨t', by rw [hstep, hf], by simpa using ht⟩
      · refine .inr ⟨vote :: pre, v, post, rfl, by simpa using hag, t', by simpa using ht, fun l => ?_⟩
        rw [List.cons_append, hstep, hf]
    cases hl : t.ballots.lookup vote.voter with
    | none => exact continued _ (h.first hl (t.considered ++ [(vote.voter, vote.choice)])) fun l => by simp [fold, hl]
    | some existing =>
      by_cases he : existing = vote.choice
      · subst he
        exact continued _ (h.repeated hl) fun l => by simp [fold, hl]
      · obtain ⟨a, ha, hav, hac⟩ := (h.ballot _ _).1 hl
        refine .inr ⟨[], vote, rest, rfl, ⟨a, by simpa using ha, hav, hac ▸ he⟩, t, by simpa using h, fun l => ?_⟩
        simp [fold, hl, he]

end LaserSdk.Intents

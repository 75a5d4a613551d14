import Mathlib
import LaserSdk.Govern.Evidence
/-!
# The quorum governor

Named voters decide on one action and one pass over their votes composes them
into a decision. The composite proceeds exactly when every mandatory voter
affirms, the votes meet the policy and no two voters replace the body
differently. A denial is the strongest one found, unless a mandatory voter
denies: the first mandatory denial is returned whatever the others voted.
-/

namespace LaserSdk.Govern

inductive Verdict where
  | allow
  | observe
  | block
  | stepUp (scope : String)
  | modify (body : List UInt8)
  | defer
  deriving DecidableEq, Repr

def Verdict.asStr : Verdict → String
  | .allow => "allow"
  | .observe => "observe"
  | .block => "block"
  | .stepUp _ => "step_up"
  | .modify _ => "modify"
  | .defer => "defer"

structure ActionDecision where
  verdict : Verdict
  reason : Option String
  policy : Option PolicyRef
  /-- The bits of the estimate. -/
  riskScore : Option UInt64
  deriving DecidableEq, Repr

def ActionDecision.of (verdict : Verdict) : ActionDecision := ⟨verdict, none, none, none⟩

def ActionDecision.allow : ActionDecision := .of .allow

def ActionDecision.block (reason : String) : ActionDecision := { ActionDecision.of .block with reason := some reason }

inductive QuorumPolicy where
  | all
  | any
  | atLeast (n : Nat)
  deriving DecidableEq, Repr

def QuorumPolicy.met (policy : QuorumPolicy) (affirmative total : Nat) : Bool :=
  match policy with
  | .all => affirmative = total
  | .any => affirmative ≥ 1
  | .atLeast n => affirmative ≥ n

def QuorumPolicy.debug : QuorumPolicy → String
  | .all => "All"
  | .any => "Any"
  | .atLeast n => "AtLeast(" ++ toString n ++ ")"

/-- A voter, with what its governor answers on the action: a decision or the
text of an error. -/
structure Voter where
  name : String
  mandatory : Bool
  vote : Except String ActionDecision

structure QuorumGovernor where
  voters : List Voter
  policy : QuorumPolicy

def isAffirmative : Verdict → Bool
  | .allow | .observe | .modify _ => true
  | _ => false

def affirmativeRank : Verdict → Int
  | .modify _ => 2
  | .observe => 1
  | .allow => 0
  | _ => -1

def denialRank : Verdict → Int
  | .block => 2
  | .stepUp _ => 1
  | .defer => 0
  | _ => -1

def annotate (decision : ActionDecision) (ballot : String) : ActionDecision :=
  { decision with
    reason := some (match decision.reason with
      | some detail => detail ++ "; " ++ ballot
      | none => ballot) }

/-- What the pass over the votes gathers. -/
structure Tally where
  ballot : List String
  affirmative : Nat
  mandatoryDenial : Option ActionDecision
  mandatoryError : Option String
  bestAffirmative : Option ActionDecision
  bestDenial : Option ActionDecision
  replacement : Option (List UInt8)
  conflictingReplacements : Bool
  deriving DecidableEq, Repr

def Tally.new : Tally := ⟨[], 0, none, none, none, none, none, false⟩

def ballotLine (voter : Voter) : String :=
  voter.name ++ "=" ++ match voter.vote with
    | .ok decision => decision.verdict.asStr
    | .error error => "error(" ++ error ++ ")"

/-- A decision replaces the best one found when it ranks above it. -/
def better (rank : Verdict → Int) (best : Option ActionDecision) (decision : ActionDecision) : Option ActionDecision :=
  if rank decision.verdict > (best.map fun current => rank current.verdict).getD (-1) then some decision else best

def Tally.count (t : Tally) (voter : Voter) : Tally :=
  let t := { t with ballot := t.ballot ++ [ballotLine voter] }
  match voter.vote with
  | .error _ => if voter.mandatory then { t with mandatoryError := t.mandatoryError.or (some voter.name) } else t
  | .ok decision =>
    let t :=
      if voter.mandatory && !isAffirmative decision.verdict then
        { t with mandatoryDenial := t.mandatoryDenial.or (some decision) }
      else t
    if isAffirmative decision.verdict then
      let t := { t with affirmative := t.affirmative + 1 }
      let t :=
        match decision.verdict with
        | .modify body =>
          match t.replacement with
          | none => { t with replacement := some body }
          | some existing => if existing ≠ body then { t with conflictingReplacements := true } else t
        | _ => t
      { t with bestAffirmative := better affirmativeRank t.bestAffirmative decision }
    else { t with bestDenial := better denialRank t.bestDenial decision }

def tally (voters : List Voter) : Tally := voters.foldl Tally.count .new

/-- The first voter whose name an earlier one has. -/
def duplicate (names : List String) : List Voter → Option Voter
  | [] => none
  | voter :: rest => if voter.name ∈ names then some voter else duplicate (voter.name :: names) rest

def QuorumPolicy.invalid (policy : QuorumPolicy) (total : Nat) : Option Nat :=
  match policy with
  | .atLeast required => if required = 0 ∨ required > total then some required else none
  | _ => none

def QuorumGovernor.decide (g : QuorumGovernor) : ActionDecision :=
  if g.voters.isEmpty then .block "quorum governor has no configured voters"
  else
    match g.policy.invalid g.voters.length with
    | some required =>
      .block ("quorum threshold " ++ toString required ++ " is invalid for " ++ toString g.voters.length ++ " voters")
    | none =>
      match duplicate [] g.voters with
      | some voter => .block ("quorum voter '" ++ voter.name ++ "' is configured more than once")
      | none =>
        let t := tally g.voters
        let reason := "quorum(" ++ g.policy.debug ++ "): " ++ ", ".intercalate t.ballot
        -- A mandatory voter that fails counts before one that denies, and both before the quorum.
        match t.mandatoryError with
        | some voter => annotate (.block ("mandatory voter '" ++ voter ++ "' failed")) reason
        | none =>
          match t.mandatoryDenial with
          | some decision => annotate decision reason
          | none =>
            if t.conflictingReplacements then
              annotate (.block "quorum voters proposed conflicting body replacements") reason
            else if g.policy.met t.affirmative g.voters.length then annotate (t.bestAffirmative.getD .allow) reason
            else annotate (t.bestDenial.getD (.block "no voter reached the required quorum")) reason

/-! ## What the votes are -/

def Voter.fails (v : Voter) : Bool :=
  match v.vote with
  | .ok _ => false
  | .error _ => true

/-- The voter's decision, when it would let the action proceed. -/
def Voter.affirmation (v : Voter) : Option ActionDecision :=
  match v.vote with
  | .ok decision => if isAffirmative decision.verdict then some decision else none
  | .error _ => none

def Voter.denial (v : Voter) : Option ActionDecision :=
  match v.vote with
  | .ok decision => if isAffirmative decision.verdict then none else some decision
  | .error _ => none

/-- The body the voter replaces the action's with. -/
def Voter.body (v : Voter) : Option (List UInt8) :=
  match v.vote with
  | .ok ⟨.modify body, _, _, _⟩ => some body
  | _ => none

def mandatoryDenials (voters : List Voter) : List ActionDecision := (voters.filter (·.mandatory)).filterMap Voter.denial

def bodies (voters : List Voter) : List (List UInt8) := voters.filterMap Voter.body

/-! ## One vote -/

/-- What one vote changes, field by field. -/
theorem count_fields (t : Tally) (v : Voter) :
    (t.count v).affirmative = t.affirmative + v.affirmation.toList.length ∧
    (t.count v).mandatoryDenial = t.mandatoryDenial.or (if v.mandatory then v.denial else none) ∧
    (t.count v).mandatoryError.isSome = (t.mandatoryError.isSome || (v.mandatory && v.fails)) ∧
    (t.count v).bestAffirmative = v.affirmation.elim t.bestAffirmative (better affirmativeRank t.bestAffirmative) ∧
    (t.count v).bestDenial = v.denial.elim t.bestDenial (better denialRank t.bestDenial) ∧
    (t.count v).replacement = t.replacement.or v.body ∧
    (t.count v).conflictingReplacements =
      (t.conflictingReplacements || v.body.any fun body => t.replacement.any (· ≠ body)) := by
  obtain ⟨name, mandatory, vote⟩ := v
  -- A replacement is compared with the first one counted, the other votes are not.
  cases vote with
  | error error => cases mandatory <;> simp [Tally.count, Voter.affirmation, Voter.denial, Voter.body, Voter.fails]
  | ok decision =>
    obtain ⟨verdict, reason, policy, riskScore⟩ := decision
    cases verdict with
    | modify body =>
      simp only [Tally.count, Voter.affirmation, Voter.denial, Voter.body, Voter.fails, isAffirmative]
      cases t.replacement with
      | none => simp
      | some existing => by_cases hsame : existing = body <;> simp [hsame]
    | allow | observe | block | stepUp scope | defer =>
      cases mandatory <;> simp [Tally.count, Voter.affirmation, Voter.denial, Voter.body, Voter.fails, isAffirmative]

/-! ## The pass -/

/-- The tally of some voters, in terms of their votes. Of decisions that rank
alike the first one counts. -/
structure Counted (voters : List Voter) (t : Tally) : Prop where
  affirmative : t.affirmative = (voters.filterMap Voter.affirmation).length
  mandatoryDenial : t.mandatoryDenial = (mandatoryDenials voters).head?
  mandatoryError : t.mandatoryError.isSome = voters.any fun v => v.mandatory && v.fails
  bestAffirmative : t.bestAffirmative = (voters.filterMap Voter.affirmation).argmax fun d => affirmativeRank d.verdict
  bestDenial : t.bestDenial = (voters.filterMap Voter.denial).argmax fun d => denialRank d.verdict
  replacement : t.replacement = (bodies voters).head?
  conflicting : t.conflictingReplacements = (bodies voters).any fun b => (bodies voters).head? ≠ some b

theorem filterMap_snoc {α β : Type} (f : α → Option β) (l : List α) (a : α) :
    (l ++ [a]).filterMap f = l.filterMap f ++ (f a).toList := by
  rw [List.filterMap_append]
  cases h : f a <;> simp [h]

theorem mandatoryDenials_snoc (voters : List Voter) (v : Voter) :
    mandatoryDenials (voters ++ [v]) = mandatoryDenials voters ++ (if v.mandatory then v.denial else none).toList := by
  unfold mandatoryDenials
  rw [List.filter_append]
  cases hmandatory : v.mandatory with
  | true => simp only [List.filter_cons, hmandatory, List.filter_nil, if_true, filterMap_snoc]
  | false => simp [hmandatory]

theorem affirmation_affirmative {v : Voter} {d : ActionDecision} (h : v.affirmation = some d) :
    isAffirmative d.verdict = true := by
  unfold Voter.affirmation at h
  split at h
  · split at h
    next haffirmative =>
      cases h
      exact haffirmative
    · cases h
  · cases h

theorem affirmation_rank {v : Voter} {d : ActionDecision} (h : v.affirmation = some d) :
    -1 < affirmativeRank d.verdict := by
  have haffirmative := affirmation_affirmative h
  revert haffirmative
  cases d.verdict <;> simp [isAffirmative, affirmativeRank]

theorem denial_rank {v : Voter} {d : ActionDecision} (h : v.denial = some d) :
    isAffirmative d.verdict = false ∧ -1 < denialRank d.verdict := by
  unfold Voter.denial at h
  split at h
  next decision _ =>
    split at h
    · cases h
    next haffirmative =>
      cases h
      revert haffirmative
      cases d.verdict <;> simp [isAffirmative, denialRank]
  · cases h

theorem better_argmax (rank : Verdict → Int) (l : List ActionDecision) {vote : Option ActionDecision}
    (hrank : ∀ d ∈ vote, -1 < rank d.verdict) :
    vote.elim (l.argmax fun d => rank d.verdict) (better rank (l.argmax fun d => rank d.verdict)) =
      (l ++ vote.toList).argmax fun d => rank d.verdict := by
  cases vote with
  | none => simp
  | some d =>
    rw [Option.toList_some, List.argmax_concat, Option.elim_some]
    unfold better
    cases l.argmax fun d => rank d.verdict with
    | none => simp [hrank d rfl]
    | some best => simp

/-- A further body conflicts with the first one, or does not. -/
theorem conflicts_snoc (l : List (List UInt8)) (body : Option (List UInt8)) :
    ((l ++ body.toList).any fun b => (l ++ body.toList).head? ≠ some b) =
      ((l.any fun b => l.head? ≠ some b) || body.any fun body => l.head?.any (· ≠ body)) := by
  cases body with
  | none => simp
  | some body => cases l <;> simp

theorem count_counted {voters : List Voter} {t : Tally} (h : Counted voters t) (v : Voter) :
    Counted (voters ++ [v]) (t.count v) := by
  obtain ⟨haffirmative, hdenial, herror, hbest, hworst, hreplacement, hconflicting⟩ := count_fields t v
  have hbodies : bodies (voters ++ [v]) = bodies voters ++ v.body.toList := filterMap_snoc _ _ _
  have hhead : ∀ {α : Type} (l : List α) (o : Option α), (l ++ o.toList).head? = l.head?.or o := by
    intro α l o
    rw [List.head?_append]
    cases o <;> rfl
  constructor
  · rw [haffirmative, h.affirmative, filterMap_snoc, List.length_append]
  · rw [hdenial, h.mandatoryDenial, mandatoryDenials_snoc, hhead]
  · rw [herror, h.mandatoryError, List.any_append]
    simp
  · rw [hbest, h.bestAffirmative, filterMap_snoc, ← better_argmax]
    exact fun d hd => affirmation_rank hd
  · rw [hworst, h.bestDenial, filterMap_snoc, ← better_argmax]
    exact fun d hd => (denial_rank hd).2
  · rw [hreplacement, h.replacement, hbodies, hhead]
  · rw [hconflicting, h.conflicting, h.replacement, hbodies, conflicts_snoc]

theorem tally_counted (voters : List Voter) : Counted voters (tally voters) := by
  induction voters using List.reverseRecOn with
  | nil => constructor <;> rfl
  | append_singleton voters v ih =>
    unfold tally
    rw [List.foldl_append]
    exact count_counted ih v

/-! ## The composite -/

/-- A configuration that `decide` does not block: voters, a threshold they can
reach, and each name once. -/
structure QuorumGovernor.Valid (g : QuorumGovernor) : Prop where
  voters : g.voters ≠ []
  threshold : ∀ n, g.policy = .atLeast n → 0 < n ∧ n ≤ g.voters.length
  distinct : (g.voters.map (·.name)).Nodup

def QuorumPolicy.Meets (policy : QuorumPolicy) (voters : List Voter) : Prop :=
  match policy with
  | .all => ∀ v ∈ voters, v.affirmation.isSome = true
  | .any => ∃ v ∈ voters, v.affirmation.isSome = true
  | .atLeast n => n ≤ (voters.filterMap Voter.affirmation).length

def OneBody (voters : List Voter) : Prop := ∀ first ∈ bodies voters, ∀ second ∈ bodies voters, first = second

def NoneFails (voters : List Voter) : Prop := ∀ v ∈ voters, v.mandatory = true → v.fails = false

instance (voters : List Voter) : Decidable (OneBody voters) :=
  inferInstanceAs (Decidable (∀ first ∈ bodies voters, ∀ second ∈ bodies voters, first = second))

instance (voters : List Voter) : Decidable (NoneFails voters) :=
  inferInstanceAs (Decidable (∀ v ∈ voters, v.mandatory = true → v.fails = false))

/-- In the order block, step up, defer. -/
def Strongest (verdict : Verdict) (denials : List ActionDecision) : Prop :=
  (∃ d ∈ denials, denialRank d.verdict = denialRank verdict) ∧
    ∀ d ∈ denials, denialRank d.verdict ≤ denialRank verdict

/-- What the governor promises of its composite. -/
structure QuorumGovernor.Composes (g : QuorumGovernor) : Prop where
  proceeds : isAffirmative g.decide.verdict = true ↔
    (∀ v ∈ g.voters, v.mandatory = true → v.affirmation.isSome = true) ∧ g.policy.Meets g.voters ∧ OneBody g.voters
  replaces : isAffirmative g.decide.verdict = true → ∀ body ∈ bodies g.voters, g.decide.verdict = .modify body
  denies : isAffirmative g.decide.verdict = false → NoneFails g.voters → OneBody g.voters →
    g.voters.filterMap Voter.denial ≠ [] → Strongest g.decide.verdict (g.voters.filterMap Voter.denial)

/-- The first mandatory denial, if there is one, is as strong as any other. -/
def FirstIsStrongest (voters : List Voter) : Prop :=
  ∀ d ∈ (mandatoryDenials voters).head?, ∀ other ∈ voters.filterMap Voter.denial,
    denialRank other.verdict ≤ denialRank d.verdict

theorem duplicate_eq_none {names : List String} {voters : List Voter} (hdistinct : (voters.map (·.name)).Nodup)
    (hnew : ∀ v ∈ voters, v.name ∉ names) : duplicate names voters = none := by
  induction voters generalizing names with
  | nil => rfl
  | cons v rest ih =>
    obtain ⟨hfirst, hrest⟩ := List.nodup_cons.1 hdistinct
    rw [duplicate, if_neg (hnew v List.mem_cons_self)]
    apply ih hrest
    intro u hu hmem
    rcases List.mem_cons.1 hmem with hsame | hmem
    · exact hfirst (List.mem_map.2 ⟨u, hu, hsame⟩)
    · exact hnew u (List.mem_cons_of_mem _ hu) hmem

/-- The verdict of a valid configuration, in terms of the votes. -/
theorem decide_verdict {g : QuorumGovernor} (h : g.Valid) : g.decide.verdict =
    if g.voters.any fun v => v.mandatory && v.fails then .block
    else match (mandatoryDenials g.voters).head? with
      | some d => d.verdict
      | none =>
        if (bodies g.voters).any fun b => (bodies g.voters).head? ≠ some b then .block
        else if g.policy.met (g.voters.filterMap Voter.affirmation).length g.voters.length then
          (((g.voters.filterMap Voter.affirmation).argmax fun d => affirmativeRank d.verdict).getD .allow).verdict
        else (((g.voters.filterMap Voter.denial).argmax fun d => denialRank d.verdict).getD (.of .block)).verdict := by
  have hvoters : g.voters.isEmpty = false := List.isEmpty_eq_false_iff.2 h.voters
  have hthreshold : g.policy.invalid g.voters.length = none := by
    cases hpolicy : g.policy with
    | all | any => rfl
    | atLeast n =>
      obtain ⟨hpositive, hreach⟩ := h.threshold n hpolicy
      exact if_neg (by omega)
  have hduplicate : duplicate [] g.voters = none := duplicate_eq_none h.distinct fun v _ => List.not_mem_nil
  have hcounted := tally_counted g.voters
  have hannotate : ∀ d ballot, (annotate d ballot).verdict = d.verdict := fun d ballot => rfl
  unfold QuorumGovernor.decide
  rw [hvoters, hthreshold, hduplicate, ← hcounted.mandatoryError, ← hcounted.mandatoryDenial, ← hcounted.conflicting,
    ← hcounted.affirmative, ← hcounted.bestAffirmative, ← hcounted.bestDenial]
  dsimp only
  rw [if_neg Bool.false_ne_true]
  cases (tally g.voters).mandatoryError with
  | some name => rfl
  | none =>
    cases (tally g.voters).mandatoryDenial with
    | some d => rfl
    | none =>
      dsimp only [Option.isSome_none]
      rw [if_neg Bool.false_ne_true]
      split
      · rfl
      · split
        · rw [hannotate]
        · rw [hannotate]
          cases (tally g.voters).bestDenial <;> rfl

theorem anyFails_eq_false {voters : List Voter} :
    (voters.any fun v => v.mandatory && v.fails) = false ↔ NoneFails voters := by
  simp [NoneFails, List.any_eq_false]

theorem anyConflicts_eq_false {voters : List Voter} :
    ((bodies voters).any fun b => (bodies voters).head? ≠ some b) = false ↔ OneBody voters := by
  unfold OneBody
  cases bodies voters with
  | nil => simp
  | cons first rest =>
    simp only [List.any_eq_false, List.head?_cons, ne_eq, Option.some.injEq, decide_not, Bool.not_eq_true',
      decide_eq_false_iff_not, not_not]
    constructor
    · intro hsame b hb c hc
      rw [← hsame b hb, ← hsame c hc]
    · exact fun hsame b hb => hsame first List.mem_cons_self b hb

theorem met_iff {g : QuorumGovernor} : g.policy.met (g.voters.filterMap Voter.affirmation).length g.voters.length = true ↔
    g.policy.Meets g.voters := by
  unfold QuorumPolicy.met QuorumPolicy.Meets
  cases g.policy with
  | all => rw [decide_eq_true_eq, List.filterMap_length_eq_length]
  | any =>
    rw [decide_eq_true_eq, ge_iff_le, Nat.one_le_iff_ne_zero, ← Nat.pos_iff_ne_zero, List.length_filterMap_pos_iff]
    simp [Option.isSome_iff_exists]
  | atLeast n => simp

/-- A voter affirms, denies or fails. -/
theorem vote_cases (v : Voter) : v.fails = true ∧ v.affirmation = none ∧ v.denial = none ∨
    (∃ d, v.affirmation = some d) ∧ v.fails = false ∧ v.denial = none ∨
      (∃ d, v.denial = some d) ∧ v.fails = false ∧ v.affirmation = none := by
  unfold Voter.fails Voter.affirmation Voter.denial
  cases v.vote with
  | error error => simp
  | ok d => cases h : isAffirmative d.verdict <;> simp [h]

theorem mandatory_iff {voters : List Voter} :
    (∀ v ∈ voters, v.mandatory = true → v.affirmation.isSome = true) ↔
      NoneFails voters ∧ mandatoryDenials voters = [] := by
  unfold mandatoryDenials NoneFails
  rw [List.filterMap_eq_nil_iff]
  constructor
  · intro haffirms
    refine ⟨fun v hv hmandatory => ?_, fun v hv => ?_⟩
    · rcases vote_cases v with ⟨_, hnone, _⟩ | ⟨_, hfails, _⟩ | ⟨_, hfails, _⟩
      · exact absurd (haffirms v hv hmandatory) (by simp [hnone])
      · exact hfails
      · exact hfails
    · obtain ⟨hv, hmandatory⟩ := List.mem_filter.1 hv
      rcases vote_cases v with ⟨_, _, hdenial⟩ | ⟨_, _, hdenial⟩ | ⟨_, _, hnone⟩
      · exact hdenial
      · exact hdenial
      · exact absurd (haffirms v hv hmandatory) (by simp [hnone])
  · rintro ⟨hfails, hdenials⟩ v hv hmandatory
    rcases vote_cases v with ⟨hfailed, _⟩ | ⟨⟨d, haffirms⟩, _⟩ | ⟨⟨d, hdenies⟩, _⟩
    · exact absurd (hfails v hv hmandatory) (by simp [hfailed])
    · rw [haffirms, Option.isSome_some]
    · exact absurd (hdenials v (List.mem_filter.2 ⟨hv, hmandatory⟩)) (by simp [hdenies])

/-- The body a voter puts in is the body of its affirmation. -/
theorem body_iff {v : Voter} {body : List UInt8} :
    v.body = some body ↔ ∃ d, v.affirmation = some d ∧ d.verdict = .modify body := by
  unfold Voter.body Voter.affirmation
  cases v.vote with
  | error error => simp
  | ok d =>
    obtain ⟨verdict, reason, policy, riskScore⟩ := d
    cases verdict <;> simp [isAffirmative]

theorem mem_bodies {voters : List Voter} {body : List UInt8} :
    body ∈ bodies voters ↔ ∃ d ∈ voters.filterMap Voter.affirmation, d.verdict = .modify body := by
  unfold bodies
  simp only [List.mem_filterMap, body_iff]
  constructor
  · rintro ⟨v, hv, d, hd, hverdict⟩
    exact ⟨d, ⟨v, hv, hd⟩, hverdict⟩
  · rintro ⟨d, ⟨v, hv, hd⟩, hverdict⟩
    exact ⟨v, hv, d, hd, hverdict⟩

/-- The best affirmation proceeds, and replaces the body if any voter does. -/
theorem best_affirmation {voters : List Voter} {best : ActionDecision}
    (h : best ∈ (voters.filterMap Voter.affirmation).argmax fun d => affirmativeRank d.verdict) :
    isAffirmative best.verdict = true ∧ (bodies voters ≠ [] → ∃ body ∈ bodies voters, best.verdict = .modify body) := by
  have hmem := List.argmax_mem h
  obtain ⟨v, hv, hbest⟩ := List.mem_filterMap.1 hmem
  refine ⟨affirmation_affirmative hbest, fun hbodies => ?_⟩
  obtain ⟨body, hbody⟩ := List.exists_mem_of_ne_nil _ hbodies
  obtain ⟨d, hd, hverdict⟩ := mem_bodies.1 hbody
  have hrank := List.le_of_mem_argmax hd h
  simp only [hverdict, affirmativeRank] at hrank
  cases hkind : best.verdict with
  | modify other => exact ⟨other, mem_bodies.2 ⟨best, hmem, hkind⟩, rfl⟩
  | allow | observe | block | stepUp scope | defer => simp [hkind] at hrank

theorem met_affirmed {g : QuorumGovernor} (h : g.Valid) (hmet : g.policy.Meets g.voters) :
    g.voters.filterMap Voter.affirmation ≠ [] := by
  rw [← List.length_pos_iff_ne_nil]
  unfold QuorumPolicy.Meets at hmet
  split at hmet
  · obtain ⟨v, hv⟩ := List.exists_mem_of_ne_nil _ h.voters
    obtain ⟨d, hd⟩ := Option.isSome_iff_exists.1 (hmet v hv)
    exact List.length_pos_of_mem (List.mem_filterMap.2 ⟨v, hv, hd⟩)
  · obtain ⟨v, hv, hsome⟩ := hmet
    obtain ⟨d, hd⟩ := Option.isSome_iff_exists.1 hsome
    exact List.length_pos_of_mem (List.mem_filterMap.2 ⟨v, hv, hd⟩)
  next n hpolicy =>
    obtain ⟨hpositive, _⟩ := h.threshold n hpolicy
    omega

/-- Where the pass ends, in terms of the votes. -/
theorem decide_cases {g : QuorumGovernor} (h : g.Valid) :
    -- A mandatory voter fails.
    (¬ NoneFails g.voters ∧ g.decide.verdict = .block) ∨
    -- A mandatory voter denies: the first one is heard, whatever the others say.
    (NoneFails g.voters ∧ ∃ d ∈ (mandatoryDenials g.voters).head?, g.decide.verdict = d.verdict) ∨
    -- Two bodies conflict.
    (NoneFails g.voters ∧ mandatoryDenials g.voters = [] ∧ ¬ OneBody g.voters ∧ g.decide.verdict = .block) ∨
    -- The votes meet the policy.
    (NoneFails g.voters ∧ mandatoryDenials g.voters = [] ∧ OneBody g.voters ∧ g.policy.Meets g.voters ∧
      ∃ best ∈ (g.voters.filterMap Voter.affirmation).argmax fun d => affirmativeRank d.verdict,
        g.decide.verdict = best.verdict) ∨
    -- They do not.
    (NoneFails g.voters ∧ mandatoryDenials g.voters = [] ∧ OneBody g.voters ∧ ¬ g.policy.Meets g.voters ∧
      g.decide.verdict =
        (((g.voters.filterMap Voter.denial).argmax fun d => denialRank d.verdict).getD (.of .block)).verdict) := by
  have hverdict := decide_verdict h
  by_cases hfails : NoneFails g.voters
  · rw [anyFails_eq_false.2 hfails, if_neg Bool.false_ne_true] at hverdict
    cases hdenials : mandatoryDenials g.voters with
    | cons d rest =>
      rw [hdenials] at hverdict
      exact .inr (.inl ⟨hfails, d, rfl, hverdict⟩)
    | nil =>
      rw [hdenials] at hverdict
      dsimp only [List.head?_nil] at hverdict
      by_cases hbody : OneBody g.voters
      · rw [anyConflicts_eq_false.2 hbody, if_neg Bool.false_ne_true] at hverdict
        by_cases hmet : g.policy.Meets g.voters
        · rw [met_iff.2 hmet, if_pos rfl] at hverdict
          obtain ⟨best, hbest⟩ := Option.ne_none_iff_exists'.1
            (mt (@List.argmax_eq_none _ _ _ _ (fun d => affirmativeRank d.verdict) _).1 (met_affirmed h hmet))
          rw [hbest] at hverdict
          exact .inr (.inr (.inr (.inl ⟨hfails, rfl, hbody, hmet, best, hbest, hverdict⟩)))
        · rw [if_neg (mt met_iff.1 hmet)] at hverdict
          exact .inr (.inr (.inr (.inr ⟨hfails, rfl, hbody, hmet, hverdict⟩)))
      · rw [if_pos (by simpa using mt anyConflicts_eq_false.1 hbody)] at hverdict
        exact .inr (.inr (.inl ⟨hfails, rfl, hbody, hverdict⟩))
  · rw [if_pos (by simpa using mt anyFails_eq_false.1 hfails)] at hverdict
    exact .inl ⟨hfails, hverdict⟩

theorem mem_denials_of_mandatory {voters : List Voter} {d : ActionDecision} (h : d ∈ mandatoryDenials voters) :
    d ∈ voters.filterMap Voter.denial := by
  obtain ⟨v, hv, hd⟩ := List.mem_filterMap.1 h
  exact List.mem_filterMap.2 ⟨v, (List.mem_filter.1 hv).1, hd⟩

theorem denial_not_affirmative {voters : List Voter} {d : ActionDecision} (h : d ∈ voters.filterMap Voter.denial) :
    isAffirmative d.verdict = false := by
  obtain ⟨v, _, hd⟩ := List.mem_filterMap.1 h
  exact (denial_rank hd).1

theorem best_denial_not_affirmative (voters : List Voter) :
    isAffirmative (((voters.filterMap Voter.denial).argmax fun d => denialRank d.verdict).getD (.of .block)).verdict =
      false := by
  cases hbest : (voters.filterMap Voter.denial).argmax fun d => denialRank d.verdict with
  | none => rfl
  | some d => exact denial_not_affirmative (List.argmax_mem hbest)

theorem decide_proceeds {g : QuorumGovernor} (h : g.Valid) : isAffirmative g.decide.verdict = true ↔
    (∀ v ∈ g.voters, v.mandatory = true → v.affirmation.isSome = true) ∧ g.policy.Meets g.voters ∧ OneBody g.voters := by
  rw [mandatory_iff]
  obtain ⟨hfails, hverdict⟩ | ⟨_, d, hd, hverdict⟩ | ⟨_, _, hbody, hverdict⟩ |
    ⟨hfails, hdenials, hbody, hmet, best, hbest, hverdict⟩ | ⟨_, _, _, hmet, hverdict⟩ := decide_cases h
  · rw [hverdict]
    exact ⟨nofun, fun hall => absurd hall.1.1 hfails⟩
  · have hmem := List.mem_of_mem_head? hd
    rw [hverdict, denial_not_affirmative (mem_denials_of_mandatory hmem)]
    exact ⟨nofun, fun hall => absurd hall.1.2 (List.ne_nil_of_mem hmem)⟩
  · rw [hverdict]
    exact ⟨nofun, fun hall => absurd hall.2.2 hbody⟩
  · rw [hverdict]
    exact ⟨fun _ => ⟨⟨hfails, hdenials⟩, hmet, hbody⟩, fun _ => (best_affirmation hbest).1⟩
  · rw [hverdict, best_denial_not_affirmative]
    exact ⟨nofun, fun hall => absurd hall.2.1 hmet⟩

theorem decide_replaces {g : QuorumGovernor} (h : g.Valid) (hproceeds : isAffirmative g.decide.verdict = true) :
    ∀ body ∈ bodies g.voters, g.decide.verdict = .modify body := by
  obtain ⟨hmandatory, hmet, hbody⟩ := (decide_proceeds h).1 hproceeds
  obtain ⟨hfails, hdenials⟩ := mandatory_iff.1 hmandatory
  intro body hmem
  obtain ⟨hfailed, _⟩ | ⟨_, d, hd, _⟩ | ⟨_, _, hconflict, _⟩ | ⟨_, _, _, _, best, hbest, hverdict⟩ |
    ⟨_, _, _, hunmet, _⟩ := decide_cases h
  · exact absurd hfails hfailed
  · rw [hdenials] at hd
    cases hd
  · exact absurd hbody hconflict
  · obtain ⟨other, hother, hmodify⟩ := (best_affirmation hbest).2 (List.ne_nil_of_mem hmem)
    rw [hverdict, hmodify, hbody other hother body hmem]
  · exact absurd hmet hunmet

/-- Nothing mandatory denies: the composite is the strongest denial. -/
theorem best_denial_strongest {voters : List Voter} (hsome : voters.filterMap Voter.denial ≠ []) :
    Strongest (((voters.filterMap Voter.denial).argmax fun d => denialRank d.verdict).getD (.of .block)).verdict
      (voters.filterMap Voter.denial) := by
  cases hbest : (voters.filterMap Voter.denial).argmax fun d => denialRank d.verdict with
  | none => exact absurd (List.argmax_eq_none.1 hbest) hsome
  | some best =>
    refine ⟨⟨best, List.argmax_mem hbest, rfl⟩, fun d hd => ?_⟩
    have hrank := List.le_of_mem_argmax hd hbest
    exact hrank

/-- The governor keeps its promise exactly if the first mandatory denial is as
strong as any other denial, or an error or a conflict blocks the action. -/
theorem composes_iff {g : QuorumGovernor} (h : g.Valid) :
    g.Composes ↔ (NoneFails g.voters → OneBody g.voters → FirstIsStrongest g.voters) := by
  constructor
  · intro hcomposes hfails hbody d hd
    have hmem := mem_denials_of_mandatory (List.mem_of_mem_head? hd)
    have hverdict : g.decide.verdict = d.verdict := by
      rw [decide_verdict h, anyFails_eq_false.2 hfails, if_neg Bool.false_ne_true, Option.mem_def.1 hd]
    have hdenied := denial_not_affirmative hmem
    rw [← hverdict] at hdenied ⊢
    exact (hcomposes.denies hdenied hfails hbody (List.ne_nil_of_mem hmem)).2
  · intro hfirst
    refine ⟨decide_proceeds h, decide_replaces h, fun hdenied hfails hbody hsome => ?_⟩
    obtain ⟨hfailed, _⟩ | ⟨_, d, hd, hverdict⟩ | ⟨_, _, hconflict, _⟩ | ⟨_, _, _, _, best, hbest, hverdict⟩ |
      ⟨_, _, _, _, hverdict⟩ := decide_cases h
    · exact absurd hfails hfailed
    · rw [hverdict]
      exact ⟨⟨d, mem_denials_of_mandatory (List.mem_of_mem_head? hd), rfl⟩, hfirst hfails hbody d hd⟩
    · exact absurd hbody hconflict
    · rw [hverdict, (best_affirmation hbest).1] at hdenied
      cases hdenied
    · rw [hverdict]
      exact best_denial_strongest hsome

/-! ## A safety voter and a reviewer -/

def voting (name : String) (mandatory : Bool) (verdict : Verdict) : Voter := ⟨name, mandatory, .ok (.of verdict)⟩

/-- The mandatory voter asks for an approval and another one defers. -/
def stepUpQuorum : QuorumGovernor := ⟨[voting "safety" true (.stepUp "storage:rotate"), voting "scheduler" false .defer], .any⟩

/-- The mandatory voter defers and another one blocks. -/
def deferQuorum : QuorumGovernor := ⟨[voting "safety" true .defer, voting "reviewer" false .block], .any⟩

theorem pair_valid (first second : Voter) (hne : first.name ≠ second.name) : QuorumGovernor.Valid ⟨[first, second], .any⟩ :=
  ⟨by simp, nofun, by simp [hne]⟩

theorem stepUp_composes : stepUpQuorum.Composes ∧ stepUpQuorum.decide.verdict = .stepUp "storage:rotate" := by
  refine ⟨(composes_iff (pair_valid _ _ (by decide))).2 fun _ _ => ?_, by decide⟩
  intro d hd
  cases hd
  decide

/-- The composite holds the action for later though a voter blocks it. -/
theorem deferral_hides_block : deferQuorum.Valid ∧ deferQuorum.decide.verdict = .defer ∧
    (∃ v ∈ deferQuorum.voters, v.denial = some (.of .block)) ∧ ¬ deferQuorum.Composes := by
  have hvalid : deferQuorum.Valid := pair_valid _ _ (by decide)
  refine ⟨hvalid, by decide, by decide, fun hcomposes => ?_⟩
  have hstrongest := hcomposes.denies (by decide) (by decide) (by decide) (by decide)
  exact absurd (hstrongest.2 (.of .block) (by decide)) (by decide)

end LaserSdk.Govern

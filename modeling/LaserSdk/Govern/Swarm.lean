import Mathlib.Data.Finset.Card
import Mathlib.Data.String.Basic
import LaserSdk.Govern.Evidence
/-!
# What the agents of a swarm have been doing

A coordinator folds the evidence it reads off the audit topic into one activity
for each agent. Evidence arrives at least once and in whatever order the caller
reads it, and the fold must depend on neither. A map is a function from its keys.
-/

namespace LaserSdk.Govern

/-- The order of `(at_micros, decision_id)`. -/
def PolicyEvidence.Before (last evidence : PolicyEvidence) : Prop :=
  last.atMicros < evidence.atMicros ∨ last.atMicros = evidence.atMicros ∧ last.decisionId < evidence.decisionId

instance (last evidence : PolicyEvidence) : Decidable (last.Before evidence) :=
  inferInstanceAs (Decidable (_ ∨ _))

structure AgentActivity where
  decisions : Nat
  byVerdict : String → Option Nat
  lastDecision : Option PolicyEvidence

namespace AgentActivity

def empty : AgentActivity := ⟨0, fun _ => none, none⟩

def fold (activity : AgentActivity) (evidence : PolicyEvidence) : AgentActivity where
  decisions := activity.decisions + 1
  byVerdict verdict :=
    if verdict = evidence.decision then some ((activity.byVerdict verdict).getD 0 + 1)
    else activity.byVerdict verdict
  lastDecision :=
    match activity.lastDecision with
    | none => some evidence
    | some last => if last.Before evidence then some evidence else some last

def count (activity : AgentActivity) (verdict : String) : Nat := (activity.byVerdict verdict).getD 0

end AgentActivity

structure SwarmActivity where
  byAgent : String → Option AgentActivity
  seenDecisions : Finset String

namespace SwarmActivity

def new : SwarmActivity := ⟨fun _ => none, ∅⟩

def observe (swarm : SwarmActivity) (evidence : PolicyEvidence) : SwarmActivity :=
  match evidence.source with
  | none => swarm
  | some source =>
    if evidence.decisionId ∈ swarm.seenDecisions then swarm
    else
      { byAgent := fun agent =>
          if agent = source then some (((swarm.byAgent agent).getD .empty).fold evidence) else swarm.byAgent agent
        seenDecisions := insert evidence.decisionId swarm.seenDecisions }

def agent (swarm : SwarmActivity) (agent : String) : Option AgentActivity := swarm.byAgent agent

end SwarmActivity

def observeAll (records : List PolicyEvidence) : SwarmActivity := records.foldl .observe .new

/-! ## The activity of a set of records -/

/-- Equal decision ids mean equal records. -/
def DecidedOnce (records : List PolicyEvidence) : Prop :=
  ∀ e ∈ records, ∀ e' ∈ records, e.decisionId = e'.decisionId → e = e'

/-- The distinct decisions among the records of a kind. -/
def decisionIds (records : List PolicyEvidence) (p : PolicyEvidence → Bool) : Finset String :=
  ((records.filter p).map (·.decisionId)).toFinset

def byAgentIds (records : List PolicyEvidence) (agent : String) : Finset String :=
  decisionIds records fun e => e.source = some agent

def byVerdictIds (records : List PolicyEvidence) (agent verdict : String) : Finset String :=
  decisionIds records fun e => e.source = some agent ∧ e.decision = verdict

/-- The latest of the agent's records. -/
def IsLatest (records : List PolicyEvidence) (agent : String) (last : PolicyEvidence) : Prop :=
  last ∈ records ∧ last.source = some agent ∧ ∀ e ∈ records, e.source = some agent → e = last ∨ e.Before last

structure Reflects (records : List PolicyEvidence) (agent : String) (activity : AgentActivity) : Prop where
  decisions : activity.decisions = (byAgentIds records agent).card
  byVerdict : ∀ verdict, activity.byVerdict verdict =
    if byVerdictIds records agent verdict = ∅ then none else some (byVerdictIds records agent verdict).card
  idle : activity.lastDecision = none → ∀ e ∈ records, e.source ≠ some agent
  latest : ∀ last, activity.lastDecision = some last → IsLatest records agent last

structure Folded (records : List PolicyEvidence) (swarm : SwarmActivity) : Prop where
  seen : swarm.seenDecisions = decisionIds records (·.source.isSome)
  known : ∀ agent, (swarm.byAgent agent).isSome ↔ ∃ e ∈ records, e.source = some agent
  reflects : ∀ agent, Reflects records agent ((swarm.byAgent agent).getD .empty)

theorem mem_decisionIds {records : List PolicyEvidence} {p : PolicyEvidence → Bool} {id : String} :
    id ∈ decisionIds records p ↔ ∃ e ∈ records, p e ∧ e.decisionId = id := by
  simp [decisionIds, and_assoc]

theorem decisionIds_congr {records records' : List PolicyEvidence} {p : PolicyEvidence → Bool}
    (h : ∀ e, p e → (e ∈ records ↔ e ∈ records')) : decisionIds records p = decisionIds records' p := by
  ext id
  simp only [mem_decisionIds]
  refine exists_congr fun e => ?_
  constructor
  · rintro ⟨hmem, hp, hid⟩
    exact ⟨(h e hp).1 hmem, hp, hid⟩
  · rintro ⟨hmem, hp, hid⟩
    exact ⟨(h e hp).2 hmem, hp, hid⟩

theorem decisionIds_snoc {records : List PolicyEvidence} {p : PolicyEvidence → Bool} {e : PolicyEvidence}
    (h : p e) : decisionIds (records ++ [e]) p = insert e.decisionId (decisionIds records p) := by
  ext id
  simp [decisionIds, h]

theorem decisionIds_snoc_other {records : List PolicyEvidence} {p : PolicyEvidence → Bool} {e : PolicyEvidence}
    (h : ¬ p e) : decisionIds (records ++ [e]) p = decisionIds records p := by
  simp [decisionIds, h]

/-! ## Only the records of an agent count -/

theorem IsLatest.congr {records records' : List PolicyEvidence} {agent : String} {last : PolicyEvidence}
    (hsame : ∀ e : PolicyEvidence, e.source = some agent → (e ∈ records ↔ e ∈ records'))
    (h : IsLatest records agent last) : IsLatest records' agent last := by
  obtain ⟨hmem, hsource, hmax⟩ := h
  refine ⟨(hsame last hsource).1 hmem, hsource, ?_⟩
  intro e he hagent
  exact hmax e ((hsame e hagent).2 he) hagent

theorem Reflects.congr {records records' : List PolicyEvidence} {agent : String} {activity : AgentActivity}
    (hsame : ∀ e : PolicyEvidence, e.source = some agent → (e ∈ records ↔ e ∈ records'))
    (h : Reflects records agent activity) : Reflects records' agent activity where
  decisions := by
    rw [h.decisions]
    unfold byAgentIds
    rw [decisionIds_congr]
    simpa using hsame
  byVerdict verdict := by
    rw [h.byVerdict]
    have : byVerdictIds records agent verdict = byVerdictIds records' agent verdict := by
      unfold byVerdictIds
      apply decisionIds_congr
      intro e he
      simp only [decide_eq_true_eq] at he
      exact hsame e he.1
    rw [this]
  idle hnone e he hagent := h.idle hnone e ((hsame e hagent).2 he) hagent
  latest last hlast := (h.latest last hlast).congr hsame

theorem Folded.congr {records records' : List PolicyEvidence} {swarm : SwarmActivity}
    (hsame : ∀ e : PolicyEvidence, e.source.isSome → (e ∈ records ↔ e ∈ records'))
    (h : Folded records swarm) : Folded records' swarm where
  seen := by
    rw [h.seen]
    exact decisionIds_congr hsame
  known agent := by
    rw [h.known]
    refine exists_congr fun e => and_congr_left fun hagent => hsame e (by simp [hagent])
  reflects agent := (h.reflects agent).congr fun e hagent => hsame e (by simp [hagent])

/-! ## One record -/

theorem before_of_not_before {last evidence : PolicyEvidence} (hid : last.decisionId ≠ evidence.decisionId)
    (h : ¬ last.Before evidence) : evidence.Before last := by
  unfold PolicyEvidence.Before at h ⊢
  push Not at h
  rcases Nat.lt_or_eq_of_le h.1 with hlt | heq
  · exact .inl hlt
  · exact .inr ⟨heq, lt_of_le_of_ne (h.2 heq.symm) hid.symm⟩

theorem PolicyEvidence.Before.trans {a b c : PolicyEvidence} (h : a.Before b) (h' : b.Before c) : a.Before c := by
  rcases h with h | ⟨ht, hid⟩ <;> rcases h' with h' | ⟨ht', hid'⟩
  · exact .inl (h.trans h')
  · exact .inl (ht' ▸ h)
  · exact .inl (ht ▸ h')
  · exact .inr ⟨ht.trans ht', hid.trans hid'⟩

theorem IsLatest.snoc {records : List PolicyEvidence} {agent : String} {last e : PolicyEvidence}
    (hfresh : ∀ e' ∈ records, e'.source = some agent → e'.decisionId ≠ e.decisionId) (hagent : e.source = some agent)
    (h : IsLatest records agent last) :
    IsLatest (records ++ [e]) agent (if last.Before e then e else last) := by
  obtain ⟨hmem, hsource, hmax⟩ := h
  split_ifs with hbefore
  · refine ⟨by simp, hagent, ?_⟩
    intro e' he' hagent'
    rcases List.mem_append.1 he' with he' | he'
    · right
      rcases hmax e' he' hagent' with rfl | hlt
      · exact hbefore
      · exact hlt.trans hbefore
    · exact .inl (List.mem_singleton.1 he')
  · refine ⟨List.mem_append_left _ hmem, hsource, ?_⟩
    intro e' he' hagent'
    rcases List.mem_append.1 he' with he' | he'
    · exact hmax e' he' hagent'
    · rw [List.mem_singleton.1 he']
      exact .inr (before_of_not_before (hfresh last hmem hsource) hbefore)

theorem card_decisionIds_snoc {records : List PolicyEvidence} {p : PolicyEvidence → Bool} {e : PolicyEvidence}
    (hp : p e) (hfresh : ∀ e' ∈ records, p e' → e'.decisionId ≠ e.decisionId) :
    (decisionIds (records ++ [e]) p).card = (decisionIds records p).card + 1 := by
  rw [decisionIds_snoc hp]
  apply Finset.card_insert_of_notMem
  rw [mem_decisionIds]
  rintro ⟨e', hmem, hp', hid⟩
  exact hfresh e' hmem hp' hid

theorem Reflects.fold {records : List PolicyEvidence} {agent : String} {activity : AgentActivity}
    {e : PolicyEvidence} (hfresh : ∀ e' ∈ records, e'.source = some agent → e'.decisionId ≠ e.decisionId)
    (hagent : e.source = some agent) (h : Reflects records agent activity) :
    Reflects (records ++ [e]) agent (activity.fold e) where
  decisions := by
    unfold byAgentIds
    rw [card_decisionIds_snoc (by simpa using hagent) (by simpa using hfresh)]
    exact congrArg (· + 1) h.decisions
  byVerdict verdict := by
    by_cases hverdict : verdict = e.decision
    · have hcard : (byVerdictIds (records ++ [e]) agent verdict).card =
          (byVerdictIds records agent verdict).card + 1 := by
        refine card_decisionIds_snoc (by simp [hagent, hverdict]) ?_
        intro e' hmem hp
        simp only [decide_eq_true_eq] at hp
        exact hfresh e' hmem hp.1
      have hsome : byVerdictIds (records ++ [e]) agent verdict ≠ ∅ := by
        intro hempty
        rw [hempty, Finset.card_empty] at hcard
        omega
      have hold : (activity.byVerdict verdict).getD 0 = (byVerdictIds records agent verdict).card := by
        rw [h.byVerdict]
        split_ifs with hnone
        · rw [hnone]
          rfl
        · rfl
      simp [AgentActivity.fold, hverdict.symm, hsome, hcard, hold]
    · have hids : byVerdictIds (records ++ [e]) agent verdict = byVerdictIds records agent verdict :=
        decisionIds_snoc_other (by simp [Ne.symm hverdict])
      simp [AgentActivity.fold, hverdict, hids, h.byVerdict]
  idle hnone := by
    unfold AgentActivity.fold at hnone
    dsimp only at hnone
    split at hnone
    · cases hnone
    · split_ifs at hnone
  latest last hlast := by
    unfold AgentActivity.fold at hlast
    dsimp only at hlast
    cases hold : activity.lastDecision with
    | none =>
      rw [hold] at hlast
      cases hlast
      refine ⟨by simp, hagent, ?_⟩
      intro e' he' hagent'
      rcases List.mem_append.1 he' with he' | he'
      · exact absurd hagent' (h.idle hold e' he')
      · exact .inl (List.mem_singleton.1 he')
    | some old =>
      rw [hold] at hlast
      dsimp only at hlast
      rw [← apply_ite some] at hlast
      cases hlast
      exact (h.latest old hold).snoc hfresh hagent

theorem Folded.observe {records : List PolicyEvidence} {swarm : SwarmActivity} {e : PolicyEvidence}
    (honce : DecidedOnce (records ++ [e])) (h : Folded records swarm) :
    Folded (records ++ [e]) (swarm.observe e) := by
  unfold SwarmActivity.observe
  cases hsource : e.source with
  | none =>
    apply h.congr
    intro e' hsome
    have : e' ≠ e := by
      rintro rfl
      simp [hsource] at hsome
    simp [this]
  | some source =>
    dsimp only
    split_ifs with hseen
    · -- The record with this id is the one folded before.
      rw [h.seen, mem_decisionIds] at hseen
      obtain ⟨e', hmem, -, hid⟩ := hseen
      have : e' = e := honce e' (by simp [hmem]) e (by simp) hid
      rw [← this]
      apply h.congr
      intro other _
      constructor
      · exact List.mem_append_left _
      · intro hother
        rcases List.mem_append.1 hother with hother | hother
        · exact hother
        · rw [List.mem_singleton.1 hother]
          exact hmem
    · have hfresh : ∀ e' ∈ records, ∀ agent, e'.source = some agent → e'.decisionId ≠ e.decisionId := by
        intro e' hmem agent hagent hid
        apply hseen
        rw [h.seen, mem_decisionIds]
        exact ⟨e', hmem, by simp [hagent], hid⟩
      have hother (agent : String) (hne : agent ≠ source) (e' : PolicyEvidence) (hagent : e'.source = some agent) :
          e' ∈ records ↔ e' ∈ records ++ [e] := by
        have : e' ≠ e := by
          rintro rfl
          rw [hsource] at hagent
          exact hne (Option.some.inj hagent).symm
        simp [this]
      refine ⟨?_, ?_, ?_⟩
      · rw [decisionIds_snoc (by simp [hsource]), h.seen]
      · intro agent
        dsimp only
        split_ifs with hagent
        · simp [hagent, hsource]
        · rw [h.known]
          exact exists_congr fun e' => and_congr_left fun hsource' => hother agent hagent e' hsource'
      · intro agent
        dsimp only
        split_ifs with hagent
        · subst hagent
          exact (h.reflects agent).fold (fun e' hmem => hfresh e' hmem agent) hsource
        · exact (h.reflects agent).congr (hother agent hagent)

/-! ## The whole fold -/

theorem folded_new : Folded [] .new where
  seen := rfl
  known _ := by simp [SwarmActivity.new]
  reflects _ :=
    { decisions := rfl
      byVerdict := fun _ => rfl
      idle := by simp
      latest := by simp [SwarmActivity.new, AgentActivity.empty] }

theorem observeAll_folded (records : List PolicyEvidence) (honce : DecidedOnce records) :
    Folded records (observeAll records) := by
  induction records using List.reverseRecOn with
  | nil => exact folded_new
  | append_singleton records e ih =>
    have hbefore : DecidedOnce records := by
      intro e' he' e'' he''
      exact honce e' (List.mem_append_left _ he') e'' (List.mem_append_left _ he'')
    unfold observeAll at ih ⊢
    rw [List.foldl_append]
    exact (ih hbefore).observe honce

theorem not_before_self (e : PolicyEvidence) : ¬ e.Before e := by
  simp [PolicyEvidence.Before]

theorem IsLatest.unique {records : List PolicyEvidence} {agent : String} {last last' : PolicyEvidence}
    (h : IsLatest records agent last) (h' : IsLatest records agent last') : last = last' := by
  rcases h.2.2 last' h'.1 h'.2.1 with heq | hlt
  · exact heq.symm
  · rcases h'.2.2 last h.1 h.2.1 with heq | hlt'
    · exact heq
    · exact absurd (hlt.trans hlt') (not_before_self last')

theorem Reflects.unique {records : List PolicyEvidence} {agent : String} {activity activity' : AgentActivity}
    (h : Reflects records agent activity) (h' : Reflects records agent activity') : activity = activity' := by
  have hdecisions := h.decisions.trans h'.decisions.symm
  have hverdicts : activity.byVerdict = activity'.byVerdict := by
    funext verdict
    rw [h.byVerdict, h'.byVerdict]
  have hlast : activity.lastDecision = activity'.lastDecision := by
    cases hold : activity.lastDecision with
    | none =>
      cases hold' : activity'.lastDecision with
      | none => rfl
      | some last' =>
        obtain ⟨hmem, hsource, -⟩ := h'.latest last' hold'
        exact absurd hsource (h.idle hold last' hmem)
    | some last =>
      have hlatest := h.latest last hold
      cases hold' : activity'.lastDecision with
      | none => exact absurd hlatest.2.1 (h'.idle hold' last hlatest.1)
      | some last' => rw [hlatest.unique (h'.latest last' hold')]
  obtain ⟨_, _, _⟩ := activity
  obtain ⟨_, _, _⟩ := activity'
  dsimp only at hdecisions hverdicts hlast
  rw [hdecisions, hverdicts, hlast]

theorem Folded.unique {records : List PolicyEvidence} {swarm swarm' : SwarmActivity}
    (h : Folded records swarm) (h' : Folded records swarm') : swarm = swarm' := by
  have hagents : swarm.byAgent = swarm'.byAgent := by
    funext agent
    have hknown := (h.known agent).trans (h'.known agent).symm
    have hsame := (h.reflects agent).unique (h'.reflects agent)
    cases hold : swarm.byAgent agent <;> cases hold' : swarm'.byAgent agent <;> simp [hold, hold'] at hknown hsame
    · rfl
    · rw [hsame]
  obtain ⟨_, _⟩ := swarm
  obtain ⟨_, _⟩ := swarm'
  have hseen := h.seen.trans h'.seen.symm
  dsimp only at hagents hseen
  rw [hagents, hseen]

/-- A fold of the same records in any order and with any of them repeated is
the same activity, and it counts each agent's distinct decisions and keeps the
latest by time and id. -/
theorem observeAll_set {records records' : List PolicyEvidence} (honce : DecidedOnce records)
    (hsame : ∀ e, e ∈ records' ↔ e ∈ records) :
    observeAll records' = observeAll records ∧
    ∀ agent,
      ((observeAll records).agent agent = none ↔ ∀ e ∈ records, e.source ≠ some agent) ∧
      ∀ activity, (observeAll records).agent agent = some activity →
        activity.decisions = (byAgentIds records agent).card ∧
        (∀ verdict, activity.count verdict = (byVerdictIds records agent verdict).card) ∧
        ∃ last, activity.lastDecision = some last ∧ IsLatest records agent last := by
  have hfolded := observeAll_folded records honce
  refine ⟨?_, ?_⟩
  · have honce' : DecidedOnce records' := by
      intro e he e' he'
      exact honce e ((hsame e).1 he) e' ((hsame e').1 he')
    exact ((observeAll_folded records' honce').congr fun e _ => hsame e).unique hfolded
  · intro agent
    constructor
    · have := not_congr (hfolded.known agent)
      simpa [SwarmActivity.agent] using this
    · intro activity hactivity
      have hreflects := hfolded.reflects agent
      have hknown := hfolded.known agent
      unfold SwarmActivity.agent at hactivity
      rw [hactivity] at hreflects hknown
      rw [Option.getD_some] at hreflects
      refine ⟨hreflects.decisions, ?_, ?_⟩
      · intro verdict
        unfold AgentActivity.count
        rw [hreflects.byVerdict]
        split_ifs with hnone
        · simp [hnone]
        · rfl
      · obtain ⟨e, hmem, hsource⟩ := hknown.1 rfl
        cases hlast : activity.lastDecision with
        | none => exact absurd hsource (hreflects.idle hlast e hmem)
        | some last => exact ⟨last, rfl, hreflects.latest last hlast⟩

/-- A decision of `planner` with nothing else recorded. -/
def plannerDecision (decisionId decision : String) (atMicros : Nat) : PolicyEvidence where
  decisionId := decisionId
  decision := decision
  mode := "enforce"
  kind := "send"
  stream := "laser"
  topic := "agent.sessions"
  source := some "planner"
  target := none
  conversation := none
  correlation := none
  operation := none
  tool := none
  onBehalfOf := none
  reason := none
  approvedScope := none
  policy := none
  riskScore := none
  receiptDigest := ""
  previousDigest := none
  outcome := ""
  atMicros := atMicros

theorem observeAll_set_planner :
    observeAll [plannerDecision "b" "block" 7, plannerDecision "a" "allow" 7, plannerDecision "b" "block" 7] =
      observeAll [plannerDecision "a" "allow" 7, plannerDecision "b" "block" 7] :=
  (observeAll_set
    (by
      intro e he e' he' hid
      simp only [List.mem_cons, List.not_mem_nil, or_false] at he he'
      rcases he with rfl | rfl <;> rcases he' with rfl | rfl <;> simp [plannerDecision] at hid ⊢)
    (by
      intro e
      simp only [List.mem_cons, List.not_mem_nil, or_false]
      tauto)).1

end LaserSdk.Govern

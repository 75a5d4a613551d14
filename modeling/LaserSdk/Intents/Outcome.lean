import LaserSdk.Intents.Decide
/-!
# What an intent decides

The outcome in terms of the counted votes alone: when they commit, and when
further votes by voters who have not responded could still make them commit.
-/

namespace LaserSdk.Intents

/-- The voters who responded, and those who allowed. -/
def responders (votes : List Vote) : Finset AgentId := (votes.map (·.voter)).toFinset

def allowers (votes : List Vote) : Finset AgentId := responders (votes.filter (·.choice = .allow))

/-- The votes commit the intent: no voter gave two choices, every mandatory
voter allowed and enough voters did. -/
structure Commits (intent : Intent) (votes : List Vote) : Prop where
  agree : ∀ voter, ¬ Conflict votes voter
  mandatory : ∀ voter ∈ intent.mandatoryVoters, ∃ v ∈ votes, v.voter = voter ∧ v.choice = .allow
  quorum : quorumMet intent.policy intent.eligibleVoters.length (allowers votes).card = true

/-- Some votes after `now`, each counted by the deadline and by a voter who
has not responded yet, would commit the intent. -/
def Reachable (intent : Intent) (votes : List Vote) (now : Nat) : Prop :=
  ∃ further : List Vote,
    (∀ v ∈ further, counted intent intent.deadlineMicros v = true ∧ now < v.atMicros ∧ v.voter ∉ responders votes) ∧
      Commits intent (votes ++ further)

/-! ## Counting -/

@[simp] theorem mem_responders {votes : List Vote} {voter : AgentId} :
    voter ∈ responders votes ↔ ∃ v ∈ votes, v.voter = voter := by
  simp [responders]

@[simp] theorem mem_allowers {votes : List Vote} {voter : AgentId} :
    voter ∈ allowers votes ↔ ∃ v ∈ votes, v.voter = voter ∧ v.choice = .allow := by
  simp [allowers, and_assoc, and_comm]

theorem allowers_subset (votes : List Vote) : allowers votes ⊆ responders votes := by
  intro voter h
  obtain ⟨v, hv, he, -⟩ := mem_allowers.1 h
  exact mem_responders.2 ⟨v, hv, he⟩

theorem counted_eligible {intent : Intent} {now : Nat} {v : Vote} (h : counted intent now v = true) :
    v.voter ∈ intent.eligibleVoters := by
  simp only [counted, Bool.and_eq_true, List.contains_iff_mem] at h
  exact h.1.1.1.2

theorem responders_eligible {intent : Intent} {now : Nat} {votes : List Vote}
    (h : ∀ v ∈ votes, counted intent now v = true) : responders votes ⊆ intent.eligibleVoters.toFinset := by
  intro voter hv
  obtain ⟨v, hm, rfl⟩ := mem_responders.1 hv
  exact List.mem_toFinset.2 (counted_eligible (h v hm))

theorem lookup_iff_mem {l : List (AgentId × VoteChoice)} (h : (l.map (·.1)).Nodup) {k : AgentId} {c : VoteChoice} :
    l.lookup k = some c ↔ (k, c) ∈ l := by
  induction l with
  | nil => simp
  | cons x rest ih =>
    obtain ⟨k', c'⟩ := x
    simp only [List.map_cons, List.nodup_cons] at h
    by_cases hk : k = k'
    · subst hk
      have hn : ∀ c, (k, c) ∉ rest := fun c hc => h.1 (List.mem_map.2 ⟨_, hc, rfl⟩)
      simp [hn, eq_comm]
    · simp [List.lookup_cons, beq_false_of_ne hk, ih h.2, hk]

/-- The counts of the loop are the numbers of distinct voters. -/
theorem Tallied.responded {start : Nat} {t : Tally} {votes : List Vote} (h : Tallied start t votes) :
    t.ballots.length = (responders votes).card := by
  have hset : (t.ballots.map (·.1)).toFinset = responders votes := by
    ext voter
    simp only [List.mem_toFinset, List.mem_map, Prod.exists, ← lookup_iff_mem h.distinct, h.ballot, mem_responders]
    constructor
    · rintro ⟨_, _, ⟨v, hv, rfl, -⟩, rfl⟩; exact ⟨v, hv, rfl⟩
    · rintro ⟨v, hv, rfl⟩; exact ⟨v.voter, v.choice, ⟨v, hv, rfl, rfl⟩, rfl⟩
  rw [← hset, List.toFinset_card_of_nodup h.distinct, List.length_map]

theorem Tallied.allowed {start : Nat} {t : Tally} {votes : List Vote} (h : Tallied start t votes) :
    (t.ballots.filter (·.2 == .allow)).length = (allowers votes).card := by
  have hset : ((t.ballots.filter (·.2 == .allow)).map (·.1)).toFinset = allowers votes := by
    ext voter
    simp only [List.mem_toFinset, List.mem_map, List.mem_filter, Prod.exists, ← lookup_iff_mem h.distinct, h.ballot,
      beq_iff_eq, mem_allowers]
    constructor
    · rintro ⟨_, _, ⟨⟨v, hv, rfl, hc⟩, ha⟩, rfl⟩; exact ⟨v, hv, rfl, hc.trans ha⟩
    · rintro ⟨v, hv, rfl, hc⟩; exact ⟨v.voter, .allow, ⟨⟨v, hv, rfl, hc⟩, rfl⟩, rfl⟩
  have hn : ((t.ballots.filter (·.2 == .allow)).map (·.1)).Nodup :=
    h.distinct.sublist (List.filter_sublist.map _)
  rw [← hset, List.toFinset_card_of_nodup hn, List.length_map]

/-- What a validated intent's impossible quorum is: it fails even when every
voter who has not responded allows. -/
theorem impossible_iff {intent : Intent} (hv : Validated intent) {responded allow : Nat}
    (hr : responded ≤ intent.eligibleVoters.length) (ha : allow ≤ responded) :
    impossible intent.policy intent.eligibleVoters.length responded allow = true ↔
      quorumMet intent.policy intent.eligibleVoters.length (allow + (intent.eligibleVoters.length - responded)) = false := by
  have hpos : 0 < intent.eligibleVoters.length := List.length_pos_iff.2 hv.nonempty
  cases hp : intent.policy with
  | all => simp only [impossible, quorumMet, decide_eq_true_eq, decide_eq_false_iff_not]; omega
  | any => simp only [impossible, quorumMet, decide_eq_true_eq, decide_eq_false_iff_not]; omega
  | atLeast required => simp only [impossible, quorumMet, decide_eq_true_eq, decide_eq_false_iff_not]; omega

/-! ## The cases of a decision -/

/-- A mandatory voter gave another choice than allow. -/
def Refused (intent : Intent) (votes : List Vote) : Prop :=
  ∃ voter ∈ intent.mandatoryVoters, ∃ v ∈ votes, v.voter = voter ∧ v.choice ≠ .allow

/-- The latest time of the proposal and the votes. -/
def latest (intent : Intent) (votes : List Vote) : Nat := (votes.map (·.atMicros)).foldl max intent.atMicros

/-- The quorum when every voter who has not responded allows. -/
def bestQuorum (intent : Intent) (votes : List Vote) : Bool :=
  quorumMet intent.policy intent.eligibleVoters.length
    ((allowers votes).card + (intent.eligibleVoters.length - (responders votes).card))

/-- Why the loop and the checks after it return what they return. -/
inductive Verdict (intent : Intent) (now : Nat) (votes : List Vote) : Option Decision → Prop where
  | conflict {d : Decision} (pre : List Vote) (vote : Vote) (post : List Vote) (split : votes = pre ++ vote :: post)
      (against : ∃ a ∈ pre, a.voter = vote.voter ∧ a.choice ≠ vote.choice) (outcome : d.outcome = .aborted)
      (time : d.atMicros = latest intent (pre ++ [vote])) : Verdict intent now votes (some d)
  | refused {d : Decision} (agree : ∀ voter, ¬ Conflict votes voter) (refused : Refused intent votes)
      (outcome : d.outcome = .aborted) (time : d.atMicros = latest intent votes) : Verdict intent now votes (some d)
  | committed {d : Decision} (commits : Commits intent votes) (outcome : d.outcome = .committed)
      (time : d.atMicros = latest intent votes) : Verdict intent now votes (some d)
  | impossible {d : Decision} (agree : ∀ voter, ¬ Conflict votes voter) (early : now < intent.deadlineMicros)
      (notRefused : ¬ Refused intent votes) (notCommits : ¬ Commits intent votes)
      (best : bestQuorum intent votes = false) (outcome : d.outcome = .aborted)
      (time : d.atMicros = latest intent votes) : Verdict intent now votes (some d)
  | expired {d : Decision} (agree : ∀ voter, ¬ Conflict votes voter) (late : intent.deadlineMicros ≤ now)
      (notRefused : ¬ Refused intent votes) (notCommits : ¬ Commits intent votes) (outcome : d.outcome = .aborted)
      (time : d.atMicros = intent.deadlineMicros) : Verdict intent now votes (some d)
  | undecided (agree : ∀ voter, ¬ Conflict votes voter) (early : now < intent.deadlineMicros)
      (notRefused : ¬ Refused intent votes) (notCommits : ¬ Commits intent votes)
      (best : bestQuorum intent votes = true) : Verdict intent now votes none

theorem Tallied.find_refused {start : Nat} {t : Tally} {votes : List Vote} (h : Tallied start t votes) (intent : Intent) :
    (intent.mandatoryVoters.find? fun voter => (t.ballots.lookup voter).any (· != .allow)).isSome = true ↔
      Refused intent votes := by
  simp only [List.find?_isSome, Option.any_eq_true, h.ballot, bne_iff_ne, Refused]
  constructor
  · rintro ⟨voter, hm, choice, ⟨v, hv, he, rfl⟩, hne⟩; exact ⟨voter, hm, v, hv, he, hne⟩
  · rintro ⟨voter, hm, v, hv, he, hne⟩; exact ⟨voter, hm, v.choice, ⟨v, hv, he, rfl⟩, hne⟩

theorem Tallied.commits_iff {start : Nat} {t : Tally} {votes : List Vote} (h : Tallied start t votes) (intent : Intent) :
    (quorumMet intent.policy intent.eligibleVoters.length (t.ballots.filter (·.2 == .allow)).length &&
      intent.mandatoryVoters.all fun voter => t.ballots.lookup voter == some .allow) = true ↔ Commits intent votes := by
  simp only [Bool.and_eq_true, h.allowed, List.all_eq_true, beq_iff_eq, h.ballot]
  constructor
  · rintro ⟨hq, hm⟩; exact ⟨h.agree, hm, hq⟩
  · rintro ⟨-, hm, hq⟩; exact ⟨hq, hm⟩

theorem card_responders_le {intent : Intent} (hv : Validated intent) {votes : List Vote}
    (he : responders votes ⊆ intent.eligibleVoters.toFinset) : (responders votes).card ≤ intent.eligibleVoters.length := by
  have h := Finset.card_le_card he
  rwa [List.toFinset_card_of_nodup hv.eligible] at h

/-- The checks after the loop, over the votes the loop read. -/
theorem conclude_verdict {intent : Intent} (hv : Validated intent) {t : Tally} {votes : List Vote}
    (h : Tallied intent.atMicros t votes) (he : responders votes ⊆ intent.eligibleVoters.toFinset) (now : Nat) :
    Verdict intent now votes (conclude intent now t) := by
  have hfind := h.find_refused intent
  have himp := impossible_iff hv (card_responders_le hv he) (Finset.card_le_card (allowers_subset votes))
  have hcom := h.commits_iff intent
  rw [h.allowed] at hcom
  unfold conclude
  dsimp only
  rw [h.allowed, h.responded]
  split
  · rename_i voter hf
    exact .refused h.agree (hfind.1 (by simp [hf])) rfl h.latest
  · rename_i hf
    have hnr : ¬ Refused intent votes := fun hr => by simpa [hf] using hfind.2 hr
    split
    · rename_i hc
      exact .committed (hcom.1 hc) rfl h.latest
    · rename_i hc
      have hnc : ¬ Commits intent votes := fun h' => hc (hcom.2 h')
      split
      · rename_i hd
        by_cases hdead : now ≥ intent.deadlineMicros
        · exact .expired h.agree hdead hnr hnc rfl (by simp [sealed, hdead])
        · refine .impossible h.agree (by omega) hnr hnc (himp.1 ?_) rfl (by simp [sealed, hdead, h.latest, latest])
          simpa [hdead] using hd
      · rename_i hd
        simp only [Bool.or_eq_true, decide_eq_true_eq, not_or, Bool.not_eq_true] at hd
        refine .undecided h.agree (by omega) hnr hnc ?_
        by_contra hb
        simpa [hd.1] using himp.2 (by simpa [bestQuorum] using hb)

theorem decideValid_verdict {intent : Intent} (hv : Validated intent) {votes : List Vote}
    (he : responders votes ⊆ intent.eligibleVoters.toFinset) (now : Nat) :
    Verdict intent now votes (decideValid intent now votes) := by
  unfold decideValid
  rcases fold_spec (Tallied.new intent) votes with ⟨t, hf, ht⟩ | ⟨pre, vote, post, rfl, hag, t, ht, hf⟩
  · rw [hf]
    exact conclude_verdict hv (by simpa using ht) he now
  · rw [hf]
    exact .conflict pre vote post rfl (by simpa using hag) rfl (by simp [sealed, ht.latest, latest])

/-! ## Votes that may still come -/

/-- The vote of a voter who allows at the deadline. -/
def lastAllow (intent : Intent) (voter : AgentId) : Vote :=
  ⟨intent.intentId, intent.digest, intent.policyVersion, voter, .allow, intent.deadlineMicros⟩

/-- Every voter who has not responded allows at the deadline. -/
def remainingAllow (intent : Intent) (votes : List Vote) : List Vote :=
  (intent.eligibleVoters.filter (· ∉ responders votes)).map (lastAllow intent)

theorem mem_remainingAllow {intent : Intent} {votes : List Vote} {v : Vote} : v ∈ remainingAllow intent votes ↔
    ∃ voter ∈ intent.eligibleVoters, voter ∉ responders votes ∧ v = lastAllow intent voter := by
  simp only [remainingAllow, List.mem_map, List.mem_filter, decide_eq_true_eq, and_assoc, @eq_comm _ v]

theorem lastAllow_counted {intent : Intent} (hv : Validated intent) {voter : AgentId}
    (h : voter ∈ intent.eligibleVoters) : counted intent intent.deadlineMicros (lastAllow intent voter) = true := by
  have := hv.deadline
  simp [counted, lastAllow, h]
  omega

/-- Votes by other voters bring no conflict but their own. -/
theorem agree_append {votes further : List Vote} (h : ∀ voter, ¬ Conflict votes voter)
    (hf : ∀ voter, ¬ Conflict further voter) (hnew : ∀ v ∈ further, v.voter ∉ responders votes) :
    ∀ voter, ¬ Conflict (votes ++ further) voter := by
  rintro voter ⟨a, ha, b, hb, hav, hbv, hne⟩
  rcases List.mem_append.1 ha with ha | ha <;> rcases List.mem_append.1 hb with hb | hb
  · exact h voter ⟨a, ha, b, hb, hav, hbv, hne⟩
  · exact hnew b hb (mem_responders.2 ⟨a, ha, hav.trans hbv.symm⟩)
  · exact hnew a ha (mem_responders.2 ⟨b, hb, hbv.trans hav.symm⟩)
  · exact hf voter ⟨a, ha, b, hb, hav, hbv, hne⟩

/-- Further votes by voters who have not responded add at most one allower
for each of them. -/
theorem card_allowers_append {intent : Intent} (hv : Validated intent) {votes further : List Vote}
    (he : responders votes ⊆ intent.eligibleVoters.toFinset)
    (hf : ∀ v ∈ further, v.voter ∈ intent.eligibleVoters ∧ v.voter ∉ responders votes) :
    (allowers (votes ++ further)).card ≤
      (allowers votes).card + (intent.eligibleVoters.length - (responders votes).card) := by
  have hsub : allowers (votes ++ further) ⊆ allowers votes ∪ (intent.eligibleVoters.toFinset \ responders votes) := by
    intro voter h
    obtain ⟨v, hm, rfl, hc⟩ := mem_allowers.1 h
    rcases List.mem_append.1 hm with hm | hm
    · exact Finset.mem_union_left _ (mem_allowers.2 ⟨v, hm, rfl, hc⟩)
    · exact Finset.mem_union_right _ (by simpa using hf v hm)
  calc (allowers (votes ++ further)).card
      ≤ (allowers votes ∪ (intent.eligibleVoters.toFinset \ responders votes)).card := Finset.card_le_card hsub
    _ ≤ (allowers votes).card + (intent.eligibleVoters.toFinset \ responders votes).card := Finset.card_union_le _ _
    _ = _ := by rw [Finset.card_sdiff_of_subset he, List.toFinset_card_of_nodup hv.eligible]

theorem card_allowers_remaining {intent : Intent} (hv : Validated intent) {votes : List Vote}
    (he : responders votes ⊆ intent.eligibleVoters.toFinset) :
    (allowers (votes ++ remainingAllow intent votes)).card =
      (allowers votes).card + (intent.eligibleVoters.length - (responders votes).card) := by
  have heq : allowers (votes ++ remainingAllow intent votes) =
      allowers votes ∪ (intent.eligibleVoters.toFinset \ responders votes) := by
    ext voter
    simp only [mem_allowers, List.mem_append, mem_remainingAllow, Finset.mem_union, Finset.mem_sdiff, List.mem_toFinset]
    constructor
    · rintro ⟨v, hm | ⟨w, hw, hn, rfl⟩, rfl, hc⟩
      · exact .inl ⟨v, hm, rfl, hc⟩
      · exact .inr ⟨hw, hn⟩
    · rintro (⟨v, hm, hvv, hc⟩ | ⟨hw, hn⟩)
      · exact ⟨v, .inl hm, hvv, hc⟩
      · exact ⟨_, .inr ⟨voter, hw, hn, rfl⟩, rfl, rfl⟩
  have hdis : Disjoint (allowers votes) (intent.eligibleVoters.toFinset \ responders votes) :=
    Finset.disjoint_of_subset_left (allowers_subset votes) Finset.disjoint_sdiff
  rw [heq, Finset.card_union_of_disjoint hdis, Finset.card_sdiff_of_subset he, List.toFinset_card_of_nodup hv.eligible]

theorem quorumMet_mono {policy : IntentPolicy} {total allow more : Nat} (h : quorumMet policy total allow = true)
    (hle : allow ≤ more) (hmax : more ≤ total) : quorumMet policy total more = true := by
  cases policy <;> simp only [quorumMet, decide_eq_true_eq] at h ⊢ <;> omega

/-- The early abort is exact: the intent can still commit when the voters who
responded neither conflict nor refuse and the best quorum is met. -/
theorem reachable_iff {intent : Intent} (hv : Validated intent) {votes : List Vote}
    (he : responders votes ⊆ intent.eligibleVoters.toFinset) {now : Nat} (hnow : now < intent.deadlineMicros) :
    Reachable intent votes now ↔
      (∀ voter, ¬ Conflict votes voter) ∧ ¬ Refused intent votes ∧ bestQuorum intent votes = true := by
  constructor
  · rintro ⟨further, hf, hc⟩
    refine ⟨fun voter h => hc.agree voter (h.mono fun v hm => List.mem_append_left _ hm), ?_, ?_⟩
    · rintro ⟨voter, hm, v, hmem, hvv, hne⟩
      obtain ⟨w, hw, hwv, hwc⟩ := hc.mandatory voter hm
      exact hc.agree voter ⟨v, List.mem_append_left _ hmem, w, hw, hvv, hwv, hwc ▸ hne⟩
    · refine quorumMet_mono hc.quorum ?_ ?_
      · exact card_allowers_append hv he fun v hm => ⟨counted_eligible (hf v hm).1, (hf v hm).2.2⟩
      · have h1 := card_responders_le hv he
        have h2 := Finset.card_le_card (allowers_subset votes)
        omega
  · rintro ⟨hag, hnr, hq⟩
    refine ⟨remainingAllow intent votes, fun v hm => ?_, ?_, fun voter hm => ?_, ?_⟩
    · obtain ⟨voter, hel, hn, rfl⟩ := mem_remainingAllow.1 hm
      exact ⟨lastAllow_counted hv hel, hnow, hn⟩
    · refine agree_append hag ?_ fun v hm => ?_
      · rintro voter ⟨a, ha, b, hb, -, -, hne⟩
        obtain ⟨_, -, -, rfl⟩ := mem_remainingAllow.1 ha
        obtain ⟨_, -, -, rfl⟩ := mem_remainingAllow.1 hb
        exact hne rfl
      · obtain ⟨voter, -, hn, rfl⟩ := mem_remainingAllow.1 hm
        exact hn
    · by_cases hr : voter ∈ responders votes
      · obtain ⟨v, hmem, hvv⟩ := mem_responders.1 hr
        refine ⟨v, List.mem_append_left _ hmem, hvv, ?_⟩
        by_contra hne
        exact hnr ⟨voter, hm, v, hmem, hvv, hne⟩
      · exact ⟨_, List.mem_append_right _ (mem_remainingAllow.2 ⟨voter, hv.mandatory voter hm, hr, rfl⟩), rfl, rfl⟩
    · rw [card_allowers_remaining hv he]
      exact hq

/-! ## Main theorem -/

theorem mem_valid {intent : Intent} {votes : List Vote} {now : Nat} {v : Vote} :
    v ∈ valid intent votes now ↔ v ∈ votes.filter (counted intent now) := by
  unfold valid
  rw [List.mem_insertionSort]

theorem Commits.of_mem {intent : Intent} {a b : List Vote} (hab : ∀ v, v ∈ a ↔ v ∈ b) (h : Commits intent a) :
    Commits intent b where
  agree voter hc := h.agree voter (hc.mono fun v hv => (hab v).2 hv)
  mandatory voter hm := by
    obtain ⟨v, hv, hvv⟩ := h.mandatory voter hm
    exact ⟨v, (hab v).1 hv, hvv⟩
  quorum := by
    have : allowers a = allowers b := by ext voter; simp [hab]
    exact this ▸ h.quorum

theorem Reachable.of_mem {intent : Intent} {a b : List Vote} {now : Nat} (hab : ∀ v, v ∈ a ↔ v ∈ b)
    (h : Reachable intent a now) : Reachable intent b now := by
  obtain ⟨further, hf, hc⟩ := h
  have hr : responders a = responders b := by ext voter; simp [hab]
  exact ⟨further, hr ▸ hf, hc.of_mem fun v => by simp [hab]⟩

theorem Verdict.commits_iff {intent : Intent} {now : Nat} {votes : List Vote} {r : Option Decision}
    (h : Verdict intent now votes r) : (∃ d, r = some d ∧ d.outcome = .committed) ↔ Commits intent votes := by
  cases h with
  | conflict pre vote post split against outcome time =>
    subst split
    obtain ⟨a, ha, hav, hac⟩ := against
    refine ⟨fun ⟨d, hd, ho⟩ => ?_, fun hc => absurd ?_ (hc.agree vote.voter)⟩
    · cases hd; simp [ho] at outcome
    · exact ⟨a, List.mem_append_left _ ha, vote, by simp, hav, rfl, hac⟩
  | refused agree refused outcome time =>
    obtain ⟨voter, hm, v, hv, hvv, hne⟩ := refused
    refine ⟨fun ⟨d, hd, ho⟩ => ?_, fun hc => absurd ?_ (hc.agree voter)⟩
    · cases hd; simp [ho] at outcome
    · obtain ⟨w, hw, hwv, hwc⟩ := hc.mandatory voter hm
      exact ⟨v, hv, w, hw, hvv, hwv, hwc ▸ hne⟩
  | committed commits outcome time => exact ⟨fun _ => commits, fun _ => ⟨_, rfl, outcome⟩⟩
  | impossible _ _ _ notCommits _ outcome _ | expired _ _ _ notCommits outcome _ =>
    refine ⟨fun ⟨d, hd, ho⟩ => ?_, fun hc => absurd hc notCommits⟩
    cases hd; simp [ho] at outcome
  | undecided _ _ _ notCommits _ => exact ⟨fun ⟨d, hd, _⟩ => (nomatch hd), fun hc => absurd hc notCommits⟩

theorem Verdict.none_iff {intent : Intent} (hv : Validated intent) {now : Nat} {votes : List Vote}
    (he : responders votes ⊆ intent.eligibleVoters.toFinset) {r : Option Decision} (h : Verdict intent now votes r) :
    r = none ↔ now < intent.deadlineMicros ∧ ¬ Commits intent votes ∧ Reachable intent votes now := by
  have hreach := fun hnow : now < intent.deadlineMicros => reachable_iff hv he hnow
  cases h with
  | conflict pre vote post split against outcome time =>
    subst split
    obtain ⟨a, ha, hav, hac⟩ := against
    refine ⟨fun hr => (nomatch hr), fun ⟨hnow, _, hc⟩ => absurd ?_ (((hreach hnow).1 hc).1 vote.voter)⟩
    exact ⟨a, List.mem_append_left _ ha, vote, by simp, hav, rfl, hac⟩
  | refused _ refused _ _ => exact ⟨fun hr => (nomatch hr), fun ⟨hnow, _, hc⟩ => absurd refused ((hreach hnow).1 hc).2.1⟩
  | committed commits _ _ => exact ⟨fun hr => (nomatch hr), fun ⟨_, hn, _⟩ => absurd commits hn⟩
  | impossible _ early _ _ best _ _ =>
    exact ⟨fun hr => (nomatch hr), fun ⟨_, _, hc⟩ => by simp [((hreach early).1 hc).2.2] at best⟩
  | expired _ late _ _ _ _ => exact ⟨fun hr => (nomatch hr), fun ⟨hnow, _⟩ => by omega⟩
  | undecided agree early notRefused notCommits best =>
    exact ⟨fun _ => ⟨early, notCommits, (hreach early).2 ⟨agree, notRefused, best⟩⟩, fun _ => rfl⟩

/-- `decide` commits exactly when the counted votes do, stays open exactly
while they do not and further votes before the deadline could, and aborts
otherwise. -/
theorem decide_outcome (digestOf : List UInt8 → String) (intent : Intent) (votes : List Vote) (now : Nat)
    (h : intent.validate digestOf = .ok ()) :
    ((∃ d, decide digestOf intent votes now = .ok (some d) ∧ d.outcome = .committed) ↔
      Commits intent (votes.filter (counted intent now))) ∧
    (decide digestOf intent votes now = .ok none ↔ now < intent.deadlineMicros ∧
      ¬ Commits intent (votes.filter (counted intent now)) ∧ Reachable intent (votes.filter (counted intent now)) now) ∧
    ((∃ d, decide digestOf intent votes now = .ok (some d) ∧ d.outcome = .aborted) ↔
      ¬ Commits intent (votes.filter (counted intent now)) ∧
        ¬ (now < intent.deadlineMicros ∧ Reachable intent (votes.filter (counted intent now)) now)) := by
  have hv := Validated.of_validate h
  have hsame : ∀ v, v ∈ valid intent votes now ↔ v ∈ votes.filter (counted intent now) := fun v => mem_valid
  have he : responders (valid intent votes now) ⊆ intent.eligibleVoters.toFinset :=
    responders_eligible fun v hm => (List.mem_filter.1 (mem_valid.1 hm)).2
  have hverdict := decideValid_verdict hv he now
  have hcommits : Commits intent (valid intent votes now) ↔ Commits intent (votes.filter (counted intent now)) :=
    ⟨fun hc => hc.of_mem hsame, fun hc => hc.of_mem fun v => (hsame v).symm⟩
  have hreach : Reachable intent (valid intent votes now) now ↔
      Reachable intent (votes.filter (counted intent now)) now :=
    ⟨fun hr => hr.of_mem hsame, fun hr => hr.of_mem fun v => (hsame v).symm⟩
  have hcommitted := hverdict.commits_iff
  have hnone := hverdict.none_iff hv he
  rw [hcommits] at hcommitted hnone
  rw [hreach] at hnone
  simp only [decide_eq h, Except.ok.injEq]
  refine ⟨hcommitted, hnone, ?_⟩
  cases hr : decideValid intent now (valid intent votes now) with
  | none => exact ⟨fun ⟨d, hd, _⟩ => (nomatch hd), fun ⟨_, hn⟩ => absurd ⟨(hnone.1 hr).1, (hnone.1 hr).2.2⟩ hn⟩
  | some d =>
    rw [hr] at hcommitted hnone
    cases ho : d.outcome with
    | committed =>
      refine ⟨fun ⟨d', hd', ha⟩ => ?_, fun ⟨hn, _⟩ => absurd (hcommitted.1 ⟨d, rfl, ho⟩) hn⟩
      cases hd'; simp [ho] at ha
    | aborted =>
      have hnc : ¬ Commits intent (votes.filter (counted intent now)) := fun hc => by
        obtain ⟨d', hd', hc'⟩ := hcommitted.2 hc
        cases hd'; simp [ho] at hc'
      exact ⟨fun _ => ⟨hnc, fun ⟨hnow, hre⟩ => (nomatch hnone.2 ⟨hnow, hnc, hre⟩)⟩, fun _ => ⟨d, rfl, ho⟩⟩

/-- The digest of the one-byte body `[1]`. -/
def oneDigest : String := "557521bf83e86686428ca226e6f12fe2218ac984310a8e63996955f0753eba2b"

/-- Two of three voters are needed, one of them mandatory. -/
def quorumIntent : Intent := ⟨7, [1], oneDigest, ["a", "b", "c"], ["b"], .atLeast 2, 1, 1000, 10⟩

def ballot (voter : AgentId) (choice : VoteChoice) (atMicros : Nat) : Vote :=
  ⟨7, oneDigest, 1, voter, choice, atMicros⟩

theorem decide_outcome_quorum : quorumIntent.validate (fun _ => oneDigest) = .ok () ∧
    (∃ d, decide (fun _ => oneDigest) quorumIntent [ballot "b" .allow 20, ballot "a" .allow 30] 50 = .ok (some d) ∧
      d.outcome = .committed) ∧
    Commits quorumIntent ([ballot "b" .allow 20, ballot "a" .allow 30].filter (counted quorumIntent 50)) := by
  have hd : ∃ d, decide (fun _ => oneDigest) quorumIntent [ballot "b" .allow 20, ballot "a" .allow 30] 50 =
      .ok (some d) ∧ d.outcome = .committed := ⟨_, rfl, by decide⟩
  exact ⟨by decide, hd, (decide_outcome _ quorumIntent _ 50 (by decide)).1.1 hd⟩

end LaserSdk.Intents

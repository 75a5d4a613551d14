import Mathlib.Data.String.Basic
import LaserSdk.Intents.Outcome
/-!
# Whether a decision stays

A decision taken at one time is compared with the one taken later, over the
same votes and votes stamped since. Only a conflict is settled for good, and
only against votes that sort behind it. Every other decision names the latest
counted time, which any newly counted vote moves.
-/

namespace LaserSdk.Intents

/-- The votes counted at `now2` and not yet at `now1`. -/
def fresh (intent : Intent) (votes : List Vote) (now1 now2 : Nat) : List Vote :=
  votes.filter fun v => counted intent now2 v && !(v.atMicros ≤ now1 : Bool)

/-- The later decision has the same outcome and time. -/
def Stays (digestOf : List UInt8 → String) (intent : Intent) (votes more : List Vote) (now1 now2 : Nat) : Prop :=
  ∀ d, decide digestOf intent votes now1 = .ok (some d) →
    ∃ d', decide digestOf intent (votes ++ more) now2 = .ok (some d') ∧ d'.outcome = d.outcome ∧ d'.atMicros = d.atMicros

/-! ## The order of the votes -/

instance : Std.Total Vote.le where
  total a b := by
    unfold Vote.le
    rcases lt_trichotomy a.voter b.voter with h | h | h
    · exact .inl (.inl h)
    · simp only [h, lt_irrefl, true_and, false_or]; omega
    · exact .inr (.inl h)

instance : IsTrans Vote Vote.le where
  trans a b c := by
    rintro (hab | ⟨hab, hab'⟩) (hbc | ⟨hbc, hbc'⟩)
    · exact .inl (hab.trans hbc)
    · exact .inl (hbc ▸ hab)
    · exact .inl (hab ▸ hbc)
    · exact .inr ⟨hab.trans hbc, by omega⟩

theorem Vote.le_voter {a b : Vote} (h : a.le b) : a.voter ≤ b.voter := by
  rcases h with h | ⟨h, -⟩
  · exact h.le
  · exact h.le

theorem choiceRank_inj {a b : VoteChoice} (h : choiceRank a = choiceRank b) : a = b := by
  cases a <;> cases b <;> first | rfl | cases h

theorem counted_iff {intent : Intent} {now : Nat} {v : Vote} : counted intent now v = true ↔
    v.intentId = intent.intentId ∧ v.intentDigest = intent.digest ∧ v.policyVersion = intent.policyVersion ∧
      v.voter ∈ intent.eligibleVoters ∧ intent.atMicros ≤ v.atMicros ∧ v.atMicros ≤ intent.deadlineMicros ∧
      v.atMicros ≤ now := by
  simp [counted, and_assoc]

/-- Two counted votes at one place of the order are equal. -/
theorem Vote.le_antisymm {intent : Intent} {now : Nat} {a b : Vote} (ha : counted intent now a = true)
    (hb : counted intent now b = true) (hab : a.le b) (hba : b.le a) : a = b := by
  rw [counted_iff] at ha hb
  have hv : a.voter = b.voter := (le_voter hab).antisymm (le_voter hba)
  have hat : a.atMicros = b.atMicros ∧ choiceRank a.choice = choiceRank b.choice := by
    simp only [Vote.le, hv, lt_irrefl, true_and, false_or] at hab hba
    omega
  have hc := choiceRank_inj hat.2
  obtain ⟨i, g, p, w, c, t⟩ := a
  obtain ⟨i', g', p', w', c', t'⟩ := b
  simp_all

theorem valid_sorted (intent : Intent) (votes : List Vote) (now : Nat) : (valid intent votes now).Pairwise Vote.le :=
  List.pairwise_insertionSort _ _

theorem valid_counted {intent : Intent} {votes : List Vote} {now : Nat} {v : Vote} (h : v ∈ valid intent votes now) :
    counted intent now v = true := (List.mem_filter.1 (mem_valid.1 h)).2

/-! ## The newly counted votes -/

theorem mem_fresh {intent : Intent} {votes : List Vote} {now1 now2 : Nat} {v : Vote} :
    v ∈ fresh intent votes now1 now2 ↔ v ∈ votes ∧ counted intent now2 v = true ∧ now1 < v.atMicros := by
  simp [fresh]

section

variable {intent : Intent} {votes more : List Vote} {now1 now2 : Nat}

theorem counted_earlier (hle : now1 ≤ now2) (v : Vote) :
    counted intent now1 v = (counted intent now2 v && (v.atMicros ≤ now1 : Bool)) := by
  rw [Bool.eq_iff_iff, Bool.and_eq_true, counted_iff, counted_iff, decide_eq_true_eq]
  constructor
  · rintro ⟨h1, h2, h3, h4, h5, h6, h7⟩; exact ⟨⟨h1, h2, h3, h4, h5, h6, h7.trans hle⟩, h7⟩
  · rintro ⟨⟨h1, h2, h3, h4, h5, h6, -⟩, h7⟩; exact ⟨h1, h2, h3, h4, h5, h6, h7⟩

/-- The votes counted later are those counted before and the fresh ones. -/
theorem valid_later (hle : now1 ≤ now2) (hmore : ∀ v ∈ more, now1 < v.atMicros) :
    (valid intent (votes ++ more) now2).Perm (valid intent votes now1 ++ fresh intent (votes ++ more) now1 now2) := by
  have hold : ((votes ++ more).filter (counted intent now2)).filter (fun v => (v.atMicros ≤ now1 : Bool)) =
      votes.filter (counted intent now1) := by
    have hnone : more.filter (counted intent now1) = [] := by
      refine List.filter_eq_nil_iff.2 fun v hv hc => ?_
      have h1 := hmore v hv
      have h2 := (counted_iff.1 hc).2.2.2.2.2.2
      omega
    rw [List.filter_filter, ← List.append_nil (votes.filter _), ← hnone, ← List.filter_append]
    exact List.filter_congr fun v _ => by rw [counted_earlier hle, Bool.and_comm]
  have hnew : ((votes ++ more).filter (counted intent now2)).filter (fun v => !(v.atMicros ≤ now1 : Bool)) =
      fresh intent (votes ++ more) now1 now2 := by
    rw [List.filter_filter, fresh]
    exact List.filter_congr fun v _ => Bool.and_comm _ _
  have hsplit := List.filter_append_perm (fun v : Vote => (v.atMicros ≤ now1 : Bool))
    ((votes ++ more).filter (counted intent now2))
  rw [hold, hnew] at hsplit
  exact (List.perm_insertionSort _ _).trans (hsplit.symm.trans ((List.perm_insertionSort _ _).symm.append_right _))

theorem mem_valid_later (hle : now1 ≤ now2) (hmore : ∀ v ∈ more, now1 < v.atMicros) {v : Vote} :
    v ∈ valid intent (votes ++ more) now2 ↔
      v ∈ valid intent votes now1 ∨ v ∈ fresh intent (votes ++ more) now1 now2 := by
  rw [(valid_later hle hmore).mem_iff, List.mem_append]

theorem valid_unchanged (hle : now1 ≤ now2) (hmore : ∀ v ∈ more, now1 < v.atMicros)
    (hf : fresh intent (votes ++ more) now1 now2 = []) :
    valid intent (votes ++ more) now2 = valid intent votes now1 := by
  have hperm : (valid intent (votes ++ more) now2).Perm _ := valid_later hle hmore
  rw [hf, List.append_nil] at hperm
  refine hperm.eq_of_pairwise (fun a b ha hb => ?_) (valid_sorted _ _ _) (valid_sorted _ _ _)
  exact Vote.le_antisymm (valid_counted ha) (valid_counted (hperm.mem_iff.2 hb))

/-- A start of the sorted votes that every fresh vote sorts behind stays. -/
theorem valid_start {pre post : List Vote} (hle : now1 ≤ now2) (hmore : ∀ v ∈ more, now1 < v.atMicros)
    (hs : valid intent votes now1 = pre ++ post)
    (hlate : ∀ u ∈ pre, ∀ f ∈ fresh intent (votes ++ more) now1 now2, u.le f) :
    ∃ post', valid intent (votes ++ more) now2 = pre ++ post' := by
  have hperm : (valid intent (votes ++ more) now2).Perm _ := valid_later hle hmore
  have hsorted := valid_sorted intent votes now1
  rw [hs, List.pairwise_append] at hsorted
  rw [hs, List.append_assoc] at hperm
  have htail := List.perm_insertionSort Vote.le (post ++ fresh intent (votes ++ more) now1 now2)
  have hperm' := hperm.trans (htail.symm.append_left pre)
  refine ⟨_, hperm'.eq_of_pairwise (fun a b ha hb => ?_) (valid_sorted _ _ _) (List.pairwise_append.2 ⟨hsorted.1, ?_, ?_⟩)⟩
  · exact Vote.le_antisymm (valid_counted ha) (valid_counted (hperm'.mem_iff.2 hb))
  · exact List.pairwise_insertionSort _ _
  · intro a ha b hb
    rcases List.mem_append.1 (htail.mem_iff.1 hb) with hb | hb
    · exact hsorted.2.2 a ha b hb
    · exact hlate a ha b hb

end

/-! ## Times -/

theorem foldl_max_le {l : List Nat} {start n : Nat} : l.foldl max start ≤ n ↔ start ≤ n ∧ ∀ x ∈ l, x ≤ n := by
  induction l generalizing start with
  | nil => simp
  | cons x rest ih => simp [ih, and_assoc]

theorem latest_le {intent : Intent} {votes : List Vote} {n : Nat} :
    latest intent votes ≤ n ↔ intent.atMicros ≤ n ∧ ∀ v ∈ votes, v.atMicros ≤ n := by
  simp [latest, foldl_max_le]

/-- Before the deadline nothing is decided without a counted vote. -/
theorem Verdict.has_vote {intent : Intent} (hv : Validated intent) {now : Nat} {votes : List Vote} {d : Decision}
    (h : Verdict intent now votes (some d)) (hnow : now < intent.deadlineMicros) : votes ≠ [] := by
  have hpos : 0 < intent.eligibleVoters.length := List.length_pos_iff.2 hv.nonempty
  rintro rfl
  cases h with
  | conflict pre vote post split _ _ _ => simp at split
  | refused _ refused _ _ => simp [Refused] at refused
  | committed commits _ _ =>
    have hq := commits.quorum
    have hthr := hv.threshold
    cases hp : intent.policy <;> simp_all [quorumMet, allowers, responders]
  | impossible _ _ _ _ best _ _ =>
    have hthr := hv.threshold
    simp only [bestQuorum, allowers, responders] at best
    cases hp : intent.policy <;> simp_all [quorumMet]
  | expired _ late _ _ _ _ => omega

/-- A decision before the deadline is stamped no later than `now`. -/
theorem Verdict.time_le {intent : Intent} (hv : Validated intent) {now : Nat} {votes : List Vote} {d : Decision}
    (h : Verdict intent now votes (some d)) (hc : ∀ v ∈ votes, counted intent now v = true)
    (hnow : now < intent.deadlineMicros) : d.atMicros ≤ now := by
  have hle : ∀ v ∈ votes, intent.atMicros ≤ v.atMicros ∧ v.atMicros ≤ now := fun v hm =>
    ⟨(counted_iff.1 (hc v hm)).2.2.2.2.1, (counted_iff.1 (hc v hm)).2.2.2.2.2.2⟩
  obtain ⟨w, hw⟩ := List.exists_mem_of_ne_nil _ (h.has_vote hv hnow)
  have hstart : intent.atMicros ≤ now := (hle w hw).1.trans (hle w hw).2
  cases h with
  | conflict pre vote post split _ _ time =>
    subst split
    rw [time, latest_le]
    exact ⟨hstart, fun v hm => (hle v (by simp at hm ⊢; tauto)).2⟩
  | refused _ _ _ time | committed _ _ time | impossible _ _ _ _ _ _ time =>
    rw [time, latest_le]
    exact ⟨hstart, fun v hm => (hle v hm).2⟩
  | expired _ late _ _ _ _ => omega

/-! ## Conflicts -/

/-- A conflict is decided at its first vote, whatever the time and whatever
sorts behind that vote. -/
theorem decideValid_conflict (intent : Intent) {votes : List Vote} {voter : AgentId} (h : Conflict votes voter) :
    ∃ pre vote post, votes = pre ++ vote :: post ∧ (∀ w, ¬ Conflict pre w) ∧
      ∀ now post', decideValid intent now (pre ++ vote :: post') = decideValid intent 0 (pre ++ [vote]) := by
  rcases fold_spec (Tallied.new intent) votes with ⟨t, -, ht⟩ | ⟨pre, vote, post, rfl, -, t, ht, hf⟩
  · exact absurd h (by simpa using ht.agree voter)
  · refine ⟨pre, vote, post, rfl, by simpa using ht.agree, fun now post' => ?_⟩
    unfold decideValid
    rw [hf, hf]

/-- In sorted votes no voter before the one the loop stops at has a conflict. -/
theorem first_conflict {pre post : List Vote} {vote : Vote} (hs : (pre ++ vote :: post).Pairwise Vote.le)
    (hag : ∀ w, ¬ Conflict pre w) {w : AgentId} (h : Conflict (pre ++ vote :: post) w) : vote.voter ≤ w := by
  by_contra hlt
  rw [List.pairwise_append, List.pairwise_cons] at hs
  have hpre : ∀ v ∈ pre ++ vote :: post, v.voter = w → v ∈ pre := by
    intro v hv he
    rcases List.mem_append.1 hv with hv | hv
    · exact hv
    · rcases List.mem_cons.1 hv with rfl | hv
      · exact absurd he.le hlt
      · exact absurd (he ▸ Vote.le_voter (hs.2.1.1 v hv)) hlt
  obtain ⟨a, ha, b, hb, hav, hbv, hne⟩ := h
  exact hag w ⟨a, hpre a ha hav, b, hpre b hb hbv, hav, hbv, hne⟩

theorem decideValid_now {intent : Intent} {now1 now2 : Nat}
    (h : intent.deadlineMicros ≤ now1 ↔ intent.deadlineMicros ≤ now2) (votes : List Vote) :
    decideValid intent now1 votes = decideValid intent now2 votes := by
  unfold decideValid conclude
  simp only [ge_iff_le, h]

/-- A refusal and a commit do not look at the time. -/
theorem decideValid_untimed {intent : Intent} {votes : List Vote} (h : Refused intent votes ∨ Commits intent votes)
    (now1 now2 : Nat) : decideValid intent now1 votes = decideValid intent now2 votes := by
  unfold decideValid
  rcases fold_spec (Tallied.new intent) votes with ⟨t, hf, ht⟩ | ⟨pre, vote, post, rfl, -, t, -, hf⟩
  · rw [hf]
    replace ht : Tallied intent.atMicros t votes := by simpa using ht
    dsimp only [conclude]
    rcases h with hr | hc
    · obtain ⟨voter, hv⟩ := Option.isSome_iff_exists.1 ((ht.find_refused intent).2 hr)
      simp only [hv]
    · simp only [(ht.commits_iff intent).2 hc, if_true]
  · rw [hf]

/-! ## Main theorem -/

/-- When a decision at `now1` is the decision at `now2`: the deadline had
passed, or a conflict counted at `now1` sorts before every fresh vote, or no
vote is fresh and the deadline is still ahead or plays no part. -/
def Settled (intent : Intent) (votes more : List Vote) (now1 now2 : Nat) : Prop :=
  intent.deadlineMicros ≤ now1 ∨
    (∃ voter, Conflict (votes.filter (counted intent now1)) voter ∧
      ∀ v ∈ fresh intent (votes ++ more) now1 now2, voter ≤ v.voter) ∨
    fresh intent (votes ++ more) now1 now2 = [] ∧ (now2 < intent.deadlineMicros ∨
      Refused intent (votes.filter (counted intent now1)) ∨ Commits intent (votes.filter (counted intent now1)))

section

variable {intent : Intent} {votes more : List Vote} {now1 now2 : Nat}

theorem fresh_of_deadline (hdead : intent.deadlineMicros ≤ now1) : fresh intent votes now1 now2 = [] := by
  refine List.eq_nil_iff_forall_not_mem.2 fun v hv => ?_
  obtain ⟨-, hc, hlt⟩ := mem_fresh.1 hv
  have := (counted_iff.1 hc).2.2.2.2.2.1
  omega

theorem conflict_valid {voter : AgentId} :
    Conflict (valid intent votes now1) voter ↔ Conflict (votes.filter (counted intent now1)) voter :=
  ⟨fun h => h.mono fun _ hv => mem_valid.1 hv, fun h => h.mono fun _ hv => mem_valid.2 hv⟩

/-- A conflict that sorts before every fresh vote is decided as before. -/
theorem decideValid_settled_conflict (hle : now1 ≤ now2) (hmore : ∀ v ∈ more, now1 < v.atMicros) {voter : AgentId}
    (hc : Conflict (valid intent votes now1) voter)
    (hlate : ∀ v ∈ fresh intent (votes ++ more) now1 now2, voter ≤ v.voter) :
    decideValid intent now2 (valid intent (votes ++ more) now2) = decideValid intent now1 (valid intent votes now1) := by
  obtain ⟨pre, vote, post, hs, hag, hd⟩ := decideValid_conflict intent hc
  have hsorted := valid_sorted intent votes now1
  rw [hs] at hsorted hc
  have hfirst := first_conflict hsorted hag hc
  have hbehind : ∀ u ∈ pre ++ [vote], ∀ f ∈ fresh intent (votes ++ more) now1 now2, u.le f := by
    intro u hu f hf
    have hmem : u ∈ valid intent votes now1 := by rw [hs]; simp at hu ⊢; tauto
    have huv : u.voter ≤ vote.voter := by
      rcases List.mem_append.1 hu with hu | hu
      · exact Vote.le_voter ((List.pairwise_append.1 hsorted).2.2 u hu vote (by simp))
      · exact (congrArg Vote.voter (List.mem_singleton.1 hu)).le
    have hut := (counted_iff.1 (valid_counted hmem)).2.2.2.2.2.2
    have hft := (mem_fresh.1 hf).2.2
    rcases (huv.trans (hfirst.trans (hlate f hf))).lt_or_eq with hlt | heq
    · exact .inl hlt
    · exact .inr ⟨heq, .inl (by omega)⟩
  have hsplit : valid intent votes now1 = (pre ++ [vote]) ++ post := by simpa using hs
  obtain ⟨post', hs'⟩ := valid_start hle hmore hsplit hbehind
  rw [hs', hs, hd, List.append_assoc, List.singleton_append, hd]

/-- A later decision stamped before the deadline and no later than `now1` is
an old conflict, or it is about the same votes and the deadline plays no part. -/
theorem settled_of_time (hle : now1 ≤ now2) (hmore : ∀ v ∈ more, now1 < v.atMicros)
    (hnow : now1 < intent.deadlineMicros) {d : Decision}
    (h : Verdict intent now2 (valid intent (votes ++ more) now2) (some d)) (hd : d.atMicros ≤ now1) :
    Settled intent votes more now1 now2 := by
  have hmem := fun v => @mem_valid_later intent votes more now1 now2 hle hmore v
  -- A decision stamped with the latest time of all votes leaves no vote fresh.
  have hnone : latest intent (valid intent (votes ++ more) now2) ≤ now1 → fresh intent (votes ++ more) now1 now2 = [] := by
    refine fun hl => List.eq_nil_iff_forall_not_mem.2 fun v hv => ?_
    have h1 := (latest_le.1 hl).2 v ((hmem v).2 (.inr hv))
    have h2 := (mem_fresh.1 hv).2.2
    omega
  have hsame : fresh intent (votes ++ more) now1 now2 = [] →
      ∀ v, v ∈ valid intent (votes ++ more) now2 ↔ v ∈ votes.filter (counted intent now1) := by
    intro hf v
    rw [hmem, hf, mem_valid]
    simp
  cases h with
  | conflict pre vote post split against _ time =>
    obtain ⟨a, ha, hav, hac⟩ := against
    have hold : ∀ v ∈ pre ++ [vote], v ∈ votes.filter (counted intent now1) := by
      intro v hv
      have hv' : v ∈ valid intent (votes ++ more) now2 := by rw [split]; simp at hv ⊢; tauto
      rcases (hmem v).1 hv' with h1 | h1
      · exact mem_valid.1 h1
      · have h2 := (latest_le.1 (time ▸ hd)).2 v hv
        have h3 := (mem_fresh.1 h1).2.2
        omega
    refine .inr (.inl ⟨vote.voter, ⟨a, hold a (by simp [ha]), vote, hold vote (by simp), hav, rfl, hac⟩, fun f hf => ?_⟩)
    have hf' : f ∈ pre ++ [vote] ++ post := by simpa [split] using (hmem f).2 (.inr hf)
    rcases List.mem_append.1 hf' with hp | hp
    · have h2 := (counted_iff.1 (List.mem_filter.1 (hold f hp)).2).2.2.2.2.2.2
      have h3 := (mem_fresh.1 hf).2.2
      omega
    · have hsorted := valid_sorted intent (votes ++ more) now2
      rw [split, List.pairwise_append, List.pairwise_cons] at hsorted
      exact Vote.le_voter (hsorted.2.1.1 f hp)
  | refused _ refused _ time =>
    have hf := hnone (time ▸ hd)
    obtain ⟨voter, hm, v, hv, hvv, hne⟩ := refused
    exact .inr (.inr ⟨hf, .inr (.inl ⟨voter, hm, v, (hsame hf v).1 hv, hvv, hne⟩)⟩)
  | committed commits _ time =>
    have hf := hnone (time ▸ hd)
    exact .inr (.inr ⟨hf, .inr (.inr (commits.of_mem (hsame hf)))⟩)
  | impossible _ early _ _ _ _ time => exact .inr (.inr ⟨hnone (time ▸ hd), .inl early⟩)
  | expired _ _ _ _ _ time => omega

end

/-- A decision keeps its outcome and time at a later `now` exactly when it is
settled. -/
theorem decide_stays_iff (digestOf : List UInt8 → String) (intent : Intent) (votes more : List Vote) (now1 now2 : Nat)
    (d : Decision) (h : intent.validate digestOf = .ok ()) (hle : now1 ≤ now2)
    (hmore : ∀ v ∈ more, now1 < v.atMicros) (hd : decide digestOf intent votes now1 = .ok (some d)) :
    Stays digestOf intent votes more now1 now2 ↔ Settled intent votes more now1 now2 := by
  have hv := Validated.of_validate h
  have hel : ∀ votes now, responders (valid intent votes now) ⊆ intent.eligibleVoters.toFinset := fun votes now =>
    responders_eligible fun v hm => valid_counted hm
  simp only [Stays, decide_eq h, Except.ok.injEq] at hd ⊢
  constructor
  · intro hstay
    obtain ⟨d', hd', -, ht⟩ := hstay d hd
    by_cases hnow : intent.deadlineMicros ≤ now1
    · exact .inl hnow
    · have h1 := decideValid_verdict hv (hel votes now1) now1
      have h2 := decideValid_verdict hv (hel (votes ++ more) now2) now2
      rw [hd] at h1
      rw [hd'] at h2
      refine settled_of_time hle hmore (by omega) h2 ?_
      rw [ht]
      exact h1.time_le hv (fun v hm => valid_counted hm) (by omega)
  · intro hs d0 hd0
    rcases hs with hdead | ⟨voter, hc, hlate⟩ | ⟨hf, hcase⟩
    · refine ⟨d0, ?_, rfl, rfl⟩
      rw [valid_unchanged hle hmore (fresh_of_deadline hdead), ← hd0]
      exact decideValid_now (by omega) _
    · refine ⟨d0, ?_, rfl, rfl⟩
      rw [← hd0]
      exact decideValid_settled_conflict hle hmore (conflict_valid.2 hc) hlate
    · refine ⟨d0, ?_, rfl, rfl⟩
      rw [valid_unchanged hle hmore hf, ← hd0]
      rcases hcase with hnow | hr | hc
      · exact decideValid_now (by omega) _
      · obtain ⟨voter, hm, v, hv, hvv⟩ := hr
        exact decideValid_untimed (.inl ⟨voter, hm, v, mem_valid.2 hv, hvv⟩) _ _
      · exact decideValid_untimed (.inr (hc.of_mem fun v => mem_valid.symm)) _ _

/-- Two allow votes commit at 30. -/
def committing : List Vote := [ballot "b" .allow 20, ballot "a" .allow 30]

theorem decide_stays_committed : (∃ d, decide (fun _ => oneDigest) quorumIntent committing 50 = .ok (some d)) ∧
    Stays (fun _ => oneDigest) quorumIntent committing [] 50 900 :=
  ⟨⟨_, rfl⟩, (decide_stays_iff (fun _ => oneDigest) quorumIntent committing [] 50 900 _ (by decide) (by decide)
    (by simp) rfl).2 (.inr (.inr ⟨by decide, .inl (by decide)⟩))⟩

/-- The commit at 50 is an abort at 70, once one of the voters changes its
choice. -/
theorem commit_undone : quorumIntent.validate (fun _ => oneDigest) = .ok () ∧
    (∀ v ∈ [ballot "a" .block 60], 50 < v.atMicros) ∧
    (∃ d, decide (fun _ => oneDigest) quorumIntent committing 50 = .ok (some d) ∧
      d.outcome = .committed ∧ d.atMicros = 30) ∧
    (∃ d, decide (fun _ => oneDigest) quorumIntent (committing ++ [ballot "a" .block 60]) 70 = .ok (some d) ∧
      d.outcome = .aborted ∧ d.atMicros = 60) ∧
    ¬ Stays (fun _ => oneDigest) quorumIntent committing [ballot "a" .block 60] 50 70 := by
  refine ⟨by decide, by decide, ⟨_, rfl, by decide⟩, ⟨_, rfl, by decide⟩, fun hstay => ?_⟩
  obtain ⟨d', hd', ho, -⟩ := hstay _ rfl
  cases hd'
  cases ho

end LaserSdk.Intents

import LaserSdk.Agent.Pause
/-!
# What a replay leaves and meets

The dedup window and the fences of a process hold marks of the records it
took: `Marked` says that each mark names a record of the log that bears it.
`replay_settles_iff` says what becomes of a replayed work record: it is
handled, dead-lettered or dropped because of another record, unless the gates
turn it away for a mark of its own.
-/

namespace LaserSdk.Agent

open Lib

variable {w : Worker} {log : Log}

/-- Every mark was left by a record of the log that bears it. -/
structure Marked (log : Log) (g : Gates) : Prop where
  dedup : ∀ key id, (key, id) ∈ g.dedup.order →
    ∃ message, log id = some (.decoded message) ∧ dedupKey message.provenance = some key
  fences : ∀ task entry, (task, entry) ∈ g.fences.highWater →
    ∃ message, log entry.setter = some (.decoded message) ∧ message.provenance.conversationId = task ∧
      message.provenance.fenceToken = some entry.fence

theorem marked_new (w : Worker) (log : Log) : Marked log (.new w) where
  dedup := fun key id h => by cases h
  fences := fun task entry h => by cases h

/-! ## The gates keep the marks -/

theorem sweep_subset (f : Fences) (now : Nat) : (f.sweep now).highWater ⊆ f.highWater := by
  unfold Fences.sweep
  split
  · exact fun entry h => (List.mem_filter.1 h).1
  · exact List.Subset.refl _

theorem acceptFence_marks {f : Fences} {task : ConversationId} {fence now : Nat} {id : MessageId}
    {entry : ConversationId × FenceEntry} (h : entry ∈ (acceptFence f task fence now id).2.highWater) :
    entry ∈ f.highWater ∨ entry = (task, ⟨fence, now, id⟩) := by
  unfold acceptFence at h
  dsimp only at h
  split at h
  · exact .inl (sweep_subset f now h)
  · rcases List.mem_cons.1 h with hnew | hold
    · exact .inr hnew
    · exact .inl (sweep_subset f now (List.mem_filter.1 hold).1)

/-- A rejected fence is below the mark of its task. -/
theorem acceptFence_rejects {f : Fences} {task : ConversationId} {fence now : Nat} {id : MessageId}
    (h : (acceptFence f task fence now id).1 = false) :
    ∃ entry, (task, entry) ∈ f.highWater ∧ fence < entry.fence := by
  unfold acceptFence at h
  dsimp only at h
  split at h
  next hbelow =>
    cases hlookup : (f.sweep now).highWater.lookup task with
    | none =>
      -- A task without a mark starts at 0, which no fence is below.
      rw [hlookup] at hbelow
      exact absurd hbelow (Nat.not_lt_zero fence)
    | some entry =>
      rw [hlookup] at hbelow
      obtain ⟨before, after, hentries, _⟩ := List.lookup_eq_some_iff.1 hlookup
      refine ⟨entry, sweep_subset f now ?_, hbelow⟩
      rw [hentries]
      exact List.mem_append_right _ List.mem_cons_self
  next => cases h

theorem passFence_dedup (g : Gates) (id : MessageId) (message : AgentMessage) (a : Answers) :
    (passFence g id message a).2.dedup = g.dedup := by
  unfold passFence
  split <;> rfl

theorem passFence_marked {g : Gates} {id : MessageId} {message : AgentMessage} {a : Answers} (hg : Marked log g)
    (hlog : log id = some (.decoded message)) : Marked log (passFence g id message a).2 := by
  constructor
  · rw [passFence_dedup]
    exact hg.dedup
  · intro task entry hmem
    unfold passFence at hmem
    split at hmem
    next fence hfence =>
      rcases acceptFence_marks hmem with hold | hnew
      · exact hg.fences task entry hold
      · cases hnew
        exact ⟨message, hlog, rfl, hfence⟩
    next => exact hg.fences task entry hmem

theorem observe_marked {g : Gates} {id : MessageId} {message : AgentMessage} (hg : Marked log g)
    (hlog : log id = some (.decoded message)) : Marked log (observe g id message).2 := by
  unfold observe
  split
  next key hkey => exact ⟨Window.forall_insert hg.dedup ⟨message, hlog, hkey⟩, hg.fences⟩
  next => exact hg

theorem work_marked {g : Gates} {id : MessageId} {message : AgentMessage} {a : Answers} (hg : Marked log g)
    (hlog : log id = some (.decoded message)) : Marked log (work w g id message a).1 := by
  have hfenced : Marked log (passFence g id message a).2 := passFence_marked hg hlog
  unfold work
  split
  · exact hg
  dsimp only
  split
  · exact hfenced
  · split
    · exact observe_marked hfenced hlog
    · exact observe_marked hfenced hlog

theorem verify_marked {verifies : MessageId → Bool} {g : Gates} {id : MessageId} {message : AgentMessage}
    {a : Answers} (hg : Marked log g) : Marked log (verify verifies g id message a).1 := by
  unfold verify
  split
  · split
    · exact ⟨hg.dedup, hg.fences⟩
    · exact hg
  · exact hg

theorem enter_marked {g : Gates} {id : MessageId} {received : Received} {a : Answers} (hg : Marked log g) :
    Marked log (enter w g id received a).1 := by
  unfold enter
  split
  · exact hg
  · split
    · exact hg
    · split
      · exact hg
      · split
        · exact verify_marked hg
        · exact hg

/-- The record is work addressed to the role. -/
structure Workable (w : Worker) (message : AgentMessage) : Prop where
  addressed : w.misaddressed message = false
  work : w.dispatch message = .work

theorem verify_passes {verifies : MessageId → Bool} {g : Gates} {id : MessageId} {message passed : AgentMessage}
    {a : Answers} (h : (verify verifies g id message a).2 = .passes passed) : passed = message := by
  unfold verify at h
  split at h
  · split at h
    · dsimp only at h
      split at h
      · cases h
        rfl
      · cases h
    · cases h
      rfl
  · cases h

/-- What comes to the pause check is work. -/
theorem enter_passes {g : Gates} {id : MessageId} {received : Received} {a : Answers} {message : AgentMessage}
    (h : (enter w g id received a).2 = .passes message) : received = .decoded message ∧ Workable w message := by
  unfold enter at h
  split at h
  · cases h
  next decoded =>
    split at h
    · cases h
    next haddressed =>
      split at h
      · cases h
      next hwork =>
        have hsame : message = decoded := by
          split at h
          · exact verify_passes h
          · cases h
            rfl
        subst hsame
        exact ⟨rfl, by simpa using haddressed, by simpa using hwork⟩

theorem replay_marked {g : Gates} {id : MessageId} {received : Received} {a : Answers} (hg : Marked log g)
    (hlog : log id = some received) : Marked log (replay w g id received a).1 := by
  have hentered : Marked log (enter w g id received a).1 := enter_marked hg
  unfold replay
  split
  next g' result heq => rwa [heq] at hentered
  next g' message heq =>
    rw [heq] at hentered
    obtain ⟨rfl, _⟩ := enter_passes (congrArg (·.2) heq)
    exact work_marked hentered hlog

theorem warmDedupKey_eq {id : MessageId} {received : Received} {key : String} (h : warmDedupKey w id received = some key) :
    ∃ message, received = .decoded message ∧ dedupKey message.provenance = some key := by
  unfold warmDedupKey at h
  split at h
  · cases h
  next message =>
    refine ⟨message, rfl, ?_⟩
    split at h
    · cases h
    · split at h
      · split at h
        · exact h
        · cases h
      · exact h

/-- What holds of every entry of a window and of the keys of the records the
warm-up reads holds of every entry it leaves. -/
theorem forall_warmDedupWindow {P : String → MessageId → Prop} {stored : Nat → Option Nat}
    {dedup : Window String MessageId} (hdedup : ∀ key id, (key, id) ∈ dedup.order → P key id)
    (hread : ∀ id ∈ warmRanges w stored, ∀ key, (log id).bind (warmDedupKey w id) = some key → P key id) :
    ∀ key id, (key, id) ∈ (warmDedupWindow w log stored dedup).order → P key id := by
  unfold warmDedupWindow
  revert hread
  -- One record at a time, over any window whose entries meet `P`.
  induction warmRanges w stored generalizing dedup with
  | nil => exact fun _ => hdedup
  | cons id rest ih =>
    intro hread
    rw [List.foldl_cons]
    refine ih ?_ fun other hother => hread other (List.mem_cons_of_mem _ hother)
    split
    next key hkey => exact Window.forall_insert hdedup (hread id List.mem_cons_self key hkey)
    next => exact hdedup

/-- The warm-up marks keys of records of the log. -/
theorem warmDedupWindow_marked {readable : Log} (hreadable : ∀ id received, readable id = some received → log id = some received)
    (stored : Nat → Option Nat) {g : Gates} (hg : Marked log g) :
    Marked log { g with dedup := warmDedupWindow w readable stored g.dedup } := by
  refine ⟨forall_warmDedupWindow hg.dedup fun id _ key hkey => ?_, hg.fences⟩
  obtain ⟨received, hread, hwarm⟩ := Option.bind_eq_some_iff.1 hkey
  obtain ⟨message, rfl, hdedup⟩ := warmDedupKey_eq hwarm
  exact ⟨message, hreadable id _ hread, hdedup⟩

/-! ## What becomes of a replayed record -/

/-- What may become of a held record that is reported handled: the handler
ran, it is a dead letter, or it was dropped because of another record: a
higher fence of its task, its key seen on another record, or the session's
budget. -/
def Settles (log : Log) (g : Gates) (id : MessageId) (message : AgentMessage) : Outcome → Prop
  | .handled | .deadLettered _ _ | .overBudget => True
  | .staleFence => ∃ entry fence other, (message.provenance.conversationId, entry) ∈ g.fences.highWater ∧
      message.provenance.fenceToken = some fence ∧ fence < entry.fence ∧ entry.setter ≠ id ∧
      log entry.setter = some (.decoded other) ∧ other.provenance.conversationId = message.provenance.conversationId
  | .duplicate => ∃ key setter other, dedupKey message.provenance = some key ∧ g.dedup.holder key = some setter ∧
      setter ≠ id ∧ log setter = some (.decoded other) ∧ dedupKey other.provenance = some key
  | .replayed | .misaddressed | .skipped _ | .held => False

/-- The signature check, when there is one, lets the record through. -/
def Worker.verified (w : Worker) (id : MessageId) (message : AgentMessage) : Bool :=
  match w.verifier with
  | some verifies => message.envelope.isSome && verifies id
  | none => true

/-- The window of verified record ids holds the id of the record. -/
def seenRecord (w : Worker) (g : Gates) (message : AgentMessage) : Bool :=
  w.verifier.isSome && (message.envelope.bind (·.record)).any fun record => (g.verifiedRecords.holder record).isSome

/-- The dedup window holds the key of the record because of the record. -/
def ownKey (g : Gates) (id : MessageId) (message : AgentMessage) : Bool :=
  (dedupKey message.provenance).any fun key => g.dedup.holder key = some id

/-- Neither the budget nor the fence stops the record before the dedup gate. -/
def reachesDedup (w : Worker) (g : Gates) (id : MessageId) (message : AgentMessage) (a : Answers) : Bool :=
  !(w.agent.isSome && !a.admitted) && (passFence g id message a).1

/-- The gates from the budget on do not read the verified record ids. -/
theorem reachesDedup_verified (g : Gates) (seen : Window String MessageId) (id : MessageId) (message : AgentMessage)
    (a : Answers) : reachesDedup w { g with verifiedRecords := seen } id message a = reachesDedup w g id message a := by
  unfold reachesDedup passFence
  cases message.provenance.fenceToken <;> rfl

/-- The gates turn the record away for a mark of its own. -/
def turnedAway (w : Worker) (g : Gates) (id : MessageId) (message : AgentMessage) (a : Answers) : Bool :=
  w.verified id message && (seenRecord w g message || (reachesDedup w g id message a && ownKey g id message))

/-- A record below the fence of its task is dropped because of the record
that set the fence. -/
theorem passFence_settles {g : Gates} {id : MessageId} {message : AgentMessage} {a : Answers} (hg : Marked log g)
    (hlog : log id = some (.decoded message)) (h : (passFence g id message a).1 = false) :
    Settles log g id message .staleFence := by
  unfold passFence at h
  split at h
  next fence hfence =>
    obtain ⟨entry, hmem, hbelow⟩ := acceptFence_rejects h
    obtain ⟨other, hother, htask, hhigher⟩ := hg.fences _ entry hmem
    refine ⟨entry, fence, other, hmem, hfence, hbelow, ?_, hother, htask⟩
    -- The record's own fence is the one that was rejected.
    rintro rfl
    rw [hlog] at hother
    cases hother
    rw [hfence] at hhigher
    cases hhigher
    exact absurd hbelow (Nat.lt_irrefl _)
  next => cases h

theorem observe_fst (g : Gates) (id : MessageId) (message : AgentMessage) :
    (observe g id message).1 = !(dedupKey message.provenance).any fun key => (g.dedup.holder key).isSome := by
  unfold observe
  cases dedupKey message.provenance with
  | none => rfl
  | some key =>
    simp only [Option.any_some]
    rw [Window.insert_fst]
    cases g.dedup.holder key <;> rfl

/-- Another record's mark is not its own. -/
theorem ownKey_of_settles {g : Gates} {id : MessageId} {message : AgentMessage}
    (h : Settles log g id message .duplicate) : ownKey g id message = false := by
  obtain ⟨key, setter, other, hkey, hholder, hne, _⟩ := h
  simp [ownKey, hkey, hholder, hne]

/-- A record whose key was seen is dropped because of another record unless
the key is its own mark. -/
theorem observe_settles_iff {g : Gates} {id : MessageId} {message : AgentMessage} (hg : Marked log g)
    (h : (observe g id message).1 = false) :
    Settles log g id message .duplicate ↔ ownKey g id message = false := by
  refine ⟨ownKey_of_settles, fun hown => ?_⟩
  rw [observe_fst] at h
  unfold ownKey at hown
  cases hkey : dedupKey message.provenance with
  | none =>
    rw [hkey] at h
    cases h
  | some key =>
    rw [hkey] at h hown
    simp only [Option.any_some, Bool.not_eq_eq_eq_not, Bool.not_false] at h
    obtain ⟨setter, hsetter⟩ := Option.isSome_iff_exists.1 h
    simp only [Option.any_some, hsetter, Option.some.injEq, decide_eq_false_iff_not] at hown
    obtain ⟨other, hlog, hother⟩ := hg.dedup key setter (Window.mem_of_holder hsetter)
    exact ⟨key, setter, other, hkey, hsetter, hown, hlog, hother⟩

theorem deadLetter_settles {g : Gates} {id : MessageId} {message : AgentMessage} {a : Answers}
    {reason : DeadLetterReason} {count : Nat} {outcome : Outcome} (h : deadLetter a reason count = some outcome) :
    Settles log g id message outcome := by
  unfold deadLetter at h
  split at h
  · cases h
    trivial
  · cases h

theorem attempts_settles {g : Gates} {id : MessageId} {message : AgentMessage} {a : Answers} {left attempt : Nat}
    {outcome : Outcome} (h : attempts a left attempt = some outcome) : Settles log g id message outcome := by
  induction left generalizing attempt with
  | zero =>
    unfold attempts at h
    split at h
    · cases h
      trivial
    · exact deadLetter_settles h
    · exact deadLetter_settles h
  | succ left ih =>
    unfold attempts at h
    split at h
    · cases h
      trivial
    · exact deadLetter_settles h
    · exact ih h

theorem handle_settles {g : Gates} {id : MessageId} {message : AgentMessage} {a : Answers} {outcome : Outcome}
    (h : handle w message a = some outcome) : Settles log g id message outcome := by
  unfold handle at h
  split at h
  · exact deadLetter_settles h
  · split at h
    · exact attempts_settles h
    · exact deadLetter_settles h

theorem work_settles_iff {g : Gates} {id : MessageId} {message : AgentMessage} {a : Answers} {outcome : Outcome}
    (hg : Marked log g) (hlog : log id = some (.decoded message)) (h : (work w g id message a).2 = some outcome) :
    Settles log g id message outcome ↔ (reachesDedup w g id message a && ownKey g id message) = false := by
  unfold work at h
  unfold reachesDedup
  by_cases hbudget : (w.agent.isSome && !a.admitted) = true
  · rw [if_pos hbudget] at h
    cases h
    simp [Settles, hbudget]
  · rw [if_neg hbudget] at h
    rw [Bool.not_eq_true] at hbudget
    rw [hbudget, Bool.not_false, Bool.true_and]
    dsimp only at h
    cases hfence : (passFence g id message a).1 with
    | false =>
      simp only [hfence, Bool.not_false, if_true, Option.some.injEq] at h
      subst h
      exact ⟨fun _ => rfl, fun _ => passFence_settles hg hlog hfence⟩
    | true =>
      rw [hfence] at h
      rw [Bool.true_and]
      -- The dedup gate meets the window as it was before the fence gate.
      have hfirst : (observe (passFence g id message a).2 id message).1 = (observe g id message).1 := by
        rw [observe_fst, observe_fst, passFence_dedup]
      cases hobserve : (observe g id message).1 with
      | false =>
        simp only [Bool.not_true, Bool.false_eq_true, if_false, hfirst, hobserve, Bool.not_false, if_true,
          Option.some.injEq] at h
        subst h
        exact observe_settles_iff hg hobserve
      | true =>
        simp only [Bool.not_true, Bool.false_eq_true, if_false, hfirst, hobserve] at h
        refine ⟨fun _ => ?_, fun _ => handle_settles h⟩
        rw [observe_fst] at hobserve
        unfold ownKey
        cases hkey : dedupKey message.provenance with
        | none => rfl
        | some key =>
          rw [hkey] at hobserve
          simp only [Option.any_some, Bool.not_eq_eq_eq_not, Bool.not_true, Option.isSome_eq_false_iff,
            Option.isNone_iff_eq_none] at hobserve
          simp [hobserve]

/-- A replayed work record is handled, dead-lettered or dropped because of
another record exactly when no mark of its own turns it away. -/
theorem replay_settles_iff {g : Gates} {id : MessageId} {message : AgentMessage} {a : Answers} {outcome : Outcome}
    (hg : Marked log g) (hlog : log id = some (.decoded message)) (hwork : Workable w message)
    (h : (replay w g id (.decoded message) a).2 = some outcome) :
    Settles log g id message outcome ↔ turnedAway w g id message a = false := by
  unfold replay enter at h
  unfold turnedAway Worker.verified seenRecord
  simp only [hwork.addressed, hwork.work, Bool.false_eq_true, if_false, ne_eq, not_true] at h
  cases hverifier : w.verifier with
  | none =>
    rw [hverifier] at h
    simpa using work_settles_iff hg hlog h
  | some verifies =>
    rw [hverifier] at h
    dsimp only [verify] at h ⊢
    cases hverifies : message.envelope.isSome && verifies id with
    | false =>
      simp only [hverifies, Bool.false_eq_true, if_false] at h
      exact ⟨fun _ => rfl, fun _ => deadLetter_settles h⟩
    | true =>
      simp only [hverifies, if_true] at h
      rw [Bool.true_and, Option.isSome_some, Bool.true_and]
      cases hrecord : message.envelope.bind (·.record) with
      | none =>
        rw [hrecord] at h
        simpa using work_settles_iff hg hlog h
      | some record =>
        rw [hrecord] at h
        dsimp only at h
        have hfirst := Window.insert_fst g.verifiedRecords record id
        cases hholder : g.verifiedRecords.holder record with
        | none =>
          rw [hholder, Option.isNone_none] at hfirst
          rw [hfirst] at h
          have hgates : Marked log { g with verifiedRecords := (g.verifiedRecords.insert record id).2 } :=
            ⟨hg.dedup, hg.fences⟩
          have hiff := work_settles_iff hgates hlog h
          rw [reachesDedup_verified] at hiff
          simp only [Option.any_some, hholder, Option.isSome_none, Bool.false_or]
          exact hiff
        | some setter =>
          rw [hholder, Option.isNone_some] at hfirst
          rw [hfirst] at h
          cases h
          simp [Settles, hholder]

end LaserSdk.Agent

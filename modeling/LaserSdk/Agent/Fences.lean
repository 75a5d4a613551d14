import LaserSdk.Agent.Marks
/-!
# The fence gate over time

Calls for many tasks come in any order, and any of them may sweep the map. An
accepted fence holds its task for as long as an entry lives: every lower one is
turned away until then. A fence at or above all that were accepted passes.
-/

namespace LaserSdk.Agent

/-- One call of the gate. -/
structure FenceCall where
  task : ConversationId
  fence : Nat
  now : Nat
  id : MessageId
  deriving DecidableEq, Repr

def FenceCall.on (c : FenceCall) (f : Fences) : Bool × Fences := acceptFence f c.task c.fence c.now c.id

/-- The gate after a sequence of calls, from an empty map. -/
def fencesAfter (since : Nat) (calls : List FenceCall) : Fences := calls.foldl (fun f c => (c.on f).2) ⟨[], since⟩

/-- The call that follows the others is accepted. -/
def Accepted (since : Nat) (calls : List FenceCall) (c : FenceCall) : Prop := (c.on (fencesAfter since calls)).1 = true

instance (since : Nat) (calls : List FenceCall) (c : FenceCall) : Decidable (Accepted since calls c) :=
  inferInstanceAs (Decidable (_ = _))

theorem fencesAfter_snoc (since : Nat) (calls : List FenceCall) (c : FenceCall) :
    fencesAfter since (calls ++ [c]) = (c.on (fencesAfter since calls)).2 := by
  rw [fencesAfter, List.foldl_append]
  rfl

/-! ## The mark of a task -/

/-- The first entry under a key stays the first if it is kept. -/
theorem lookup_filter_of_pos {entries : List (ConversationId × FenceEntry)} {p : ConversationId × FenceEntry → Bool}
    {task : ConversationId} {entry : FenceEntry} (h : entries.lookup task = some entry) (hp : p (task, entry) = true) :
    (entries.filter p).lookup task = some entry := by
  obtain ⟨before, after, rfl, hfirst⟩ := List.lookup_eq_some_iff.1 h
  rw [List.filter_append, List.filter_cons_of_pos hp]
  exact List.lookup_eq_some_iff.2 ⟨_, _, rfl, fun other hother => hfirst other (List.mem_filter.1 hother).1⟩

/-- A sweep keeps an entry that is younger than its lifetime. -/
theorem sweep_lookup {f : Fences} {now : Nat} {task : ConversationId} {entry : FenceEntry}
    (h : f.highWater.lookup task = some entry) (hyoung : now - entry.touchedMicros < fenceEntryTtlMicros) :
    (f.sweep now).highWater.lookup task = some entry := by
  unfold Fences.sweep
  split
  next => exact lookup_filter_of_pos h (decide_eq_true hyoung)
  next => exact h

/-- The mark of a task is at least `fence` and was set at `since` or later. -/
def Guarded (task : ConversationId) (fence since : Nat) (f : Fences) : Prop :=
  ∃ entry, f.highWater.lookup task = some entry ∧ fence ≤ entry.fence ∧ since ≤ entry.touchedMicros

/-- An accepted call holds its task. -/
theorem guarded_of_accepted {f : Fences} {c : FenceCall} (h : (c.on f).1 = true) : Guarded c.task c.fence c.now (c.on f).2 := by
  unfold FenceCall.on acceptFence at h ⊢
  dsimp only at h ⊢
  split at h
  next => cases h
  next hmark =>
    rw [if_neg hmark]
    refine ⟨⟨c.fence, c.now, c.id⟩, ?_, Nat.le_refl _, Nat.le_refl _⟩
    simp [Fences.set]

/-- No call lowers the mark of a task while its entry lives. -/
theorem Guarded.call {task : ConversationId} {fence since : Nat} {f : Fences} (h : Guarded task fence since f) {c : FenceCall}
    (hafter : since ≤ c.now) (hyoung : c.now < since + fenceEntryTtlMicros) : Guarded task fence since (c.on f).2 := by
  obtain ⟨entry, hentry, hfence, hsince⟩ := h
  have hswept : (f.sweep c.now).highWater.lookup task = some entry := sweep_lookup hentry (by omega)
  unfold FenceCall.on acceptFence
  dsimp only
  split
  next => exact ⟨entry, hswept, hfence, hsince⟩
  next hmark =>
    by_cases htask : task = c.task
    · subst htask
      rw [hswept] at hmark
      refine ⟨⟨c.fence, c.now, c.id⟩, by simp [Fences.set], ?_, hafter⟩
      exact Nat.le_trans hfence (Nat.le_of_not_lt hmark)
    · refine ⟨entry, ?_, hfence, hsince⟩
      unfold Fences.set
      rw [List.lookup_cons, beq_false_of_ne htask]
      exact lookup_filter_of_pos hswept (by simpa using htask)

theorem Guarded.calls {task : ConversationId} {fence since : Nat} {f : Fences} (h : Guarded task fence since f)
    {calls : List FenceCall} (hcalls : ∀ c ∈ calls, since ≤ c.now ∧ c.now < since + fenceEntryTtlMicros) :
    Guarded task fence since (calls.foldl (fun f c => (c.on f).2) f) := by
  induction calls generalizing f with
  | nil => exact h
  | cons c rest ih =>
    rw [List.forall_mem_cons] at hcalls
    exact ih (h.call hcalls.1.1 hcalls.1.2) hcalls.2

theorem Guarded.rejects {task : ConversationId} {fence since : Nat} {f : Fences} (h : Guarded task fence since f) {c : FenceCall}
    (htask : c.task = task) (hyoung : c.now < since + fenceEntryTtlMicros) (hbelow : c.fence < fence) : (c.on f).1 = false := by
  obtain ⟨entry, hentry, hfence, hsince⟩ := h
  have hlifetime : 0 < fenceEntryTtlMicros := by decide
  have hswept : (f.sweep c.now).highWater.lookup task = some entry := sweep_lookup hentry (by omega)
  unfold FenceCall.on acceptFence
  dsimp only
  rw [htask, hswept, if_pos]
  exact Nat.lt_of_lt_of_le hbelow hfence

/-! ## Where a mark comes from -/

/-- A mark that was not there is that of the call, which was accepted. -/
theorem mark_cases {f : Fences} {c : FenceCall} {entry : ConversationId × FenceEntry} (h : entry ∈ (c.on f).2.highWater) :
    entry ∈ f.highWater ∨ (c.on f).1 = true ∧ entry = (c.task, ⟨c.fence, c.now, c.id⟩) := by
  cases hcall : (c.on f).1 with
  | true => exact (acceptFence_marks h).imp_right fun hnew => ⟨rfl, hnew⟩
  | false =>
    unfold FenceCall.on acceptFence at h hcall
    dsimp only at h hcall
    split at hcall
    next hmark =>
      rw [if_pos hmark] at h
      exact .inl (sweep_subset f c.now h)
    next => cases hcall

/-- Every mark was set by an accepted call. -/
theorem mark_accepted {since : Nat} {calls : List FenceCall} {entry : ConversationId × FenceEntry}
    (h : entry ∈ (fencesAfter since calls).highWater) :
    ∃ before c rest, calls = before ++ c :: rest ∧ Accepted since before c ∧ c.task = entry.1 ∧ c.fence = entry.2.fence := by
  induction calls using List.reverseRecOn with
  | nil => cases h
  | append_singleton calls last ih =>
    rw [fencesAfter_snoc] at h
    rcases mark_cases h with hold | ⟨haccepted, rfl⟩
    · obtain ⟨before, c, rest, rfl, hc⟩ := ih hold
      exact ⟨before, c, rest ++ [last], by simp, hc⟩
    · exact ⟨calls, last, [], rfl, haccepted, rfl, rfl⟩

/-! ## The guarantee -/

/-- Whatever the other tasks do: a fence accepted for a task turns away every
lower one for the lifetime of an entry, and a fence that none accepted for the
task exceeds is accepted. -/
theorem fence_gate (since : Nat) {calls : List FenceCall} {c : FenceCall}
    (hclock : (calls ++ [c]).Pairwise fun first second => first.now ≤ second.now) :
    (∀ before accepted between, calls = before ++ accepted :: between → Accepted since before accepted →
      accepted.task = c.task → c.now < accepted.now + fenceEntryTtlMicros → c.fence < accepted.fence →
      ¬ Accepted since calls c) ∧
    ((∀ before accepted between, calls = before ++ accepted :: between → Accepted since before accepted →
      accepted.task = c.task → accepted.fence ≤ c.fence) → Accepted since calls c) := by
  constructor
  · rintro before accepted between rfl haccepted htask hyoung hbelow
    have hguarded : Guarded accepted.task accepted.fence accepted.now (fencesAfter since (before ++ accepted :: between)) := by
      rw [List.append_cons, fencesAfter, List.foldl_append, ← fencesAfter, fencesAfter_snoc]
      refine (guarded_of_accepted haccepted).calls fun other hother => ?_
      have hfirst : accepted.now ≤ other.now := by
        rw [List.append_assoc, List.pairwise_append] at hclock
        exact List.rel_of_pairwise_cons hclock.2.1 (List.mem_append_left _ hother)
      have hlast : other.now ≤ c.now := (List.pairwise_append.1 hclock).2.2 other (by simp [hother]) c List.mem_cons_self
      exact ⟨hfirst, Nat.lt_of_le_of_lt hlast hyoung⟩
    unfold Accepted
    rw [hguarded.rejects htask.symm hyoung hbelow]
    exact Bool.false_ne_true
  · intro habove
    unfold Accepted
    by_contra hrejected
    obtain ⟨entry, hentry, hbelow⟩ := acceptFence_rejects (Bool.eq_false_iff.2 hrejected)
    obtain ⟨before, accepted, between, hsplit, haccepted, htask, hfence⟩ := mark_accepted hentry
    have hle := habove before accepted between hsplit haccepted htask
    rw [hfence] at hle
    exact absurd hbelow (Nat.not_lt.2 hle)

/-- A holder that comes back late, and the one that took over. -/
theorem late_holder_rejected :
    ¬ Accepted 0 [⟨7, 4, 100, ⟨0, 0⟩⟩, ⟨7, 5, 200, ⟨0, 1⟩⟩, ⟨8, 1, 300, ⟨0, 2⟩⟩] ⟨7, 4, 400, ⟨0, 3⟩⟩ ∧
      Accepted 0 [⟨7, 4, 100, ⟨0, 0⟩⟩, ⟨7, 5, 200, ⟨0, 1⟩⟩, ⟨8, 1, 300, ⟨0, 2⟩⟩] ⟨7, 5, 400, ⟨0, 4⟩⟩ := by
  constructor
  · exact (fence_gate 0 (by decide)).1 [⟨7, 4, 100, ⟨0, 0⟩⟩] ⟨7, 5, 200, ⟨0, 1⟩⟩ [⟨8, 1, 300, ⟨0, 2⟩⟩] rfl (by decide) rfl
      (by decide) (by decide)
  · refine (fence_gate 0 (by decide)).2 fun before accepted between hsplit _ _ => ?_
    have hall : ∀ call ∈ before ++ accepted :: between, call.fence ≤ 5 := by
      rw [← hsplit]
      decide
    exact hall accepted (by simp)

end LaserSdk.Agent

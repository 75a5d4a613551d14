import Mathlib
import LaserSdk.Memory.Recalled
import LaserSdk.Memory.Sound
/-!
# Two orders of one topic

Catch-ups fold the partitions of a topic in an order of their own, which
depends on when each of them ran. Recall does not depend on it as long as a
record that is dropped for its id is a copy of the item that is there. An item
of the same id in another conversation is not: whichever is folded first hides
the other, and a tombstone of its conversation then takes both.
-/

namespace LaserSdk.Memory

open Lib Poll

variable {W : Type}

/-- Every record of the topic is folded. -/
def State.Folded (s : State W) : Prop := ∀ partition, (s.log partition).length ≤ s.offsets partition

/-- What was folded is a merge of the read parts of the partitions, and recall
shows its live records. -/
structure Merged (m : LogMemory) (s : State W) : Prop where
  bounded : ∀ p, s.offsets p ≤ (s.log p).length
  parts : ∀ p, s.order.filter (fun e => e.partition = p) = (placed p (s.log p)).take (s.offsets p)
  shows : Shows m.resourceNamespace s.order s.projection.recalled
  started : ∀ call c, s.catchUps call = some c → ∀ p, c.start p ≤ s.offsets p
  drained : ∀ call c, s.catchUps call = some c → ∀ batch ∈ c.drained, batch.Sound s.log c.start

variable {m : LogMemory} {s s' : State W}

theorem Merged.new (topic : List (List (Message W))) : Merged m (State.new topic) where
  bounded _ := Nat.zero_le _
  parts _ := rfl
  shows := Shows.default
  started := nofun
  drained := nofun

theorem Merged.push (h : Merged m s) {partition : Nat} (hpartition : partition < s.topic.length) (message : Message W) :
    Merged m (s.push partition message) := by
  have hlog := push_grows s hpartition message
  refine ⟨fun p => (h.bounded p).trans (hlog p).length_le, fun p => ?_, h.shows, h.started, fun call c hc batch hbatch => ?_⟩
  · rw [show (s.push partition message).offsets = s.offsets from rfl, placed_take (hlog p) p (h.bounded p)]
    exact h.parts p
  · exact (h.drained call c hc batch hbatch).grow hlog

theorem Merged.setCatchUp (h : Merged m s) (call : Nat) {c : Option (CatchUp W)}
    (hstarted : ∀ c', c = some c' → ∀ p, c'.start p ≤ s.offsets p)
    (hdrained : ∀ c', c = some c' → ∀ batch ∈ c'.drained, batch.Sound s.log c'.start) :
    Merged m { s with catchUps := Function.update s.catchUps call c } := by
  refine ⟨h.bounded, h.parts, h.shows, fun other c' hc' => ?_, fun other c' hc' => ?_⟩ <;> dsimp only at hc' <;>
    by_cases hother : other = call
  · subst hother
    rw [Function.update_self] at hc'
    exact hstarted c' hc'
  · rw [Function.update_of_ne hother] at hc'
    exact h.started other c' hc'
  · subst hother
    rw [Function.update_self] at hc'
    exact hdrained c' hc'
  · rw [Function.update_of_ne hother] at hc'
    exact h.drained other c' hc'

/-- A drain adds what it reads of its partition, up to its ceiling. -/
theorem drain_sound {log : Nat → List (Message W)} {c : CatchUp W} (hstart : c.start c.visited ≤ (log c.visited).length)
    (h : ∀ batch ∈ c.drained, batch.Sound log c.start) (cap : Nat → Nat) :
    ∀ batch ∈ (c.drain cap log).drained, batch.Sound log c.start := by
  unfold CatchUp.drain
  rw [drainPartition_eq]
  dsimp only [within]
  split
  next => exact h
  next =>
    intro batch hbatch
    rcases List.mem_append.1 hbatch with hold | hnew
    · exact h batch hold
    · obtain rfl := List.mem_singleton.1 hnew
      refine ⟨Nat.le_add_right _ _, ?_, ?_⟩
      · dsimp only
        rw [List.length_take, List.length_drop, placed_length]
        omega
      · dsimp only
        rw [List.drop_take, Nat.add_sub_cancel_left]
        exact (List.prefix_iff_eq_take.1 (List.take_prefix _ _))

/-! ## Steps -/

variable [Add W] [Zero W]

/-- A step that folds nothing but copies on top of what is there. -/
def FoldsCopies (m : LogMemory) (s : State W) (a : Action W) (s' : State W) : Prop :=
  step m s a = some s' ∧ OnlyCopies m.resourceNamespace s.projection (s'.order.drop s.order.length)

/-- What an application folds comes after all that was folded before. -/
theorem foldl_applyBatch_order (start : Nat → Nat) (batches : List (Batch W)) (s : State W) :
    ∃ folded, (batches.foldl (applyBatch m start) s).order = s.order ++ folded ∧
      (batches.foldl (applyBatch m start) s).projection = folded.foldl (Projection.absorb m.resourceNamespace) s.projection := by
  induction batches generalizing s with
  | nil => exact ⟨[], (List.append_nil _).symm, rfl⟩
  | cons batch rest ih =>
    obtain ⟨folded, horder, hprojection⟩ := ih (applyBatch m start s batch)
    rw [List.foldl_cons, horder, hprojection]
    unfold applyBatch
    split
    next => exact ⟨folded, rfl, rfl⟩
    next => exact ⟨batch.messages ++ folded, List.append_assoc _ _ _, (List.foldl_append ..).symm⟩

theorem foldl_applyBatch_merges {start : Nat → Nat} {batches : List (Batch W)}
    (hbatches : ∀ batch ∈ batches, batch.Sound s.log start) (hbounded : ∀ p, s.offsets p ≤ (s.log p).length)
    (hparts : ∀ p, s.order.filter (fun e => e.partition = p) = (placed p (s.log p)).take (s.offsets p)) :
    (∀ p, (batches.foldl (applyBatch m start) s).offsets p ≤ (s.log p).length) ∧
      ∀ p, (batches.foldl (applyBatch m start) s).order.filter (fun e => e.partition = p) =
        (placed p (s.log p)).take ((batches.foldl (applyBatch m start) s).offsets p) := by
  induction batches generalizing s with
  | nil => exact ⟨hbounded, hparts⟩
  | cons batch rest ih =>
    rw [List.forall_mem_cons] at hbatches
    have hlog : (applyBatch m start s batch).log = s.log := applyBatch_log
    have hrest := @ih (applyBatch m start s batch)
    rw [hlog] at hrest
    exact hrest hbatches.2 (applyBatch_bounded hbounded hbatches.1) (applyBatch_parts hparts hbatches.1)

theorem Merged.apply (h : Merged m s) {call : Nat} (hstep : FoldsCopies m s (.apply call) s') : Merged m s' := by
  obtain ⟨hstep, hcopies⟩ := hstep
  obtain ⟨c, hc, -, rfl⟩ := apply_cases hstep
  obtain ⟨folded, horder, hprojection⟩ := foldl_applyBatch_order (m := m) c.start c.drained s
  obtain ⟨htopic, hcatchUps⟩ := foldl_applyBatch_frame (m := m) (s := s) c.start c.drained
  obtain ⟨hbounded, hparts⟩ := foldl_applyBatch_merges (m := m) (h.drained call c hc) h.bounded h.parts
  dsimp only at hcopies
  rw [horder, List.drop_left] at hcopies
  have hmerged : Merged m (c.drained.foldl (applyBatch m c.start) s) := by
    have hlog : (c.drained.foldl (applyBatch m c.start) s).log = s.log := by
      funext p
      rw [State.log, htopic]
      rfl
    refine ⟨?_, ?_, ?_, fun other c' hc' p => ?_, fun other c' hc' => ?_⟩
    · rw [hlog]
      exact hbounded
    · rw [hlog]
      exact hparts
    · rw [horder, hprojection]
      exact h.shows.foldl hcopies
    · rw [hcatchUps] at hc'
      exact (h.started other c' hc' p).trans (foldl_applyBatch_offsets (m := m) (h.drained call c hc) p)
    · rw [hcatchUps] at hc'
      rw [hlog]
      exact h.drained other c' hc'
  rw [← hcatchUps]
  exact hmerged.setCatchUp call nofun nofun

theorem Merged.step {a : Action W} (h : Merged m s) (hstep : FoldsCopies m s a s') : Merged m s' := by
  cases a with
  | append partition message =>
    obtain ⟨hstep, -⟩ := hstep
    unfold Memory.step at hstep
    dsimp only at hstep
    split at hstep
    next hpartition =>
      cases hstep
      exact h.push hpartition message
    next => cases hstep
  | publish call key value governed =>
    obtain ⟨hstep, -⟩ := hstep
    simp only [Memory.step, Option.ite_none_right_eq_some, Option.some.injEq] at hstep
    obtain ⟨⟨hpartition, -⟩, rfl⟩ := hstep
    have hpush := h.push hpartition (m.named key value governed)
    exact ⟨hpush.bounded, hpush.parts, hpush.shows, hpush.started, hpush.drained⟩
  | insert call =>
    obtain ⟨i, hi, rfl⟩ := Option.map_eq_some_iff.1 hstep.1
    exact ⟨h.bounded, h.parts, h.shows, h.started, h.drained⟩
  | begin call =>
    obtain ⟨hstep, -⟩ := hstep
    unfold Memory.step at hstep
    dsimp only at hstep
    split at hstep
    next =>
      cases hstep
      refine h.setCatchUp call ?_ ?_
      · rintro c ⟨⟩ p
        exact Nat.le_refl _
      · rintro c ⟨⟩ batch hbatch
        cases hbatch
    next => cases hstep
  | drain call cap =>
    obtain ⟨hstep, -⟩ := hstep
    unfold Memory.step at hstep
    dsimp only at hstep
    split at hstep
    next => cases hstep
    next c hc =>
      split at hstep
      next =>
        cases hstep
        refine h.setCatchUp call ?_ ?_
        · rintro c' ⟨⟩
          exact h.started call c hc
        · rintro c' ⟨⟩
          exact drain_sound ((h.started call c hc _).trans (h.bounded _)) (h.drained call c hc) cap
      next => cases hstep
  | apply call => exact h.apply hstep

/-! ## Recall once everything is folded -/

omit [Add W] [Zero W] in
theorem Merged.mem_order (h : Merged m s) (hall : s.Folded) {e : Placed W} :
    e ∈ s.order ↔ (s.log e.partition)[e.offset]? = some e.message := by
  have hpart := h.parts e.partition
  rw [List.take_of_length_le (by rw [placed_length]; exact hall _)] at hpart
  have hmem : e ∈ s.order ↔ e ∈ s.order.filter (fun other => other.partition = e.partition) := by simp
  rw [hmem, hpart, mem_placed]
  exact and_iff_right rfl

omit [Add W] [Zero W] in
/-- The live records depend on the topic alone. -/
theorem live_of_topic {s₁ s₂ : State W} (h₁ : Merged m s₁) (h₂ : Merged m s₂) (htopic : s₁.topic = s₂.topic)
    (hall₁ : s₁.Folded) (hall₂ : s₂.Folded) : Live m.resourceNamespace s₁.order = Live m.resourceNamespace s₂.order := by
  have hmem : ∀ e, e ∈ s₁.order ↔ e ∈ s₂.order := by
    intro e
    rw [h₁.mem_order hall₁, h₂.mem_order hall₂, State.log, State.log, htopic]
  funext r
  simp only [Live, hmem]

/-- Handles that have folded a topic to its end, in whatever orders, recall the
same ids under every scope, if every record they dropped for its id was a copy
of what was there. -/
theorem recall_of_orders [LE W] [DecidableLE W] {topic₁ topic₂ : List (List (Message W))} {actions₁ actions₂ : List (Action W)}
    {s₁ s₂ : State W} (h₁ : Run (FoldsCopies m) (State.new topic₁) actions₁ s₁)
    (h₂ : Run (FoldsCopies m) (State.new topic₂) actions₂ s₂) (htopic : s₁.topic = s₂.topic) (hall₁ : s₁.Folded)
    (hall₂ : s₂.Folded) (keywordHit : String → Bytes → Bool) (scope : MemoryScope) (query : MemoryQuery)
    (hlimit₁ : s₁.projection.recalled.items.length ≤ query.limit)
    (hlimit₂ : s₂.projection.recalled.items.length ≤ query.limit) (id : Nat) :
    id ∈ (foldedMemoryItems keywordHit s₁.projection.recalled scope query).map (·.item.id) ↔
      id ∈ (foldedMemoryItems keywordHit s₂.projection.recalled scope query).map (·.item.id) := by
  have hmerged₁ : Merged m s₁ := h₁.inv (Merged m) (Merged.new topic₁) fun _ _ _ hinv hstep => hinv.step hstep
  have hmerged₂ : Merged m s₂ := h₂.inv (Merged m) (Merged.new topic₂) fun _ _ _ hinv hstep => hinv.step hstep
  rw [hmerged₁.shows.recalls hlimit₁, hmerged₂.shows.recalls hlimit₂, live_of_topic hmerged₁ hmerged₂ htopic hall₁ hall₂]

/-! ## One id in two conversations -/

/-- A record of the namespace `team` in a conversation. -/
def recordIn (conversation : Nat) (entry : MemoryLogEntry Nat) : Message Nat :=
  ⟨some ⟨⟨conversation, none⟩, some "team", none, none⟩, .entry entry⟩

def itemIn (conversation id : Nat) : Message Nat := recordIn conversation (.item id "fact" [1] none none)

def everything : MemoryQuery := ⟨none, .recent, none, 50⟩

def anyScope : MemoryScope := ⟨none, none, none, none, none⟩

def teamMemory : LogMemory := ⟨"team", "team", fun _ => 0, fun _ => 0⟩

def tombstone : Message Nat := recordIn 1 (.forget 7 (some 1))

/-- The catch-ups of a handle that opens the topic when it is complete. -/
def opensLate : List (Action Nat) := catchUpSteps 0 (fun _ _ => 9) 2

/-- The catch-ups of a handle that is there when the last record comes. -/
def opensEarly (last : Message Nat) : List (Action Nat) :=
  catchUpSteps 0 (fun _ _ => 9) 2 ++ .append 0 last :: catchUpSteps 0 (fun _ _ => 9) 2

/-- All that recall returns of a handle. -/
def recallAll (s : State Nat) : List Nat :=
  (foldedMemoryItems (fun _ _ => true) s.projection.recalled anyScope everything).map (·.item.id)

theorem folded_of_two {s : State Nat} {first second : List (Message Nat)} (htopic : s.topic = [first, second])
    (h : first.length ≤ s.offsets 0 ∧ second.length ≤ s.offsets 1) : s.Folded := by
  intro partition
  match partition with
  | 0 => simpa [State.log, htopic] using h.1
  | 1 => simpa [State.log, htopic] using h.2
  | partition + 2 => simp [State.log, htopic]

/-- The tombstone of the first conversation takes the item of the second, or
leaves it, as the order of the partitions has it. -/
theorem recall_depends_on_order : ¬ ∀ (m : LogMemory) (topic₁ topic₂ : List (List (Message Nat)))
    (actions₁ actions₂ : List (Action Nat)) (s₁ s₂ : State Nat),
    Run (fun s a s' => step m s a = some s') (State.new topic₁) actions₁ s₁ →
    Run (fun s a s' => step m s a = some s') (State.new topic₂) actions₂ s₂ → s₁.topic = s₂.topic →
    s₁.Folded → s₂.Folded → ∀ (scope : MemoryScope) (query : MemoryQuery),
      s₁.projection.recalled.items.length ≤ query.limit → s₂.projection.recalled.items.length ≤ query.limit →
      ∀ id, id ∈ (foldedMemoryItems (fun _ _ => true) s₁.projection.recalled scope query).map (·.item.id) ↔
        id ∈ (foldedMemoryItems (fun _ _ => true) s₂.projection.recalled scope query).map (·.item.id) := by
  intro h
  obtain ⟨s₁, h₁, htopic₁, hoffsets₁, hitems₁, hids₁⟩ : ∃ s₁, Run (fun s a s' => step teamMemory s a = some s')
      (State.new [[itemIn 1 7, tombstone], [itemIn 2 7]]) opensLate s₁ ∧ s₁.topic = [[itemIn 1 7, tombstone], [itemIn 2 7]] ∧
      (2 ≤ s₁.offsets 0 ∧ 1 ≤ s₁.offsets 1) ∧ s₁.projection.recalled.items.length ≤ 50 ∧ recallAll s₁ = [7] := by
    refine ⟨_, Run.foldlM_iff.2 rfl, rfl, ?_⟩
    decide +kernel
  obtain ⟨s₂, h₂, htopic₂, hoffsets₂, hitems₂, hids₂⟩ : ∃ s₂, Run (fun s a s' => step teamMemory s a = some s')
      (State.new [[itemIn 1 7], [itemIn 2 7]]) (opensEarly tombstone) s₂ ∧
      s₂.topic = [[itemIn 1 7, tombstone], [itemIn 2 7]] ∧
      (2 ≤ s₂.offsets 0 ∧ 1 ≤ s₂.offsets 1) ∧ s₂.projection.recalled.items.length ≤ 50 ∧ recallAll s₂ = [] := by
    refine ⟨_, Run.foldlM_iff.2 rfl, rfl, ?_⟩
    decide +kernel
  have hsame : 7 ∈ recallAll s₁ ↔ 7 ∈ recallAll s₂ :=
    h teamMemory _ _ _ _ s₁ s₂ h₁ h₂ (htopic₁.trans htopic₂.symm) (folded_of_two htopic₁ hoffsets₁)
      (folded_of_two htopic₂ hoffsets₂) anyScope everything hitems₁ hitems₂ 7
  rw [hids₁, hids₂] at hsame
  simp at hsame

/-- The steps that fold nothing but copies, as a function. -/
def nextCopies (m : LogMemory) (s : State Nat) (a : Action Nat) : Option (State Nat) :=
  (step m s a).filter fun s' => OnlyCopies m.resourceNamespace s.projection (s'.order.drop s.order.length)

theorem nextCopies_eq {m : LogMemory} {s s' : State Nat} {a : Action Nat} :
    nextCopies m s a = some s' ↔ FoldsCopies m s a s' := by
  rw [nextCopies, Option.filter_eq_some_iff, FoldsCopies, decide_eq_true_eq]

/-- One handle folds an item and its copy on the other partition before the
tombstone, another meets the copy after it: both recall the other item alone. -/
theorem recall_early_and_late : ∃ s₁ s₂ : State Nat,
    Run (FoldsCopies teamMemory) (State.new [[itemIn 1 7, tombstone], [itemIn 1 7, itemIn 2 8]]) opensLate s₁ ∧
    Run (FoldsCopies teamMemory) (State.new [[itemIn 1 7], [itemIn 1 7, itemIn 2 8]]) (opensEarly tombstone) s₂ ∧
    recallAll s₁ = [8] ∧ ∀ id, id ∈ recallAll s₁ ↔ id ∈ recallAll s₂ := by
  obtain ⟨s₁, h₁, htopic₁, hoffsets₁, hitems₁, hids₁⟩ : ∃ s₁, Run (fun s a s' => nextCopies teamMemory s a = some s')
      (State.new [[itemIn 1 7, tombstone], [itemIn 1 7, itemIn 2 8]]) opensLate s₁ ∧
      s₁.topic = [[itemIn 1 7, tombstone], [itemIn 1 7, itemIn 2 8]] ∧
      (2 ≤ s₁.offsets 0 ∧ 2 ≤ s₁.offsets 1) ∧ s₁.projection.recalled.items.length ≤ 50 ∧ recallAll s₁ = [8] := by
    refine ⟨_, Run.foldlM_iff.2 rfl, rfl, ?_⟩
    decide +kernel
  obtain ⟨s₂, h₂, htopic₂, hoffsets₂, hitems₂⟩ : ∃ s₂, Run (fun s a s' => nextCopies teamMemory s a = some s')
      (State.new [[itemIn 1 7], [itemIn 1 7, itemIn 2 8]]) (opensEarly tombstone) s₂ ∧
      s₂.topic = [[itemIn 1 7, tombstone], [itemIn 1 7, itemIn 2 8]] ∧
      (2 ≤ s₂.offsets 0 ∧ 2 ≤ s₂.offsets 1) ∧ s₂.projection.recalled.items.length ≤ 50 := by
    refine ⟨_, Run.foldlM_iff.2 rfl, rfl, ?_⟩
    decide +kernel
  have hrun₁ := h₁.mono fun _ _ _ => nextCopies_eq.1
  have hrun₂ := h₂.mono fun _ _ _ => nextCopies_eq.1
  refine ⟨s₁, s₂, hrun₁, hrun₂, hids₁, fun id => ?_⟩
  exact recall_of_orders hrun₁ hrun₂ (htopic₁.trans htopic₂.symm) (folded_of_two htopic₁ hoffsets₁)
    (folded_of_two htopic₂ hoffsets₂) _ anyScope everything hitems₁ hitems₂ id

end LaserSdk.Memory

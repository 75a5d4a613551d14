import LaserSdk.Memory.Handle
/-!
# The projection is a fold of the topic

In every state, what was folded is an interleaving of the read parts of the
partitions, recall is the fold of it, and so is the named state but for keys
that still have an unread record. This is kept by every step that meets the
condition, whatever the calls of the handle and the other writers do.
-/

namespace LaserSdk.Memory

open Lib Poll

variable {W : Type}

/-! ## Partitions that grow -/

theorem placed_length (partition : Nat) (log : List (Message W)) : (placed partition log).length = log.length := by
  rw [placed, List.length_map, List.length_zipIdx]

theorem placed_take {log log' : List (Message W)} (h : log <+: log') (partition : Nat) {n : Nat} (hn : n ≤ log.length) :
    (placed partition log').take n = (placed partition log).take n := by
  obtain ⟨rest, rfl⟩ := h
  rw [placed, List.zipIdx_append, List.map_append, List.take_append_of_le_length]
  · rfl
  · rw [List.length_map, List.length_zipIdx]
    exact hn

theorem mem_placed {partition : Nat} {log : List (Message W)} {p : Placed W} :
    p ∈ placed partition log ↔ p.partition = partition ∧ log[p.offset]? = some p.message := by
  rw [placed, List.mem_map]
  constructor
  · rintro ⟨found, hfound, rfl⟩
    exact ⟨rfl, by simpa using (List.mk_mem_zipIdx_iff_getElem?).1 hfound⟩
  · rintro ⟨rfl, hmessage⟩
    exact ⟨(p.message, p.offset), (List.mk_mem_zipIdx_iff_getElem?).2 hmessage, rfl⟩

theorem placed_getElem? (partition : Nat) (log : List (Message W)) (i : Nat) :
    (placed partition log)[i]? = log[i]?.map fun message => ⟨partition, i, message⟩ := by
  rw [placed, List.getElem?_map, List.getElem?_zipIdx, Option.map_map]
  cases log[i]? with
  | none => rfl
  | some message => simp

theorem push_log (s : State W) {partition : Nat} (h : partition < s.topic.length) (message : Message W) (p : Nat) :
    (s.push partition message).log p = if p = partition then s.log partition ++ [message] else s.log p := by
  unfold State.push State.log
  simp only [List.getD_eq_getElem?_getD, List.getElem?_modify]
  by_cases hp : p = partition
  · subst hp
    simp [h]
  · rw [if_neg hp]
    simp [Ne.symm hp]

theorem push_grows (s : State W) {partition : Nat} (h : partition < s.topic.length) (message : Message W) (p : Nat) :
    s.log p <+: (s.push partition message).log p := by
  rw [push_log s h]
  split
  next hp =>
    rw [hp]
    exact List.prefix_append _ _
  next => exact List.prefix_refl _

/-! ## The invariant -/

section

variable (log : Nat → List (Message W))

structure Batch.Sound (start : Nat → Nat) (batch : Batch W) : Prop where
  start_le : start batch.partition ≤ batch.nextOffset
  next_le : batch.nextOffset ≤ (log batch.partition).length
  messages : batch.messages =
    ((placed batch.partition (log batch.partition)).take batch.nextOffset).drop (start batch.partition)

structure CatchUp.Sound (offsets : Nat → Nat) (c : CatchUp W) : Prop where
  start_le : ∀ p, c.start p ≤ offsets p
  seen_le : ∀ p, c.seen p ≤ (log p).length
  visited : ∀ batch ∈ c.drained, batch.partition < c.visited
  distinct : (c.drained.map (·.partition)).Nodup
  batches : ∀ batch ∈ c.drained, batch.Sound log c.start
  covers : ∀ p < c.visited, c.seen p ≤ c.start p ∨ ∃ batch ∈ c.drained, batch.partition = p ∧ c.seen p ≤ batch.nextOffset

end

variable {log log' : Nat → List (Message W)} {offsets offsets' : Nat → Nat}

theorem getElem?_grows {log log' : List (Message W)} (h : log <+: log') {i : Nat} {message : Message W}
    (hi : log[i]? = some message) : log'[i]? = some message := by
  obtain ⟨rest, rfl⟩ := h
  rw [List.getElem?_append_left (List.getElem?_eq_some_iff.1 hi).1]
  exact hi

theorem Batch.Sound.grow {start : Nat → Nat} {batch : Batch W} (hlog : ∀ p, log p <+: log' p) (h : batch.Sound log start) :
    batch.Sound log' start := by
  refine ⟨h.start_le, Nat.le_trans h.next_le (hlog _).length_le, ?_⟩
  rw [placed_take (hlog _) _ h.next_le]
  exact h.messages

theorem CatchUp.Sound.grow {c : CatchUp W} (hlog : ∀ p, log p <+: log' p) (hoffsets : ∀ p, offsets p ≤ offsets' p)
    (h : c.Sound log offsets) : c.Sound log' offsets' :=
  ⟨fun p => Nat.le_trans (h.start_le p) (hoffsets p), fun p => Nat.le_trans (h.seen_le p) (hlog p).length_le, h.visited,
    h.distinct, fun batch hbatch => (h.batches batch hbatch).grow hlog, h.covers⟩

/-- A drain that reaches the tail adds what is unread of its partition. -/
theorem CatchUp.Sound.drain (hbounded : ∀ p, offsets p ≤ (log p).length) {c : CatchUp W} (h : c.Sound log offsets) (cap : Nat → Nat)
    (hmeets : (log c.visited).length ≤ c.start c.visited + maxDrainMessages) :
    (c.drain cap log).Sound log offsets := by
  have hstart : c.start c.visited ≤ (log c.visited).length := Nat.le_trans (h.start_le _) (hbounded _)
  have hall : ((placed c.visited (log c.visited)).drop (c.start c.visited)).take maxDrainMessages =
      (placed c.visited (log c.visited)).drop (c.start c.visited) := by
    apply List.take_of_length_le
    rw [List.length_drop, placed_length]
    omega
  unfold CatchUp.drain
  rw [drainPartition_eq]
  dsimp only [within]
  rw [hall, List.length_drop, placed_length, show c.start c.visited + ((log c.visited).length - c.start c.visited) =
    (log c.visited).length by omega]
  split
  next hempty =>
    have hread : (log c.visited).length ≤ c.start c.visited := by
      have hlength := congrArg List.length (List.isEmpty_iff.1 hempty)
      rw [List.length_drop, placed_length, List.length_nil] at hlength
      omega
    refine ⟨h.start_le, h.seen_le, fun batch hbatch => Nat.lt_succ_of_lt (h.visited batch hbatch), h.distinct, h.batches,
      fun p hp => ?_⟩
    rcases Nat.lt_succ_iff_lt_or_eq.1 hp with hlt | rfl
    · exact h.covers p hlt
    · exact .inl (Nat.le_trans (h.seen_le _) hread)
  next hsome =>
    refine ⟨h.start_le, h.seen_le, ?_, ?_, ?_, fun p hp => ?_⟩
    · intro batch hbatch
      rcases List.mem_append.1 hbatch with hold | hnew
      · exact Nat.lt_succ_of_lt (h.visited batch hold)
      · rw [List.mem_singleton.1 hnew]
        exact Nat.lt_succ_self _
    · rw [List.map_append]
      refine List.nodup_append.2 ⟨h.distinct, List.nodup_singleton _, ?_⟩
      rintro p hp q hq rfl
      obtain ⟨batch, hbatch, rfl⟩ := List.mem_map.1 hp
      have hlt := h.visited batch hbatch
      rw [List.map_singleton, List.mem_singleton] at hq
      exact absurd hq (Nat.ne_of_lt hlt)
    · intro batch hbatch
      rcases List.mem_append.1 hbatch with hold | hnew
      · exact h.batches batch hold
      · rw [List.mem_singleton.1 hnew]
        refine ⟨hstart, Nat.le_refl _, ?_⟩
        rw [List.take_of_length_le (by rw [placed_length])]
    · rcases Nat.lt_succ_iff_lt_or_eq.1 hp with hlt | rfl
      · rcases h.covers p hlt with hread | ⟨batch, hbatch, hpartition, hseen⟩
        · exact .inl hread
        · exact .inr ⟨batch, List.mem_append_left _ hbatch, hpartition, hseen⟩
      · exact .inr ⟨_, List.mem_append_right _ List.mem_cons_self, rfl, h.seen_le _⟩

theorem Batch.Sound.mem {start : Nat → Nat} {batch : Batch W} (h : batch.Sound log start) {e : Placed W}
    (he : e ∈ batch.messages) : e.partition = batch.partition := by
  rw [h.messages] at he
  exact (mem_placed.1 (List.mem_of_mem_take (List.mem_of_mem_drop he))).1

variable [Add W] [Zero W]

structure Inv (m : LogMemory) (s : State W) : Prop where
  bounded : ∀ p, s.offsets p ≤ (s.log p).length
  parts : ∀ p, s.order.filter (fun e => e.partition = p) = (placed p (s.log p)).take (s.offsets p)
  recalled : s.projection.recalled = (foldAll m.resourceNamespace s.order).recalled
  named : ∀ key, s.projection.named key = (foldAll m.resourceNamespace s.order).named key ∨ s.Unread m.resourceNamespace key
  catchUps : ∀ call c, s.catchUps call = some c → c.Sound s.log s.offsets

variable {m : LogMemory} {s s' : State W}

theorem Inv.new (topic : List (List (Message W))) : Inv m (State.new topic) where
  bounded _ := Nat.zero_le _
  parts _ := rfl
  recalled := rfl
  named _ := .inl rfl
  catchUps := nofun

/-- Records that are appended are unread. -/
theorem Inv.push (h : Inv m s) {partition : Nat} (hpartition : partition < s.topic.length) (message : Message W) :
    Inv m (s.push partition message) := by
  have hlog := push_grows s hpartition message
  refine ⟨fun p => Nat.le_trans (h.bounded p) (hlog p).length_le, fun p => ?_, h.recalled, fun key => ?_,
    fun call c hc => (h.catchUps call c hc).grow hlog fun _ => Nat.le_refl _⟩
  · rw [show (s.push partition message).offsets = s.offsets from rfl, placed_take (hlog p) p (h.bounded p)]
    exact h.parts p
  · refine (h.named key).imp_right ?_
    rintro ⟨q, offset, other, value, hother, hunread, hwrite⟩
    exact ⟨q, offset, other, value, getElem?_grows (hlog q) hother, hunread, hwrite⟩

/-! ## Named writes -/

theorem Inv.publish (h : Inv m s) {call : Nat} {key : String} {value : Option Bytes} {governed : Option (Payload W)}
    (hstep : step m s (.publish call key value governed) = some s') : Inv m s' := by
  simp only [step, Option.ite_none_right_eq_some, Option.some.injEq] at hstep
  obtain ⟨⟨hpartition, -⟩, rfl⟩ := hstep
  have hpush := h.push hpartition (m.named key value governed)
  exact ⟨hpush.bounded, hpush.parts, hpush.recalled, hpush.named, hpush.catchUps⟩

/-- A key whose value was set has an unread record, or had the value. -/
theorem Inv.insert (h : Inv m s) {call : Nat} (hmeets : Meets m s (.insert call)) (hstep : step m s (.insert call) = some s') :
    Inv m s' := by
  obtain ⟨i, hi, rfl⟩ := Option.map_eq_some_iff.1 hstep
  refine ⟨h.bounded, h.parts, h.recalled, fun key => ?_, h.catchUps⟩
  show Function.update s.projection.named i.id i.value key = _ ∨ _
  by_cases hkey : key = i.id
  · subst hkey
    rw [Function.update_self]
    rcases hmeets i hi with hunread | hsame
    · exact .inr hunread
    · rw [← hsame]
      exact h.named i.id
  · rw [Function.update_of_ne hkey]
    exact h.named key

/-! ## Catch-ups -/

/-- The catch-ups of a state with one of them changed. -/
theorem Inv.setCatchUp (h : Inv m s) (call : Nat) {c : Option (CatchUp W)} (hc : ∀ c', c = some c' → c'.Sound s.log s.offsets) :
    Inv m { s with catchUps := Function.update s.catchUps call c } := by
  refine ⟨h.bounded, h.parts, h.recalled, h.named, fun other c' hc' => ?_⟩
  dsimp only at hc'
  by_cases hother : other = call
  · subst hother
    rw [Function.update_self] at hc'
    exact hc c' hc'
  · rw [Function.update_of_ne hother] at hc'
    exact h.catchUps other c' hc'

theorem Inv.begin (h : Inv m s) {call : Nat} (hstep : step m s (.begin call) = some s') : Inv m s' := by
  unfold step at hstep
  dsimp only at hstep
  split at hstep
  next hfree =>
    cases hstep
    refine h.setCatchUp call ?_
    rintro c ⟨⟩
    exact ⟨fun _ => Nat.le_refl _, fun _ => Nat.le_refl _, nofun, List.nodup_nil, nofun, nofun⟩
  next => cases hstep

theorem Inv.drain (h : Inv m s) {call : Nat} {cap : Nat → Nat} (hmeets : Meets m s (.drain call cap))
    (hstep : step m s (.drain call cap) = some s') : Inv m s' := by
  unfold step at hstep
  dsimp only at hstep
  split at hstep
  next => cases hstep
  next c hc =>
    split at hstep
    next =>
      cases hstep
      refine h.setCatchUp call ?_
      rintro c' ⟨⟩
      exact (h.catchUps call c hc).drain h.bounded cap (hmeets c hc)
    next => cases hstep

/-! ## Folding a batch -/

section

variable {start : Nat → Nat} {batch : Batch W}

theorem applyBatch_log : (applyBatch m start s batch).log = s.log := by
  unfold applyBatch
  split <;> rfl

theorem applyBatch_offsets (hbatch : batch.Sound s.log start) (p : Nat) : s.offsets p ≤ (applyBatch m start s batch).offsets p := by
  unfold applyBatch
  split
  next => exact Nat.le_refl _
  next hsame =>
    rw [ne_eq, Decidable.not_not] at hsame
    dsimp only
    by_cases hp : p = batch.partition
    · subst hp
      rw [Function.update_self, hsame]
      exact hbatch.start_le
    · rw [Function.update_of_ne hp]

/-- An unread record stays unread, or it is in the batch. -/
theorem applyBatch_unread (hbatch : batch.Sound s.log start) (hsame : s.offsets batch.partition = start batch.partition)
    {key : String} (h : s.Unread m.resourceNamespace key) :
    (applyBatch m start s batch).Unread m.resourceNamespace key ∨
      ∃ e ∈ batch.messages, e.writes m.resourceNamespace key := by
  obtain ⟨p, offset, message, value, hmessage, hunread, hwrite⟩ := h
  by_cases hread : p = batch.partition ∧ offset < batch.nextOffset
  · obtain ⟨rfl, hlt⟩ := hread
    refine .inr ⟨⟨batch.partition, offset, message⟩, ?_, value, hwrite⟩
    rw [hbatch.messages]
    refine List.mem_iff_getElem?.2 ⟨offset - start batch.partition, ?_⟩
    rw [List.getElem?_drop, List.getElem?_take, if_pos (by omega), placed_getElem?,
      show start batch.partition + (offset - start batch.partition) = offset by omega, hmessage]
    rfl
  · refine .inl ⟨p, offset, message, value, ?_, ?_, hwrite⟩
    · rw [applyBatch_log]
      exact hmessage
    · unfold applyBatch
      rw [if_neg (by rw [hsame]; simp)]
      dsimp only
      by_cases hp : p = batch.partition
      · subst hp
        rw [Function.update_self]
        omega
      · rw [Function.update_of_ne hp]
        exact hunread

theorem applyBatch_bounded (hbounded : ∀ p, s.offsets p ≤ (s.log p).length) (hbatch : batch.Sound s.log start) (p : Nat) :
    (applyBatch m start s batch).offsets p ≤ (s.log p).length := by
  unfold applyBatch
  split
  next => exact hbounded p
  next hsame =>
    dsimp only
    by_cases hp : p = batch.partition
    · subst hp
      rw [Function.update_self]
      exact hbatch.next_le
    · rw [Function.update_of_ne hp]
      exact hbounded p

/-- What was folded of a partition goes on where it stopped. -/
theorem applyBatch_parts (hparts : ∀ p, s.order.filter (fun e => e.partition = p) = (placed p (s.log p)).take (s.offsets p))
    (hbatch : batch.Sound s.log start) (p : Nat) :
    (applyBatch m start s batch).order.filter (fun e => e.partition = p) =
      (placed p (s.log p)).take ((applyBatch m start s batch).offsets p) := by
  unfold applyBatch
  split
  next => exact hparts p
  next hsame =>
    rw [ne_eq, Decidable.not_not] at hsame
    dsimp only
    rw [List.filter_append, hparts p]
    by_cases hp : p = batch.partition
    · subst hp
      have hall : batch.messages.filter (fun e => e.partition = batch.partition) = batch.messages :=
        List.filter_eq_self.2 fun e he => decide_eq_true (hbatch.mem he)
      have hread : (placed batch.partition (s.log batch.partition)).take (start batch.partition) =
          ((placed batch.partition (s.log batch.partition)).take batch.nextOffset).take (start batch.partition) := by
        rw [List.take_take, Nat.min_eq_left hbatch.start_le]
      rw [hall, hbatch.messages, hsame, Function.update_self, hread, List.take_append_drop]
    · have hnone : batch.messages.filter (fun e => e.partition = p) = [] := by
        refine List.filter_eq_nil_iff.2 fun e he => ?_
        rw [hbatch.mem he]
        simpa using Ne.symm hp
      rw [hnone, List.append_nil, Function.update_of_ne hp]

theorem Inv.applyBatch (h : Inv m s) (hbatch : batch.Sound s.log start) : Inv m (applyBatch m start s batch) := by
  by_cases hsame : s.offsets batch.partition = start batch.partition
  · have hmoved := applyBatch_offsets (m := m) hbatch
    have hunread := fun key => @applyBatch_unread _ _ _ m s start batch hbatch hsame key
    have hlog : (Memory.applyBatch m start s batch).log = s.log := applyBatch_log
    have hbounded := applyBatch_bounded (m := m) h.bounded hbatch
    have hparts := applyBatch_parts (m := m) h.parts hbatch
    unfold Memory.applyBatch at hmoved hunread hlog hbounded hparts ⊢
    rw [if_neg (by rw [hsame]; simp)] at hmoved hunread hlog hbounded hparts ⊢
    refine ⟨hbounded, hparts, ?_, fun key => ?_, fun call c hc => ?_⟩
    · show (batch.messages.foldl _ s.projection).recalled = (foldAll _ (s.order ++ batch.messages)).recalled
      rw [foldAll, List.foldl_append]
      exact foldl_recall h.recalled batch.messages
    · show (batch.messages.foldl _ s.projection).named key = (foldAll _ (s.order ++ batch.messages)).named key ∨ _
      rw [foldAll, List.foldl_append, foldl_named, foldl_named]
      rcases h.named key with hequal | hleft
      · exact .inl (congrArg _ hequal)
      · rcases hunread key hleft with hstill | ⟨e, he, hwrites⟩
        · exact .inr hstill
        · obtain ⟨value, hvalue⟩ := Option.isSome_iff_exists.1 (lastWrite_isSome he hwrites)
          rw [hvalue]
          exact .inl rfl
    · exact (h.catchUps call c hc).grow (fun _ => List.prefix_refl _) hmoved
  · unfold Memory.applyBatch
    rw [if_pos hsame]
    exact h

theorem Inv.foldl_applyBatch (h : Inv m s) {batches : List (Batch W)} (hbatches : ∀ batch ∈ batches, batch.Sound s.log start) :
    Inv m (batches.foldl (Memory.applyBatch m start) s) := by
  induction batches generalizing s with
  | nil => exact h
  | cons batch rest ih =>
    rw [List.forall_mem_cons] at hbatches
    refine ih (h.applyBatch hbatches.1) ?_
    rw [applyBatch_log]
    exact hbatches.2

theorem foldl_applyBatch_offsets {batches : List (Batch W)} (hbatches : ∀ batch ∈ batches, batch.Sound s.log start) (p : Nat) :
    s.offsets p ≤ (batches.foldl (applyBatch m start) s).offsets p := by
  induction batches generalizing s with
  | nil => exact Nat.le_refl _
  | cons batch rest ih =>
    rw [List.forall_mem_cons] at hbatches
    refine Nat.le_trans (applyBatch_offsets (m := m) hbatches.1 p) (ih ?_)
    rw [applyBatch_log]
    exact hbatches.2

/-- Every batch is folded, unless its partition is read as far already. -/
theorem foldl_applyBatch_reaches {batches : List (Batch W)} (hbatches : ∀ batch ∈ batches, batch.Sound s.log start)
    (hdistinct : (batches.map (·.partition)).Nodup)
    (hmeets : ∀ batch ∈ batches, s.offsets batch.partition = start batch.partition ∨ batch.nextOffset ≤ s.offsets batch.partition) :
    ∀ batch ∈ batches, batch.nextOffset ≤ (batches.foldl (applyBatch m start) s).offsets batch.partition := by
  induction batches generalizing s with
  | nil => nofun
  | cons first rest ih =>
    rw [List.forall_mem_cons] at hbatches hmeets
    rw [List.map_cons, List.nodup_cons] at hdistinct
    have hlater : ∀ batch ∈ rest, batch.Sound (applyBatch m start s first).log start := by
      rw [applyBatch_log]
      exact hbatches.2
    intro batch hbatch
    rcases List.mem_cons.1 hbatch with rfl | hrest
    · refine Nat.le_trans ?_ (foldl_applyBatch_offsets (m := m) hlater batch.partition)
      unfold applyBatch
      split
      next hmoved => exact hmeets.1.resolve_left hmoved
      next =>
        dsimp only
        rw [Function.update_self]
    · refine ih hlater hdistinct.2 (fun other hother => ?_) batch hrest
      have hne : other.partition ≠ first.partition := by
        intro heq
        exact hdistinct.1 (heq ▸ List.mem_map_of_mem hother)
      have hkept : (applyBatch m start s first).offsets other.partition = s.offsets other.partition := by
        unfold applyBatch
        split
        · rfl
        · exact Function.update_of_ne hne _ _
      rw [hkept]
      exact hmeets.2 other hother

end

/-! ## Steps and runs -/

theorem apply_cases {call : Nat} (hstep : step m s (.apply call) = some s') :
    ∃ c, s.catchUps call = some c ∧ c.visited = boundedPartitions s.topic.length ∧
      s' = { c.drained.foldl (applyBatch m c.start) s with catchUps := Function.update s.catchUps call none } := by
  unfold step at hstep
  dsimp only at hstep
  split at hstep
  next => cases hstep
  next c hc =>
    split at hstep
    next hvisited =>
      cases hstep
      exact ⟨c, hc, hvisited, rfl⟩
    next => cases hstep

/-- Folding leaves the topic and the other calls alone. -/
theorem foldl_applyBatch_frame (start : Nat → Nat) (batches : List (Batch W)) :
    (batches.foldl (applyBatch m start) s).topic = s.topic ∧
      (batches.foldl (applyBatch m start) s).catchUps = s.catchUps := by
  induction batches generalizing s with
  | nil => exact ⟨rfl, rfl⟩
  | cons batch rest ih =>
    rw [List.foldl_cons, ih.1, ih.2]
    unfold applyBatch
    split <;> exact ⟨rfl, rfl⟩

theorem Inv.apply (h : Inv m s) {call : Nat} (hstep : step m s (.apply call) = some s') : Inv m s' := by
  obtain ⟨c, hc, -, rfl⟩ := apply_cases hstep
  have hfolded := h.foldl_applyBatch (h.catchUps call c hc).batches
  rw [← (foldl_applyBatch_frame c.start c.drained).2]
  exact hfolded.setCatchUp call nofun

theorem Inv.step {a : Action W} (h : Inv m s) (hmeets : Meets m s a) (hstep : step m s a = some s') : Inv m s' := by
  cases a with
  | append partition message =>
    unfold Memory.step at hstep
    dsimp only at hstep
    split at hstep
    next hpartition =>
      cases hstep
      exact h.push hpartition message
    next => cases hstep
  | publish call key value governed => exact h.publish hstep
  | insert call => exact h.insert hmeets hstep
  | begin call => exact h.begin hstep
  | drain call cap => exact h.drain hmeets hstep
  | apply call => exact h.apply hstep

/-- Every state that a run reaches is sound. -/
theorem Inv.run {actions : List (Action W)} (h : Inv m s) (hrun : Reaches m s actions s') : Inv m s' :=
  hrun.inv (Inv m) h fun _ _ _ hinv hstep => hinv.step hstep.1 hstep.2

end LaserSdk.Memory

import Mathlib
import LaserSdk.Memory.Sound
/-!
# Read your writes

A named write that nobody overwrites is what a later catch-up makes the
projection hold, and a catch-up that nothing disturbs makes the projection the
fold of every record. Both hold as long as the steps of a run meet the
condition. A drain that stops at its ceiling does not, and a handle that is
alone on its topic then reads an older value of its own.
-/

namespace LaserSdk.Memory

open Lib Poll

variable {W : Type}

/-! ## What is appended -/

/-- The record an action appends. -/
def Action.record (m : LogMemory) : Action W → Option (Message W)
  | .append _ message => some message
  | .publish _ key value governed => some (m.named key value governed)
  | _ => none

/-- The action appends a record that writes the key. -/
def Action.Writes (m : LogMemory) (id : String) (a : Action W) : Prop :=
  ∃ message value, a.record m = some message ∧ message.write m.resourceNamespace = some (id, value)

variable {m : LogMemory} {s s' : State W} {a : Action W} {actions : List (Action W)}

theorem not_writes_of_record {id : String} (h : a.record m = none) : ¬ a.Writes m id := by
  rintro ⟨message, value, hrecord, -⟩
  rw [h] at hrecord
  cases hrecord

/-- The last record that writes the key, and that there is none anywhere else
after it. -/
structure Last (resourceNamespace id : String) (partition offset : Nat) (value : Option Bytes) (s : State W) : Prop where
  record : ∃ message, (s.log partition)[offset]? = some message ∧ message.write resourceNamespace = some (id, value)
  last : ∀ p n message other, (s.log p)[n]? = some message → message.write resourceNamespace = some (id, other) →
    p = partition ∧ n ≤ offset

theorem Last.lt_length {id : String} {partition offset : Nat} {value : Option Bytes}
    (h : Last m.resourceNamespace id partition offset value s) : offset < (s.log partition).length := by
  obtain ⟨message, hmessage, -⟩ := h.record
  exact (List.getElem?_eq_some_iff.1 hmessage).1

variable [Add W] [Zero W]

/-! ## What a step changes -/

/-- What a step can do: append a record, set a named value, open or continue a
catch-up, and fold what a catch-up drained. -/
theorem step_cases (hstep : step m s a = some s') :
    (∃ partition message inserts, a.record m = some message ∧ partition < s.topic.length ∧
      s' = { s.push partition message with inserts }) ∨
    (a.record m = none ∧ ∃ projection inserts, s' = { s with projection, inserts }) ∨
    (a.record m = none ∧ ∃ call c', s' = { s with catchUps := Function.update s.catchUps call (some c') } ∧
      (c'.seen = (fun p => (s.log p).length) ∨ ∃ c, s.catchUps call = some c ∧ c'.seen = c.seen)) ∨
    (a.record m = none ∧ ∃ call c, s.catchUps call = some c ∧
      s' = { c.drained.foldl (applyBatch m c.start) s with catchUps := Function.update s.catchUps call none }) := by
  cases a with
  | append partition message =>
    simp only [step, Option.ite_none_right_eq_some, Option.some.injEq] at hstep
    obtain ⟨hpartition, rfl⟩ := hstep
    exact .inl ⟨partition, message, s.inserts, rfl, hpartition, rfl⟩
  | publish call key value governed =>
    simp only [step, Option.ite_none_right_eq_some, Option.some.injEq] at hstep
    obtain ⟨⟨hpartition, -⟩, rfl⟩ := hstep
    exact .inl ⟨_, _, _, rfl, hpartition, rfl⟩
  | insert call =>
    obtain ⟨i, -, rfl⟩ := Option.map_eq_some_iff.1 hstep
    exact .inr (.inl ⟨rfl, _, _, rfl⟩)
  | begin call =>
    simp only [step, Option.ite_none_right_eq_some, Option.some.injEq] at hstep
    obtain ⟨-, rfl⟩ := hstep
    exact .inr (.inr (.inl ⟨rfl, call, _, rfl, .inl rfl⟩))
  | drain call cap =>
    unfold step at hstep
    dsimp only at hstep
    split at hstep
    next => cases hstep
    next c hc =>
      simp only [Option.ite_none_right_eq_some, Option.some.injEq] at hstep
      obtain ⟨-, rfl⟩ := hstep
      exact .inr (.inr (.inl ⟨rfl, call, _, rfl, .inr ⟨c, hc, rfl⟩⟩))
  | apply call =>
    obtain ⟨c, hc, -, rfl⟩ := apply_cases hstep
    exact .inr (.inr (.inr ⟨rfl, call, c, hc, rfl⟩))

/-- The topic changes by the record that an action appends. -/
theorem step_topic (hstep : step m s a = some s') :
    (a.record m = none ∧ s'.topic = s.topic) ∨
      ∃ partition message, a.record m = some message ∧ partition < s.topic.length ∧
        s'.topic = (s.push partition message).topic := by
  obtain ⟨partition, message, inserts, hrecord, hpartition, rfl⟩ | ⟨hrecord, projection, inserts, rfl⟩ |
    ⟨hrecord, call, c', rfl, -⟩ | ⟨hrecord, call, c, -, rfl⟩ := step_cases hstep
  · exact .inr ⟨partition, message, hrecord, hpartition, rfl⟩
  · exact .inl ⟨hrecord, rfl⟩
  · exact .inl ⟨hrecord, rfl⟩
  · exact .inl ⟨hrecord, (foldl_applyBatch_frame c.start c.drained).1⟩

theorem step_partitions (hstep : step m s a = some s') : s'.topic.length = s.topic.length := by
  rcases step_topic hstep with ⟨-, htopic⟩ | ⟨partition, message, -, -, htopic⟩
  · rw [htopic]
  · simp [htopic, State.push]

/-- What is folded stays folded. -/
theorem step_offsets (h : Inv m s) (hstep : step m s a = some s') (p : Nat) : s.offsets p ≤ s'.offsets p := by
  obtain ⟨partition, message, inserts, -, -, rfl⟩ | ⟨-, projection, inserts, rfl⟩ | ⟨-, call, c', rfl, -⟩ |
    ⟨-, call, c, hc, rfl⟩ := step_cases hstep
  · exact Nat.le_refl _
  · exact Nat.le_refl _
  · exact Nat.le_refl _
  · exact foldl_applyBatch_offsets (h.catchUps call c hc).batches p

/-- A catch-up keeps what it saw when it began. -/
theorem step_seen (hstep : step m s a = some s') {call : Nat} {c' : CatchUp W} (hc' : s'.catchUps call = some c') :
    (∃ c, s.catchUps call = some c ∧ c'.seen = c.seen) ∨ c'.seen = fun p => (s.log p).length := by
  obtain ⟨partition, message, inserts, -, -, rfl⟩ | ⟨-, projection, inserts, rfl⟩ | ⟨-, other, d, rfl, hd⟩ |
    ⟨-, other, c, -, rfl⟩ := step_cases hstep
  · exact .inl ⟨c', hc', rfl⟩
  · exact .inl ⟨c', hc', rfl⟩
  · dsimp only at hc'
    by_cases hcall : call = other
    · rw [hcall, Function.update_self] at hc'
      cases hc'
      exact hcall ▸ hd.symm
    · rw [Function.update_of_ne hcall] at hc'
      exact .inl ⟨c', hc', rfl⟩
  · dsimp only at hc'
    by_cases hcall : call = other
    · rw [hcall, Function.update_self] at hc'
      cases hc'
    · rw [Function.update_of_ne hcall] at hc'
      exact .inl ⟨c', hc', rfl⟩

/-- A catch-up that returns has folded what it saw when it began. -/
theorem apply_reaches (h : Inv m s) {call : Nat} (hmeets : Meets m s (.apply call)) (hstep : step m s (.apply call) = some s')
    {c : CatchUp W} (hc : s.catchUps call = some c) {p : Nat} (hp : p < boundedPartitions s.topic.length) :
    c.seen p ≤ s'.offsets p := by
  obtain ⟨c', hc', hvisited, rfl⟩ := apply_cases hstep
  cases Option.some.inj (hc.symm.trans hc')
  have hsound := h.catchUps call c hc
  rcases hsound.covers p (hvisited ▸ hp) with hread | ⟨batch, hbatch, rfl, hseen⟩
  · have hstart := hsound.start_le p
    have hmoved := foldl_applyBatch_offsets (m := m) hsound.batches p
    dsimp only
    omega
  · exact Nat.le_trans hseen (foldl_applyBatch_reaches hsound.batches hsound.distinct (hmeets c hc) batch hbatch)

/-! ## The last write -/

section

variable {id : String} {partition offset : Nat} {value : Option Bytes}

theorem Last.step (h : Last m.resourceNamespace id partition offset value s) (hnot : ¬ a.Writes m id)
    (hstep : step m s a = some s') : Last m.resourceNamespace id partition offset value s' := by
  rcases step_topic hstep with ⟨-, htopic⟩ | ⟨p, message, hrecord, hp, htopic⟩
  · have hlog : s'.log = s.log := by
      funext q
      rw [State.log, htopic, State.log]
    refine ⟨?_, ?_⟩ <;> rw [hlog]
    · exact h.record
    · exact h.last
  · have hlog : s'.log = (s.push p message).log := by
      funext q
      rw [State.log, htopic, State.log]
    obtain ⟨found, hfound, hwrite⟩ := h.record
    refine ⟨⟨found, ?_, hwrite⟩, ?_⟩
    · rw [hlog]
      exact getElem?_grows (push_grows s hp message partition) hfound
    · intro q n other body hother hbody
      rw [hlog, push_log s hp] at hother
      split at hother
      next hq =>
        rw [List.getElem?_append] at hother
        split at hother
        next => exact h.last q n other body (hq ▸ hother) hbody
        next =>
          -- The appended record does not write the key.
          have heq : other = message := by
            rw [List.getElem?_singleton] at hother
            simpa using (Option.ite_none_right_eq_some.1 hother).2.symm
          exact absurd ⟨message, body, hrecord, heq ▸ hbody⟩ hnot
      next => exact h.last q n other body hother hbody

theorem Last.run (h : Last m.resourceNamespace id partition offset value s) (hnot : ∀ a ∈ actions, ¬ a.Writes m id)
    (hrun : Reaches m s actions s') : Last m.resourceNamespace id partition offset value s' :=
  hrun.inv_of_mem (Last m.resourceNamespace id partition offset value) h fun _ _ a ha hlast hstep =>
    hlast.step (hnot a ha) hstep.2

/-- A named write is the last one if the earlier ones are in its partition. -/
theorem Last.publish {call : Nat} {key : String} {value : Option Bytes} {governed : Option (Payload W)}
    (hplace : ∀ p, ∀ message ∈ s.log p, ∀ other, message.write m.resourceNamespace = some (m.namedKey key, other) →
      p = m.place (m.namedKey key))
    (hmeets : Meets m s (.publish call key value governed))
    (hstep : Memory.step m s (.publish call key value governed) = some s') :
    Last m.resourceNamespace (m.namedKey key) (m.place (m.namedKey key)) (s.log (m.place (m.namedKey key))).length value s' := by
  simp only [Memory.step, Option.ite_none_right_eq_some, Option.some.injEq] at hstep
  obtain ⟨⟨hpartition, -⟩, rfl⟩ := hstep
  refine ⟨⟨m.named key value governed, ?_, hmeets⟩, ?_⟩
  · show ((s.push _ _).log _)[_]? = _
    rw [push_log s hpartition, if_pos rfl]
    simp
  · intro p n message other hmessage hwrite
    change ((s.push _ _).log p)[n]? = _ at hmessage
    have hlength := (List.getElem?_eq_some_iff.1 hmessage).1
    rw [push_log s hpartition] at hmessage hlength
    split at hmessage
    next hp =>
      rw [if_pos hp, List.length_append, List.length_singleton] at hlength
      exact ⟨hp, by omega⟩
    next hp => exact absurd (hplace p message (List.mem_of_getElem? hmessage) other hwrite) hp

theorem Inv.mem_order (h : Inv m s) {e : Placed W} (he : e ∈ s.order) : (s.log e.partition)[e.offset]? = some e.message := by
  have hpart : e ∈ s.order.filter (fun other => other.partition = e.partition) := by simpa using he
  rw [h.parts] at hpart
  exact (mem_placed.1 (List.mem_of_mem_take hpart)).2

/-- Once the last write is folded, its value is what the projection holds. -/
theorem Last.named (hinv : Inv m s) (h : Last m.resourceNamespace id partition offset value s)
    (hread : offset < s.offsets partition) : s.projection.named id = value := by
  have hfolded : ¬ s.Unread m.resourceNamespace id := by
    rintro ⟨p, n, message, other, hmessage, hunread, hwrite⟩
    obtain ⟨rfl, hn⟩ := h.last p n message other hmessage hwrite
    omega
  have honly : ∀ e ∈ s.order, e.writes m.resourceNamespace id → decide (e.partition = partition) = true := by
    rintro e he ⟨other, hother⟩
    exact decide_eq_true (h.last e.partition e.offset e.message other (hinv.mem_order he) hother).1
  obtain ⟨message, hmessage, hwrite⟩ := h.record
  rw [(hinv.named id).resolve_right hfolded, foldAll, foldl_named, ← lastWrite_filter honly, hinv.parts partition]
  generalize hpart : (placed partition (s.log partition)).take (s.offsets partition) = part
  have hlast : part[offset]? = some ⟨partition, offset, message⟩ := by
    rw [← hpart, List.getElem?_take_of_lt hread, placed_getElem?, hmessage]
    rfl
  obtain ⟨hlength, hget⟩ := List.getElem?_eq_some_iff.1 hlast
  have hafter : ∀ e ∈ part.drop (offset + 1), ¬ e.writes m.resourceNamespace id := by
    rintro e he ⟨other, hother⟩
    obtain ⟨i, hi⟩ := List.mem_iff_getElem?.1 he
    rw [List.getElem?_drop, ← hpart, List.getElem?_take, Option.ite_none_right_eq_some, placed_getElem?] at hi
    obtain ⟨found, hfound, rfl⟩ := Option.map_eq_some_iff.1 hi.2
    have := (h.last partition _ found other hfound hother).2
    omega
  rw [← List.take_append_drop offset part, List.drop_eq_getElem_cons hlength, hget, lastWrite_split hwrite hafter]
  rfl

end

/-! ## Reading a write -/

/-- What holds once a catch-up has begun after the last write. -/
structure Reading (m : LogMemory) (id : String) (partition offset : Nat) (value : Option Bytes) (call : Nat) (s : State W) :
    Prop where
  inv : Inv m s
  last : Last m.resourceNamespace id partition offset value s
  seen : ∀ c, s.catchUps call = some c → offset < c.seen partition
  partitions : partition < boundedPartitions s.topic.length

section

variable {id : String} {partition offset call : Nat} {value : Option Bytes}

theorem Reading.step (h : Reading m id partition offset value call s) (hnot : ¬ a.Writes m id) (hmeets : Meets m s a)
    (hstep : step m s a = some s') : Reading m id partition offset value call s' := by
  refine ⟨h.inv.step hmeets hstep, h.last.step hnot hstep, fun c' hc' => ?_, ?_⟩
  · rcases step_seen hstep hc' with ⟨c, hc, hseen⟩ | hseen
    · rw [hseen]
      exact h.seen c hc
    · rw [hseen]
      exact h.last.lt_length
  · rw [step_partitions hstep]
    exact h.partitions

theorem Reading.begin (hinv : Inv m s) (hlast : Last m.resourceNamespace id partition offset value s)
    (hpartition : partition < boundedPartitions s.topic.length) (hstep : Memory.step m s (.begin call) = some s') :
    Reading m id partition offset value call s' := by
  refine ⟨hinv.begin hstep, hlast.step (not_writes_of_record rfl) hstep, fun c' hc' => ?_, ?_⟩
  · simp only [Memory.step, Option.ite_none_right_eq_some, Option.some.injEq] at hstep
    obtain ⟨-, rfl⟩ := hstep
    dsimp only at hc'
    rw [Function.update_self] at hc'
    cases hc'
    exact hlast.lt_length
  · rw [step_partitions hstep]
    exact hpartition

theorem Reading.run (h : Reading m id partition offset value call s) (hnot : ∀ a ∈ actions, ¬ a.Writes m id)
    (hrun : Reaches m s actions s') : Reading m id partition offset value call s' :=
  hrun.inv_of_mem (Reading m id partition offset value call) h fun _ _ a ha hreading hstep =>
    hreading.step (hnot a ha) hstep.1 hstep.2

theorem Reading.apply (h : Reading m id partition offset value call s) (hmeets : Meets m s (.apply call))
    (hstep : Memory.step m s (.apply call) = some s') : offset < s'.offsets partition := by
  obtain ⟨c, hc, -⟩ := apply_cases hstep
  exact Nat.lt_of_lt_of_le (h.seen c hc) (apply_reaches h.inv hmeets hstep hc h.partitions)

end

theorem run_offsets (h : Inv m s) (hrun : Reaches m s actions s') (p : Nat) : s.offsets p ≤ s'.offsets p := by
  refine (hrun.inv (fun t => Inv m t ∧ s.offsets p ≤ t.offsets p) ⟨h, Nat.le_refl _⟩ ?_).2
  intro t a t' ⟨hinv, hle⟩ hstep
  exact ⟨hinv.step hstep.1 hstep.2, Nat.le_trans hle (step_offsets hinv hstep.2 p)⟩

theorem run_partitions (hrun : Reaches m s actions s') : s'.topic.length = s.topic.length :=
  hrun.inv (fun t => t.topic.length = s.topic.length) rfl fun _ _ _ hlength hstep => (step_partitions hstep.2).trans hlength

/-- A read that begins after a named write and comes to its end finds it,
unless somebody wrote the key again. -/
theorem named_of_read (h : Inv m s) (hpartitions : s.topic.length ≤ maxTopicPartitions) {writer call : Nat} {key : String}
    {value : Option Bytes} {governed : Option (Payload W)}
    (hplace : ∀ p, ∀ message ∈ s.log p, ∀ other, message.write m.resourceNamespace = some (m.namedKey key, other) →
      p = m.place (m.namedKey key))
    {between during after : List (Action W)} (hnot : ∀ a ∈ between ++ during ++ after, ¬ a.Writes m (m.namedKey key))
    (hrun : Reaches m s (.publish writer key value governed :: (between ++ .begin call :: (during ++ .apply call :: after))) s') :
    s'.projection.named (m.namedKey key) = value := by
  simp only [List.mem_append] at hnot
  obtain ⟨s₁, ⟨hmeets₁, hpublish⟩, hrun⟩ := Run.cons_iff.1 hrun
  obtain ⟨s₂, hbetween, hrun⟩ := Run.append_iff.1 hrun
  obtain ⟨s₃, ⟨-, hbegin⟩, hrun⟩ := Run.cons_iff.1 hrun
  obtain ⟨s₄, hduring, hrun⟩ := Run.append_iff.1 hrun
  obtain ⟨s₅, ⟨hmeets₅, happly⟩, hafter⟩ := Run.cons_iff.1 hrun
  have hinv₁ := h.step hmeets₁ hpublish
  have hlast₂ := (Last.publish hplace hmeets₁ hpublish).run (fun a ha => hnot a (.inl (.inl ha))) hbetween
  have hplaced : m.place (m.namedKey key) < boundedPartitions s₂.topic.length := by
    rw [run_partitions hbetween, step_partitions hpublish, boundedPartitions, Nat.min_eq_left hpartitions]
    simp only [step, Option.ite_none_right_eq_some] at hpublish
    exact hpublish.1.1
  have hreading₄ := (Reading.begin (hinv₁.run hbetween) hlast₂ hplaced hbegin).run
    (fun a ha => hnot a (.inl (.inr ha))) hduring
  have hinv₅ := hreading₄.inv.step hmeets₅ happly
  have hlast₅ := hreading₄.last.step (not_writes_of_record rfl) happly
  exact Last.named (hinv₅.run hafter) (hlast₅.run (fun a ha => hnot a (.inr ha)) hafter)
    (Nat.lt_of_lt_of_le (hreading₄.apply hmeets₅ happly) (run_offsets hinv₅ hafter _))

/-! ## A catch-up that nothing disturbs -/

/-- The state while a call is at some point of its catch-up. -/
def State.withCatchUp (s : State W) (call : Nat) (c : CatchUp W) : State W :=
  { s with catchUps := Function.update s.catchUps call (some c) }

omit [Add W] [Zero W] in
theorem withCatchUp_self (s : State W) (call : Nat) (c : CatchUp W) : (s.withCatchUp call c).catchUps call = some c :=
  Function.update_self _ _ _

def State.snapshot (s : State W) : CatchUp W := ⟨s.offsets, fun p => (s.log p).length, 0, []⟩

theorem begin_runs {call : Nat} (hfree : s.catchUps call = none) :
    step m s (.begin call) = some (s.withCatchUp call s.snapshot) := by
  simp [step, hfree, State.snapshot, State.withCatchUp]

theorem drain_runs {call : Nat} {c : CatchUp W} (hvisited : c.visited < boundedPartitions s.topic.length) (cap : Nat → Nat) :
    step m (s.withCatchUp call c) (.drain call cap) = some (s.withCatchUp call (c.drain cap s.log)) := by
  have hidem : ∀ d : CatchUp W, (s.withCatchUp call c).withCatchUp call d = s.withCatchUp call d := by
    intro d
    simp [State.withCatchUp]
  unfold step
  simp only [withCatchUp_self]
  rw [if_pos (show c.visited < boundedPartitions (s.withCatchUp call c).topic.length from hvisited)]
  exact congrArg some (hidem _)

theorem apply_runs {call : Nat} {c : CatchUp W} (hvisited : c.visited = boundedPartitions s.topic.length) :
    step m (s.withCatchUp call c) (.apply call) = some
      { c.drained.foldl (applyBatch m c.start) (s.withCatchUp call c) with
        catchUps := Function.update (s.withCatchUp call c).catchUps call none } := by
  unfold step
  simp only [withCatchUp_self]
  exact if_pos hvisited

theorem drains_run (call : Nat) (cap : Nat → Nat → Nat) (hroom : ∀ p, (s.log p).length ≤ s.offsets p + maxDrainMessages) {n : Nat}
    (hn : n ≤ boundedPartitions s.topic.length) :
    ∃ c, Reaches m (s.withCatchUp call s.snapshot) ((List.range n).map fun p => .drain call (cap p)) (s.withCatchUp call c) ∧
      c.start = s.offsets ∧ c.seen = s.snapshot.seen ∧ c.visited = n := by
  induction n with
  | zero => exact ⟨s.snapshot, .nil, rfl, rfl, rfl⟩
  | succ n ih =>
    obtain ⟨c, hrun, hstart, hseen, rfl⟩ := ih (Nat.le_of_succ_le hn)
    have hstep := @drain_runs _ m s _ _ call c hn (cap c.visited)
    rw [List.range_succ, List.map_append]
    refine ⟨_, hrun.snoc ⟨fun c' hc' => ?_, hstep⟩, hstart, hseen, rfl⟩
    rw [withCatchUp_self] at hc'
    cases hc'
    rw [hstart]
    exact hroom c.visited

/-- It comes to its end and has folded everything. -/
theorem catchUp_runs (h : Inv m s) {call : Nat} (hfree : s.catchUps call = none) (cap : Nat → Nat → Nat)
    (hroom : ∀ p, (s.log p).length ≤ s.offsets p + maxDrainMessages) :
    ∃ s', Reaches m s (catchUpSteps call cap s.topic.length) s' ∧ s'.topic = s.topic ∧
      ∀ p < boundedPartitions s.topic.length, (s.log p).length ≤ s'.offsets p := by
  obtain ⟨c, hdrains, hstart, hseen, hvisited⟩ := @drains_run _ m s _ _ call cap hroom _ (Nat.le_refl _)
  have hbegin : Reaches m s [.begin call] (s.withCatchUp call s.snapshot) := by
    exact Run.snoc .nil ⟨trivial, begin_runs hfree⟩
  have hdrained := Run.append_iff.2 ⟨_, hbegin, hdrains⟩
  obtain ⟨s', hstep⟩ : ∃ s', step m (s.withCatchUp call c) (.apply call) = some s' := ⟨_, apply_runs hvisited⟩
  -- Nothing else moved a partition meanwhile.
  have hmeets : Meets m (s.withCatchUp call c) (.apply call) := by
    intro c' hc' batch hbatch
    rw [withCatchUp_self] at hc'
    cases hc'
    exact .inl (congrFun hstart.symm _)
  refine ⟨s', ?_, ?_, fun p hp => ?_⟩
  · rw [catchUpSteps, ← List.singleton_append, ← List.append_assoc]
    exact hdrained.snoc ⟨hmeets, hstep⟩
  · rcases step_topic hstep with ⟨-, htopic⟩ | ⟨partition, message, hrecord, -⟩
    · exact htopic
    · cases hrecord
  · have hreached := apply_reaches (h.run hdrained) hmeets hstep (withCatchUp_self s call c) hp
    rw [hseen] at hreached
    exact hreached

/-- Once every partition is folded, the projection is a fold of the topic that
takes each partition in its order. -/
theorem Inv.projection_eq (h : Inv m s) (hread : ∀ p, (s.log p).length ≤ s.offsets p) :
    (∀ p, s.order.filter (fun e => e.partition = p) = placed p (s.log p)) ∧
      s.projection = foldAll m.resourceNamespace s.order := by
  constructor
  · intro p
    rw [h.parts, List.take_of_length_le]
    rw [placed_length]
    exact hread p
  · have hnamed : s.projection.named = (foldAll m.resourceNamespace s.order).named := by
      funext key
      refine (h.named key).resolve_right ?_
      rintro ⟨p, offset, message, value, hmessage, hunread, -⟩
      have hlt := (List.getElem?_eq_some_iff.1 hmessage).1
      have hle := hread p
      omega
    calc s.projection = ⟨s.projection.recalled, s.projection.named⟩ := rfl
      _ = ⟨(foldAll m.resourceNamespace s.order).recalled, (foldAll m.resourceNamespace s.order).named⟩ := by
        rw [h.recalled, hnamed]

/-- In every run whose steps meet the condition, a catch-up that nothing
disturbs folds every record of the topic, and a named write that nobody
overwrites is what a later read returns and what an update merges onto. -/
theorem reads_its_writes (m : LogMemory) (json : JsonText) {topic : List (List (Message W))}
    (hpartitions : topic.length ≤ maxTopicPartitions) (hrun : Reaches m (State.new topic) actions s) :
    (∀ call cap, s.catchUps call = none → (∀ p, (s.log p).length ≤ s.offsets p + maxDrainMessages) →
      ∃ s' order, Reaches m s (catchUpSteps call cap s.topic.length) s' ∧
        (∀ p, order.filter (fun e => e.partition = p) = placed p (s.log p)) ∧
        s'.projection = foldAll m.resourceNamespace order) ∧
    (∀ writer key value governed between call during after s',
      (∀ p, ∀ message ∈ s.log p, ∀ other, message.write m.resourceNamespace = some (m.namedKey key, other) →
        p = m.place (m.namedKey key)) →
      (∀ a ∈ between ++ during ++ after, ¬ a.Writes m (m.namedKey key)) →
      Reaches m s (.publish writer key value governed :: (between ++ .begin call :: (during ++ .apply call :: after))) s' →
      s'.projection.named (m.namedKey key) = value ∧
        ∀ updater patch governed', s'.updateNamed m json updater key patch governed' =
          (mergeNamed json value patch).map fun merged => .publish updater key (some merged) governed') := by
  have hinv : Inv m s := (Inv.new topic).run hrun
  have hbounded : s.topic.length ≤ maxTopicPartitions := by
    rw [run_partitions hrun]
    exact hpartitions
  constructor
  · intro call cap hfree hroom
    obtain ⟨s', hcatch, htopic, hread⟩ := catchUp_runs hinv hfree cap hroom
    have hlog : s'.log = s.log := by
      funext p
      rw [State.log, htopic, State.log]
    have hall : ∀ p, (s'.log p).length ≤ s'.offsets p := by
      intro p
      rw [hlog]
      by_cases hp : p < s.topic.length
      · apply hread
        rw [boundedPartitions, Nat.min_eq_left hbounded]
        exact hp
      · simp [State.log, Nat.le_of_not_lt hp]
    obtain ⟨hparts, hfold⟩ := (hinv.run hcatch).projection_eq hall
    rw [hlog] at hparts
    exact ⟨s', s'.order, hcatch, hparts, hfold⟩
  · intro writer key value governed between call during after s' hplace hnot hread
    have hnamed := named_of_read hinv hbounded hplace hnot hread
    refine ⟨hnamed, fun updater patch governed' => ?_⟩
    rw [State.updateNamed, hnamed]

/-- A handle on a topic with one partition. -/
def alone : LogMemory := ⟨"team", "team", fun _ => 0, fun _ => 0⟩

/-- JSON as far as numbers of one digit. -/
def digits : JsonText where
  parse
    | [digit] => if 48 ≤ digit ∧ digit ≤ 57 then .ok (.other [digit]) else .error "expected value"
    | _ => .error "expected value"
  print
    | .other text => text
    | _ => []

/-- One partition, one handle. -/
theorem set_then_update :
    ∃ s : State Nat, Reaches alone (State.new [[]])
        [.publish 0 "k" (some [49]) none, .insert 0, .begin 0, .drain 0 (fun _ => 9), .apply 0] s ∧
      s.projection.named "team/k" = some [49] ∧
      s.updateNamed alone digits 0 "k" [50] none = .ok (.publish 0 "k" (some [50]) none) := by
  have hplace : ∀ p, ∀ message ∈ (State.new [[]] : State Nat).log p, ∀ other,
      message.write alone.resourceNamespace = some (alone.namedKey "k", other) → p = alone.place (alone.namedKey "k") := by
    intro p message hmem
    cases p <;> cases hmem
  have hnot : ∀ a ∈ [Action.insert 0] ++ [Action.drain 0 fun _ => 9] ++ ([] : List (Action Nat)),
      ¬ a.Writes alone (alone.namedKey "k") := by
    simp [Action.Writes, Action.record]
  obtain ⟨s, hrun⟩ : ∃ s : State Nat, Reaches alone (State.new [[]])
      [.publish 0 "k" (some [49]) none, .insert 0, .begin 0, .drain 0 (fun _ => 9), .apply 0] s := by
    refine ⟨_, Run.cons_iff.2 ⟨_, ⟨rfl, rfl⟩, Run.cons_iff.2 ⟨_, ⟨?_, rfl⟩, Run.cons_iff.2 ⟨_, ⟨trivial, rfl⟩,
      Run.cons_iff.2 ⟨_, ⟨?_, rfl⟩, Run.cons_iff.2 ⟨_, ⟨?_, rfl⟩, .nil⟩⟩⟩⟩⟩⟩
    · rintro i ⟨⟩
      exact .inl ⟨0, 0, _, _, rfl, Nat.le_refl _, rfl⟩
    · rintro c ⟨⟩
      decide
    · rintro c ⟨⟩ batch hbatch
      exact .inl rfl
  have hread := (reads_its_writes alone digits (by decide) .nil).2 0 "k" (some [49]) none [.insert 0] 0
    [.drain 0 fun _ => 9] [] s hplace hnot hrun
  refine ⟨s, hrun, hread.1, ?_⟩
  rw [hread.2]
  simp [mergeNamed, digits, mergePatch, Except.map, pure, Except.pure]

/-! ## A drain that stops at its ceiling -/

/-- A catch-up of a topic with one partition folds no more than a drain reads. -/
theorem catchUp_folds {log : List (Message W)} (htopic : s.topic = [log]) (hlog : log ≠ []) {call : Nat}
    (hfree : s.catchUps call = none) (hunread : s.offsets 0 = 0) (cap : Nat → Nat → Nat) :
    ∃ s', Run (fun s a s' => step m s a = some s') s (catchUpSteps call cap 1) s' ∧
      ∀ key, s'.projection.named key =
        (lastWrite m.resourceNamespace ((placed 0 log).take maxDrainMessages) key).getD (s.projection.named key) := by
  have hbounded : boundedPartitions s.topic.length = 1 := by
    rw [htopic]
    rfl
  generalize hmessages : (placed 0 log).take maxDrainMessages = messages
  have hsome : messages ≠ [] := by
    rw [← hmessages, ne_eq, List.take_eq_nil_iff, not_or]
    refine ⟨nofun, fun hnil => hlog ?_⟩
    rw [← List.length_eq_zero_iff, ← placed_length 0 log, hnil]
    rfl
  have hdrained : s.snapshot.drain (cap 0) s.log =
      { s.snapshot with visited := 1, drained := [⟨0, messages.length, messages⟩] } := by
    simp [CatchUp.drain, State.snapshot, drainPartition_eq, within, hunread, State.log, htopic, hmessages, hsome]
  have hdrain := @drain_runs _ m s _ _ call s.snapshot (by rw [hbounded]; exact Nat.one_pos) (cap 0)
  rw [hdrained] at hdrain
  have happly := @apply_runs _ m s _ _ call { s.snapshot with visited := 1, drained := [⟨0, messages.length, messages⟩] } hbounded.symm
  refine ⟨_, Run.cons_iff.2 ⟨_, begin_runs hfree, Run.cons_iff.2 ⟨_, hdrain, Run.cons_iff.2 ⟨_, happly, .nil⟩⟩⟩, fun key => ?_⟩
  rw [← foldl_named]
  simp [applyBatch, State.snapshot, State.withCatchUp]

/-- Nobody else is on the topic, and the handle reads the older of its two writes. -/
theorem ceiling_hides_last_write :
    ∃ s : State Nat, Run (fun s a s' => step alone s a = some s') (State.new [List.replicate 9999 ⟨none, .other⟩])
        ([.publish 0 "k" (some [49]) none, .insert 0, .publish 0 "k" (some [50]) none, .insert 0] ++
          catchUpSteps 0 (fun _ _ => 999) 1) s ∧
      s.projection.named "team/k" = some [49] := by
  have hlength : (List.replicate 9999 (⟨none, .other⟩ : Message Nat)).length = 9999 := List.length_replicate
  generalize List.replicate 9999 (⟨none, .other⟩ : Message Nat) = old at *
  obtain ⟨s, hwrites, htopic, hfree, hunread⟩ : ∃ s : State Nat, Run (fun s a s' => step alone s a = some s') (State.new [old])
      [.publish 0 "k" (some [49]) none, .insert 0, .publish 0 "k" (some [50]) none, .insert 0] s ∧
      s.topic = [old ++ [alone.named "k" (some [49]) none] ++ [alone.named "k" (some [50]) none]] ∧
      s.catchUps 0 = none ∧ s.offsets 0 = 0 := by
    refine ⟨_, Run.cons_iff.2 ⟨_, rfl, Run.cons_iff.2 ⟨_, rfl, Run.cons_iff.2 ⟨_, rfl, Run.cons_iff.2 ⟨_, rfl, .nil⟩⟩⟩⟩, ?_⟩
    exact ⟨rfl, rfl, rfl⟩
  obtain ⟨s', hcatch, hnamed⟩ := @catchUp_folds _ alone s _ _ _ htopic (by simp) 0 hfree hunread fun _ _ => 999
  refine ⟨s', Run.append_iff.2 ⟨s, hwrites, hcatch⟩, ?_⟩
  have hread : (placed 0 (old ++ [alone.named "k" (some [49]) none] ++ [alone.named "k" (some [50]) none])).take maxDrainMessages =
      placed 0 old ++ ⟨0, 9999, alone.named "k" (some [49]) none⟩ :: [] := by
    rw [placed_take (List.prefix_append _ _) 0 (by simp [hlength, maxDrainMessages]), List.take_of_length_le]
    · simp [placed, List.zipIdx_append, hlength]
    · simp [placed_length, hlength, maxDrainMessages]
  have hlast : lastWrite alone.resourceNamespace (placed 0 old ++ ⟨0, 9999, alone.named "k" (some [49]) none⟩ :: []) "team/k" =
      some (some [49]) := lastWrite_split rfl (by simp)
  rw [hnamed, hread, hlast]
  rfl

end LaserSdk.Memory

import LaserSdk.Lanes.Links
/-!
# Order within a partition

A delivery is in a lane of its partition until its handling ends, and the
lanes of a partition hold their deliveries in order. So a lane that takes a
record while no lane before it failed takes the first one that is left, and
every record before it was handled.
-/

namespace LaserSdk.Lanes

open Lib

variable {maxPartitions : Nat} {s s' : State} {a : Action}

/-! ## Where the deliveries are -/

def Lane.content (l : Lane) : List Delivery := l.hand.toList ++ l.queue

/-- The delivery the polling task holds. -/
def Phase.current : Phase → Option Delivery
  | .queueing d _ => some d
  | .handling d => some d
  | _ => none

/-- A failure stands between the polling task and its next delivery. -/
def State.blocked (s : State) : Prop :=
  (∃ outcome, s.phase = .returned outcome) ∨
    (s.phase = .draining ∨ ∃ d, s.phase = .committing d) ∧ ∃ d, ⟨d, false⟩ ∈ s.channel

structure Placed (s : State) : Prop where
  held : ∀ i < s.spawned, ∀ d ∈ (s.lanes i).content, s.delivers d ∧ d.partition = (s.lanes i).partition
  sorted : ∀ i < s.spawned, (s.lanes i).content.Pairwise fun x y => x.number < y.number
  across : ∀ i < s.spawned, ∀ j < i, (s.lanes j).partition = (s.lanes i).partition →
    ∀ x ∈ (s.lanes j).content, ∀ y ∈ (s.lanes i).content, x.number < y.number
  current : ∀ d, s.phase.current = some d → s.delivers d ∧ d.number + 1 = s.delivered.length ∧
    ∀ i < s.spawned, ∀ x ∈ (s.lanes i).content, x.number < d.number
  placed : ∀ d, s.delivers d → (∃ ok, .ended d ok ∈ s.history) ∨ (∃ i < s.spawned, d ∈ (s.lanes i).content) ∨
    d.number + 1 = s.delivered.length ∧ (s.phase.current = some d ∨ s.blocked)

theorem placed_init : Placed .init where
  held := nofun
  sorted := nofun
  across := nofun
  current := nofun
  placed d hd := by simp [State.delivers, State.init] at hd

/-- A record leaves its lane only when its handling ends. -/
theorem Placed.keep (h : Placed s) (hdelivered : s'.delivered = s.delivered) (hspawned : s'.spawned = s.spawned)
    (hpart : ∀ i < s.spawned, (s'.lanes i).partition = (s.lanes i).partition)
    (hsub : ∀ i < s.spawned, (s'.lanes i).content.Sublist (s.lanes i).content)
    (hleft : ∀ i < s.spawned, ∀ d ∈ (s.lanes i).content, d ∈ (s'.lanes i).content ∨ ∃ ok, .ended d ok ∈ s'.history)
    (hhistory : s.history ⊆ s'.history) (hcurrent : ∀ d, s'.phase.current = some d → s.phase.current = some d)
    (hnewest : ∀ d, s.phase.current = some d ∨ s.blocked →
      (∃ ok, .ended d ok ∈ s'.history) ∨ s'.phase.current = some d ∨ s'.blocked) :
    Placed s' := by
  have hdelivers : ∀ d, s'.delivers d ↔ s.delivers d := by simp [State.delivers, hdelivered]
  constructor
  · intro i hi d hd
    rw [hspawned] at hi
    rw [hdelivers, hpart i hi]
    exact h.held i hi d ((hsub i hi).subset hd)
  · intro i hi
    rw [hspawned] at hi
    exact (h.sorted i hi).sublist (hsub i hi)
  · intro i hi j hj hsame x hx y hy
    rw [hspawned] at hi
    rw [hpart i hi, hpart j (hj.trans hi)] at hsame
    exact h.across i hi j hj hsame x ((hsub j (hj.trans hi)).subset hx) y ((hsub i hi).subset hy)
  · intro d hd
    obtain ⟨hdel, hlast, hnew⟩ := h.current d (hcurrent d hd)
    refine ⟨(hdelivers d).2 hdel, by rw [hdelivered, hlast], ?_⟩
    intro i hi x hx
    rw [hspawned] at hi
    exact hnew i hi x ((hsub i hi).subset hx)
  · intro d hd
    rw [hdelivers] at hd
    rw [hspawned, hdelivered]
    rcases h.placed d hd with ⟨ok, hended⟩ | ⟨i, hi, hin⟩ | ⟨hlast, hwhere⟩
    · exact .inl ⟨ok, hhistory hended⟩
    · rcases hleft i hi d hin with hstays | hended
      · exact .inr (.inl ⟨i, hi, hstays⟩)
      · exact .inl hended
    · rcases hnewest d hwhere with hended | hwhere
      · exact .inl hended
      · exact .inr (.inr ⟨hlast, hwhere⟩)

/-- A step of the polling task alone. -/
theorem Placed.move (h : Placed s) {phase : Phase} {channel : List Completion} {history : List Event} {drainFailed stop : Bool}
    (hhistory : s.history ⊆ history) (hcurrent : ∀ d, phase.current = some d → s.phase.current = some d)
    (hnewest : ∀ d, s.phase.current = some d ∨ s.blocked → (∃ ok, .ended d ok ∈ history) ∨ phase.current = some d ∨
      (∃ outcome, phase = .returned outcome) ∨ (phase = .draining ∨ ∃ d, phase = .committing d) ∧ ∃ d, ⟨d, false⟩ ∈ channel) :
    Placed { s with phase, channel, history, drainFailed, stop } :=
  h.keep rfl rfl (fun _ _ => rfl) (fun _ _ => List.Sublist.refl _) (fun _ _ _ hd => .inl hd) hhistory hcurrent hnewest

/-- A step of one lane. -/
theorem Placed.setLane (h : Placed s) {i : Nat} {l : Lane} {channel : List Completion} {history : List Event}
    (hpart : l.partition = (s.lanes i).partition) (hsub : l.content.Sublist (s.lanes i).content)
    (hleft : ∀ d ∈ (s.lanes i).content, d ∈ l.content ∨ ∃ ok, .ended d ok ∈ history)
    (hhistory : s.history ⊆ history) (hchannel : s.channel ⊆ channel) :
    Placed { s.setLane i l with channel, history } := by
  refine h.keep rfl rfl ?_ ?_ ?_ hhistory (fun _ => id) ?_
  · intro j _
    by_cases hj : j = i
    · subst hj
      exact (congrArg Lane.partition (Function.update_self ..)).trans hpart
    · exact congrArg Lane.partition (Function.update_of_ne hj ..)
  · intro j _
    by_cases hj : j = i
    · subst hj
      simpa [State.setLane] using hsub
    · simp [State.setLane, hj]
  · intro j _ d hd
    by_cases hj : j = i
    · subst hj
      simpa [State.setLane] using hleft d hd
    · exact .inl (by simpa [State.setLane, hj] using hd)
  · intro d hwhere
    refine .inr (hwhere.imp_right ?_)
    exact Or.imp_right fun ⟨hphase, e, he⟩ => ⟨hphase, e, hchannel he⟩

/-- The polling task hands its delivery to the newest lane of the partition. -/
theorem Placed.enqueue (h : Placed s) (hl : Linked s) {d : Delivery} {i : Nat} (hphase : s.phase = .queueing d i) :
    Placed ((s.setLane i { s.lanes i with queue := (s.lanes i).queue ++ [d] }).goto .draining) := by
  obtain ⟨hi, hpart, -, -, hnewest⟩ := hl.active _ i (hl.target d i hphase)
  obtain ⟨hdel, hlast, hnew⟩ := h.current d (by rw [hphase]; rfl)
  generalize hto : (s.setLane i { s.lanes i with queue := (s.lanes i).queue ++ [d] }).goto .draining = t
  have hparts : ∀ j, (t.lanes j).partition = (s.lanes j).partition := by
    intro j
    by_cases hj : j = i
    · subst hto hj
      simp [State.goto, State.setLane]
    · subst hto
      exact congrArg Lane.partition (Function.update_of_ne hj ..)
  have hself : (t.lanes i).content = (s.lanes i).content ++ [d] := by
    subst hto
    simp [State.goto, State.setLane, Lane.content]
  have hother : ∀ j, j ≠ i → (t.lanes j).content = (s.lanes j).content := by
    intro j hj
    subst hto
    exact congrArg Lane.content (Function.update_of_ne hj ..)
  have hmem : ∀ j, ∀ x ∈ (t.lanes j).content, x ∈ (s.lanes j).content ∨ j = i ∧ x = d := by
    intro j x hx
    by_cases hj : j = i
    · subst hj
      rw [hself] at hx
      simpa using hx
    · exact .inl (hother j hj ▸ hx)
  have hspawned : t.spawned = s.spawned := by subst hto; rfl
  have hdelivered : t.delivered = s.delivered := by subst hto; rfl
  have hdelivers : ∀ e, t.delivers e ↔ s.delivers e := by simp [State.delivers, hdelivered]
  constructor
  · intro j hj x hx
    rw [hspawned] at hj
    rw [hdelivers, hparts]
    rcases hmem j x hx with hx | ⟨rfl, rfl⟩
    · exact h.held j hj x hx
    · exact ⟨hdel, hpart.symm⟩
  · intro j hj
    rw [hspawned] at hj
    by_cases hji : j = i
    · subst hji
      rw [hself, List.pairwise_append]
      refine ⟨h.sorted j hj, List.pairwise_singleton _ _, ?_⟩
      intro x hx y hy
      rw [List.mem_singleton] at hy
      exact hy ▸ hnew j hj x hx
    · rw [hother j hji]
      exact h.sorted j hj
  · intro j hj k hk hsame x hx y hy
    rw [hspawned] at hj
    rw [hparts, hparts] at hsame
    rcases hmem k x hx with hx | ⟨rfl, rfl⟩
    · rcases hmem j y hy with hy | ⟨rfl, rfl⟩
      · exact h.across j hj k hk hsame x hx y hy
      · exact hnew k (hk.trans hj) x hx
    · -- No lane of the partition was opened after this one.
      exact absurd (hnewest j hj (hsame.symm.trans hpart)) (by omega)
  · intro e he
    subst hto
    exact absurd he nofun
  · intro e he
    rw [hdelivers] at he
    rw [hspawned]
    rcases h.placed e he with ⟨ok, hended⟩ | ⟨j, hj, hin⟩ | ⟨-, hcurrent | hblocked⟩
    · exact .inl ⟨ok, by subst hto; exact hended⟩
    · refine .inr (.inl ⟨j, hj, ?_⟩)
      by_cases hji : j = i
      · subst hji
        rw [hself]
        exact List.mem_append_left _ hin
      · rwa [hother j hji]
    · have hed : d = e := by simpa [hphase, Phase.current] using hcurrent
      exact .inr (.inl ⟨i, hi, by rw [hself, hed]; simp⟩)
    · exact absurd hblocked (by simp [State.blocked, hphase])

theorem delivers_deliver {p : Nat} {d : Delivery} : (s.deliver p).delivers d ↔ s.delivers d ∨ d = s.incoming p := by
  obtain ⟨n, q⟩ := d
  simp only [State.delivers, State.deliver, State.incoming, Delivery.mk.injEq, List.getElem?_append]
  split
  · rename_i hlt
    exact (or_iff_left fun heq => absurd heq.1 hlt.ne).symm
  · rename_i hge
    have hnone : s.delivered[n]? = none := List.getElem?_eq_none (by omega)
    by_cases hn : n = s.delivered.length
    · simp [hn, eq_comm]
    · simp [hnone, hn, show n - s.delivered.length ≠ 0 by omega]

theorem delivers_lt {d : Delivery} (h : s.delivers d) : d.number < s.delivered.length := by
  obtain ⟨hlt, -⟩ := List.getElem?_eq_some_iff.1 h
  exact hlt

/-- The consumer hands out the next delivery. -/
theorem Placed.deliver (h : Placed s) (hphase : s.phase = .selecting) {p : Nat} {phase : Phase} {history : List Event}
    (hcurrent : phase.current = some (s.incoming p)) (hhistory : s.history ⊆ history) :
    Placed { s.deliver p with phase, history } := by
  have hlength : (s.deliver p).delivered.length = s.delivered.length + 1 := by simp [State.deliver]
  constructor
  · intro i hi d hd
    obtain ⟨hdel, hpart⟩ := h.held i hi d hd
    exact ⟨delivers_deliver.2 (.inl hdel), hpart⟩
  · exact h.sorted
  · exact h.across
  · intro d hd
    obtain rfl : s.incoming p = d := by simpa [hcurrent] using hd
    refine ⟨delivers_deliver.2 (.inr rfl), hlength.symm, ?_⟩
    intro i hi x hx
    exact delivers_lt (h.held i hi x hx).1
  · intro d hd
    rcases delivers_deliver.1 hd with hold | rfl
    · rcases h.placed d hold with ⟨ok, hended⟩ | hin | ⟨-, hcur | hblocked⟩
      · exact .inl ⟨ok, hhistory hended⟩
      · exact .inr (.inl hin)
      · exact absurd hcur (by simp [hphase, Phase.current])
      · exact absurd hblocked (by simp [State.blocked, hphase])
    · exact .inr (.inr ⟨hlength.symm, .inl hcurrent⟩)

theorem Placed.spawnLane (h : Placed s) (p : Nat) : Placed (s.spawnLane p) := by
  have hold : ∀ j < s.spawned, (s.spawnLane p).lanes j = s.lanes j := by
    intro j hj
    exact Function.update_of_ne (Nat.ne_of_lt hj) _ _
  have hnew : ((s.spawnLane p).lanes s.spawned).content = [] := by
    simp [State.spawnLane, State.setLane, Lane.content, Lane.new]
  have hcases : ∀ j < (s.spawnLane p).spawned, ∀ x ∈ ((s.spawnLane p).lanes j).content, j < s.spawned := by
    intro j hj x hx
    rcases Nat.lt_succ_iff_lt_or_eq.1 hj with hlt | rfl
    · exact hlt
    · rw [hnew] at hx
      exact absurd hx List.not_mem_nil
  constructor
  · intro i hi d hd
    have hlt := hcases i hi d hd
    rw [hold i hlt] at hd ⊢
    exact h.held i hlt d hd
  · intro i hi
    rcases Nat.lt_succ_iff_lt_or_eq.1 hi with hlt | rfl
    · rw [hold i hlt]
      exact h.sorted i hlt
    · rw [hnew]
      exact .nil
  · intro i hi j hj hsame x hx y hy
    have hlt := hcases i hi y hy
    rw [hold i hlt] at hsame hy
    rw [hold j (hj.trans hlt)] at hsame hx
    exact h.across i hlt j hj hsame x hx y hy
  · intro d hd
    obtain ⟨hdel, hlast, hnewest⟩ := h.current d hd
    refine ⟨hdel, hlast, ?_⟩
    intro i hi x hx
    have hlt := hcases i hi x hx
    rw [hold i hlt] at hx
    exact hnewest i hlt x hx
  · intro d hd
    rcases h.placed d hd with hended | ⟨i, hi, hin⟩ | hwhere
    · exact .inl hended
    · exact .inr (.inl ⟨i, hi.trans (Nat.lt_succ_self _), by rwa [hold i hi]⟩)
    · exact .inr (.inr hwhere)

theorem Placed.dropRevoked (h : Placed s) (assigned : Nat → Bool) : Placed (s.dropRevoked assigned) := by
  have hlane : ∀ j, ((s.dropRevoked assigned).lanes j).partition = (s.lanes j).partition ∧
      ((s.dropRevoked assigned).lanes j).content = (s.lanes j).content := by
    intro j
    simp only [State.dropRevoked]
    split
    · exact ⟨rfl, rfl⟩
    · exact ⟨rfl, rfl⟩
  refine h.keep rfl rfl (fun i _ => (hlane i).1) ?_ ?_ (fun _ => id) (fun _ => id) (fun _ => .inr)
  · intro i _
    simp only [(hlane i).2, List.Sublist.refl]
  · intro i _ d hd
    exact .inl ((hlane i).2 ▸ hd)

theorem Placed.step (h : Placed s) (hl : Linked s) (hstep : Step maxPartitions s a s') : Placed s' := by
  cases hstep with
  | drained hphase hchannel =>
    refine h.move (fun _ => id) nofun ?_
    rintro d (hcur | ⟨_, heq⟩ | ⟨-, e, he⟩)
    · exact absurd hcur (by simp [hphase, Phase.current])
    · exact absurd heq (by simp [hphase])
    · exact absurd he (by simp [hchannel])
  | received hphase hchannel =>
    refine h.move (fun _ => id) nofun ?_
    rintro d (hcur | ⟨_, heq⟩ | ⟨-, e, he⟩)
    · exact absurd hcur (by simp [hphase, Phase.current])
    · exact absurd heq (by simp [hphase])
    · exact .inr (.inr (.inr ⟨.inr ⟨_, rfl⟩, e, by simpa [hchannel] using he⟩))
  | refused hphase hchannel => exact h.move (fun _ => id) nofun fun _ _ => .inr (.inr (.inl ⟨_, rfl⟩))
  | @committed b hphase =>
    refine h.move (List.subset_append_left _ _) nofun ?_
    rintro d (hcur | ⟨_, heq⟩ | ⟨-, hfailure⟩)
    · exact absurd hcur (by obtain hphase | hphase := hphase <;> simp [hphase, Phase.current])
    · exact absurd heq (by obtain hphase | hphase := hphase <;> simp [hphase])
    · exact .inr (.inr (.inr ⟨.inl rfl, hfailure⟩))
  | commitFailed hphase => exact h.move (fun _ => id) nofun fun _ _ => .inr (.inr (.inl ⟨_, rfl⟩))
  | woken hphase => exact h.move (fun _ => id) nofun (by simp [hphase, Phase.current, State.blocked])
  | probed hphase =>
    refine (h.dropRevoked _).move (fun _ => id) nofun ?_
    rintro d (hcur | ⟨_, heq⟩ | ⟨heq | ⟨_, heq⟩, -⟩)
    · exact absurd (hphase ▸ hcur) nofun
    all_goals exact absurd (hphase.symm.trans heq) nofun
  | inlined hphase hlane hcap => exact h.deliver hphase rfl (List.subset_append_left _ _)
  | routed hphase hlane => exact h.deliver hphase rfl fun _ => id
  | opened hphase hlane hcap => exact (h.spawnLane _).deliver hphase rfl fun _ => id
  | queued hphase hopen => exact h.enqueue hl hphase
  | @dropped d i hphase hdone =>
    refine h.move (fun _ => id) nofun fun _ _ => ?_
    -- A lane that is open and stopped has failed.
    obtain ⟨hi, -, hopen, -⟩ := hl.active _ i (hl.target d i hphase)
    rcases hl.done i hi hdone with hclosed | ⟨_, heq⟩ | hfailure
    · exact absurd (hopen.symm.trans hclosed) (by decide)
    · exact absurd heq (by simp [hphase])
    · exact .inr (.inr (.inr ⟨.inl rfl, hfailure⟩))
  | @handled d ok hphase =>
    refine h.move (List.subset_append_left _ _) (by cases ok <;> exact nofun) ?_
    rintro e (hcur | ⟨_, heq⟩ | ⟨heq | ⟨_, heq⟩, -⟩)
    · have hde : d = e := by simpa [hphase, Phase.current] using hcur
      exact .inl ⟨ok, by simp [hde, State.log]⟩
    all_goals exact absurd heq (by simp [hphase])
  | stopped hphase => exact h.move (fun _ => id) nofun fun _ _ => .inr (.inr (.inl ⟨_, rfl⟩))
  | failed hphase => exact h.move (fun _ => id) nofun fun _ _ => .inr (.inr (.inl ⟨_, rfl⟩))
  | rejected hphase => exact (h.dropRevoked _).move (fun _ => id) nofun fun _ _ => .inr (.inr (.inl ⟨_, rfl⟩))
  | drainCommitted hphase hstop hchannel hgood =>
    exact h.move (List.subset_append_left _ _) (fun _ => id) fun _ _ => .inr (.inr (.inl ⟨_, hphase⟩))
  | drainRefused hphase hstop hchannel hgood =>
    exact h.move (fun _ => id) (fun _ => id) fun _ _ => .inr (.inr (.inl ⟨_, hphase⟩))
  | drainSkipped hphase hstop hchannel hbad =>
    exact h.move (fun _ => id) (fun _ => id) fun _ _ => .inr (.inr (.inl ⟨_, hphase⟩))
  | raised hphase => exact h.move (fun _ => id) (fun _ => id) fun _ _ => .inr (.inr (.inl ⟨_, hphase⟩))
  | began hi hwaits hpredecessor =>
    exact h.setLane rfl (List.Sublist.refl _) (fun _ => .inl) (fun _ => id) fun _ => id
  | @took i d rest hi hidle hqueue hstop =>
    have hsame : (s.lanes i).content = d :: rest := by simp [Lane.content, hidle.2.2.1, hqueue]
    refine h.setLane rfl ?_ ?_ (List.subset_append_left _ _) fun _ => id
    · rw [hsame]
      exact List.Sublist.refl _
    · intro e he
      rw [hsame] at he
      exact .inl he
  | halted hi hidle hqueue hstop =>
    exact h.setLane rfl (List.Sublist.refl _) (fun _ => .inl) (fun _ => id) fun _ => id
  | @finished i d ok hi hhand =>
    refine h.setLane rfl ?_ ?_ (List.subset_append_left _ _) fun _ => id
    · simp [Lane.content, hhand]
    · intro e he
      obtain rfl | hqueued := List.mem_cons.1 (show e ∈ d :: (s.lanes i).queue by simpa [Lane.content, hhand] using he)
      · exact .inr ⟨ok, by simp⟩
      · exact .inl hqueued
  | reported hi hpending =>
    exact h.setLane rfl (List.Sublist.refl _) (fun _ => .inl) (fun _ => id) (List.subset_append_left _ _)
  | exited hi hidle hqueue hclosed =>
    exact h.setLane rfl (List.Sublist.refl _) (fun _ => .inl) (fun _ => id) fun _ => id

/-! ## What happened before -/

def Event.delivery : Event → Delivery
  | .started d => d
  | .ended d _ => d
  | .committed d => d

/-- Every earlier record of the partition was handled without error. -/
def State.clear (s : State) (b : Delivery) : Prop := ∀ a, s.Earlier a b → .ended a true ∈ s.history

/-- The delivery the polling task handles or commits. -/
def Phase.report : Phase → Option Delivery
  | .committing d => some d
  | .handling d => some d
  | .confirming d => some d
  | _ => none

/-- A record whose handling started and that is not committed yet. -/
def State.underway (s : State) (d : Delivery) : Prop :=
  (∃ i < s.spawned, (s.lanes i).hand = some d ∨ ∃ ok, (s.lanes i).pending = some ⟨d, ok⟩) ∨
    (∃ ok, ⟨d, ok⟩ ∈ s.channel) ∨ s.phase.report = some d

/-- Some failure of the record's partition is on file. -/
def State.failedOn (s : State) (d : Delivery) : Prop :=
  (∃ outcome, s.phase = .returned outcome) ∧ d.number + 1 = s.delivered.length ∨
    ∃ i < s.spawned, (s.lanes i).partition = d.partition ∧ (s.lanes i).failed = true

structure Traced (s : State) : Prop where
  known : ∀ e ∈ s.history, s.delivers e.delivery
  underway : ∀ d, s.underway d → s.delivers d ∧ s.clear d
  order : InOrder s
  failures : ∀ d, .ended d false ∈ s.history → s.failedOn d

theorem traced_init : Traced .init where
  known := nofun
  underway := by
    rintro d (⟨i, hi, -⟩ | ⟨ok, hin⟩ | hreport)
    · exact absurd hi (Nat.not_lt_zero _)
    · exact absurd hin List.not_mem_nil
    · exact absurd hreport nofun
  order := ⟨by simp [State.init], by simp [State.init]⟩
  failures := nofun

/-- A step that records nothing. -/
theorem Traced.keep (h : Traced s) (hdelivered : s'.delivered = s.delivered) (hhistory : s'.history = s.history)
    (hunderway : ∀ d, s'.underway d → s.underway d) (hfailed : ∀ d, s.failedOn d → s'.failedOn d) : Traced s' := by
  have hdelivers : ∀ d, s'.delivers d ↔ s.delivers d := by simp [State.delivers, hdelivered]
  have hearlier : ∀ x y, s'.Earlier x y ↔ s.Earlier x y := by simp [State.Earlier, hdelivers]
  constructor
  · intro e he
    rw [hhistory] at he
    exact (hdelivers _).2 (h.known e he)
  · intro d hd
    obtain ⟨hdel, hclear⟩ := h.underway d (hunderway d hd)
    refine ⟨(hdelivers d).2 hdel, fun x hx => ?_⟩
    rw [hhistory]
    exact hclear x ((hearlier x d).1 hx)
  · constructor
    · intro before b after heq x hx
      rw [hhistory] at heq
      exact h.order.starts before b after heq x ((hearlier x b).1 hx)
    · intro before b after heq x hx
      rw [hhistory] at heq
      exact h.order.commits before b after heq x ((hearlier x b).1 hx)
  · intro d hd
    rw [hhistory] at hd
    exact hfailed d (h.failures d hd)

/-- A step that records one event. A record is started or committed once the
earlier ones were handled. -/
theorem Traced.log (h : Traced s) {e : Event} (hdelivered : s'.delivered = s.delivered)
    (hhistory : s'.history = s.history ++ [e]) (hknown : s.delivers e.delivery)
    (hclear : ∀ d, e = .started d ∨ e = .committed d → s.clear d)
    (hunderway : ∀ d, s'.underway d → s.underway d ∨ s.delivers d ∧ s.clear d)
    (hfailed : ∀ d, s.failedOn d ∨ e = .ended d false → s'.failedOn d) : Traced s' := by
  have hdelivers : ∀ d, s'.delivers d ↔ s.delivers d := by simp [State.delivers, hdelivered]
  have hearlier : ∀ x y, s'.Earlier x y ↔ s.Earlier x y := by simp [State.Earlier, hdelivers]
  -- The event is the last one, or it stood in the history before.
  have hsplit : ∀ before x after, s'.history = before ++ x :: after →
      before = s.history ∧ x = e ∨ ∃ rest, s.history = before ++ x :: rest := by
    intro before x after heq
    rw [hhistory] at heq
    rcases List.eq_nil_or_concat after with rfl | ⟨rest, last, rfl⟩
    · obtain ⟨hbefore, hx⟩ := List.append_inj' heq rfl
      exact .inl ⟨hbefore.symm, by simpa using hx.symm⟩
    · rw [List.concat_eq_append, ← List.cons_append, ← List.append_assoc] at heq
      exact .inr ⟨rest, (List.append_inj' heq rfl).1⟩
  constructor
  · intro x hx
    rw [hhistory, List.mem_append, List.mem_singleton] at hx
    rcases hx with hold | rfl
    · exact (hdelivers _).2 (h.known x hold)
    · exact (hdelivers _).2 hknown
  · intro d hd
    have hboth : s.delivers d ∧ s.clear d := (hunderway d hd).elim (h.underway d) id
    refine ⟨(hdelivers d).2 hboth.1, fun x hx => ?_⟩
    rw [hhistory]
    exact List.mem_append_left _ (hboth.2 x ((hearlier x d).1 hx))
  · constructor
    · intro before b after heq x hx
      rcases hsplit before _ after heq with ⟨rfl, hlast⟩ | ⟨rest, hold⟩
      · exact ⟨true, hclear b (.inl hlast.symm) x ((hearlier x b).1 hx)⟩
      · exact h.order.starts before b rest hold x ((hearlier x b).1 hx)
    · intro before b after heq x hx
      rcases hsplit before _ after heq with ⟨rfl, hlast⟩ | ⟨rest, hold⟩
      · exact hclear b (.inr hlast.symm) x ((hearlier x b).1 hx)
      · exact h.order.commits before b rest hold x ((hearlier x b).1 hx)
  · intro d hd
    rw [hhistory, List.mem_append, List.mem_singleton] at hd
    exact hfailed d (hd.imp (h.failures d) Eq.symm)

/-- A step that starts or commits a record. -/
theorem Traced.mark (h : Traced s) {e : Event} {d : Delivery} (he : e = .started d ∨ e = .committed d)
    (hdelivered : s'.delivered = s.delivered) (hhistory : s'.history = s.history ++ [e]) (hknown : s.delivers d)
    (hclear : s.clear d) (hunderway : ∀ x, s'.underway x → s.underway x ∨ s.delivers x ∧ s.clear x)
    (hfailed : ∀ x, s.failedOn x → s'.failedOn x) : Traced s' := by
  refine h.log hdelivered hhistory ?_ ?_ hunderway ?_
  · rcases he with rfl | rfl <;> exact hknown
  · intro x hx
    have hsame : d = x := by rcases he with rfl | rfl <;> simpa using hx
    exact hsame ▸ hclear
  · rintro x (hold | hended)
    · exact hfailed x hold
    · rcases he with rfl | rfl <;> cases hended

/-- A new delivery comes before none of the old ones. -/
theorem earlier_of_deliver {p : Nat} {x y : Delivery} (h : (s.deliver p).Earlier x y) (hy : y.number ≤ s.delivered.length) :
    s.Earlier x y := by
  obtain ⟨hdel, hpart, hlt⟩ := h
  rcases delivers_deliver.1 hdel with hold | rfl
  · exact ⟨hold, hpart, hlt⟩
  · exact absurd hlt (by simp only [State.incoming]; omega)

theorem Traced.deliver (h : Traced s) (hphase : s.phase = .selecting) (p : Nat) : Traced (s.deliver p) := by
  have hdel : ∀ d, s.delivers d → (s.deliver p).delivers d := fun d hd => delivers_deliver.2 (.inl hd)
  have hevent : ∀ before x after, s.history = before ++ x :: after → x.delivery.number ≤ s.delivered.length := by
    intro before x after heq
    exact (delivers_lt (h.known x (by rw [heq]; simp))).le
  constructor
  · intro e he
    exact hdel _ (h.known e he)
  · intro d hd
    obtain ⟨hold, hclear⟩ := h.underway d hd
    exact ⟨hdel d hold, fun x hx => hclear x (earlier_of_deliver hx (delivers_lt hold).le)⟩
  · constructor
    · intro before b after heq x hx
      exact h.order.starts before b after heq x (earlier_of_deliver hx (hevent _ _ _ heq))
    · intro before b after heq x hx
      exact h.order.commits before b after heq x (earlier_of_deliver hx (hevent _ _ _ heq))
  · intro d hd
    rcases h.failures d hd with ⟨⟨_, heq⟩, -⟩ | hlane
    · exact absurd heq (by simp [hphase])
    · exact .inr hlane

/-! ## A record starts after the earlier ones -/

/-- Where no lane holds an earlier record and none failed, all of them were
handled. -/
theorem clear_of_none (hp : Placed s) (ht : Traced s) {b : Delivery}
    (hlanes : ∀ i < s.spawned, (s.lanes i).partition = b.partition →
      (∀ x ∈ (s.lanes i).content, b.number ≤ x.number) ∧ (s.lanes i).failed = false)
    (hnewest : ∀ x, x.number + 1 = s.delivered.length → x.number < b.number →
      s.phase.current ≠ some x ∧ ¬ s.blocked) :
    s.clear b := by
  rintro x ⟨hdel, hpart, hlt⟩
  rcases hp.placed x hdel with ⟨ok, hended⟩ | ⟨i, hi, hin⟩ | ⟨hlast, hwhere⟩
  · cases ok with
    | true => exact hended
    | false =>
      rcases ht.failures x hended with ⟨hreturned, hlast⟩ | ⟨i, hi, hsame, hfailed⟩
      · exact absurd (.inl hreturned) (hnewest x hlast hlt).2
      · exact absurd ((hlanes i hi (hsame.trans hpart)).2.symm.trans hfailed) (by decide)
  · have hsame := (hp.held i hi x hin).2.symm.trans hpart
    exact absurd hlt (Nat.not_lt_of_le ((hlanes i hi hsame).1 x hin))
  · obtain ⟨hcurrent, hblocked⟩ := hnewest x hlast hlt
    exact absurd hwhere (not_or_intro hcurrent hblocked)

/-- A lane takes the first record that is left of its partition. -/
theorem clear_of_take (hl : Linked s) (hp : Placed s) (ht : Traced s) {i : Nat} {d : Delivery} {rest : List Delivery}
    (hi : i < s.spawned) (hidle : (s.lanes i).idle) (hqueue : (s.lanes i).queue = d :: rest) (hinherits : s.inherits i) :
    s.delivers d ∧ s.clear d := by
  obtain ⟨hbegun, hopen, hhand, hpending⟩ := hidle
  have hcontent : (s.lanes i).content = d :: rest := by simp [Lane.content, hhand, hqueue]
  obtain ⟨hdel, hpart⟩ := hp.held i hi d (by simp [hcontent])
  refine ⟨hdel, clear_of_none hp ht ?_ ?_⟩
  · intro j hj hsame
    rw [hpart] at hsame
    rcases Nat.lt_trichotomy j i with hlt | rfl | hgt
    · -- The lanes before it are done.
      have hdone := hl.begun i hi hbegun j hlt hsame
      have hempty : (s.lanes j).hand = none := by
        by_contra hne
        exact absurd (((hl.lane j hj).hand hne).2.1.symm.trans hdone) (by decide)
      obtain ⟨hleft, hfailed⟩ := hinherits j hlt hsame
      exact ⟨by simp [Lane.content, hempty, hleft], hfailed⟩
    · constructor
      · intro x hx
        have hsorted := hp.sorted j hj
        rw [hcontent] at hx hsorted
        rcases List.mem_cons.1 hx with rfl | hx
        · exact le_rfl
        · exact ((List.pairwise_cons.1 hsorted).1 x hx).le
      · by_contra hne
        rcases (hl.lane j hj).failed (by simpa using hne) with hdone | ⟨e, he⟩
        · exact absurd (hopen.symm.trans hdone) (by decide)
        · exact absurd (hpending.symm.trans he) nofun
    · -- The lanes after it wait for it.
      constructor
      · intro x hx
        exact (hp.across j hj i hgt hsame.symm d (by simp [hcontent]) x hx).le
      · by_contra hne
        have hbegan : (s.lanes j).begun = true := by
          rcases (hl.lane j hj).failed (by simpa using hne) with hdone | ⟨e, he⟩
          · exact (hl.lane j hj).finished hdone
          · exact ((hl.lane j hj).pending (by simp [he])).1
        exact absurd (hopen.symm.trans (hl.begun j hj hbegan i hgt hsame.symm)) (by decide)
  · intro x hlast hlt
    exact absurd (delivers_lt hdel) (by omega)

/-- Nothing precedes a record handled inline. -/
theorem clear_of_quiet (hp : Placed s) (ht : Traced s) (hphase : s.phase = .selecting) {p : Nat} (hquiet : s.quiet p) :
    s.clear (s.incoming p) := by
  refine clear_of_none hp ht ?_ ?_
  · intro i hi hsame
    obtain ⟨hqueue, hhand, hfailed⟩ := hquiet i hi hsame
    exact ⟨by simp [Lane.content, hqueue, hhand], hfailed⟩
  · intro x _ _
    exact ⟨by simp [hphase, Phase.current], by simp [State.blocked, hphase]⟩

/-! ## Steps -/

/-- What a lane's step leaves underway. -/
theorem underway_setLane {i : Nat} {l : Lane} {channel : List Completion} {history : List Event} {d : Delivery}
    (h : ({ s.setLane i l with channel, history } : State).underway d) (hchannel : ∀ ok, ⟨d, ok⟩ ∈ channel → s.underway d)
    (hlane : l.hand = some d ∨ (∃ ok, l.pending = some ⟨d, ok⟩) → s.underway d) : s.underway d := by
  rcases h with ⟨j, hj, hhas⟩ | ⟨ok, hin⟩ | hreport
  · by_cases hji : j = i
    · subst hji
      exact hlane (by simpa [State.setLane] using hhas)
    · exact .inl ⟨j, hj, by simpa [State.setLane, hji] using hhas⟩
  · exact hchannel ok hin
  · exact .inr (.inr hreport)

theorem failedOn_setLane {i : Nat} {l : Lane} {channel : List Completion} {history : List Event} {d : Delivery}
    (hpart : l.partition = (s.lanes i).partition) (hfailed : (s.lanes i).failed = true → l.failed = true) (h : s.failedOn d) :
    ({ s.setLane i l with channel, history } : State).failedOn d := by
  rcases h with hnewest | ⟨j, hj, hsame, hbad⟩
  · exact .inl hnewest
  · refine .inr ⟨j, hj, ?_⟩
    by_cases hji : j = i
    · subst hji
      simp only [State.setLane, Function.update_self]
      exact ⟨hpart.trans hsame, hfailed hbad⟩
    · simp only [State.setLane, Function.update_of_ne hji]
      exact ⟨hsame, hbad⟩

/-- A phase change of the polling task. -/
theorem Traced.goto (h : Traced s) {phase : Phase} (hreport : ∀ d, phase.report = some d → s.underway d)
    (hreturned : (∃ outcome, s.phase = .returned outcome) → ∃ outcome, phase = .returned outcome) :
    Traced (s.goto phase) := by
  refine h.keep rfl rfl ?_ ?_
  · rintro d (hlane | hchannel | hphase)
    · exact .inl hlane
    · exact .inr (.inl hchannel)
    · exact hreport d hphase
  · exact fun d => Or.imp_left (And.imp_left hreturned)

/-- A completion leaves the channel. -/
theorem Traced.take (h : Traced s) {c : Completion} {rest : List Completion} (hchannel : s.channel = c :: rest)
    (drainFailed : Bool) : Traced { s with channel := rest, drainFailed } := by
  refine h.keep rfl rfl ?_ fun _ => id
  rintro d (hlane | ⟨ok, hin⟩ | hreport)
  · exact .inl hlane
  · exact .inr (.inl ⟨ok, by rw [hchannel]; exact List.mem_cons_of_mem _ hin⟩)
  · exact .inr (.inr hreport)

/-- A lane's step that records nothing. -/
theorem Traced.setLane (h : Traced s) {i : Nat} {l : Lane} (hi : i < s.spawned)
    (hpart : l.partition = (s.lanes i).partition) (hfailed : l.failed = (s.lanes i).failed)
    (hhand : l.hand = (s.lanes i).hand) (hpending : l.pending = (s.lanes i).pending) : Traced (s.setLane i l) := by
  refine h.keep rfl rfl ?_ ?_
  · intro d hd
    refine underway_setLane hd (fun ok hin => .inr (.inl ⟨ok, hin⟩)) fun hlane => .inl ⟨i, hi, ?_⟩
    rwa [hhand, hpending] at hlane
  · exact fun d => failedOn_setLane hpart (hfailed ▸ id)

theorem Traced.spawnLane (h : Traced s) (p : Nat) : Traced (s.spawnLane p) := by
  have hold : ∀ j < s.spawned, (s.spawnLane p).lanes j = s.lanes j := by
    intro j hj
    exact Function.update_of_ne (Nat.ne_of_lt hj) _ _
  refine h.keep rfl rfl ?_ ?_
  · rintro d (⟨j, hj, hhas⟩ | hrest)
    · rcases Nat.lt_succ_iff_lt_or_eq.1 hj with hlt | rfl
      · exact .inl ⟨j, hlt, hold j hlt ▸ hhas⟩
      · simp [State.spawnLane, State.setLane, Lane.new] at hhas
    · exact .inr hrest
  · rintro d (hnewest | ⟨j, hj, hbad⟩)
    · exact .inl hnewest
    · exact .inr ⟨j, hj.trans (Nat.lt_succ_self _), (hold j hj).symm ▸ hbad⟩

theorem Traced.dropRevoked (h : Traced s) (assigned : Nat → Bool) : Traced (s.dropRevoked assigned) := by
  have hlane : ∀ j, ∃ closed, (s.dropRevoked assigned).lanes j = { s.lanes j with closed } := by
    intro j
    simp only [State.dropRevoked]
    split
    · exact ⟨_, rfl⟩
    · exact ⟨_, rfl⟩
  refine h.keep rfl rfl ?_ ?_
  · rintro d (⟨j, hj, hhas⟩ | hrest)
    · obtain ⟨_, heq⟩ := hlane j
      rw [heq] at hhas
      exact .inl ⟨j, hj, hhas⟩
    · exact .inr hrest
  · rintro d (hnewest | ⟨j, hj, hbad⟩)
    · exact .inl hnewest
    · obtain ⟨_, heq⟩ := hlane j
      exact .inr ⟨j, hj, by rw [heq]; exact hbad⟩

theorem Traced.step (ht : Traced s) (hl : Linked s) (hp : Placed s) (hstep : OrderlyStep maxPartitions s a s') : Traced s' := by
  obtain ⟨horderly, hstep⟩ := hstep
  cases hstep with
  | drained hphase hchannel => exact ht.goto nofun (by simp [hphase])
  | @received d rest hphase hchannel =>
    have hreport : ∀ e, (Phase.committing d).report = some e → s.underway e := by
      intro e he
      obtain rfl : d = e := by simpa [Phase.report] using he
      exact .inr (.inl ⟨true, by simp [hchannel]⟩)
    exact (ht.goto hreport (by simp [hphase])).take hchannel s.drainFailed
  | @refused d rest hphase hchannel =>
    have hgoto : Traced (s.goto (.returned .fatal)) := ht.goto nofun fun _ => ⟨_, rfl⟩
    exact hgoto.take hchannel s.drainFailed
  | @committed d hphase =>
    have hreport : s.underway d := by
      rcases hphase with hphase | hphase
      · exact .inr (.inr (by rw [hphase]; rfl))
      · exact .inr (.inr (by rw [hphase]; rfl))
    obtain ⟨hdel, hclear⟩ := ht.underway d hreport
    refine ht.mark (.inr rfl) rfl rfl hdel hclear ?_ ?_
    · rintro e (hlane | hchannel | hnone)
      · exact .inl (.inl hlane)
      · exact .inl (.inr (.inl hchannel))
      · exact absurd hnone nofun
    · rintro e (⟨⟨_, heq⟩, -⟩ | hlane)
      · exact absurd heq (by rcases hphase with hphase | hphase <;> simp [hphase])
      · exact .inr hlane
  | commitFailed hphase => exact ht.goto nofun fun _ => ⟨_, rfl⟩
  | woken hphase => exact ht.goto nofun (by simp [hphase])
  | probed hphase => exact (ht.dropRevoked _).goto nofun fun ⟨_, heq⟩ => absurd (hphase.symm.trans heq) nofun
  | @inlined p hphase hlane hcap =>
    have hclear : (s.deliver p).clear (s.incoming p) := by
      intro x hx
      exact clear_of_quiet hp ht hphase (horderly hlane hcap) x (earlier_of_deliver hx le_rfl)
    have hdel : (s.deliver p).delivers (s.incoming p) := delivers_deliver.2 (.inr rfl)
    refine (ht.deliver hphase p).mark (.inl rfl) rfl rfl hdel hclear ?_ ?_
    · rintro e (hlane | hchannel | hreport)
      · exact .inl (.inl hlane)
      · exact .inl (.inr (.inl hchannel))
      · obtain rfl : s.incoming p = e := Option.some.inj hreport
        exact .inr ⟨hdel, hclear⟩
    · rintro e (⟨⟨_, heq⟩, -⟩ | hlane)
      · exact absurd (hphase.symm.trans heq) nofun
      · exact .inr hlane
  | routed hphase hlane =>
    exact (ht.deliver hphase _).goto nofun fun ⟨_, heq⟩ => absurd (hphase.symm.trans heq) nofun
  | @opened p hphase hlane hcap =>
    exact (Traced.deliver (ht.spawnLane p) hphase p).goto nofun fun ⟨_, heq⟩ => absurd (hphase.symm.trans heq) nofun
  | @queued d i hphase hopen =>
    have hi : i < s.spawned := (hl.active _ i (hl.target d i hphase)).1
    refine Traced.goto ?_ nofun fun ⟨_, heq⟩ => absurd (hphase.symm.trans heq) nofun
    exact ht.setLane hi rfl rfl rfl rfl
  | dropped hphase hdone => exact ht.goto nofun (by simp [hphase])
  | @handled d ok hphase =>
    have hreport : s.underway d := .inr (.inr (by rw [hphase]; rfl))
    obtain ⟨hdel, hclear⟩ := ht.underway d hreport
    refine ht.log rfl rfl hdel (by simp) ?_ ?_
    · rintro e (hlane | hchannel | hnext)
      · exact .inl (.inl hlane)
      · exact .inl (.inr (.inl hchannel))
      · cases ok with
        | true =>
          obtain rfl : d = e := Option.some.inj hnext
          exact .inr ⟨hdel, hclear⟩
        | false => exact absurd hnext nofun
    · rintro e ((⟨⟨_, heq⟩, -⟩ | hlane) | heq)
      · exact absurd heq (by simp [hphase])
      · exact .inr hlane
      · obtain ⟨rfl, rfl⟩ : d = e ∧ ok = false := by simpa using heq
        exact .inl ⟨⟨_, rfl⟩, (hp.current d (by rw [hphase]; rfl)).2.1⟩
  | stopped hphase => exact ht.goto nofun fun _ => ⟨_, rfl⟩
  | failed hphase => exact ht.goto nofun fun _ => ⟨_, rfl⟩
  | rejected hphase => exact (ht.dropRevoked _).goto nofun fun _ => ⟨_, rfl⟩
  | @drainCommitted _ d rest hphase hstop hchannel hgood =>
    obtain ⟨hdel, hclear⟩ := ht.underway d (.inr (.inl ⟨true, by simp [hchannel]⟩))
    refine ht.mark (.inr rfl) rfl rfl hdel hclear ?_ fun e hfailed => hfailed
    rintro e (hlane | ⟨ok, hin⟩ | hreport)
    · exact .inl (.inl hlane)
    · exact .inl (.inr (.inl ⟨ok, by rw [hchannel]; exact List.mem_cons_of_mem _ hin⟩))
    · exact .inl (.inr (.inr hreport))
  | drainRefused hphase hstop hchannel hgood => exact ht.take hchannel _
  | drainSkipped hphase hstop hchannel hbad => exact ht.take hchannel _
  | raised hphase => exact ht.keep rfl rfl (fun _ => id) fun _ => id
  | began hi hwaits hpredecessor => exact ht.setLane hi rfl rfl rfl rfl
  | @took i d rest hi hidle hqueue hstop =>
    obtain ⟨hdel, hclear⟩ := clear_of_take hl hp ht hi hidle hqueue (horderly hstop)
    refine ht.mark (.inl rfl) rfl rfl hdel hclear ?_ fun e hfailed => failedOn_setLane rfl id hfailed
    intro e he
    by_cases hde : d = e
    · exact .inr ⟨hde ▸ hdel, hde ▸ hclear⟩
    · refine .inl (underway_setLane he (fun ok hin => .inr (.inl ⟨ok, hin⟩)) ?_)
      rintro (hhand | hpending)
      · exact absurd (Option.some.inj hhand) hde
      · exact .inl ⟨i, hi, .inr hpending⟩
  | halted hi hidle hqueue hstop => exact ht.setLane hi rfl rfl rfl rfl
  | @finished i d ok hi hhand =>
    have hunder : s.underway d := .inl ⟨i, hi, .inl hhand⟩
    obtain ⟨hdel, hclear⟩ := ht.underway d hunder
    refine ht.log rfl rfl hdel (by simp) ?_ ?_
    · intro e he
      refine .inl (underway_setLane he (fun ok hin => .inr (.inl ⟨ok, hin⟩)) ?_)
      rintro (hnone | ⟨ok', hpending⟩)
      · exact absurd hnone nofun
      · obtain ⟨rfl, rfl⟩ : d = e ∧ ok = ok' := by simpa using hpending
        exact hunder
    · rintro e (hfailed | heq)
      · exact failedOn_setLane rfl (by simp +contextual) hfailed
      · obtain ⟨rfl, rfl⟩ : d = e ∧ ok = false := by simpa using heq
        refine .inr ⟨i, hi, ?_⟩
        simp only [State.log, State.setLane, Function.update_self]
        exact ⟨(hp.held i hi d (by simp [Lane.content, hhand])).2.symm, by simp⟩
  | @reported i c hi hpending =>
    have hunder : s.underway c.delivery := .inl ⟨i, hi, .inr ⟨c.ok, hpending⟩⟩
    refine ht.keep rfl rfl ?_ fun _ => failedOn_setLane rfl id
    intro e he
    refine underway_setLane he ?_ ?_
    · intro ok hin
      rcases List.mem_append.1 hin with hin | hin
      · exact .inr (.inl ⟨ok, hin⟩)
      · obtain rfl : Completion.mk e ok = c := by simpa using hin
        exact hunder
    · rintro (hhand | ⟨ok, hnone⟩)
      · exact .inl ⟨i, hi, .inl hhand⟩
      · exact absurd hnone nofun
  | exited hi hidle hqueue hclosed => exact ht.setLane hi rfl rfl rfl rfl

/-- In a run that keeps to it the records of a partition are handled and
committed in order. -/
theorem orderly_in_order {maxPartitions : Nat} {actions : List Action} {s : State}
    (h : Run (OrderlyStep maxPartitions) .init actions s) : InOrder s := by
  have hinv : Linked s ∧ Placed s ∧ Traced s := by
    refine h.inv (fun t => Linked t ∧ Placed t ∧ Traced t) ⟨linked_init, placed_init, traced_init⟩ ?_
    rintro t a t' ⟨hl, hp, ht⟩ hstep
    exact ⟨hl.step hstep.2, hp.step hl hstep.2, ht.step hl hp hstep⟩
  exact hinv.2.2.order

theorem run_orderly {actions : List Action} (h : Run (OrderlyStep maxPartitions) .init actions s) (a : Action)
    (hstep : Step maxPartitions s a s') (horderly : Orderly maxPartitions s a) :
    Run (OrderlyStep maxPartitions) .init (actions ++ [a]) s' :=
  h.snoc ⟨horderly, hstep⟩

/-- Two records of one partition: the lane takes the second while the first is
being committed. -/
theorem two_records_in_order : ∃ actions s, Run (OrderlyStep 1) .init actions s ∧ InOrder s ∧
    s.history = [.started ⟨0, 0⟩, .ended ⟨0, 0⟩ true, .started ⟨1, 0⟩, .committed ⟨0, 0⟩] := by
  have h : Run (OrderlyStep 1) .init [] .init := .nil
  replace h := run_orderly h .receive (.drained rfl rfl) trivial
  replace h := run_orderly h (.deliver 0) (.opened rfl rfl (by decide)) fun _ hcap => absurd hcap (by decide)
  replace h := run_orderly h .queue (.queued rfl rfl) trivial
  replace h := run_orderly h .receive (.drained rfl rfl) trivial
  replace h := run_orderly h (.deliver 0) (.routed rfl rfl) fun hnone => absurd hnone (by decide)
  replace h := run_orderly h .queue (.queued rfl rfl) trivial
  replace h := run_orderly h (.begin 0) (.began (by decide) rfl nofun) trivial
  replace h := run_orderly h (.take 0) (.took (by decide) ⟨rfl, rfl, rfl, rfl⟩ rfl rfl) fun _ => nofun
  replace h := run_orderly h (.finish 0 true) (.finished (by decide) rfl) trivial
  replace h := run_orderly h (.report 0) (.reported (by decide) rfl) trivial
  replace h := run_orderly h (.take 0) (.took (by decide) ⟨rfl, rfl, rfl, rfl⟩ rfl rfl) fun _ => nofun
  replace h := run_orderly h .receive (.received rfl rfl) trivial
  replace h := run_orderly h (.commit true) (.committed (.inl rfl)) trivial
  exact ⟨_, _, h, orderly_in_order h, rfl⟩

/-- Over the lane cap a record is handled and committed while the retiring lane
of its partition handles the one before it. -/
theorem inline_overtakes_retiring : ∃ actions s, Run (Step 1) .init actions s ∧ ¬ InOrder s := by
  have h : Run (Step 1) .init [] .init := .nil
  replace h := h.snoc (a := .receive) (.drained rfl rfl)
  replace h := h.snoc (a := .deliver 0) (.opened rfl rfl (by decide))
  replace h := h.snoc (a := .queue) (.queued rfl rfl)
  replace h := h.snoc (a := .begin 0) (.began (by decide) rfl (by nofun))
  replace h := h.snoc (a := .take 0) (.took (by decide) ⟨rfl, rfl, rfl, rfl⟩ rfl rfl)
  replace h := h.snoc (a := .receive) (.drained rfl rfl)
  replace h := h.snoc (a := .probe fun partition => partition == 1) (.probed rfl)
  replace h := h.snoc (a := .receive) (.drained rfl rfl)
  replace h := h.snoc (a := .deliver 1) (.opened rfl rfl (by decide))
  replace h := h.snoc (a := .queue) (.queued rfl rfl)
  replace h := h.snoc (a := .receive) (.drained rfl rfl)
  replace h := h.snoc (a := .deliver 0) (.inlined rfl rfl (by decide))
  replace h := h.snoc (a := .handled true) (.handled rfl)
  replace h := h.snoc (a := .commit true) (.committed (.inr rfl))
  refine ⟨_, _, h, fun hordered => ?_⟩
  have hended := hordered.commits [.started ⟨0, 0⟩, .started ⟨2, 0⟩, .ended ⟨2, 0⟩ true] ⟨2, 0⟩ [] rfl ⟨0, 0⟩
    ⟨rfl, rfl, by decide⟩
  exact absurd hended (by decide)

-- The drain commits a record of the lane that followed a failed one.
example : ∃ actions s, Run (Step 1) .init actions s ∧ ¬ InOrder s := by
  have h : Run (Step 1) .init [] .init := .nil
  replace h := h.snoc (a := .receive) (.drained rfl rfl)
  replace h := h.snoc (a := .deliver 0) (.opened rfl rfl (by decide))
  replace h := h.snoc (a := .queue) (.queued rfl rfl)
  replace h := h.snoc (a := .receive) (.drained rfl rfl)
  replace h := h.snoc (a := .probe fun _ => false) (.probed rfl)
  replace h := h.snoc (a := .receive) (.drained rfl rfl)
  replace h := h.snoc (a := .deliver 0) (.opened rfl rfl (by decide))
  replace h := h.snoc (a := .queue) (.queued rfl rfl)
  replace h := h.snoc (a := .begin 0) (.began (by decide) rfl (by nofun))
  replace h := h.snoc (a := .take 0) (.took (by decide) ⟨rfl, rfl, rfl, rfl⟩ rfl rfl)
  replace h := h.snoc (a := .finish 0 false) (.finished (by decide) rfl)
  replace h := h.snoc (a := .report 0) (.reported (by decide) rfl)
  replace h := h.snoc (a := .begin 1) (.began (by decide) rfl (by rintro other ⟨⟩; rfl))
  replace h := h.snoc (a := .take 1) (.took (by decide) ⟨rfl, rfl, rfl, rfl⟩ rfl rfl)
  replace h := h.snoc (a := .finish 1 true) (.finished (by decide) rfl)
  replace h := h.snoc (a := .report 1) (.reported (by decide) rfl)
  replace h := h.snoc (a := .receive) (.refused rfl rfl)
  replace h := h.snoc (a := .drain true) (.drainCommitted rfl rfl rfl rfl)
  refine ⟨_, _, h, fun hordered => ?_⟩
  have hended := hordered.commits [.started ⟨0, 0⟩, .ended ⟨0, 0⟩ false, .started ⟨1, 0⟩, .ended ⟨1, 0⟩ true] ⟨1, 0⟩ []
    rfl ⟨0, 0⟩ ⟨rfl, rfl, by decide⟩
  exact absurd hended (by decide)

end LaserSdk.Lanes

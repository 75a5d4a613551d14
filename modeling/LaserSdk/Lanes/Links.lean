import Mathlib.Order.Nat
import LaserSdk.Lanes.Drive
/-!
# How lanes follow each other

A lane begins once every earlier lane of its partition is done: it waits for
the one that was retiring when it was spawned, which waited for the one before
it. A partition has one open lane at most, its newest.
-/

namespace LaserSdk.Lanes

open Lib

variable {maxPartitions : Nat} {s s' : State} {a : Action}

/-- A failure waits in the channel, or ended the polling task. -/
def State.failing (s : State) : Prop := (∃ outcome, s.phase = .returned outcome) ∨ ∃ d, ⟨d, false⟩ ∈ s.channel

/-- What one lane keeps. -/
structure LaneOk (l : Lane) : Prop where
  hand : l.hand ≠ none → l.begun = true ∧ l.finished = false ∧ l.pending = none
  pending : l.pending ≠ none → l.begun = true ∧ l.finished = false
  finished : l.finished = true → l.begun = true
  failed : l.failed = true → l.finished = true ∨ ∃ d, l.pending = some ⟨d, false⟩

structure Linked (s : State) : Prop where
  lane : ∀ i < s.spawned, LaneOk (s.lanes i)
  begun : ∀ i < s.spawned, (s.lanes i).begun = true → ∀ j < i, (s.lanes j).partition = (s.lanes i).partition →
    (s.lanes j).finished = true
  waits : ∀ i < s.spawned, ∀ k < i, (s.lanes k).partition = (s.lanes i).partition → (s.lanes k).finished = true ∨
    ∃ j < i, (s.lanes i).predecessor = some j ∧ k ≤ j ∧ (s.lanes j).partition = (s.lanes i).partition
  tip : ∀ i < s.spawned, (s.lanes i).finished = false → ∃ j < s.spawned, i ≤ j ∧
    (s.lanes j).partition = (s.lanes i).partition ∧
    (s.active.lookup (s.lanes i).partition = some j ∨ s.retiring (s.lanes i).partition = some j)
  active : ∀ p j, s.active.lookup p = some j → j < s.spawned ∧ (s.lanes j).partition = p ∧
    (s.lanes j).closed = false ∧ s.retiring p = none ∧ ∀ k < s.spawned, (s.lanes k).partition = p → k ≤ j
  retiring : ∀ p j, s.retiring p = some j → j < s.spawned ∧ (s.lanes j).partition = p
  target : ∀ d i, s.phase = .queueing d i → s.active.lookup d.partition = some i
  done : ∀ i < s.spawned, (s.lanes i).finished = true → (s.lanes i).closed = true ∨ s.failing
  halt : s.stop = true → ∃ outcome, s.phase = .returned outcome

theorem linked_init : Linked .init where
  lane := nofun
  begun := nofun
  waits := nofun
  tip := nofun
  active := nofun
  retiring := nofun
  target := nofun
  done := nofun
  halt := nofun

/-- A move of the polling task alone. -/
theorem Linked.move (h : Linked s) {phase : Phase} {channel : List Completion} {history : List Event} {delivered : List Nat}
    {drainFailed : Bool}
    (htarget : ∀ d i, phase = .queueing d i → s.active.lookup d.partition = some i)
    (hfailing : s.failing → (∃ outcome, phase = .returned outcome) ∨ ∃ d, ⟨d, false⟩ ∈ channel)
    (hhalt : (∃ outcome, s.phase = .returned outcome) → ∃ outcome, phase = .returned outcome) :
    Linked { s with phase, channel, history, delivered, drainFailed } :=
  { h with
    target := htarget
    done := fun i hi hfinished => (h.done i hi hfinished).imp_right hfailing
    halt := fun hstop => hhalt (h.halt hstop) }

/-- A step of one lane. -/
theorem Linked.setLane (h : Linked s) {i : Nat} {l : Lane} {phase : Phase} {channel : List Completion} {history : List Event}
    (hpartition : l.partition = (s.lanes i).partition) (hpredecessor : l.predecessor = (s.lanes i).predecessor)
    (hclosed : l.closed = (s.lanes i).closed) (hlane : LaneOk l)
    (hfinished : (s.lanes i).finished = true → l.finished = true)
    (hbegun : l.begun = true → ∀ j < i, (s.lanes j).partition = (s.lanes i).partition → (s.lanes j).finished = true)
    (hdone : l.finished = true → l.closed = true ∨ (∃ outcome, phase = .returned outcome) ∨ ∃ d, ⟨d, false⟩ ∈ channel)
    (hfailing : s.failing → (∃ outcome, phase = .returned outcome) ∨ ∃ d, ⟨d, false⟩ ∈ channel)
    (htarget : ∀ d i, phase = .queueing d i → s.active.lookup d.partition = some i)
    (hhalt : (∃ outcome, s.phase = .returned outcome) → ∃ outcome, phase = .returned outcome) :
    Linked { s.setLane i l with phase, channel, history } := by
  have hpart : ∀ j, (Function.update s.lanes i l j).partition = (s.lanes j).partition := by
    intro j
    by_cases hj : j = i
    · rw [hj, Function.update_self, hpartition]
    · rw [Function.update_of_ne hj]
  have hfin : ∀ j, (s.lanes j).finished = true → (Function.update s.lanes i l j).finished = true := by
    intro j hold
    by_cases hj : j = i
    · rw [hj, Function.update_self]
      exact hfinished (hj ▸ hold)
    · rwa [Function.update_of_ne hj]
  have hpre : ∀ j, (Function.update s.lanes i l j).predecessor = (s.lanes j).predecessor := by
    intro j
    by_cases hj : j = i
    · rw [hj, Function.update_self, hpredecessor]
    · rw [Function.update_of_ne hj]
  have hclo : ∀ j, (Function.update s.lanes i l j).closed = (s.lanes j).closed := by
    intro j
    by_cases hj : j = i
    · rw [hj, Function.update_self, hclosed]
    · rw [Function.update_of_ne hj]
  constructor
  · intro j hj
    show LaneOk (Function.update s.lanes i l j)
    by_cases hji : j = i
    · rwa [hji, Function.update_self]
    · rw [Function.update_of_ne hji]
      exact h.lane j hj
  · intro j hj hbegan k hk hsame
    change (Function.update s.lanes i l k).partition = (Function.update s.lanes i l j).partition at hsame
    rw [hpart, hpart] at hsame
    change (Function.update s.lanes i l j).begun = true at hbegan
    apply hfin
    by_cases hji : j = i
    · subst hji
      rw [Function.update_self] at hbegan
      exact hbegun hbegan k hk hsame
    · rw [Function.update_of_ne hji] at hbegan
      exact h.begun j hj hbegan k hk hsame
  · intro j hj k hk hsame
    change (Function.update s.lanes i l k).partition = (Function.update s.lanes i l j).partition at hsame
    rw [hpart, hpart] at hsame
    rcases h.waits j hj k hk hsame with hdone | ⟨m, hm, hwait, hle, hsame'⟩
    · exact .inl (hfin k hdone)
    · exact .inr ⟨m, hm, (hpre j).trans hwait, hle, (hpart m).trans (hsame'.trans (hpart j).symm)⟩
  · intro j hj hopen
    have hold : (s.lanes j).finished = false := by
      by_contra hne
      have := hfin j (Bool.not_eq_false _ ▸ hne)
      exact absurd (hopen.symm.trans this) (by decide)
    obtain ⟨m, hm, hle, hsame, hwhere⟩ := h.tip j hj hold
    refine ⟨m, hm, hle, (hpart m).trans (hsame.trans (hpart j).symm), ?_⟩
    change s.active.lookup (Function.update s.lanes i l j).partition = some m ∨
      s.retiring (Function.update s.lanes i l j).partition = some m
    rwa [hpart]
  · intro p j hj
    obtain ⟨hlt, hp, hopen, hretiring, hnewest⟩ := h.active p j hj
    exact ⟨hlt, (hpart j).trans hp, (hclo j).trans hopen, hretiring, fun k hk hkp => hnewest k hk ((hpart k).symm.trans hkp)⟩
  · intro p j hj
    obtain ⟨hlt, hp⟩ := h.retiring p j hj
    exact ⟨hlt, (hpart j).trans hp⟩
  · exact htarget
  · intro j hj hold
    show (Function.update s.lanes i l j).closed = true ∨ _
    change (Function.update s.lanes i l j).finished = true at hold
    by_cases hji : j = i
    · subst hji
      rw [Function.update_self] at hold ⊢
      exact hdone hold
    · rw [Function.update_of_ne hji] at hold ⊢
      exact (h.done j hj hold).imp_right hfailing
  · exact fun hstop => hhalt (h.halt hstop)

theorem lookup_filter (assigned : Nat → Bool) (l : List (Nat × Nat)) (p : Nat) :
    (l.filter fun entry => assigned entry.1).lookup p = if assigned p then l.lookup p else none := by
  induction l with
  | nil => simp
  | cons entry rest ih =>
    obtain ⟨q, i⟩ := entry
    by_cases hpq : p = q
    · subst hpq
      cases hassigned : assigned p with
      | true => simp [hassigned]
      | false => simpa [hassigned] using ih
    · cases hassigned : assigned q with
      | true => simpa [hassigned, List.lookup_cons, beq_false_of_ne hpq] using ih
      | false => simpa [hassigned, List.lookup_cons, beq_false_of_ne hpq] using ih

/-- The new lane is the newest of its partition, and it waits for every
unfinished one before it. -/
theorem Linked.spawnLane (h : Linked s) (hphase : s.phase = .selecting) {p : Nat} (hnone : s.active.lookup p = none) :
    Linked (s.spawnLane p) := by
  have hold : ∀ j < s.spawned, (s.spawnLane p).lanes j = s.lanes j := by
    intro j hj
    exact Function.update_of_ne (Nat.ne_of_lt hj) _ _
  have hnew : (s.spawnLane p).lanes s.spawned = .new p (s.retiring p) := Function.update_self _ _ _
  have hcases : ∀ j < (s.spawnLane p).spawned, j < s.spawned ∨ j = s.spawned := fun j hj => Nat.lt_succ_iff_lt_or_eq.1 hj
  constructor
  · intro i hi
    rcases hcases i hi with hlt | rfl
    · rw [hold i hlt]
      exact h.lane i hlt
    · rw [hnew]
      exact ⟨nofun, nofun, nofun, nofun⟩
  · intro i hi hbegun j hj hsame
    rcases hcases i hi with hlt | rfl
    · rw [hold i hlt] at hbegun hsame
      rw [hold j (hj.trans hlt)] at hsame ⊢
      exact h.begun i hlt hbegun j hj hsame
    · rw [hnew] at hbegun
      exact absurd hbegun (by simp [Lane.new])
  · intro i hi k hk hsame
    rcases hcases i hi with hlt | rfl
    · rw [hold i hlt] at hsame ⊢
      rw [hold k (hk.trans hlt)] at hsame ⊢
      rcases h.waits i hlt k hk hsame with hdone | ⟨j, hj, hwait, hle, hpart⟩
      · exact .inl hdone
      · exact .inr ⟨j, hj, hwait, hle, by rw [hold j (hj.trans hlt), hpart]⟩
    · rw [hnew] at hsame ⊢
      rw [hold k hk] at hsame ⊢
      change (s.lanes k).partition = p at hsame
      cases hfinished : (s.lanes k).finished with
      | true => exact .inl rfl
      | false =>
        obtain ⟨j, hj, hle, hpart, hwhere⟩ := h.tip k hk hfinished
        rw [hsame, hnone] at hwhere
        rw [hsame] at hpart
        refine .inr ⟨j, hj, hwhere.resolve_left nofun, hle, ?_⟩
        rw [hold j hj]
        exact hpart
  · intro i hi hopen
    rcases hcases i hi with hlt | rfl
    · rw [hold i hlt] at hopen ⊢
      by_cases hp : (s.lanes i).partition = p
      · refine ⟨s.spawned, Nat.lt_succ_self _, hlt.le, by rw [hnew, hp]; rfl, .inl ?_⟩
        simp [State.spawnLane, hp]
      · obtain ⟨j, hj, hle, hpart, hwhere⟩ := h.tip i hlt hopen
        refine ⟨j, hj.trans (Nat.lt_succ_self _), hle, by rw [hold j hj, hpart], ?_⟩
        simpa [State.spawnLane, List.lookup_cons, beq_false_of_ne hp, Function.update_of_ne hp] using hwhere
    · refine ⟨s.spawned, hi, le_rfl, rfl, .inl ?_⟩
      rw [hnew]
      simp [State.spawnLane, Lane.new]
  · intro q j hj
    by_cases hq : q = p
    · subst hq
      have hj' : s.spawned = j := by simpa [State.spawnLane] using hj
      subst hj'
      refine ⟨Nat.lt_succ_self _, by rw [hnew]; rfl, by rw [hnew]; rfl, Function.update_self _ _ _, ?_⟩
      intro k hk _
      exact Nat.lt_succ_iff.1 hk
    · have hj' : s.active.lookup q = some j := by
        simpa [State.spawnLane, List.lookup_cons, beq_false_of_ne hq] using hj
      obtain ⟨hlt, hpart, hopen, hretiring, hnewest⟩ := h.active q j hj'
      refine ⟨hlt.trans (Nat.lt_succ_self _), by rw [hold j hlt, hpart], by rw [hold j hlt, hopen], ?_, ?_⟩
      · exact (Function.update_of_ne hq _ _).trans hretiring
      · intro k hk hkq
        rcases hcases k hk with hlt' | rfl
        · rw [hold k hlt'] at hkq
          exact hnewest k hlt' hkq
        · rw [hnew] at hkq
          exact absurd hkq.symm hq
  · intro q j hj
    by_cases hq : q = p
    · exact absurd ((congrArg _ hq).symm.trans hj) (by simp [State.spawnLane])
    · have hj' : s.retiring q = some j := (Function.update_of_ne hq _ _).symm.trans hj
      obtain ⟨hlt, hpart⟩ := h.retiring q j hj'
      exact ⟨hlt.trans (Nat.lt_succ_self _), by rw [hold j hlt, hpart]⟩
  · intro d i hqueue
    exact absurd (hphase.symm.trans hqueue) nofun
  · intro i hi hdone
    rcases hcases i hi with hlt | rfl
    · rw [hold i hlt] at hdone ⊢
      exact h.done i hlt hdone
    · rw [hnew] at hdone
      exact absurd hdone (by simp [Lane.new])
  · exact h.halt

/-- An unfinished lane has no finished one after it. -/
theorem Linked.tip_open (h : Linked s) {i j : Nat} (hj : j < s.spawned) (hle : i ≤ j)
    (hpart : (s.lanes j).partition = (s.lanes i).partition) (hopen : (s.lanes i).finished = false) :
    (s.lanes j).finished = false := by
  by_contra hne
  have hdone : (s.lanes j).finished = true := by simpa using hne
  rcases hle.eq_or_lt with rfl | hlt
  · rw [hdone] at hopen
    exact absurd hopen (by decide)
  · have := h.begun j hj ((h.lane j hj).finished hdone) i hlt hpart.symm
    rw [this] at hopen
    exact absurd hopen (by decide)

/-- Only lanes that are done are forgotten. -/
theorem Linked.dropRevoked (h : Linked s) (hphase : s.phase = .selecting) (assigned : Nat → Bool) :
    Linked (s.dropRevoked assigned) := by
  have hlane : ∀ j, ∃ closed, (s.dropRevoked assigned).lanes j = { s.lanes j with closed } ∧
      ((s.lanes j).closed = true → closed = true) ∧ (assigned (s.lanes j).partition = true → closed = (s.lanes j).closed) := by
    intro j
    simp only [State.dropRevoked]
    split
    · rename_i hrevoked
      refine ⟨true, rfl, fun _ => rfl, fun hassigned => ?_⟩
      rw [hassigned] at hrevoked
      exact absurd hrevoked.2 (by decide)
    · exact ⟨_, rfl, id, fun _ => rfl⟩
  have hpart : ∀ j, ((s.dropRevoked assigned).lanes j).partition = (s.lanes j).partition := by
    intro j
    obtain ⟨_, heq, -⟩ := hlane j
    rw [heq]
  have hpre : ∀ j, ((s.dropRevoked assigned).lanes j).predecessor = (s.lanes j).predecessor := by
    intro j
    obtain ⟨_, heq, -⟩ := hlane j
    rw [heq]
  have hfin : ∀ j, ((s.dropRevoked assigned).lanes j).finished = (s.lanes j).finished := by
    intro j
    obtain ⟨_, heq, -⟩ := hlane j
    rw [heq]
  have hactive : ∀ p, (s.dropRevoked assigned).active.lookup p = if assigned p then s.active.lookup p else none :=
    lookup_filter assigned s.active
  constructor
  · intro i hi
    obtain ⟨_, heq, -⟩ := hlane i
    rw [heq]
    exact ⟨(h.lane i hi).hand, (h.lane i hi).pending, (h.lane i hi).finished, (h.lane i hi).failed⟩
  · intro i hi hbegun j hj hsame
    rw [hpart, hpart] at hsame
    rw [hfin]
    obtain ⟨_, heq, -⟩ := hlane i
    rw [heq] at hbegun
    exact h.begun i hi hbegun j hj hsame
  · intro i hi k hk hsame
    rw [hpart, hpart] at hsame
    rw [hfin, hpre]
    rcases h.waits i hi k hk hsame with hdone | ⟨j, hj, hwait, hle, hsame'⟩
    · exact .inl hdone
    · exact .inr ⟨j, hj, hwait, hle, by rw [hpart, hpart, hsame']⟩
  · intro i hi hopen
    rw [hfin] at hopen
    obtain ⟨j, hj, hle, hsame, hwhere⟩ := h.tip i hi hopen
    have hopen' : (s.lanes j).finished = false := h.tip_open hj hle hsame hopen
    refine ⟨j, hj, hle, by rw [hpart, hpart, hsame], ?_⟩
    rw [hpart, hactive]
    generalize (s.lanes i).partition = p at hwhere
    cases hassigned : assigned p with
    | true =>
      refine hwhere.imp id fun hretiring => ?_
      simp [State.dropRevoked, hassigned, hretiring, hopen', Option.filter]
    | false =>
      -- The lane of a revoked partition turns into its retiring one.
      right
      cases hwhere with
      | inl hlookup => simp [State.dropRevoked, hassigned, hlookup, hopen', Option.filter]
      | inr hretiring =>
        have hnone : s.active.lookup p = none := by
          cases hlookup : s.active.lookup p with
          | none => rfl
          | some k =>
            rw [(h.active p k hlookup).2.2.2.1] at hretiring
            exact absurd hretiring nofun
        simp [State.dropRevoked, hassigned, hnone, hretiring, hopen', Option.filter]
  · intro p j hj
    rw [hactive] at hj
    cases hassigned : assigned p with
    | false => simp [hassigned] at hj
    | true =>
      rw [hassigned, if_pos rfl] at hj
      obtain ⟨hlt, hp, hopen, hretiring, hnewest⟩ := h.active p j hj
      refine ⟨hlt, by rw [hpart, hp], ?_, ?_, ?_⟩
      · obtain ⟨closed, heq, -, hsame⟩ := hlane j
        rw [heq]
        exact (hsame (hp ▸ hassigned)).trans hopen
      · simp [State.dropRevoked, hassigned, hretiring]
      · intro k hk hkp
        rw [hpart] at hkp
        exact hnewest k hk hkp
  · intro p j hj
    rw [hpart]
    obtain ⟨hwhich, -⟩ := Option.filter_eq_some_iff.1 hj
    cases hassigned : assigned p with
    | true =>
      rw [hassigned, if_pos rfl, Option.none_or] at hwhich
      exact h.retiring p j hwhich
    | false =>
      rw [hassigned, if_neg (by decide)] at hwhich
      cases hlookup : s.active.lookup p with
      | none =>
        rw [hlookup, Option.none_or] at hwhich
        exact h.retiring p j hwhich
      | some k =>
        rw [hlookup, Option.some_or, Option.some.injEq] at hwhich
        subst hwhich
        exact ⟨(h.active p k hlookup).1, (h.active p k hlookup).2.1⟩
  · intro d i hqueue
    exact absurd (hphase.symm.trans hqueue) nofun
  · intro i hi hdone
    rw [hfin] at hdone
    obtain ⟨closed, heq, hclosed, -⟩ := hlane i
    rw [heq]
    exact (h.done i hi hdone).imp_left hclosed
  · exact h.halt

/-- A failure in the channel stays there or ends the polling task. -/
theorem failing_of_channel {phase : Phase} {channel : List Completion}
    (hsub : ∀ d, ⟨d, false⟩ ∈ s.channel → ⟨d, false⟩ ∈ channel) (hphase : ∀ outcome, s.phase ≠ .returned outcome)
    (hfailing : s.failing) : (∃ outcome, phase = .returned outcome) ∨ ∃ d, ⟨d, false⟩ ∈ channel := by
  rcases hfailing with ⟨outcome, hreturned⟩ | ⟨d, hd⟩
  · exact absurd hreturned (hphase outcome)
  · exact .inr ⟨d, hsub d hd⟩

/-- The polling task goes on, with every failure still in the channel. -/
theorem Linked.goOn (h : Linked s) {phase : Phase} {channel : List Completion} {history : List Event} {delivered : List Nat}
    {drainFailed : Bool} (hphase : ∀ outcome, s.phase ≠ .returned outcome)
    (htarget : ∀ d i, phase = .queueing d i → s.active.lookup d.partition = some i)
    (hsub : ∀ d, ⟨d, false⟩ ∈ s.channel → ⟨d, false⟩ ∈ channel) :
    Linked { s with phase, channel, history, delivered, drainFailed } :=
  h.move htarget (failing_of_channel hsub hphase) fun ⟨outcome, hreturned⟩ => absurd hreturned (hphase outcome)

/-- The polling task returns. -/
theorem Linked.returns (h : Linked s) (outcome : LaneOutcome) {channel : List Completion} {history : List Event}
    {delivered : List Nat} {drainFailed : Bool} :
    Linked { s with phase := .returned outcome, channel, history, delivered, drainFailed } :=
  h.move nofun (fun _ => .inl ⟨outcome, rfl⟩) fun _ => ⟨outcome, rfl⟩

theorem Linked.step (h : Linked s) (hstep : Step maxPartitions s a s') : Linked s' := by
  cases hstep with
  | drained hphase hchannel =>
    exact h.goOn (by simp [hphase]) nofun fun _ => id
  | @received d rest hphase hchannel =>
    refine h.goOn (by simp [hphase]) nofun fun e he => ?_
    simpa [hchannel] using he
  | refused hphase hchannel => exact h.returns _
  | committed hphase =>
    rcases hphase with hphase | hphase
    · exact h.goOn (by simp [hphase]) nofun fun _ => id
    · exact h.goOn (by simp [hphase]) nofun fun _ => id
  | commitFailed hphase => exact h.returns _
  | woken hphase => exact h.goOn (by simp [hphase]) nofun fun _ => id
  | @probed assigned hphase =>
    refine (h.dropRevoked hphase assigned).goOn ?_ nofun fun _ => id
    exact fun outcome heq => absurd (hphase.symm.trans heq) nofun
  | inlined hphase hlane hcap =>
    exact h.goOn (by simp [hphase]) nofun fun _ => id
  | routed hphase hlane =>
    refine h.goOn (by simp [hphase]) ?_ fun _ => id
    intro d i heq
    obtain ⟨rfl, rfl⟩ : s.incoming _ = d ∧ _ = i := by simpa using heq
    exact hlane
  | @opened p hphase hlane hcap =>
    refine (h.spawnLane hphase hlane).goOn ?_ ?_ fun _ => id
    · exact fun outcome heq => absurd (hphase.symm.trans heq) nofun
    · intro d i heq
      obtain ⟨rfl, rfl⟩ : s.incoming p = d ∧ s.spawned = i := by simpa using heq
      simp [State.spawnLane, State.incoming]
  | @queued d i hphase hopen =>
    have hi : i < s.spawned := (h.active _ i (h.target d i hphase)).1
    refine h.setLane rfl rfl rfl ?_ id ?_ ?_ ?_ nofun (by simp [hphase])
    · exact ⟨(h.lane i hi).hand, (h.lane i hi).pending, (h.lane i hi).finished, (h.lane i hi).failed⟩
    · exact h.begun i hi
    · exact fun hdone => absurd (hopen.symm.trans hdone) (by decide)
    · exact failing_of_channel (fun _ => id) (by simp [hphase])
  | dropped hphase hdone =>
    exact h.goOn (by simp [hphase]) nofun fun _ => id
  | @handled d ok hphase =>
    refine h.goOn (by simp [hphase]) ?_ fun _ => id
    cases ok <;> exact nofun
  | stopped hphase => exact h.returns _
  | failed hphase => exact h.returns _
  | rejected hphase => exact (h.dropRevoked hphase _).returns _
  | drainCommitted hphase hstop hchannel hgood =>
    exact h.move h.target (fun _ => .inl ⟨_, hphase⟩) fun _ => ⟨_, hphase⟩
  | drainRefused hphase hstop hchannel hgood =>
    exact h.move h.target (fun _ => .inl ⟨_, hphase⟩) fun _ => ⟨_, hphase⟩
  | drainSkipped hphase hstop hchannel hbad =>
    exact h.move h.target (fun _ => .inl ⟨_, hphase⟩) fun _ => ⟨_, hphase⟩
  | raised hphase => exact { h with halt := fun _ => ⟨_, hphase⟩ }
  | @began i hi hwaits hpredecessor =>
    have hidle := h.lane i hi
    refine h.setLane rfl rfl rfl ?_ id ?_ ?_ id h.target id
    · refine ⟨fun hhand => ?_, fun hpending => ?_, fun _ => rfl, hidle.failed⟩
      · exact absurd ((hidle.hand hhand).1.symm.trans hwaits) (by decide)
      · exact absurd ((hidle.pending hpending).1.symm.trans hwaits) (by decide)
    · intro _ j hj hsame
      rcases h.waits i hi j hj hsame with hdone | ⟨k, hk, hwait, hle, hsame'⟩
      · exact hdone
      · by_contra hne
        have hopen : (s.lanes j).finished = false := by simpa using hne
        have := h.tip_open (hk.trans hi) hle (hsame'.trans hsame.symm) hopen
        exact absurd (this.symm.trans (hpredecessor k hwait)) (by decide)
    · exact fun hdone => absurd ((hidle.finished hdone).symm.trans hwaits) (by decide)
  | @took i d rest hi hidle hqueue hstop =>
    obtain ⟨hbegun, hopen, hhand, hpending⟩ := hidle
    refine h.setLane rfl rfl rfl ?_ id (fun _ => h.begun i hi hbegun) ?_ id h.target id
    · exact ⟨fun _ => ⟨hbegun, hopen, hpending⟩, (h.lane i hi).pending, (h.lane i hi).finished, (h.lane i hi).failed⟩
    · exact fun hdone => absurd (hopen.symm.trans hdone) (by decide)
  | @halted i d rest hi hidle hqueue hstop =>
    obtain ⟨hbegun, hopen, hhand, hpending⟩ := hidle
    refine h.setLane rfl rfl rfl ?_ (fun _ => rfl) (fun _ => h.begun i hi hbegun) ?_ id h.target id
    · exact ⟨fun hne => absurd hhand hne, fun hne => absurd hpending hne, fun _ => hbegun, fun _ => .inl rfl⟩
    · exact fun _ => .inr (.inl (h.halt hstop))
  | @finished i d ok hi hhand =>
    obtain ⟨hbegun, hopen, hpending⟩ := (h.lane i hi).hand (by simp [hhand])
    refine h.setLane rfl rfl rfl ?_ id (fun _ => h.begun i hi hbegun) ?_ id h.target id
    · refine ⟨nofun, fun _ => ⟨hbegun, hopen⟩, fun _ => hbegun, fun hfailed => ?_⟩
      cases ok with
      | false => exact .inr ⟨d, rfl⟩
      | true =>
        have hbefore : (s.lanes i).failed = true := by simpa using hfailed
        rcases (h.lane i hi).failed hbefore with hdone | ⟨e, he⟩
        · exact .inl hdone
        · exact absurd (hpending.symm.trans he) nofun
    · exact fun hdone => absurd (hopen.symm.trans hdone) (by decide)
  | @reported i c hi hpending =>
    obtain ⟨hbegun, hopen⟩ := (h.lane i hi).pending (by simp [hpending])
    have hhand : (s.lanes i).hand = none := by
      by_contra hne
      exact absurd (((h.lane i hi).hand hne).2.2.symm.trans hpending) nofun
    refine h.setLane rfl rfl rfl ?_ ?_ (fun _ => h.begun i hi hbegun) ?_ ?_ h.target id
    · refine ⟨fun hne => absurd hhand hne, nofun, fun _ => hbegun, fun hfailed => .inl ?_⟩
      rcases (h.lane i hi).failed hfailed with hdone | ⟨e, he⟩
      · exact absurd (hopen.symm.trans hdone) (by decide)
      · rw [hpending, Option.some.injEq] at he
        rw [he]
        rfl
    · exact fun hdone => absurd (hopen.symm.trans hdone) (by decide)
    · intro hdone
      obtain ⟨e, ok⟩ := c
      have hok : ok = false := by simpa using hdone
      exact .inr (.inr ⟨e, by simp [hok]⟩)
    · exact Or.imp_right fun ⟨e, he⟩ => ⟨e, List.mem_append_left _ he⟩
  | @exited i hi hidle hqueue hclosed =>
    obtain ⟨hbegun, hopen, hhand, hpending⟩ := hidle
    refine h.setLane rfl rfl rfl ?_ (fun _ => rfl) (fun _ => h.begun i hi hbegun) ?_ id h.target id
    · exact ⟨fun hne => absurd hhand hne, fun hne => absurd hpending hne, fun _ => hbegun, fun _ => .inl rfl⟩
    · exact fun _ => hclosed.imp_right .inl

end LaserSdk.Lanes

import LaserSdk.Lib.Firsts
import LaserSdk.Publish.Batching
/-!
# No record is lost silently

Every record is in one place: with the `send` that has not queued it, in the
queue, in the batch of the flush that holds the lock, or done, which is on
the log or in the list of a failure. `Accounted` says so of a state, and
every step keeps it as long as failures list their records. A partition key
that is refused is the one failure that does not.
-/

namespace LaserSdk.Publish

open Lib

variable {accepts : String → Bool} {cfg : Config}

/-! ## Failures that list their records -/

def Listing (error : Option LaserError) : Prop := ∀ e, error = some e → ∃ failure, e = .publishFailed failure

theorem listing_none : Listing none := fun e h => by cases h

theorem listing_publishFailed (failure : PublishFailure) : Listing (some (.publishFailed failure)) := by
  intro e h
  cases h
  exact ⟨failure, rfl⟩

/-- A settled flush keeps or returns the records of the kept failure and of
its own. -/
theorem settle_records (trigger : Trigger) {kept sent : Option LaserError} (hkept : Listing kept) (hsent : Listing sent) :
    records (settle trigger kept sent).1 ++ records (settle trigger kept sent).2 = records kept ++ records sent ∧
      Listing (settle trigger kept sent).1 := by
  cases kept with
  | none =>
    cases sent with
    | none => cases trigger <;> exact ⟨rfl, listing_none⟩
    | some error =>
      cases trigger with
      | send => exact ⟨rfl, listing_none⟩
      | timer => exact ⟨List.append_nil _, hsent⟩
      | caller => exact ⟨rfl, listing_none⟩
  | some earlier =>
    obtain ⟨first, rfl⟩ := hkept earlier rfl
    cases sent with
    | none =>
      cases trigger with
      | send => exact ⟨rfl, hkept⟩
      | timer => exact ⟨rfl, hkept⟩
      | caller => exact ⟨(List.append_nil _).symm, listing_none⟩
    | some error =>
      obtain ⟨later, rfl⟩ := hsent error rfl
      cases trigger with
      | send => exact ⟨rfl, hkept⟩
      | timer => exact ⟨List.append_nil _, listing_publishFailed _⟩
      | caller => exact ⟨rfl, listing_none⟩

theorem settle_timer (kept sent : Option LaserError) : (settle .timer kept sent).2 = none := by
  cases kept <;> cases sent <;> rfl

/-! ## Where a record is -/

/-- The batch of the flush that holds the lock, as far as it is not done. -/
def State.pending (s : State) : List Record :=
  match s.flight with
  | some ⟨_, _, .appending pending _ _⟩ => pending
  | _ => []

/-- The records listed as unconfirmed by errors that calls returned. -/
def State.reported (s : State) : List Record := s.errors.flatMap LaserError.unconfirmed

/-- The records a failure lists, kept or returned. -/
def State.listed (s : State) : List Record := records s.kept ++ s.reported

/-- Where the records of a state are: `held` by sends that have not queued
them, `refused`, in the queue, pending, or `done`. -/
structure Accounted (s : State) (held refused done : List Record) : Prop where
  handed : s.handed.Perm (held ++ (refused ++ s.queued))
  queued : s.queued = done ++ (s.pending ++ s.queue)
  distinct : s.handed.Nodup
  sender : ∀ r ∈ s.handed, r.sender < s.started
  unused : ∀ n, s.started ≤ n → s.calls n = .unused
  holds : ∀ r, r ∈ held ↔ (s.calls r.sender).record = some r
  owner : ∀ n r, (s.calls n).record = some r → r.sender = n
  kept : Listing s.kept
  listed : s.listed.Nodup
  placed : ∀ r ∈ s.listed, r ∈ refused ∨ r ∈ done
  refusals : ∀ r ∈ refused, r ∈ s.listed
  settled : ∀ r ∈ done, r ∈ s.log ∨ r ∈ s.listed
  order : ∃ landed k, s.log.eraseDups = landed ++ s.pending.take k ∧ k ≤ publishBatchLength ∧ landed.Sublist done

/-- A step hands over, queues and appends nothing, and no call gets or gives
up its record. -/
structure Frame (s s' : State) : Prop where
  handed : s'.handed = s.handed
  queued : s'.queued = s.queued
  log : s'.log = s.log
  started : s.started ≤ s'.started
  unused : ∀ n, s'.started ≤ n → s'.calls n = .unused
  record : ∀ n, (s'.calls n).record = (s.calls n).record

namespace Accounted

variable {s s' : State} {held refused done : List Record}

/-- The records that were handed over stand in distinct places. -/
theorem places (h : Accounted s held refused done) :
    (held ++ (refused ++ (done ++ (s.pending ++ s.queue)))).Nodup := by
  have hperm := h.handed
  rw [h.queued] at hperm
  exact hperm.nodup_iff.1 h.distinct

/-- A record of a done, or refused, place is in no batch and not queued. -/
theorem disjoint_pending (h : Accounted s held refused done) {r : Record} (hr : r ∈ refused ∨ r ∈ done) :
    r ∉ s.pending ++ s.queue := by
  have hrest := (List.nodup_append'.1 h.places).2.1
  obtain ⟨_, hqueued, hrefused⟩ := List.nodup_append'.1 hrest
  intro hmem
  rcases hr with hr | hr
  · exact hrefused hr (List.mem_append_right _ hmem)
  · exact (List.nodup_append'.1 hqueued).2.2 hr hmem

/-- A step that moves records from the pending batch, which are on the log or
in the list of a new failure. -/
theorem progress (h : Accounted s held refused done) (hframe : Frame s s') {batch fresh : List Record}
    (hmoved : s.pending ++ s.queue = batch ++ (s'.pending ++ s'.queue))
    (hchunk : ∀ k ≤ publishBatchLength, ∃ k' ≤ publishBatchLength, ∃ part, part.Sublist batch ∧
      s.pending.take k = part ++ s'.pending.take k')
    (hfresh : fresh.Sublist batch) (hcovered : ∀ r ∈ batch, r ∈ s.log ∨ r ∈ fresh) (hkept : Listing s'.kept)
    (hlisted : s'.listed.Perm (s.listed ++ fresh)) : Accounted s' held refused (done ++ batch) := by
  have hmem : ∀ r, r ∈ s'.listed ↔ r ∈ s.listed ∨ r ∈ fresh := fun r => by rw [hlisted.mem_iff, List.mem_append]
  constructor
  · rw [hframe.handed, hframe.queued]
    exact h.handed
  · rw [hframe.queued, h.queued, hmoved, List.append_assoc]
  · rw [hframe.handed]
    exact h.distinct
  · rw [hframe.handed]
    exact fun r hr => Nat.lt_of_lt_of_le (h.sender r hr) hframe.started
  · exact hframe.unused
  · intro r
    rw [hframe.record]
    exact h.holds r
  · intro n r
    rw [hframe.record]
    exact h.owner n r
  · exact hkept
  · rw [hlisted.nodup_iff]
    refine List.nodup_append'.2 ⟨h.listed, hfresh.nodup ?_, fun r hold hnew => ?_⟩
    · have hplaces := (List.nodup_append'.1 (List.nodup_append'.1 (List.nodup_append'.1 h.places).2.1).2.1).2.1
      rw [hmoved] at hplaces
      exact (List.nodup_append'.1 hplaces).1
    · -- A listed record is done or refused, so it is in no batch.
      apply h.disjoint_pending (h.placed r hold)
      rw [hmoved]
      exact List.mem_append_left _ (hfresh.mem hnew)
  · intro r hr
    rcases (hmem r).1 hr with hold | hnew
    · exact (h.placed r hold).imp_right (List.mem_append_left _)
    · exact .inr (List.mem_append_right _ (hfresh.mem hnew))
  · exact fun r hr => (hmem r).2 (.inl (h.refusals r hr))
  · intro r hr
    rw [hframe.log, hmem]
    rcases List.mem_append.1 hr with hold | hnew
    · exact (h.settled r hold).imp_right .inl
    · exact (hcovered r hnew).imp_right .inr
  · obtain ⟨landed, k, hlog, hk, hlanded⟩ := h.order
    obtain ⟨k', hk', part, hpart, htake⟩ := hchunk k hk
    refine ⟨landed ++ part, k', ?_, hk', hlanded.append hpart⟩
    rw [hframe.log, hlog, htake, List.append_assoc]

/-- A step that moves no record. -/
theorem frame (h : Accounted s held refused done) (hframe : Frame s s') (hqueue : s'.queue = s.queue)
    (hpending : s'.pending = s.pending) (hkept : s'.kept = s.kept) (herrors : s'.errors = s.errors) :
    Accounted s' held refused done := by
  have hlisted : s'.listed = s.listed := by
    unfold State.listed State.reported
    rw [hkept, herrors]
  rw [← List.append_nil done]
  refine h.progress hframe  ?_ ?_ (List.Sublist.refl _) ?_ ?_ ?_
  · rw [hpending, hqueue, List.nil_append]
  · intro k hk
    exact ⟨k, hk, [], List.Sublist.refl _, by rw [hpending, List.nil_append]⟩
  · intro r hr
    cases hr
  · rw [hkept]
    exact h.kept
  · rw [hlisted, List.append_nil]

/-- The log takes the first records of the batch. -/
theorem land (h : Accounted s held refused done) {m : Nat} (hm : m ≤ publishBatchLength) :
    Accounted { s with log := s.log ++ s.pending.take m } held refused done := by
  obtain ⟨landed, k, hlog, hk, hlanded⟩ := h.order
  have hnodup : (landed ++ s.pending).Nodup := by
    have hqueued := (List.nodup_append'.1 (List.nodup_append'.1 h.places).2.1).2.1
    rw [← List.append_assoc] at hqueued
    exact (List.nodup_append'.1 hqueued).1.sublist (hlanded.append (List.Sublist.refl _))
  refine ⟨h.handed, h.queued, h.distinct, h.sender, h.unused, h.holds, h.owner, h.kept, h.listed, h.placed, h.refusals,
    fun r hr => (h.settled r hr).imp_left (List.mem_append_left _), landed, max k m, ?_, ?_, hlanded⟩
  · exact eraseDups_append_take hlog hnodup m
  · omega

theorem landed (h : Accounted s held refused done) (a : Attempt) :
    Accounted { s with log := s.log ++ a.landed (s.pending.take publishBatchLength) } held refused done := by
  unfold Attempt.landed
  -- One send of the attempt at a time.
  induction a.landings generalizing s with
  | nil => simpa using h
  | cons n rest ih =>
    have hlanded := h.land (m := min n publishBatchLength) (by omega)
    rw [List.flatMap_cons, ← List.append_assoc, List.take_take]
    exact ih hlanded

end Accounted

/-! ## The end of a flush -/

/-- The flush that holds the lock is in progress. -/
def Flying (s : State) : Prop := ∀ flight, s.flight = some flight → s.trigger flight.who = some flight.trigger

theorem trigger_timer {s : State} {trigger : Trigger} (h : s.trigger .timer = some trigger) :
    s.ticking = true ∧ trigger = .timer := by
  unfold State.trigger at h
  dsimp only at h
  split at h
  next hticking =>
    cases h
    exact ⟨hticking, rfl⟩
  next => cases h

theorem trigger_call {s : State} {n : Nat} {trigger : Trigger} (h : s.trigger (.call n) = some trigger) :
    s.calls n = .flushing trigger := by
  unfold State.trigger at h
  dsimp only at h
  split at h
  next hcall =>
    cases h
    exact hcall
  next => cases h

@[simp] theorem records_none : records none = [] := rfl

theorem perm_right_comm (a b c : List Record) : (a ++ b ++ c).Perm (a ++ c ++ b) := by
  rw [List.append_assoc, List.append_assoc]
  exact List.perm_append_comm.append_left a

theorem records_toList (error : Option LaserError) : error.toList.flatMap LaserError.unconfirmed = records error := by
  cases error with
  | none => rfl
  | some error => exact List.append_nil _

/-- The end of a flush leaves the records of its failure in a list. -/
theorem finish_listed {s : State} {who : Who} {trigger : Trigger} {sent : Option LaserError}
    (hwho : s.trigger who = some trigger) (hkept : Listing s.kept) (hsent : Listing sent) :
    (s.finish who trigger sent).listed.Perm (s.listed ++ records sent) ∧ Listing (s.finish who trigger sent).kept := by
  obtain ⟨hrecords, hlisting⟩ := settle_records trigger hkept hsent
  cases who with
  | timer =>
    obtain ⟨_, rfl⟩ := trigger_timer hwho
    rw [settle_timer, records_none, List.append_nil] at hrecords
    refine ⟨?_, hlisting⟩
    show (records (settle .timer s.kept sent).1 ++ s.reported).Perm (records s.kept ++ s.reported ++ records sent)
    rw [hrecords]
    exact perm_right_comm _ _ _
  | call n =>
    refine ⟨?_, hlisting⟩
    show (records (settle trigger s.kept sent).1 ++ (s.errors ++ (settle trigger s.kept sent).2.toList).flatMap
      LaserError.unconfirmed).Perm (records s.kept ++ s.reported ++ records sent)
    rw [List.flatMap_append, records_toList, ← List.append_assoc]
    refine (perm_right_comm _ _ _).trans ?_
    rw [hrecords]
    exact perm_right_comm _ _ _

/-- An update of a call that keeps its record. -/
theorem frame_setCall {s : State} (hunused : ∀ n, s.started ≤ n → s.calls n = .unused) (n : Nat) (call : Call)
    (hn : s.calls n ≠ .unused) (hrecord : call.record = (s.calls n).record) : Frame s (s.setCall n call) := by
  refine ⟨rfl, rfl, rfl, Nat.le_refl _, fun m hm => ?_, fun m => ?_⟩
  · have hne : m ≠ n := by
      rintro rfl
      exact hn (hunused m hm)
    unfold State.setCall
    dsimp only
    rw [Function.update_of_ne hne]
    exact hunused m hm
  · unfold State.setCall
    dsimp only
    by_cases hm : m = n
    · rw [hm, Function.update_self, hrecord]
    · rw [Function.update_of_ne hm]

theorem finish_frame {s : State} (hunused : ∀ n, s.started ≤ n → s.calls n = .unused) {who : Who} {trigger : Trigger}
    {sent : Option LaserError} (hwho : s.trigger who = some trigger) : Frame s (s.finish who trigger sent) := by
  cases who with
  | timer => exact ⟨rfl, rfl, rfl, Nat.le_refl _, hunused, fun _ => rfl⟩
  | call n =>
    have hcall := trigger_call hwho
    obtain ⟨_, _, _, _, hunused', hrecord⟩ :=
      frame_setCall hunused n .returned (by rw [hcall]; exact Call.noConfusion) (by rw [hcall]; rfl)
    exact ⟨rfl, rfl, rfl, Nat.le_refl _, hunused', hrecord⟩

theorem finish_pending (s : State) (who : Who) (trigger : Trigger) (sent : Option LaserError) :
    (s.finish who trigger sent).pending = [] ∧ (s.finish who trigger sent).queue = s.queue := by
  cases who <;> exact ⟨rfl, rfl⟩

/-- The end of a flush leaves its batch done. -/
theorem finish_accounted {s : State} {held refused done : List Record} (h : Accounted s held refused done) {who : Who}
    {trigger : Trigger} {sent : Option LaserError} (hwho : s.trigger who = some trigger) (hsent : Listing sent)
    (hlisted : (records sent).Sublist s.pending) (hcovered : ∀ r ∈ s.pending, r ∈ s.log ∨ r ∈ records sent) :
    Accounted (s.finish who trigger sent) held refused (done ++ s.pending) := by
  obtain ⟨hpending, hqueue⟩ := finish_pending s who trigger sent
  obtain ⟨hperm, hkept⟩ := finish_listed hwho h.kept hsent
  refine h.progress (finish_frame h.unused hwho) ?_ ?_ hlisted hcovered hkept hperm
  · rw [hpending, hqueue, List.nil_append]
  · intro k _
    exact ⟨0, Nat.zero_le _, s.pending.take k, List.take_sublist _ _, (List.append_nil _).symm⟩

/-! ## Closing -/

/-- Calls beside the `close` have returned. -/
def Alone (s : State) (closer : Nat) : Prop := ∀ n, n ≠ closer → s.calls n = .unused ∨ s.calls n = .returned

/-- What stands while a `close` is in progress and after it. -/
def Phased (s : State) : Prop :=
  match s.phase with
  | .running => True
  | .signalled closer | .draining closer => Alone s closer ∧ s.calls closer = .closing
  | .stopped closer => Alone s closer ∧ s.ticking = false ∧
      (s.calls closer = .flushing .caller ∧ (∀ flight, s.flight = some flight → flight.stage ≠ .locked → s.queue = []) ∨
        s.calls closer = .returned ∧ s.flight = none ∧ s.queue = [] ∧ s.kept = none)

/-- The last call of the producer returned. -/
def State.Closed (s : State) : Prop := ∃ closer, s.phase = .stopped closer ∧ s.calls closer = .returned

structure Sound (s : State) : Prop where
  accounted : ∃ held refused done, Accounted s held refused done
  flying : Flying s
  phased : Phased s

/-- A call in progress while the producer is closed is the `close`. -/
theorem Alone.eq {s : State} {closer n : Nat} (h : Alone s closer) (hunused : s.calls n ≠ .unused)
    (hreturned : s.calls n ≠ .returned) : n = closer := by
  by_contra hne
  rcases h n hne with hcall | hcall
  · exact hunused hcall
  · exact hreturned hcall

theorem alone_setCall {s : State} {closer : Nat} (h : Alone s closer) (call : Call) : Alone (s.setCall closer call) closer := by
  intro n hne
  unfold State.setCall
  dsimp only
  rw [Function.update_of_ne hne]
  exact h n hne

theorem Phased.stopped {s : State} (h : Phased s) {closer : Nat} (hphase : s.phase = .stopped closer) :
    Alone s closer ∧ s.ticking = false ∧
      (s.calls closer = .flushing .caller ∧ (∀ flight, s.flight = some flight → flight.stage ≠ .locked → s.queue = []) ∨
        s.calls closer = .returned ∧ s.flight = none ∧ s.queue = [] ∧ s.kept = none) := by
  unfold Phased at h
  rwa [hphase] at h

/-- A call in progress is of a producer that runs, or is the `close`: while it
waits, or at its last flush. -/
theorem Phased.busy {s : State} (h : Phased s) {n : Nat} (hunused : s.calls n ≠ .unused) (hreturned : s.calls n ≠ .returned) :
    s.phase = .running ∨ s.calls n = .closing ∨
      s.phase = .stopped n ∧ Alone s n ∧ s.ticking = false ∧ s.calls n = .flushing .caller := by
  unfold Phased at h
  split at h
  next hphase => exact .inl hphase
  next => exact .inr (.inl (h.1.eq hunused hreturned ▸ h.2))
  next => exact .inr (.inl (h.1.eq hunused hreturned ▸ h.2))
  next closer hphase =>
    cases h.1.eq hunused hreturned
    rcases h.2.2 with ⟨hflushing, _⟩ | ⟨hdone, _⟩
    · exact .inr (.inr ⟨hphase, h.1, h.2.1, hflushing⟩)
    · exact absurd hdone hreturned

/-- A call that holds a record is of a producer that runs. -/
theorem phased_record {s : State} (h : Phased s) {n : Nat} {r : Record} (hrecord : (s.calls n).record = some r) :
    s.phase = .running := by
  have hother : ∀ call : Call, call.record = none → s.calls n ≠ call := by
    intro call hnone hcall
    rw [hcall, hnone] at hrecord
    cases hrecord
  rcases h.busy (hother _ rfl) (hother _ rfl) with hrunning | hclosing | ⟨_, _, _, hflushing⟩
  · exact hrunning
  · exact absurd hclosing (hother _ rfl)
  · exact absurd hflushing (hother _ rfl)

/-- A step of a flush that leaves the calls and the timer alone. -/
theorem Phased.flush {s s' : State} (h : Phased s) (hphase : s'.phase = s.phase) (hcalls : s'.calls = s.calls)
    (hticking : s'.ticking = s.ticking) (hbusy : ∀ closer, s.phase = .stopped closer → s.calls closer ≠ .returned)
    (hqueue : ∀ closer, s.phase = .stopped closer → ∀ flight, s'.flight = some flight → flight.stage ≠ .locked → s'.queue = []) :
    Phased s' := by
  unfold Phased Alone at h ⊢
  rw [hphase, hcalls, hticking]
  split at h
  next => trivial
  next => exact h
  next => exact h
  next closer hstopped =>
    rcases h.2.2 with ⟨hcall, _⟩ | ⟨hreturned, _⟩
    · exact ⟨h.1, h.2.1, .inl ⟨hcall, hqueue closer hstopped⟩⟩
    · exact absurd hreturned (hbusy closer hstopped)

/-- While a flush is on, the last call has not returned. -/
theorem Phased.not_returned {s : State} (h : Phased s) {flight : Flight} (hflight : s.flight = some flight) {closer : Nat}
    (hphase : s.phase = .stopped closer) : s.calls closer ≠ .returned := by
  intro hreturned
  rcases (h.stopped hphase).2.2 with ⟨hcall, _⟩ | ⟨_, hnone, _⟩
  · rw [hreturned] at hcall
    cases hcall
  · rw [hflight] at hnone
    cases hnone

theorem phased_of_running {s : State} (h : s.phase = .running) : Phased s := by
  unfold Phased
  rw [h]
  trivial

/-- The end of a flush, by the timer or by the only call left. -/
theorem finish_phased {s : State} (h : Phased s) {who : Who} {trigger : Trigger} {sent : Option LaserError}
    (hwho : s.trigger who = some trigger) (hqueue : ∀ closer, s.phase = .stopped closer → s.queue = []) :
    Phased (s.finish who trigger sent) := by
  cases who with
  | timer =>
    have hticking := (trigger_timer hwho).1
    unfold Phased at h ⊢
    show match s.phase with | .running => _ | .signalled closer | .draining closer => _ | .stopped closer => _
    split at h
    · trivial
    · exact h
    · exact h
    · rw [h.2.1] at hticking
      cases hticking
  | call n =>
    have hcall := trigger_call hwho
    have hbusy : s.calls n ≠ .unused ∧ s.calls n ≠ .returned := by
      rw [hcall]
      exact ⟨Call.noConfusion, Call.noConfusion⟩
    rcases h.busy hbusy.1 hbusy.2 with hrunning | hclosing | ⟨hphase, halone, hticking, hflushing⟩
    · exact phased_of_running hrunning
    · rw [hclosing] at hcall
      cases hcall
    · rw [hflushing] at hcall
      cases hcall
      have hreturned : (s.finish (.call n) .caller sent).kept = none := by
        show (settle .caller s.kept sent).1 = none
        cases s.kept <;> cases sent <;> rfl
      unfold Phased
      show match s.phase with | .running => _ | .signalled closer | .draining closer => _ | .stopped closer => _
      rw [hphase]
      exact ⟨alone_setCall halone .returned, hticking, .inr ⟨Function.update_self .., rfl, hqueue _ hphase, hreturned⟩⟩

/-! ## Steps of a send -/

theorem flying_setCall {s : State} (h : Flying s) {n : Nat} (hn : ∀ trigger, s.calls n ≠ .flushing trigger) (call : Call) :
    Flying (s.setCall n call) := by
  intro flight hflight
  have htrigger := h flight hflight
  cases hwho : flight.who with
  | timer =>
    rw [hwho] at htrigger
    exact htrigger
  | call m =>
    rw [hwho] at htrigger
    have hne : m ≠ n := by
      rintro rfl
      exact hn _ (trigger_call htrigger)
    unfold State.trigger State.setCall at *
    dsimp only at *
    rwa [Function.update_of_ne hne]

theorem not_flushing_of_record {call : Call} {r : Record} (h : call.record = some r) (trigger : Trigger) :
    call ≠ .flushing trigger := by
  rintro rfl
  cases h

theorem Accounted.held_nodup {s : State} {held refused done : List Record} (h : Accounted s held refused done) :
    held.Nodup := (List.nodup_append'.1 h.places).1

/-- The record of a call that gives it up is held no more. -/
theorem Accounted.release {s : State} {held refused done : List Record} (h : Accounted s held refused done) {n : Nat}
    {r : Record} (hr : (s.calls n).record = some r) {call : Call} (hcall : call.record = none) (other : Record) :
    other ∈ held.erase r ↔ (Function.update s.calls n call other.sender).record = some other := by
  by_cases hsender : other.sender = n
  · rw [hsender, Function.update_self, hcall]
    constructor
    · intro hmem
      obtain ⟨hne, hheld⟩ := h.held_nodup.mem_erase_iff.1 hmem
      have hrecord := (h.holds other).1 hheld
      rw [hsender, hr] at hrecord
      exact absurd (Option.some.inj hrecord).symm hne
    · intro habsurd
      cases habsurd
  · rw [Function.update_of_ne hsender, ← h.holds other]
    apply List.mem_erase_of_ne
    rintro rfl
    exact hsender (h.owner n other hr)

theorem Accounted.release_owner {s : State} {held refused done : List Record} (h : Accounted s held refused done)
    {n : Nat} {call : Call} (hcall : call.record = none) (m : Nat) (r : Record)
    (hrecord : (Function.update s.calls n call m).record = some r) : r.sender = m := by
  by_cases hm : m = n
  · rw [hm, Function.update_self, hcall] at hrecord
    cases hrecord
  · rw [Function.update_of_ne hm] at hrecord
    exact h.owner m r hrecord

theorem Accounted.calls_used {s : State} {held refused done : List Record} (h : Accounted s held refused done) {n : Nat}
    (hn : s.calls n ≠ .unused) : n < s.started := by
  by_contra hle
  exact hn (h.unused n (Nat.le_of_not_lt hle))

theorem unused_setCall {s : State} (h : ∀ n, s.started ≤ n → s.calls n = .unused) {n : Nat} (hn : n < s.started)
    (call : Call) : ∀ m, s.started ≤ m → Function.update s.calls n call m = .unused := by
  intro m hm
  rw [Function.update_of_ne (by omega)]
  exact h m hm

theorem send_sound {s : State} (h : Sound s) (hphase : s.phase = .running) (size : Nat) :
    Sound { s.begin (.sending ⟨s.started, size⟩) with handed := s.handed ++ [⟨s.started, size⟩] } := by
  obtain ⟨held, refused, done, hs⟩ := h.accounted
  have hfree : s.calls s.started = .unused := hs.unused _ (Nat.le_refl _)
  have hnew : (⟨s.started, size⟩ : Record) ∉ s.handed := fun hmem => absurd (hs.sender _ hmem) (Nat.lt_irrefl _)
  refine ⟨⟨held ++ [⟨s.started, size⟩], refused, done, ?_⟩, ?_, phased_of_running hphase⟩
  · refine ⟨?_, hs.queued, ?_, ?_, ?_, ?_, ?_, hs.kept, hs.listed, hs.placed, hs.refusals, hs.settled, hs.order⟩
    · rw [List.append_assoc, List.singleton_append]
      exact (List.perm_append_singleton _ _).trans ((hs.handed.cons _).trans List.perm_middle.symm)
    · exact List.nodup_append'.2 ⟨hs.distinct, List.nodup_singleton _, by simpa using hnew⟩
    · intro r hr
      show r.sender < s.started + 1
      rcases List.mem_append.1 hr with hold | hself
      · exact Nat.lt_succ_of_lt (hs.sender r hold)
      · cases List.mem_singleton.1 hself
        exact Nat.lt_succ_self _
    · intro n hn
      have hn : s.started + 1 ≤ n := hn
      show Function.update s.calls s.started _ n = .unused
      rw [Function.update_of_ne (by omega)]
      exact hs.unused n (by omega)
    · intro r
      show _ ↔ (Function.update s.calls s.started _ r.sender).record = some r
      rw [List.mem_append, List.mem_singleton]
      by_cases hsender : r.sender = s.started
      · have hheld : r ∉ held := by
          rw [hs.holds, hsender, hfree]
          intro habsurd
          cases habsurd
        rw [hsender, Function.update_self]
        simp [hheld, Call.record, eq_comm]
      · rw [Function.update_of_ne hsender, ← hs.holds]
        refine or_iff_left ?_
        rintro rfl
        exact hsender rfl
    · intro n r hrecord
      have hrecord : (Function.update s.calls s.started (.sending ⟨s.started, size⟩) n).record = some r := hrecord
      by_cases hn : n = s.started
      · rw [hn, Function.update_self] at hrecord
        cases hrecord
        exact hn.symm
      · rw [Function.update_of_ne hn] at hrecord
        exact hs.owner n r hrecord
  · exact flying_setCall h.flying (by rw [hfree]; exact fun _ => Call.noConfusion) _

/-- A call moves on with its record. -/
theorem setCall_sound {s : State} (h : Sound s) {n : Nat} {r : Record} (hr : (s.calls n).record = some r) {call : Call}
    (hcall : call.record = some r) : Sound (s.setCall n call) := by
  obtain ⟨held, refused, done, hs⟩ := h.accounted
  have hrunning := phased_record h.phased hr
  refine ⟨⟨held, refused, done, ?_⟩, flying_setCall h.flying (not_flushing_of_record hr) call, phased_of_running hrunning⟩
  refine hs.frame (frame_setCall hs.unused n call ?_ ?_) rfl rfl rfl rfl
  · intro hunused
    rw [hunused] at hr
    cases hr
  · rw [hcall, hr]

theorem Accounted.mem_held {s : State} {held refused done : List Record} (h : Accounted s held refused done) {n : Nat}
    {r : Record} (hr : (s.calls n).record = some r) : r ∈ held := by
  rw [h.holds, h.owner n r hr]
  exact hr

/-- A held record is in no other place. -/
theorem Accounted.held_apart {s : State} {held refused done : List Record} (h : Accounted s held refused done)
    {r : Record} (hr : r ∈ held) : r ∉ refused ∧ r ∉ done ∧ r ∉ s.queued := by
  have hapart := (List.nodup_append'.1 h.places).2.2 hr
  rw [← h.queued] at hapart
  refine ⟨fun hmem => hapart (List.mem_append_left _ hmem), fun hmem => ?_, fun hmem => hapart (List.mem_append_right _ hmem)⟩
  apply hapart
  rw [h.queued]
  exact List.mem_append_right _ (List.mem_append_left _ hmem)

theorem Accounted.record_used {s : State} {held refused done : List Record} (h : Accounted s held refused done) {n : Nat}
    {r : Record} (hr : (s.calls n).record = some r) : n < s.started := by
  apply h.calls_used
  intro hunused
  rw [hunused] at hr
  cases hr

/-- A sender gets the kept failure, its own record added to it. -/
theorem refuse_sound {s : State} (h : Sound s) {n : Nat} {r : Record} (hr : (s.calls n).record = some r)
    {kept : LaserError} (hkept : s.kept = some kept) (stream topic : String) :
    Sound (({ s with kept := none, failed := false } : State).return n (some (refuse kept r stream topic))) := by
  obtain ⟨held, refused, done, hs⟩ := h.accounted
  obtain ⟨failure, rfl⟩ := hs.kept kept hkept
  have hheld := hs.mem_held hr
  obtain ⟨hnrefused, hndone, _⟩ := hs.held_apart hheld
  have hrunning := phased_record h.phased hr
  refine ⟨⟨held.erase r, refused ++ [r], done, ?_⟩, flying_setCall h.flying (not_flushing_of_record hr) _,
    phased_of_running hrunning⟩
  generalize hs' : (({ s with kept := none, failed := false } : State).return n
    (some (refuse (.publishFailed failure) r stream topic))) = s'
  have hlisted : s'.listed.Perm (s.listed ++ [r]) := by
    have heq : s'.listed = s.reported ++ (failure.unconfirmed ++ [r]) := by
      rw [← hs']
      simp [State.listed, State.reported, State.return, State.setCall, refuse, LaserError.unconfirmed]
    rw [heq, State.listed, hkept, ← List.append_assoc]
    exact List.perm_append_comm.append_right _
  have hmem : ∀ other, other ∈ s'.listed ↔ other ∈ s.listed ∨ other = r := fun other => by
    rw [hlisted.mem_iff, List.mem_append, List.mem_singleton]
  subst hs'
  refine ⟨?_, hs.queued, hs.distinct, hs.sender, unused_setCall hs.unused (hs.record_used hr) _, hs.release hr rfl,
    hs.release_owner rfl, listing_none, ?_, ?_, ?_, ?_, hs.order⟩
  · refine hs.handed.trans (((List.perm_cons_erase hheld).append_right _).trans ?_)
    rw [List.append_assoc, List.singleton_append, List.cons_append]
    exact (List.perm_middle.symm).trans (List.perm_middle.symm.append_left _)
  · rw [hlisted.nodup_iff]
    refine List.nodup_append'.2 ⟨hs.listed, List.nodup_singleton _, fun other hold hself => ?_⟩
    cases List.mem_singleton.1 hself
    exact (hs.placed r hold).elim hnrefused hndone
  · intro other hother
    rcases (hmem other).1 hother with hold | rfl
    · exact (hs.placed other hold).imp_left (List.mem_append_left _)
    · exact .inl (List.mem_append_right _ List.mem_cons_self)
  · intro other hother
    rw [hmem]
    rcases List.mem_append.1 hother with hold | hself
    · exact .inl (hs.refusals other hold)
    · exact .inr (List.mem_singleton.1 hself)
  · intro other hother
    exact (hs.settled other hother).imp_right fun hold => (hmem other).2 (.inl hold)

/-- A sender queues its record, and flushes or returns. -/
theorem push_sound {s s' : State} (h : Sound s) {n : Nat} {r : Record} (hr : (s.calls n).record = some r) {call : Call}
    (hcall : call.record = none) (hcalls : s'.calls = Function.update s.calls n call) (hstarted : s'.started = s.started)
    (hphase : s'.phase = s.phase) (hhanded : s'.handed = s.handed) (hqueued : s'.queued = s.queued ++ [r])
    (hqueue : s'.queue = s.queue ++ [r]) (hflight : s'.flight = s.flight) (hticking : s'.ticking = s.ticking)
    (hlog : s'.log = s.log) (hkept : s'.kept = s.kept) (herrors : s'.errors = s.errors) : Sound s' := by
  obtain ⟨held, refused, done, hs⟩ := h.accounted
  have hheld := hs.mem_held hr
  have hrunning := phased_record h.phased hr
  have hpending : s'.pending = s.pending := by
    unfold State.pending
    rw [hflight]
  have hlisted : s'.listed = s.listed := by
    unfold State.listed State.reported
    rw [hkept, herrors]
  refine ⟨⟨held.erase r, refused, done, ?_⟩, ?_, phased_of_running (hphase.trans hrunning)⟩
  · constructor
    · rw [hhanded, hqueued]
      refine hs.handed.trans (((List.perm_cons_erase hheld).append_right _).trans ?_)
      rw [List.cons_append, ← List.append_assoc, ← List.append_assoc, ← List.append_assoc]
      exact (List.perm_append_singleton _ _).symm
    · rw [hqueued, hs.queued, hpending, hqueue, List.append_assoc, List.append_assoc]
    · rw [hhanded]
      exact hs.distinct
    · rw [hhanded, hstarted]
      exact hs.sender
    · rw [hcalls, hstarted]
      exact unused_setCall hs.unused (hs.record_used hr) call
    · rw [hcalls]
      exact hs.release hr hcall
    · rw [hcalls]
      exact hs.release_owner hcall
    · rw [hkept]
      exact hs.kept
    · rw [hlisted]
      exact hs.listed
    · rw [hlisted]
      exact hs.placed
    · rw [hlisted]
      exact hs.refusals
    · rw [hlog, hlisted]
      exact hs.settled
    · rw [hlog, hpending]
      exact hs.order
  · intro flight hf
    rw [hflight] at hf
    have htrigger := flying_setCall h.flying (not_flushing_of_record hr) call flight hf
    unfold State.trigger State.setCall at *
    rw [hcalls, hticking]
    exact htrigger

/-! ## Steps of a flush, the timer and a close -/

theorem frame_begin {s : State} (hunused : ∀ n, s.started ≤ n → s.calls n = .unused) {call : Call}
    (hcall : call.record = none) : Frame s (s.begin call) := by
  refine ⟨rfl, rfl, rfl, Nat.le_succ _, fun n hn => ?_, fun n => ?_⟩
  · have hn : s.started + 1 ≤ n := hn
    show Function.update s.calls s.started call n = .unused
    rw [Function.update_of_ne (by omega)]
    exact hunused n (by omega)
  · show (Function.update s.calls s.started call n).record = _
    by_cases hstarted : n = s.started
    · rw [hstarted, Function.update_self, hcall, hunused _ (Nat.le_refl _)]
      rfl
    · rw [Function.update_of_ne hstarted]

theorem flush_sound {s : State} (h : Sound s) (hphase : s.phase = .running) : Sound (s.begin (.flushing .caller)) := by
  obtain ⟨held, refused, done, hs⟩ := h.accounted
  have hfree : s.calls s.started = .unused := hs.unused _ (Nat.le_refl _)
  refine ⟨⟨held, refused, done, hs.frame (frame_begin hs.unused rfl) rfl rfl rfl rfl⟩, ?_, phased_of_running hphase⟩
  exact flying_setCall h.flying (by rw [hfree]; exact fun _ => Call.noConfusion) _

theorem close_sound {s : State} (h : Sound s) (hidle : s.idle = true) :
    Sound { s.begin .closing with phase := .signalled s.started } := by
  obtain ⟨held, refused, done, hs⟩ := h.accounted
  have hfree : s.calls s.started = .unused := hs.unused _ (Nat.le_refl _)
  refine ⟨⟨held, refused, done, hs.frame ?_ rfl rfl rfl rfl⟩, ?_, ?_⟩
  · obtain ⟨h1, h2, h3, h4, h5, h6⟩ := @frame_begin s hs.unused .closing rfl
    exact ⟨h1, h2, h3, h4, h5, h6⟩
  · exact flying_setCall h.flying (by rw [hfree]; exact fun _ => Call.noConfusion) _
  · refine ⟨fun n hne => ?_, Function.update_self ..⟩
    show Function.update s.calls s.started .closing n = .unused ∨ Function.update s.calls s.started .closing n = .returned
    rw [Function.update_of_ne hne]
    by_cases hn : n < s.started
    · right
      unfold State.idle at hidle
      simpa using List.all_eq_true.1 hidle n (List.mem_range.2 hn)
    · exact .inl (hs.unused n (Nat.le_of_not_lt hn))

/-- The timer begins a flush. -/
theorem tick_sound {s : State} (h : Sound s) (hticking : s.ticking = false) (phase : Phase)
    (hphased : Phased { s with ticking := true, phase := phase }) : Sound { s with ticking := true, phase := phase } := by
  obtain ⟨held, refused, done, hs⟩ := h.accounted
  refine ⟨⟨held, refused, done, hs.frame ⟨rfl, rfl, rfl, Nat.le_refl _, hs.unused, fun _ => rfl⟩ rfl rfl rfl rfl⟩, ?_, hphased⟩
  intro flight hflight
  have htrigger := h.flying flight hflight
  cases hwho : flight.who with
  | timer =>
    rw [hwho] at htrigger
    rw [(trigger_timer htrigger).1] at hticking
    cases hticking
  | call n =>
    rw [hwho] at htrigger
    exact htrigger

/-- While the timer is idle and the `close` waits for it, nobody holds the
lock. -/
theorem no_flight {s : State} (h : Flying s) {closer : Nat} (halone : Alone s closer) (hticking : s.ticking = false)
    (hcloser : ∀ trigger, s.calls closer ≠ .flushing trigger) : s.flight = none := by
  cases hflight : s.flight with
  | none => rfl
  | some flight =>
    have htrigger := h flight hflight
    cases hwho : flight.who with
    | timer =>
      rw [hwho] at htrigger
      rw [(trigger_timer htrigger).1] at hticking
      cases hticking
    | call n =>
      rw [hwho] at htrigger
      have hcall := trigger_call htrigger
      have heq : n = closer := by
        apply halone.eq <;> rw [hcall] <;> exact Call.noConfusion
      rw [heq] at hcall
      exact absurd hcall (hcloser _)

theorem stop_sound {s : State} (h : Sound s) {closer : Nat} (hphase : s.phase = .draining closer)
    (hticking : s.ticking = false) :
    Sound { s.setCall closer (.flushing .caller) with phase := .stopped closer } := by
  obtain ⟨held, refused, done, hs⟩ := h.accounted
  have hphased := h.phased
  unfold Phased at hphased
  rw [hphase] at hphased
  obtain ⟨halone, hclosing⟩ := hphased
  have hfree : ∀ trigger, s.calls closer ≠ .flushing trigger := by
    rw [hclosing]
    exact fun _ => Call.noConfusion
  have hnone := no_flight h.flying halone hticking hfree
  refine ⟨⟨held, refused, done, hs.frame ?_ rfl rfl rfl rfl⟩, flying_setCall h.flying hfree _, ?_⟩
  · obtain ⟨h1, h2, h3, h4, h5, h6⟩ := frame_setCall hs.unused closer (.flushing .caller)
      (by rw [hclosing]; exact Call.noConfusion) (by rw [hclosing]; rfl)
    exact ⟨h1, h2, h3, h4, h5, h6⟩
  · refine ⟨alone_setCall halone _, hticking, .inl ⟨Function.update_self .., fun flight hflight => ?_⟩⟩
    have hflight : s.flight = some flight := hflight
    rw [hnone] at hflight
    cases hflight

theorem lock_sound {s : State} (h : Sound s) {who : Who} {trigger : Trigger} (hflight : s.flight = none)
    (htrigger : s.trigger who = some trigger) : Sound { s with flight := some ⟨who, trigger, .locked⟩ } := by
  obtain ⟨held, refused, done, hs⟩ := h.accounted
  have hpending : s.pending = [] := by
    unfold State.pending
    rw [hflight]
  refine ⟨⟨held, refused, done, hs.frame ⟨rfl, rfl, rfl, Nat.le_refl _, hs.unused, fun _ => rfl⟩ rfl ?_ rfl rfl⟩, ?_, ?_⟩
  · rw [hpending]
    rfl
  · intro flight heq
    cases heq
    exact htrigger
  · refine h.phased.flush rfl rfl rfl (fun closer hphase hreturned => ?_) fun closer _ flight heq hstage => ?_
    · -- Nobody flushes after the last call.
      obtain ⟨halone, hidle, _⟩ := h.phased.stopped hphase
      cases who with
      | timer =>
        have hticking := (trigger_timer htrigger).1
        rw [hidle] at hticking
        cases hticking
      | call n =>
        have hcall := trigger_call htrigger
        have heq := halone.eq (n := n) (by rw [hcall]; exact Call.noConfusion) (by rw [hcall]; exact Call.noConfusion)
        rw [heq, hreturned] at hcall
        cases hcall
    · cases heq
      exact absurd rfl hstage

/-- The end of a flush. -/
theorem finish_sound {s : State} (h : Sound s) {who : Who} {trigger : Trigger} {sent : Option LaserError}
    (hwho : s.trigger who = some trigger) (hsent : Listing sent) (hlisted : (records sent).Sublist s.pending)
    (hcovered : ∀ r ∈ s.pending, r ∈ s.log ∨ r ∈ records sent)
    (hqueue : ∀ closer, s.phase = .stopped closer → s.queue = []) : Sound (s.finish who trigger sent) := by
  obtain ⟨held, refused, done, hs⟩ := h.accounted
  refine ⟨⟨held, refused, _, finish_accounted hs hwho hsent hlisted hcovered⟩, ?_, finish_phased h.phased hwho hqueue⟩
  intro flight hflight
  cases who <;> cases hflight

/-- The queue of a stopped producer is empty once its last flush took it. -/
theorem queue_of_appending {s : State} (h : Phased s) {flight : Flight} (hflight : s.flight = some flight)
    (hstage : flight.stage ≠ .locked) (closer : Nat) (hphase : s.phase = .stopped closer) : s.queue = [] := by
  rcases (h.stopped hphase).2.2 with ⟨_, hqueue⟩ | ⟨_, hnone, _⟩
  · exact hqueue flight hflight hstage
  · rw [hnone] at hflight
    cases hflight

/-- The flush that holds the lock takes the queue. -/
theorem take_sound {s : State} (h : Sound s) {who : Who} {trigger : Trigger}
    (hflight : s.flight = some ⟨who, trigger, .locked⟩) :
    (s.queue = [] → Sound (({ s with queue := [], payload := 0 } : State).finish who trigger none)) ∧
      Sound { s with queue := [], payload := 0, flight := some ⟨who, trigger, .appending s.queue 0 []⟩ } := by
  obtain ⟨held, refused, done, hs⟩ := h.accounted
  have hpending : s.pending = [] := by
    unfold State.pending
    rw [hflight]
  have hframe : ∀ queue flight, Frame s { s with queue := queue, payload := 0, flight := flight } :=
    fun _ _ => ⟨rfl, rfl, rfl, Nat.le_refl _, hs.unused, fun _ => rfl⟩
  have hphased : ∀ flight : Option Flight, Phased { s with queue := [], payload := 0, flight := flight } := fun _ =>
    h.phased.flush rfl rfl rfl (fun _ => h.phased.not_returned hflight) fun _ _ _ _ _ => rfl
  constructor
  · intro hempty
    have htaken : Sound { s with queue := [], payload := 0 } :=
      ⟨⟨held, refused, done, hs.frame (hframe [] s.flight) hempty.symm rfl rfl rfl⟩, h.flying, hphased s.flight⟩
    have hnone : ({ s with queue := [], payload := 0 } : State).pending = [] := hpending
    refine finish_sound htaken (h.flying _ hflight) listing_none ?_ ?_ fun _ _ => rfl
    · rw [hnone]
      exact List.Sublist.refl _
    · rw [hnone]
      exact fun r hr => by cases hr
  · refine ⟨⟨held, refused, done ++ [], ?_⟩, ?_, hphased _⟩
    · refine hs.progress (hframe _ _) ?_ ?_ (List.Sublist.refl _) (fun r hr => by cases hr) hs.kept ?_
      · rw [hpending]
        exact (List.append_nil _).symm
      · intro k _
        refine ⟨0, Nat.zero_le _, [], List.Sublist.refl _, ?_⟩
        rw [hpending, List.take_nil]
        rfl
      · rw [List.append_nil]
        exact List.Perm.refl _
    · have htrigger := h.flying _ hflight
      intro flight heq
      cases heq
      exact htrigger

/-- A failed batch lists every record the log did not take. -/
theorem publishFailure_records {error : SendError} {pending : List Record} {a : Attempt} (hresult : a.result = .error error)
    (hhonest : a.Honest (pending.take publishBatchLength)) (confirmations : List Confirmation) (target : String × String) :
    let failure := publishFailure error pending confirmations (pending.take publishBatchLength).length target
    Listing (some failure) ∧ failure.unconfirmed.Sublist pending ∧
      ∀ r ∈ pending, r ∈ a.landed (pending.take publishBatchLength) ∨ r ∈ failure.unconfirmed := by
  unfold Attempt.Honest at hhonest
  rw [hresult] at hhonest
  generalize hchunk : pending.take publishBatchLength = chunk at *
  have hsplit : pending = chunk ++ pending.drop chunk.length := by
    have htake : pending.take chunk.length = chunk := by
      rw [← hchunk]
      exact (List.prefix_iff_eq_take.1 (List.take_prefix _ _)).symm
    conv_lhs => rw [← List.take_append_drop chunk.length pending, htake]
  cases error with
  | other cause => exact ⟨listing_publishFailed _, List.Sublist.refl _, fun r hr => .inr hr⟩
  | producerSendFailed cause failed committed stream topic =>
    obtain ⟨hsublist, hlanded⟩ := hhonest
    refine ⟨listing_publishFailed _, ?_, fun r hr => ?_⟩
    · conv_rhs => rw [hsplit]
      exact hsublist.append (List.Sublist.refl _)
    · rw [hsplit] at hr
      rcases List.mem_append.1 hr with hin | hrest
      · by_cases hfailed : r ∈ failed
        · exact .inr (List.mem_append_left _ hfailed)
        · exact .inl (hlanded r hin hfailed)
      · exact .inr (List.mem_append_right _ hrest)

theorem pending_of_appending {s : State} {who : Who} {trigger : Trigger} {pending : List Record} {attempt : Nat}
    {confirmations : List Confirmation} (hflight : s.flight = some ⟨who, trigger, .appending pending attempt confirmations⟩) :
    s.pending = pending := by
  unfold State.pending
  rw [hflight]

/-- What an attempt lands of its chunk. -/
theorem landed_sound {s : State} (h : Sound s) (a : Attempt) :
    Sound { s with log := s.log ++ a.landed (s.pending.take publishBatchLength) } := by
  obtain ⟨held, refused, done, hs⟩ := h.accounted
  exact ⟨⟨held, refused, done, hs.landed a⟩, h.flying, h.phased⟩

/-- The flush goes on with a part of its batch that is not done. -/
theorem appending_sound {s : State} (h : Sound s) {who : Who} {trigger : Trigger} {pending batch rest : List Record}
    {attempt : Nat} {confirmations : List Confirmation}
    (hflight : s.flight = some ⟨who, trigger, .appending pending attempt confirmations⟩) (hsplit : pending = batch ++ rest)
    (hchunk : batch = [] ∨ ∀ k ≤ publishBatchLength, (pending.take k).Sublist batch) (hlanded : ∀ r ∈ batch, r ∈ s.log)
    (attempt' : Nat) (confirmations' : List Confirmation) :
    Sound { s with flight := some ⟨who, trigger, .appending rest attempt' confirmations'⟩ } := by
  obtain ⟨held, refused, done, hs⟩ := h.accounted
  have hpending := pending_of_appending hflight
  have htrigger := h.flying _ hflight
  have hframe : Frame s { s with flight := some ⟨who, trigger, .appending rest attempt' confirmations'⟩ } :=
    ⟨rfl, rfl, rfl, Nat.le_refl _, hs.unused, fun _ => rfl⟩
  refine ⟨⟨held, refused, done ++ batch, ?_⟩, ?_, ?_⟩
  · refine hs.progress hframe ?_ ?_ (List.nil_sublist _) (fun r hr => .inl (hlanded r hr)) hs.kept ?_
    · rw [hpending, hsplit, List.append_assoc]
      rfl
    · intro k hk
      rw [hpending]
      rcases hchunk with rfl | hchunk
      · exact ⟨k, hk, [], List.Sublist.refl _, by rw [hsplit]; rfl⟩
      · exact ⟨0, Nat.zero_le _, pending.take k, hchunk k hk, (List.append_nil _).symm⟩
    · rw [List.append_nil]
      exact List.Perm.refl _
  · intro flight heq
    cases heq
    exact htrigger
  · have hqueue := queue_of_appending h.phased hflight Stage.noConfusion
    exact h.phased.flush rfl rfl rfl (fun _ => h.phased.not_returned hflight) fun closer hphase _ _ _ => hqueue closer hphase

/-- One attempt at a chunk, whatever the log answers. -/
theorem attempt_sound {s s' : State} (h : Sound s) {a : Attempt} (hhonest : a.Honest s.chunk)
    (hnext : next accepts cfg s (.attempt a) = some s') : Sound s' := by
  rw [next] at hnext
  split at hnext
  next who trigger pending attempt confirmations hflight =>
    have hpending := pending_of_appending hflight
    have hchunk : s.chunk = pending.take publishBatchLength := by
      unfold State.chunk
      rw [hflight]
    have hlanded := landed_sound h a
    have hqueue := queue_of_appending h.phased hflight Stage.noConfusion
    have hwho := h.flying _ hflight
    rw [hpending] at hlanded
    rw [hchunk] at hhonest
    dsimp only at hnext
    split at hnext
    next confirmed hresult =>
      unfold Attempt.Honest at hhonest
      rw [hresult] at hhonest
      split at hnext
      next hrest =>
        cases hnext
        have hall : pending.take publishBatchLength = pending := by
          have hnil := List.isEmpty_iff.1 hrest
          rw [← List.take_append_drop publishBatchLength pending, hnil, List.append_nil, List.take_take, Nat.min_self]
        refine finish_sound hlanded hwho listing_none (List.nil_sublist _) (fun r hr => .inl ?_) hqueue
        have hr : r ∈ s.pending := hr
        rw [hpending, ← hall] at hr
        exact List.mem_append_right _ (hhonest r hr)
      next =>
        cases hnext
        refine appending_sound hlanded hflight (List.take_append_drop publishBatchLength pending).symm (.inr fun k hk => ?_)
          (fun r hr => List.mem_append_right _ (hhonest r hr)) _ _
        rw [← Nat.min_eq_left hk, ← List.take_take]
        exact List.take_sublist _ _
    next error hresult =>
      split at hnext
      next =>
        cases hnext
        exact appending_sound hlanded hflight (List.nil_append _).symm (.inl rfl) (fun r hr => by cases hr) _ _
      next =>
        cases hnext
        obtain ⟨hlisting, hsublist, hcovered⟩ := publishFailure_records hresult hhonest confirmations (cfg.stream, cfg.topic)
        refine finish_sound hlanded hwho hlisting ?_ ?_ hqueue
        · have hsame : ({ s with log := s.log ++ a.landed (pending.take publishBatchLength) } : State).pending = pending :=
            hpending
          rw [hsame]
          exact hsublist
        · intro r hr
          have hr : r ∈ s.pending := hr
          rw [hpending] at hr
          exact (hcovered r hr).imp_left (List.mem_append_right _)
  next => cases hnext

/-! ## Runs -/

/-- Under a key that is accepted, every step keeps every record accounted
for. -/
theorem next_sound (hkey : cfg.partitioning accepts = true) {s s' : State} (h : Sound s) {action : Action}
    (hstep : Step accepts cfg s action s') : Sound s' := by
  obtain ⟨hnext, hhonest⟩ := hstep
  cases action with
  | send size =>
    rw [next] at hnext
    split at hnext
    next hphase =>
      cases hnext
      exact send_sound h hphase size
    next => cases hnext
  | check n =>
    rw [next] at hnext
    split at hnext
    next record hcall =>
      cases hnext
      have hrecord : (s.calls n).record = some record := by rw [hcall]; rfl
      apply setCall_sound h hrecord
      split <;> rfl
    next => cases hnext
  | takeKept n =>
    rw [next] at hnext
    split at hnext
    next record hcall hflight =>
      have hrecord : (s.calls n).record = some record := by rw [hcall]; rfl
      dsimp only at hnext
      split at hnext
      next kept hkept =>
        cases hnext
        exact refuse_sound h hrecord hkept _ _
      next hkept =>
        cases hnext
        have hsame : Sound { s with kept := none, failed := false } := by
          obtain ⟨held, refused, done, hs⟩ := h.accounted
          rw [← hkept]
          exact ⟨⟨held, refused, done, hs.frame ⟨rfl, rfl, rfl, Nat.le_refl _, hs.unused, fun _ => rfl⟩ rfl rfl rfl rfl⟩,
            h.flying, h.phased⟩
        exact setCall_sound hsame hrecord rfl
    next => cases hnext
  | push n =>
    rw [next] at hnext
    split at hnext
    next record hcall =>
      have hrecord : (s.calls n).record = some record := by rw [hcall]; rfl
      dsimp only at hnext
      split at hnext
      · cases hnext
        exact push_sound h hrecord rfl rfl rfl rfl rfl rfl rfl rfl rfl rfl rfl rfl
      · cases hnext
        exact push_sound h hrecord rfl rfl rfl rfl rfl rfl rfl rfl rfl rfl rfl (List.append_nil _)
    next => cases hnext
  | flush =>
    rw [next] at hnext
    split at hnext
    next hphase =>
      cases hnext
      exact flush_sound h hphase
    next => cases hnext
  | tick =>
    rw [next] at hnext
    have hphased := h.phased
    unfold Phased at hphased
    split at hnext
    next hphase =>
      split at hnext
      next => cases hnext
      next hticking =>
        cases hnext
        exact tick_sound h (by simpa using hticking) _ (phased_of_running hphase)
    next closer hphase =>
      split at hnext
      next => cases hnext
      next hticking =>
        cases hnext
        rw [hphase] at hphased
        have htick := tick_sound h (by simpa using hticking) (.signalled closer) hphased
        rwa [← hphase] at htick
    next => cases hnext
  | close =>
    rw [next] at hnext
    split at hnext
    next hidle =>
      cases hnext
      exact close_sound h hidle.2
    next => cases hnext
  | drain =>
    rw [next] at hnext
    split at hnext
    next closer hphase =>
      split at hnext
      next => cases hnext
      next hticking =>
        cases hnext
        have hphased := h.phased
        unfold Phased at hphased
        rw [hphase] at hphased
        exact tick_sound h (by simpa using hticking) _ hphased
    next => cases hnext
  | stop =>
    rw [next] at hnext
    split at hnext
    next closer hphase =>
      split at hnext
      next => cases hnext
      next hticking =>
        cases hnext
        exact stop_sound h hphase (by simpa using hticking)
    next => cases hnext
  | lock who =>
    rw [next] at hnext
    split at hnext
    next trigger hflight htrigger =>
      cases hnext
      exact lock_sound h hflight htrigger
    next => cases hnext
  | take =>
    rw [next] at hnext
    split at hnext
    next who trigger hflight =>
      obtain ⟨hempty, hbatch⟩ := take_sound h hflight
      dsimp only at hnext
      rw [if_pos hkey] at hnext
      split at hnext
      next hqueue =>
        cases hnext
        exact hempty (List.isEmpty_iff.1 hqueue)
      next =>
        cases hnext
        exact hbatch
    next => cases hnext
  | attempt a => exact attempt_sound h (hhonest a rfl) hnext

theorem init_sound : Sound .init := by
  have hnone : ∀ {P : Record → Prop}, ∀ r ∈ ([] : List Record), P r := fun r hr => by cases hr
  refine ⟨⟨[], [], [], ?_⟩, fun flight h => (by cases h), trivial⟩
  refine ⟨List.Perm.refl _, rfl, List.nodup_nil, hnone, fun _ _ => rfl, fun r => ?_, fun n r h => (by cases h), listing_none,
    List.nodup_nil, hnone, hnone, hnone, [], 0, rfl, Nat.zero_le _, List.Sublist.refl _⟩
  simp [State.init, Call.record]

/-- What the producer promises: no record is listed in two errors, the log
first takes records in the order they were queued, and once the producer is
closed every record is on the log or listed by an error a call returned. -/
structure Conserves (s : State) : Prop where
  once : s.reported.Nodup
  ordered : s.log.eraseDups.Sublist s.queued
  all : s.Closed → ∀ r ∈ s.handed, r ∈ s.log ∨ ∃ error ∈ s.errors, r ∈ error.unconfirmed

theorem Sound.conserves {s : State} (h : Sound s) : Conserves s := by
  obtain ⟨held, refused, done, hs⟩ := h.accounted
  refine ⟨(List.nodup_append'.1 hs.listed).2.1, ?_, ?_⟩
  · obtain ⟨landed, k, hlog, _, hlanded⟩ := hs.order
    rw [hlog, hs.queued]
    exact hlanded.append ((List.take_sublist _ _).trans (List.sublist_append_left _ _))
  · rintro ⟨closer, hphase, hreturned⟩ r hr
    obtain ⟨halone, _, ⟨hcall, _⟩ | ⟨_, hflight, hqueue, hkept⟩⟩ := h.phased.stopped hphase
    · rw [hreturned] at hcall
      cases hcall
    · -- No call holds a record, and nothing is queued, pending or kept.
      have hheld : r ∉ held := by
        rw [hs.holds]
        intro hrecord
        by_cases hcloser : r.sender = closer
        · rw [hcloser, hreturned] at hrecord
          cases hrecord
        · rcases halone r.sender hcloser with hcall | hcall <;> rw [hcall] at hrecord <;> cases hrecord
      have hpending : s.pending = [] := by
        unfold State.pending
        rw [hflight]
      have hlisted : ∀ other, other ∈ s.listed → ∃ error ∈ s.errors, other ∈ error.unconfirmed := by
        intro other hother
        unfold State.listed State.reported at hother
        rw [hkept, records_none, List.nil_append, List.mem_flatMap] at hother
        exact hother
      have hplace := (List.mem_append.1 (hs.handed.mem_iff.1 hr)).resolve_left hheld
      rw [hs.queued, hpending, hqueue, List.append_nil, List.append_nil] at hplace
      rcases List.mem_append.1 hplace with hrefused | hdone
      · exact .inr (hlisted r (hs.refusals r hrefused))
      · exact (hs.settled r hdone).imp_right (hlisted r)

/-! ## A refused partition key -/

/-- Steps without an append run as they compute. -/
theorem run_of_next {actions taken : List Action} (happend : ∀ a, .attempt a ∉ actions) {s₀ s s' : State}
    (hrun : Run (Step accepts cfg) s₀ taken s) (h : actions.foldlM (next accepts cfg) s = some s') :
    Run (Step accepts cfg) s₀ (taken ++ actions) s' := by
  induction actions generalizing taken s with
  | nil =>
    cases h
    rwa [List.append_nil]
  | cons action rest ih =>
    rw [List.foldlM_cons] at h
    obtain ⟨middle, hnext, hrest⟩ := Option.bind_eq_some_iff.1 h
    have hstep : Step accepts cfg s action middle := by
      refine ⟨hnext, fun a ha => ?_⟩
      subst ha
      exact absurd List.mem_cons_self (happend a)
    rw [← List.singleton_append, ← List.append_assoc]
    exact ih (fun a hmem => happend a (List.mem_cons_of_mem _ hmem)) (hrun.snoc hstep) hrest

/-- One record large enough to be flushed at once, and a `close`. -/
def sendAndClose (cfg : Config) : List Action :=
  [.send cfg.maxBytes, .check 0, .push 0, .lock (.call 0), .take, .close, .drain, .lock .timer, .take, .stop,
    .lock (.call 1), .take]

/-- The producer once the refused key dropped the record. -/
def dropped (cfg : Config) : State :=
  ⟨[], 0, none, false, none, Function.update (fun _ => .unused) 0 .returned, 1, false, .running, [], [⟨0, cfg.maxBytes⟩],
    [⟨0, cfg.maxBytes⟩], [.plain .partitioning]⟩

theorem next_dropped (hkey : cfg.partitioning accepts = false) :
    [.send cfg.maxBytes, .check 0, .push 0, .lock (.call 0), .take].foldlM (next accepts cfg) .init =
      some (dropped cfg) := by
  simp [State.init, next, State.begin, State.setCall, State.trigger, State.finish, State.return, settle, hkey, dropped]

/-- The `close` finds nothing left to report. -/
theorem dropped_closes : ∃ s,
    [.close, .drain, .lock .timer, .take, .stop, .lock (.call 1), .take].foldlM (next accepts cfg) (dropped cfg) = some s ∧
      s.Closed ∧ s.handed = [⟨0, cfg.maxBytes⟩] ∧ s.log = [] ∧ s.errors = [.plain .partitioning] := by
  simp [next, dropped, State.begin, State.setCall, State.trigger, State.finish, State.return, State.idle, settle,
    State.Closed]

/-- Under a refused key the record is neither on the log nor in an error. -/
theorem sendAndClose_loses (hkey : cfg.partitioning accepts = false) : ∃ s,
    Run (Step accepts cfg) .init (sendAndClose cfg) s ∧ s.Closed ∧ s.handed = [⟨0, cfg.maxBytes⟩] ∧ s.log = [] ∧
      s.errors = [.plain .partitioning] := by
  obtain ⟨s, hclose, hlost⟩ := @dropped_closes accepts cfg
  have hrun : (sendAndClose cfg).foldlM (next accepts cfg) .init = some s := by
    show ([.send cfg.maxBytes, .check 0, .push 0, .lock (.call 0), .take] ++ _ : List Action).foldlM _ _ = _
    rw [List.foldlM_append, next_dropped hkey]
    exact hclose
  have hsteps : Run (Step accepts cfg) .init ([] ++ sendAndClose cfg) s :=
    run_of_next (by simp [sendAndClose]) .nil hrun
  exact ⟨s, hsteps, hlost⟩

/-- The producer conserves records in every run, whatever the interleaving
and whatever the appends come to, exactly when its partition key is
accepted. -/
theorem nothing_lost_iff (accepts : String → Bool) (cfg : Config) :
    (∀ actions s, Run (Step accepts cfg) .init actions s → Conserves s) ↔ cfg.partitioning accepts = true := by
  constructor
  · intro h
    by_contra hkey
    rw [Bool.not_eq_true] at hkey
    obtain ⟨s, hrun, hclosed, hhanded, hlog, herrors⟩ := sendAndClose_loses hkey
    have hmem : (⟨0, cfg.maxBytes⟩ : Record) ∈ s.handed := by
      rw [hhanded]
      exact List.mem_cons_self
    rcases (h _ _ hrun).all hclosed _ hmem with hlanded | ⟨error, herror, hlisted⟩
    · rw [hlog] at hlanded
      cases hlanded
    · rw [herrors] at herror
      cases List.mem_singleton.1 herror
      cases hlisted
  · intro hkey actions s hrun
    refine (hrun.inv Sound init_sound fun s action s' hs hstep => ?_).conserves
    exact next_sound hkey hs hstep

/-- The keys the log accepts: 1 to 255 bytes. -/
def acceptsKey (key : String) : Bool := 0 < key.utf8ByteSize && key.utf8ByteSize ≤ 255

/-- A producer that flushes each record, with a partition key. -/
def keyed (key : String) : Config := ⟨"fleet", "readings", some key, 1, 1024, 3⟩

/-- With an empty key a record is queued, flushed and gone. -/
theorem empty_key_loses_record : ∃ s, Run (Step acceptsKey (keyed "")) .init (sendAndClose (keyed "")) s ∧ ¬ Conserves s := by
  obtain ⟨s, hrun, hclosed, hhanded, hlog, herrors⟩ := @sendAndClose_loses acceptsKey (keyed "") rfl
  refine ⟨s, hrun, fun h => ?_⟩
  have hmem : (⟨0, 1024⟩ : Record) ∈ s.handed := by
    rw [hhanded]
    exact List.mem_cons_self
  have hlost := h.all hclosed _ hmem
  simp [hlog, herrors, LaserError.unconfirmed] at hlost

end LaserSdk.Publish

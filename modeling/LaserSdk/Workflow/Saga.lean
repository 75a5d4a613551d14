import LaserSdk.Lib.Runs
import LaserSdk.Workflow.Steps
/-!
# Rolling back

Runs of one workflow follow each other on one journal, some of them cut off.
As long as every replay sees all the journal holds, what is recorded is an
initial segment of the order, and a run that fails compensates it all in
reverse order, save a step that fails after its record landed.
-/

namespace LaserSdk.Workflow

open Lib Traced

/-! ## Runs of one workflow -/

structure World where
  /-- The partition that holds the run's journal. -/
  journal : List JournalRecord
  /-- All that reached the outside. -/
  history : List Event
  deriving DecidableEq, Repr

/-- What happens to the workflow. `noise` is how many records of other runs
come before the record of a step. -/
inductive Turn where
  | run (answers : Answers) (noise : Nat → Nat)
  | crash (answers : Answers) (noise : Nat → Nat) (cut : Nat)
  | others (count : Nat)

/-- The records a trace leaves on the partition. -/
def written (noise : Nat → Nat) (trace : List Event) : List JournalRecord :=
  trace.flatMap fun
    | .recorded index label output => List.replicate (noise index) .other ++ [.stepCompleted label output]
    | _ => []

section

variable (steps : List Step) (budget : WorkflowBudget)

def Turn.trace (world : World) : Turn → List Event
  | .run answers _ => (execute steps budget answers world.journal).trace
  | .crash answers _ cut => (execute steps budget answers world.journal).trace.take cut
  | .others _ => []

def World.after (world : World) (turn : Turn) : World where
  journal := world.journal ++ match turn with
    | .run _ noise | .crash _ noise _ => written noise (turn.trace steps budget world)
    | .others count => List.replicate count .other
  history := world.history ++ turn.trace steps budget world

end

/-- The labels recorded on the journal. -/
def journalLabels (journal : List JournalRecord) : List String := (entries journal).map (·.1)

/-- One replay sees every step the journal has recorded. -/
def ReadsWhole (journal : List JournalRecord) : Prop :=
  ∀ label ∈ journalLabels journal, ((replay journal).lookup label).isSome = true

/-! ## The journal -/

@[simp] theorem journalLabels_append (j j' : List JournalRecord) :
    journalLabels (j ++ j') = journalLabels j ++ journalLabels j' := by
  simp [journalLabels, entries]

theorem journalLabels_others (count : Nat) : journalLabels (List.replicate count .other) = [] := by
  have hnone : entries (List.replicate count .other) = [] := by
    unfold entries
    rw [List.filterMap_eq_nil_iff]
    intro record hmem
    rw [List.eq_of_mem_replicate hmem]
    rfl
  rw [journalLabels, hnone, List.map_nil]

theorem journalLabels_written (noise : Nat → Nat) (trace : List Event) :
    journalLabels (written noise trace) = recordedLabels trace := by
  induction trace with
  | nil => rfl
  | cons event rest ih =>
    rw [written, List.flatMap_cons, journalLabels_append]
    rw [written] at ih
    rw [ih, ← List.singleton_append, recordedLabels_append]
    cases event with
    | recorded index label output =>
      simp [journalLabels, entries, JournalRecord.entry, recordedLabels, Event.recordedLabel]
    | _ => rfl

theorem journalLabels_after (steps : List Step) (budget : WorkflowBudget) (world : World) (turn : Turn) :
    journalLabels (world.after steps budget turn).journal =
      journalLabels world.journal ++ recordedLabels (turn.trace steps budget world) := by
  cases turn with
  | run answers noise => simp [World.after, journalLabels_written]
  | crash answers noise cut => simp [World.after, journalLabels_written]
  | others count => simp [World.after, journalLabels_others, Turn.trace, recordedLabels]

theorem mem_lastN {α : Type} {n : Nat} {l : List α} {a : α} (h : a ∈ lastN n l) : a ∈ l := by
  unfold lastN at h
  exact List.mem_reverse.1 (List.mem_of_mem_take (List.mem_reverse.1 h))

/-- A replay shows only what is recorded. -/
theorem mem_of_replay {journal : List JournalRecord} {label : String}
    (h : ((replay journal).lookup label).isSome = true) : label ∈ journalLabels journal := by
  obtain ⟨entry, hentry, hlabel⟩ := List.lookup_isSome_iff.1 h
  have hmem := mem_lastN (List.mem_reverse.1 hentry)
  obtain ⟨record, hrecord, heq⟩ := List.mem_filterMap.1 hmem
  refine List.mem_map.2 ⟨entry, List.mem_filterMap.2 ⟨record, mem_lastN hrecord, heq⟩, ?_⟩
  exact (beq_iff_eq.1 hlabel).symm

/-! ## One run -/

section

variable {steps : List Step} {budget : WorkflowBudget} {answers : Answers} {order : List Nat}

/-- The label of a step by its index. -/
def labelAt (steps : List Step) (index : Nat) : String := (stepAt steps index).label

theorem labelAt_inj (hlabels : (steps.map Step.label).Nodup) {i j : Nat} (hi : i < steps.length) (hj : j < steps.length)
    (h : labelAt steps i = labelAt steps j) : i = j := by
  have hget {k : Nat} (hk : k < steps.length) : steps[k]? = some (stepAt steps k) := by simp [stepAt, hk]
  exact label_inj hlabels (hget hi) (hget hj) h

theorem order_label_inj (hlabels : (steps.map Step.label).Nodup) (horder : topologicalOrder steps = .ok order) {i j : Nat}
    (hi : i ∈ order) (hj : j ∈ order) (h : labelAt steps i = labelAt steps j) : i = j :=
  labelAt_inj hlabels ((mem_topologicalOrder horder).1 hi) ((mem_topologicalOrder horder).1 hj) h

theorem execute_eq (horder : topologicalOrder steps = .ok order) (records : List JournalRecord) :
    (∃ error, execute steps budget answers records = ⟨[], .error ⟨.setup, error⟩⟩) ∨
    execute steps budget answers records = (do
      let progress ← runSteps steps budget answers order
        ⟨replay records, order.filter (isRecorded steps (replay records)), 0, 0⟩
      return progress.outputs) := by
  unfold execute
  rw [horder]
  cases answers.replay with
  | error error => exact .inl ⟨error, rfl⟩
  | ok read => exact .inr rfl

/-- The journal has recorded the first `count` steps of the order. -/
def RecordsFirst (steps : List Step) (order : List Nat) (journal : List JournalRecord) (count : Nat) : Prop :=
  ∀ label, label ∈ journalLabels journal ↔ label ∈ (order.take count).map (labelAt steps)

/-- A replay of such a journal sees these steps and no others. -/
theorem isRecorded_iff (hlabels : (steps.map Step.label).Nodup) (horder : topologicalOrder steps = .ok order)
    {journal : List JournalRecord} {count : Nat} (hread : ReadsWhole journal)
    (hfirst : RecordsFirst steps order journal count) {index : Nat} (hindex : index ∈ order) :
    isRecorded steps (replay journal) index = true ↔ index ∈ order.take count := by
  have hseen : isRecorded steps (replay journal) index = true ↔ labelAt steps index ∈ journalLabels journal :=
    ⟨mem_of_replay, hread _⟩
  rw [hseen, hfirst, List.mem_map]
  constructor
  · rintro ⟨other, hother, heq⟩
    exact order_label_inj hlabels horder (List.mem_of_mem_take hother) hindex heq ▸ hother
  · intro h
    exact ⟨index, h, rfl⟩

/-- A run that replays the first steps of the order runs the others. -/
theorem execute_ends (hlabels : (steps.map Step.label).Nodup) (horder : topologicalOrder steps = .ok order)
    {journal : List JournalRecord} {count : Nat} (hread : ReadsWhole journal)
    (hfirst : RecordsFirst steps order journal count) :
    (∃ error, execute steps budget answers journal = ⟨[], .error ⟨.setup, error⟩⟩) ∨
    ∃ x succeeded recorded, RunEnds steps answers (order.take count) (order.drop count) x succeeded recorded ∧
      (execute steps budget answers journal).trace = x.trace ∧
      (execute steps budget answers journal).result = x.result.map Progress.outputs := by
  have hseen {index : Nat} (hindex : index ∈ order) := @isRecorded_iff steps order hlabels horder journal count hread hfirst index hindex
  have hnodup := topologicalOrder_nodup horder
  have hsplit := List.take_append_drop count order
  have hdisjoint : ∀ index ∈ order.drop count, index ∉ order.take count := by
    intro index hdrop htake
    rw [← hsplit] at hnodup
    exact (List.nodup_append.1 hnodup).2.2 index htake index hdrop rfl
  have hnew : ∀ index ∈ order.drop count, isRecorded steps (replay journal) index = false := by
    intro index hdrop
    exact Bool.eq_false_iff.2 fun h => hdisjoint index hdrop ((hseen (List.mem_of_mem_drop hdrop)).1 h)
  have hold : ∀ index ∈ order.take count, isRecorded steps (replay journal) index = true :=
    fun index htake => (hseen (List.mem_of_mem_take htake)).2 htake
  have hcompleted : order.filter (isRecorded steps (replay journal)) = order.take count := by
    conv => lhs; rw [← hsplit]
    rw [List.filter_append, List.filter_eq_self.2 hold, List.filter_eq_nil_iff.2 (fun i hi => by simp [hnew i hi]),
      List.append_nil]
  rcases @execute_eq steps budget answers order horder journal with herror | heq
  · exact .inl herror
  · right
    have hskip := @runSteps_skip steps budget answers (order.take count) (order.drop count)
      ⟨replay journal, order.take count, 0, 0⟩ hold
    rw [hsplit] at hskip
    rw [hcompleted, hskip] at heq
    obtain ⟨succeeded, recorded, hends⟩ := @runSteps_ends steps budget answers (order.drop count)
      ⟨replay journal, order.take count, 0, 0⟩ (hnodup.sublist (List.drop_sublist ..)) hnew fun i hi j hj =>
        order_label_inj hlabels horder (List.mem_of_mem_drop hi) (List.mem_of_mem_drop hj)
    exact ⟨_, succeeded, recorded, hends, by rw [heq, map_trace], by rw [heq, map_result]⟩

/-! ## Every run -/

/-- A turn whose run, if it is one, replays all the journal holds. -/
def wholeTurn (steps : List Step) (budget : WorkflowBudget) (world : World) (turn : Turn) (next : World) : Prop :=
  ReadsWhole world.journal ∧ next = world.after steps budget turn

theorem recordsFirst_append {journal : List JournalRecord} {trace : List Event} {count more : Nat}
    {labels : List String} (hfirst : RecordsFirst steps order journal count)
    (hlabels : labels = journalLabels journal ++ recordedLabels trace)
    (htrace : recordedLabels trace = ((order.drop count).take more).map (labelAt steps)) (label : String) :
    label ∈ labels ↔ label ∈ (order.take (count + more)).map (labelAt steps) := by
  rw [hlabels, List.mem_append, htrace, hfirst, List.take_add, List.map_append, List.mem_append]

/-- A part of a run's trace records the next steps of the order. -/
theorem recorded_part (hlabels : (steps.map Step.label).Nodup) (horder : topologicalOrder steps = .ok order)
    {journal : List JournalRecord} {count : Nat} (hread : ReadsWhole journal)
    (hfirst : RecordsFirst steps order journal count) {part : List Event}
    (hpart : part <+: (execute steps budget answers journal).trace) :
    ∃ more, recordedLabels part = ((order.drop count).take more).map (labelAt steps) := by
  rcases @execute_ends steps budget answers order hlabels horder journal count hread hfirst with
    ⟨error, heq⟩ | ⟨x, succeeded, recorded, hends, htrace, -⟩
  · rw [heq] at hpart
    exact ⟨0, by rw [List.prefix_nil.1 hpart]; rfl⟩
  · rw [htrace] at hpart
    have hprefix := hpart.filterMap Event.recordedLabel
    change recordedLabels part <+: recordedLabels x.trace at hprefix
    rw [hends.labels] at hprefix
    have htake := List.prefix_iff_eq_take.1 hprefix
    rw [← List.map_take, List.take_take] at htake
    exact ⟨_, htake⟩

theorem recordsFirst_after (hlabels : (steps.map Step.label).Nodup) (horder : topologicalOrder steps = .ok order)
    {world next : World} {turn : Turn} (hturn : wholeTurn steps budget world turn next)
    (hfirst : ∃ count, RecordsFirst steps order world.journal count) :
    ∃ count, RecordsFirst steps order next.journal count := by
  obtain ⟨hread, rfl⟩ := hturn
  obtain ⟨count, hfirst⟩ := hfirst
  have hafter := journalLabels_after steps budget world turn
  have hpart : ∃ more, recordedLabels (turn.trace steps budget world) =
      ((order.drop count).take more).map (labelAt steps) := by
    cases turn with
    | run answers noise => exact recorded_part hlabels horder hread hfirst (List.prefix_refl _)
    | crash answers noise cut => exact recorded_part hlabels horder hread hfirst (List.take_prefix ..)
    | others number => exact ⟨0, rfl⟩
  obtain ⟨more, hmore⟩ := hpart
  exact ⟨count + more, recordsFirst_append hfirst hafter hmore⟩

theorem rollback_sublist {completed : List Nat} (h : completed.Sublist order) :
    (rollback steps completed).Sublist order.reverse :=
  List.filter_sublist.trans h.reverse

theorem count_rollback {completed : List Nat} (hnodup : completed.Nodup) {index : Nat} (hmem : index ∈ completed)
    (hdeclared : (stepAt steps index).compensate = true) : (rollback steps completed).count index = 1 := by
  have hreverse : (completed.reverse.filter fun index => (stepAt steps index).compensate).Nodup :=
    (List.nodup_reverse.2 hnodup).filter _
  exact List.count_eq_one_of_mem hreverse (List.mem_filter.2 ⟨List.mem_reverse.2 hmem, hdeclared⟩)

/-- In any sequence of runs that replay all the journal holds, a run that fails
by a step or the budget attempts the compensation of every recorded step once,
in reverse order, if no step that declares one fails after its record landed. -/
theorem failed_run_compensates (hlabels : (steps.map Step.label).Nodup) {turns : List Turn} {world : World}
    (hruns : Run (wholeTurn steps budget) ⟨[], []⟩ turns world) (hread : ReadsWhole world.journal)
    (hstands : ∀ index < steps.length, (stepAt steps index).compensate = true → recordStands steps answers index)
    {failure : Failure} (hfailed : (execute steps budget answers world.journal).result = .error failure)
    (hkind : failure.byStepOrBudget = true) (noise : Nat → Nat) :
    ∃ order, topologicalOrder steps = .ok order ∧
      (∀ index < steps.length, (stepAt steps index).compensate = true →
        (stepAt steps index).label ∈ journalLabels (world.after steps budget (.run answers noise)).journal →
        (attempts (execute steps budget answers world.journal).trace).count index = 1) ∧
      (attempts (execute steps budget answers world.journal).trace).Sublist order.reverse := by
  cases horder : topologicalOrder steps with
  | error error =>
    have hsetup : execute steps budget answers world.journal = ⟨[], .error ⟨.setup, error⟩⟩ := by
      unfold execute
      rw [horder]
      rfl
    rw [hsetup] at hfailed
    cases hfailed
    cases hkind
  | ok order =>
    refine ⟨order, rfl, ?_⟩
    have hfirst : ∃ count, RecordsFirst steps order world.journal count :=
      hruns.inv (fun world => ∃ count, RecordsFirst steps order world.journal count)
        ⟨0, fun label => by simp [journalLabels, entries]⟩ fun _ _ _ hfirst hturn =>
          recordsFirst_after hlabels horder hturn hfirst
    obtain ⟨count, hfirst⟩ := hfirst
    rcases @execute_ends steps budget answers order hlabels horder world.journal count hread hfirst with
      ⟨error, heq⟩ | ⟨x, succeeded, recorded, hends, htrace, hresult⟩
    · rw [heq] at hfailed
      cases hfailed
      cases hkind
    · have hfailed : x.result = .error failure := by
        rw [hresult] at hfailed
        exact map_error hfailed
      have hattempts : attempts (execute steps budget answers world.journal).trace =
          rollback steps (order.take (count + succeeded)) := by
        have hcontrol : failure.stage ≠ .control := fun h => by simp [Failure.byStepOrBudget, h] at hkind
        rw [htrace, hends.attempted failure hfailed, if_neg hcontrol, ← List.take_add]
      rw [hattempts]
      refine ⟨fun index hindex hdeclared hlabel => ?_, rollback_sublist (List.take_sublist ..)⟩
      rw [journalLabels_after] at hlabel
      have hrecorded : index ∈ order.take (count + recorded) := by
        obtain ⟨other, hother, heq⟩ := List.mem_map.1 ((recordsFirst_append hfirst rfl
          (htrace.symm ▸ hends.labels : recordedLabels (Turn.trace steps budget world (.run answers noise)) = _) _).1 hlabel)
        have hbound := (mem_topologicalOrder horder).1 (List.mem_of_mem_take hother)
        exact labelAt_inj hlabels hbound hindex heq ▸ hother
      refine count_rollback ((topologicalOrder_nodup horder).sublist (List.take_sublist ..)) ?_ hdeclared
      rcases hends.ahead with rfl | ⟨rfl, last, hlast, hlost⟩
      · exact hrecorded
      · -- The step recorded without success is the one that does not stand.
        rw [← Nat.add_assoc, List.take_add_one, List.mem_append] at hrecorded
        refine hrecorded.resolve_right fun hmem => ?_
        rw [← List.getElem?_drop, hlast] at hmem
        obtain rfl := List.mem_singleton.1 hmem
        exact hlost (hstands index hindex hdeclared)

end

/-! ## Two workflows -/

def unlimited : WorkflowBudget := ⟨none, none, none⟩

/-- Answers under which every step goes well. -/
def calm : Answers where
  replay := .ok ()
  cancelRequested _ := .ok false
  budgetBreach _ := .ok none
  elapsed _ _ := 0
  build _ _ := .ok []
  contract _ _ := .ok (.completed ⟨[1], none⟩)
  scatter _ := .ok [[1]]
  lossyText text := text
  verify _ _ := .ok true
  journal _ := .accepted
  fencedLeases := true
  coordination _ _ := .ok ()
  lease _ _ := .ok 60000000000
  rounds _ _ := []
  release _ _ := .ok true
  compensate _ _ := .ok []

/-- Book with a compensation, then pay. -/
def bookAndPay : List Step :=
  [⟨"book", .to "hotel", [], false, false, .fail, true⟩, ⟨"pay", .to "bank", ["book"], false, false, .fail, false⟩]

/-- The payment fails. -/
def paymentFails : Answers := { calm with contract := fun index _ => if index = 1 then .ok .failed else calm.contract 0 1 }

theorem failed_payment_compensates : ∃ order, topologicalOrder bookAndPay = .ok order ∧
    (∀ index < bookAndPay.length, (stepAt bookAndPay index).compensate = true →
      (stepAt bookAndPay index).label ∈
        journalLabels ((World.mk [] []).after bookAndPay unlimited (.run paymentFails fun _ => 0)).journal →
      (attempts (execute bookAndPay unlimited paymentFails []).trace).count index = 1) ∧
    (attempts (execute bookAndPay unlimited paymentFails []).trace).Sublist order.reverse := by
  refine failed_run_compensates (by decide) .nil nofun (fun index hindex hdeclared => ?_)
    (show (execute bookAndPay unlimited paymentFails []).result =
      .error ⟨.dispatch, .handlerConfig "a workflow step did not complete"⟩ by decide) (by decide) fun _ => 0
  refine ⟨fun error => nofun, fun hexclusive => ?_⟩
  have hzero : index = 0 := by
    match index with
    | 0 => rfl
    | 1 => cases hdeclared
  subst hzero
  cases hexclusive

/-- An exclusive charge with a compensation. -/
def charge : List Step := [⟨"charge", .to "bank", [], false, true, .fail, true⟩]

/-- The charge is recorded, then the release finds the lease gone. -/
def leaseGone : Answers := { calm with release := fun _ _ => .ok false }

theorem recorded_charge_not_compensated :
    (execute charge unlimited leaseGone []).result = .error ⟨.lease, .leaseLost⟩ ∧
    (Failure.mk .lease .leaseLost).byStepOrBudget = true ∧ (stepAt charge 0).compensate = true ∧
    (stepAt charge 0).label ∈
      journalLabels ((World.mk [] []).after charge unlimited (.run leaseGone fun _ => 0)).journal ∧
    (attempts (execute charge unlimited leaseGone []).trace).count 0 = 0 := by
  decide

end LaserSdk.Workflow

import LaserSdk.Workflow.Resume
/-!
# What a resumed run redoes

A run that finds completions of an earlier one on the journal takes their
outputs and dispatches only the other steps. It finds what one context read
gives it, which is the newest fifty records.
-/

namespace LaserSdk.Workflow

open Lib Traced

section

variable {steps : List Step} {budget : WorkflowBudget} {answers : Answers}

/-! ## What a step is handed -/

/-- An event other than a payload being built. -/
def Event.notBuilding : Event → Prop
  | .building _ _ => False
  | _ => True

theorem finalizeStep_notBuilding (index : Nat) (output : Bytes) :
    (finalizeStep steps answers index output).Emits Event.notBuilding := by
  rcases @finalizeStep_cases steps answers index output with ⟨failure, heq⟩ | ⟨-, result, heq, -⟩
  · rw [heq]
    nofun
  · rw [heq]
    intro event hmem
    obtain rfl := List.mem_singleton.1 hmem
    trivial

theorem dispatchOne_notBuilding (index attempt : Nat) : (dispatchOne answers index attempt).Emits Event.notBuilding := by
  unfold dispatchOne
  refine emits_bind (emits_emit trivial) fun _ _ => emits_bind (emits_call _) fun contract _ => ?_
  cases contract with
  | completed reply => exact emits_bind (emits_emit trivial) fun _ _ => emits_pure _
  | _ => exact emits_pure _

theorem completion_notBuilding (index attempt : Nat) :
    (completion steps answers index attempt).Emits Event.notBuilding := by
  unfold completion
  refine emits_bind (dispatchOne_notBuilding index attempt) fun dispatch _ => ?_
  cases dispatch with
  | completed body tokens => exact emits_bind (finalizeStep_notBuilding index body) fun _ _ => emits_pure _
  | _ => exact emits_pure _

theorem attempt_notBuilding (index attempt : Nat) :
    (dispatchExclusiveAttempt steps answers index attempt).Emits Event.notBuilding := by
  have hcompletion := @completion_notBuilding steps answers index attempt
  unfold dispatchExclusiveAttempt
  refine emits_bind emits_failIf fun _ _ => emits_bind (emits_call _) fun _ _ => emits_bind (emits_call _) fun granted _ => ?_
  unfold underLease
  split
  · exact emits_take hcompletion _
  · exact hcompletion
  · exact emits_bind hcompletion fun _ _ => emits_bind (emits_call _) fun _ _ => emits_bind emits_failIf fun _ _ => emits_pure _

theorem exclusiveAttempts_notBuilding (index attempt left : Nat) :
    (exclusiveAttempts steps answers index attempt left).Emits Event.notBuilding := by
  induction left generalizing attempt with
  | zero =>
    unfold exclusiveAttempts
    refine emits_bind (attempt_notBuilding index attempt) fun outcome _ => ?_
    cases outcome with
    | completed body tokens => exact emits_pure _
    | _ => exact emits_fail _
  | succ left ih =>
    unfold exclusiveAttempts
    refine emits_bind (attempt_notBuilding index attempt) fun outcome _ => ?_
    cases outcome with
    | completed body tokens => exact emits_pure _
    | timedOut => exact ih (attempt + 1)
    | notCompleted => exact emits_fail _

theorem deliver_notBuilding (index : Nat) : (deliver steps answers index).Emits Event.notBuilding := by
  unfold deliver
  split
  · unfold scatter
    refine emits_bind ?_ fun result _ => emits_bind (finalizeStep_notBuilding index _) fun _ _ => emits_pure _
    refine emits_bind (emits_emit trivial) fun _ _ => emits_bind (emits_call _) fun _ _ => emits_bind emits_failIf fun _ _ => ?_
    exact emits_bind (emits_emit trivial) fun _ _ => emits_pure _
  · split
    · exact exclusiveAttempts_notBuilding index 1 _
    · refine emits_bind (dispatchOne_notBuilding index 1) fun dispatch _ => ?_
      cases dispatch with
      | completed output tokens => exact emits_bind (finalizeStep_notBuilding index output) fun _ _ => emits_pure _
      | _ => exact emits_fail _

/-- A step dispatches itself and is handed the outputs so far. -/
def Event.ofStep (index : Nat) (outputs : Outputs) : Event → Prop
  | .dispatched i => i = index
  | .building _ handed => handed = outputs
  | _ => True

theorem deliver_ofStep (index : Nat) (outputs : Outputs) :
    (deliver steps answers index).Emits (Event.ofStep index outputs) := by
  intro event hmem
  have hbuilding := @deliver_notBuilding steps answers index event hmem
  obtain ⟨opening, last, htrace, hopening, hlast, -⟩ := @deliver_delivers steps answers index
  rw [htrace] at hmem
  cases event with
  | building i handed => exact hbuilding.elim
  | dispatched i =>
    rcases List.mem_append.1 hmem with hmem | hmem
    · exact hopening _ hmem
    · cases hlast <;> simp at hmem <;> exact hmem
  | _ => trivial

theorem attemptStep_ofStep (index : Nat) (progress : Progress) :
    (attemptStep steps budget answers index progress).Emits (Event.ofStep index progress.outputs) := by
  unfold attemptStep
  refine emits_bind (fun event hmem => ?_) fun _ _ => emits_bind (emits_emit rfl) fun _ _ => ?_
  · rw [checkStep_trace] at hmem
    cases hmem
  · exact emits_bind (emits_call _) fun _ _ => deliver_ofStep index progress.outputs

/-! ## What a run is handed -/

/-- The run dispatches no step with an output and hands every output on. -/
def Event.keeps (steps : List Step) (outputs : Outputs) : Event → Prop
  | .dispatched index => isRecorded steps outputs index = false
  | .building _ handed => ∀ label output, outputs.lookup label = some output → handed.lookup label = some output
  | _ => True

theorem keeps_of_ofStep {index : Nat} {progress : Progress} (hnew : isRecorded steps progress.outputs index = false)
    {event : Event} (h : event.ofStep index progress.outputs) : event.keeps steps progress.outputs := by
  cases event with
  | dispatched i =>
    cases h
    exact hnew
  | building i handed =>
    cases h
    exact fun _ _ hlookup => hlookup
  | _ => trivial

/-- What holds of the outputs after a step holds of those before it. -/
theorem keeps_of_finish {index : Nat} {progress : Progress} {output : Bytes} {tokens : Nat}
    (hnew : isRecorded steps progress.outputs index = false) {event : Event}
    (h : event.keeps steps (progress.finish (stepAt steps index).label index output tokens).outputs) :
    event.keeps steps progress.outputs := by
  cases event with
  | dispatched i =>
    by_cases hlabel : (stepAt steps i).label = (stepAt steps index).label
    · show isRecorded steps progress.outputs i = false
      rw [isRecorded, hlabel]
      exact hnew
    · exact (isRecorded_finish hlabel).symm.trans h
  | building i handed =>
    intro label recorded hlookup
    apply h
    have hne : label ≠ (stepAt steps index).label := by
      rintro rfl
      rw [isRecorded, hlookup] at hnew
      cases hnew
    rw [Progress.finish, List.lookup_cons, beq_false_of_ne hne]
    exact hlookup
  | _ => trivial

theorem compensate_keeps {progress : Progress} (outputs : Outputs) :
    ∀ event ∈ compensate steps answers progress, event.keeps steps outputs := by
  intro event hmem
  have hback := (mem_compensate hmem).1
  cases event with
  | dispatched i => cases hback
  | building i handed => cases hback
  | _ => trivial

theorem runSteps_keeps {todo : List Nat} {progress : Progress} :
    (runSteps steps budget answers todo progress).Emits (Event.keeps steps progress.outputs) := by
  induction todo generalizing progress with
  | nil => exact emits_pure _
  | cons index rest ih =>
    cases hnew : isRecorded steps progress.outputs index with
    | true =>
      have hskip := @runSteps_skip steps budget answers [index] rest progress (by simpa using hnew)
      rw [List.singleton_append] at hskip
      rw [hskip]
      exact ih
    | false =>
      have hattempt : ∀ event ∈ (attemptStep steps budget answers index progress).trace,
          event.keeps steps progress.outputs :=
        fun event hmem => keeps_of_ofStep hnew (attemptStep_ofStep index progress event hmem)
      rw [runSteps]
      rcases @runStep_cases steps budget answers index progress hnew with
        ⟨failure, -, hstep⟩ | ⟨output, tokens, -, ⟨error, hstep⟩ | hstep⟩
      · rw [hstep, mk_error_bind]
        intro event hmem
        rcases List.mem_append.1 hmem with hmem | hmem
        · exact hattempt event hmem
        · split at hmem
          · cases hmem
          · exact compensate_keeps _ event hmem
      · rw [hstep, mk_error_bind]
        intro event hmem
        rcases List.mem_append.1 hmem with hmem | hmem
        · exact hattempt event hmem
        · exact compensate_keeps _ event hmem
      · rw [hstep, mk_ok_bind]
        intro event hmem
        rcases List.mem_append.1 hmem with hmem | hmem
        · exact hattempt event hmem
        · exact keeps_of_finish hnew (ih event hmem)

theorem execute_keeps (journal : List JournalRecord) :
    (execute steps budget answers journal).Emits (Event.keeps steps (replay journal)) := by
  unfold execute
  refine emits_bind (emits_call _) fun order _ => emits_bind (emits_call _) fun _ _ => ?_
  exact emits_bind runSteps_keeps fun _ _ => emits_pure _

/-! ## The journal of an earlier run -/

theorem lookup_of_mem {l : List (String × Bytes)} (hnodup : (l.map (·.1)).Nodup) {label : String} {output : Bytes}
    (h : (label, output) ∈ l) : l.lookup label = some output := by
  induction l with
  | nil => cases h
  | cons entry rest ih =>
    obtain ⟨other, recorded⟩ := entry
    rw [List.map_cons, List.nodup_cons] at hnodup
    rcases List.mem_cons.1 h with heq | hmem
    · cases heq
      rw [List.lookup_cons, beq_self_eq_true]
    · have hne : label ≠ other := by
        rintro rfl
        exact hnodup.1 (List.mem_map.2 ⟨_, hmem, rfl⟩)
      rw [List.lookup_cons, beq_false_of_ne hne]
      exact ih hnodup.2 hmem

/-- What a run cut off somewhere leaves on a journal of its own. -/
def journaled (steps : List Step) (budget : WorkflowBudget) (earlier : Answers) (cut : Nat) : List JournalRecord :=
  written (fun _ => 0) ((execute steps budget earlier []).trace.take cut)

theorem entries_written (trace : List Event) : (entries (written (fun _ => 0) trace)).length =
    (written (fun _ => 0) trace).length := by
  induction trace with
  | nil => rfl
  | cons event rest ih =>
    rw [written, List.flatMap_cons]
    rw [written] at ih
    cases event with
    | recorded index label output => simpa [entries, JournalRecord.entry] using ih
    | _ => exact ih

/-- A journal of at most fifty records is replayed whole. -/
theorem replay_short {journal : List JournalRecord} (h : journal.length ≤ lastRecords) :
    replay journal = (entries journal).reverse := by
  have hlength : (entries journal).length ≤ journal.length := List.length_filterMap_le _ _
  have hwhole {α : Type} {n : Nat} {l : List α} (hl : l.length ≤ n) : lastN n l = l := by
    rw [lastN, List.take_of_length_le (by simpa using hl), List.reverse_reverse]
  rw [replay, hwhole (Nat.le_trans h (by decide)), hwhole (Nat.le_trans hlength h)]

theorem mem_journalLabels {journal : List JournalRecord} {label : String} (h : label ∈ journalLabels journal) :
    ∃ output, .stepCompleted label output ∈ journal := by
  unfold journalLabels entries at h
  obtain ⟨entry, hentry, rfl⟩ := List.mem_map.1 h
  obtain ⟨record, hrecord, hrecorded⟩ := List.mem_filterMap.1 hentry
  cases record with
  | other => cases hrecorded
  | stepCompleted label output =>
    cases hrecorded
    exact ⟨output, hrecord⟩

/-- The labels an earlier run recorded: the first steps of the order. -/
theorem journaled_labels (hlabels : (steps.map Step.label).Nodup) {order : List Nat}
    (horder : topologicalOrder steps = .ok order) (earlier : Answers) (cut : Nat) :
    ∃ count, journalLabels (journaled steps budget earlier cut) = (order.take count).map (labelAt steps) := by
  obtain ⟨count, hcount⟩ := @recorded_part steps budget earlier order hlabels horder [] 0 nofun (fun label => Iff.rfl)
    _ (List.take_prefix cut (execute steps budget earlier []).trace)
  exact ⟨count, by rw [journaled, journalLabels_written, hcount, List.drop_zero]⟩

theorem journaled_nodup (hlabels : (steps.map Step.label).Nodup) {order : List Nat}
    (horder : topologicalOrder steps = .ok order) (earlier : Answers) (cut : Nat) :
    (journalLabels (journaled steps budget earlier cut)).Nodup := by
  obtain ⟨count, hcount⟩ := @journaled_labels steps budget hlabels order horder earlier cut
  rw [hcount]
  refine List.Nodup.map_on (fun i hi j hj => ?_) ((topologicalOrder_nodup horder).sublist (List.take_sublist ..))
  exact order_label_inj hlabels horder (List.mem_of_mem_take hi) (List.mem_of_mem_take hj)

/-! ## Resuming -/

/-- The run dispatches no step the journal shows as completed, and hands every
step it builds the outputs the journal shows. -/
def Rederives (steps : List Step) (journal : List JournalRecord) (trace : List Event) : Prop :=
  ∀ label output, .stepCompleted label output ∈ journal →
    (∀ index, .dispatched index ∈ trace → (stepAt steps index).label ≠ label) ∧
      ∀ index outputs, .building index outputs ∈ trace → outputs.lookup label = some output

theorem rederives_of_short {journal : List JournalRecord} (hnodup : (journalLabels journal).Nodup)
    (hshort : journal.length ≤ lastRecords) : Rederives steps journal (execute steps budget answers journal).trace := by
  intro label output hmem
  have hlookup : (replay journal).lookup label = some output := by
    rw [replay_short hshort]
    refine lookup_of_mem ?_ (List.mem_reverse.2 (List.mem_filterMap.2 ⟨_, hmem, rfl⟩))
    rw [List.map_reverse]
    exact List.nodup_reverse.2 hnodup
  refine ⟨fun index hdispatched hlabel => ?_, fun index outputs hbuilding => ?_⟩
  · have hnew : isRecorded steps (replay journal) index = false := execute_keeps journal _ hdispatched
    rw [isRecorded, hlabel, hlookup] at hnew
    cases hnew
  · exact execute_keeps journal _ hbuilding label output hlookup

/-! ## Journals that are too long -/

theorem lastN_suffix {α : Type} (n : Nat) (l : List α) : lastN n l <:+ l := by
  rw [← List.reverse_prefix, lastN, List.reverse_reverse]
  exact List.take_prefix n l.reverse

/-- The oldest of more than fifty records is not replayed. -/
theorem oldest_not_replayed {journal : List JournalRecord} {label : String} {rest : List String}
    (hlabels : journalLabels journal = label :: rest) (hnodup : (journalLabels journal).Nodup)
    (hlong : lastRecords < (journalLabels journal).length) : (replay journal).lookup label = none := by
  have hsuffix : (lastN lastRecords (entries (lastN contextReadWindow journal))).map (·.1) <:+ label :: rest := by
    rw [← hlabels]
    exact ((lastN_suffix _ _).trans ((lastN_suffix _ journal).filterMap JournalRecord.entry)).map (·.1)
  have hlength : ((lastN lastRecords (entries (lastN contextReadWindow journal))).map (·.1)).length ≤ lastRecords := by
    simp [lastN]
  rw [hlabels] at hnodup hlong
  -- The records read are the newest ones: all of them would be too many.
  rcases List.suffix_cons_iff.1 hsuffix with hall | hrest
  · rw [hall] at hlength
    omega
  · rw [List.lookup_eq_none_iff]
    intro entry hmem
    have hlater : entry.1 ∈ rest := hrest.mem (List.mem_map.2 ⟨entry, List.mem_reverse.1 hmem, rfl⟩)
    rw [bne_iff_ne]
    rintro rfl
    exact (List.nodup_cons.1 hnodup).1 hlater

theorem journaled_length (earlier : Answers) (cut : Nat) : (journaled steps budget earlier cut).length =
    (journalLabels (journaled steps budget earlier cut)).length := by
  rw [journalLabels, List.length_map, journaled, entries_written]

theorem journaled_length_le (earlier : Answers) (cut : Nat) : (journaled steps budget earlier cut).length ≤
    (recordedLabels (execute steps budget earlier []).trace).length := by
  rw [journaled_length, journaled, journalLabels_written]
  exact ((List.take_sublist cut _).filterMap _).length_le

/-- Answers that build any payload. -/
def Answers.building (answers : Answers) : Answers := { answers with build := fun _ _ => .ok [] }

theorem exclusiveAttempts_building (index attempt left : Nat) :
    exclusiveAttempts steps answers.building index attempt left = exclusiveAttempts steps answers index attempt left := by
  have hattempt : dispatchExclusiveAttempt steps answers.building index attempt =
    dispatchExclusiveAttempt steps answers index attempt := rfl
  induction left generalizing attempt with
  | zero => rfl
  | succ left ih =>
    rw [exclusiveAttempts, exclusiveAttempts]
    congr
    funext outcome
    cases outcome with
    | timedOut => exact ih (attempt + 1) rfl
    | _ => rfl

/-- The delivery does not read what builds the payload. -/
theorem deliver_building (index : Nat) : deliver steps answers.building index = deliver steps answers index := by
  unfold deliver dispatchExclusive
  rw [exclusiveAttempts_building]
  rfl

/-- A step that went well in one run is dispatched in another that is answered
the same. -/
theorem redispatched {index : Nat} {outputs outputs' : Outputs} {completed completed' : List Nat} {result : Bytes × Nat}
    (h : (attemptStep steps budget answers index ⟨outputs, completed, 0, 0⟩).result = .ok result) :
    .dispatched index ∈ (attemptStep steps budget answers.building index ⟨outputs', completed', 0, 0⟩).trace := by
  unfold attemptStep at h ⊢
  obtain ⟨checked, hcheck, hrest, -⟩ := bind_returns h
  obtain ⟨-, -, hbuild, -⟩ := bind_returns hrest
  obtain ⟨payload, -, hdeliver, -⟩ := bind_returns hbuild
  have hdispatched : .dispatched index ∈ (deliver steps answers index).trace := by
    obtain ⟨opening, last, htrace, -, -, hreturned, -⟩ := @deliver_delivers steps answers index
    rw [htrace, hreturned result.1 result.2 hdeliver]
    simp [deliveredTrace]
  have hsame : (checkStep steps budget answers.building index ⟨outputs', completed', 0, 0⟩).result = .ok checked := hcheck
  rw [bind_of_ok hsame]
  change _ ∈ _ ++ (.building index outputs' :: (deliver steps answers.building index).trace)
  rw [deliver_building]
  exact List.mem_append_right _ (List.mem_cons_of_mem _ hdispatched)

theorem runSteps_first {index : Nat} {rest : List Nat} {progress : Progress}
    (hnew : isRecorded steps progress.outputs index = false) :
    (attemptStep steps budget answers index progress).trace <+: (runSteps steps budget answers (index :: rest) progress).trace := by
  rw [runSteps]
  rcases @runStep_cases steps budget answers index progress hnew with
    ⟨failure, -, hstep⟩ | ⟨output, tokens, -, ⟨error, hstep⟩ | hstep⟩
  · rw [hstep, mk_error_bind]
    exact List.prefix_append ..
  · rw [hstep, mk_error_bind]
    exact List.prefix_append ..
  · rw [hstep, mk_ok_bind]
    exact List.prefix_append ..

theorem execute_trace {order : List Nat} {journal : List JournalRecord} (horder : topologicalOrder steps = .ok order)
    (hreplay : answers.replay = .ok ()) : (execute steps budget answers journal).trace =
      (runSteps steps budget answers order
        ⟨replay journal, order.filter (isRecorded steps (replay journal)), 0, 0⟩).trace := by
  unfold execute
  rw [horder, hreplay]
  exact map_trace ..

/-- A run that left more than one record took its first step well. -/
theorem first_step_ok {earlier : Answers} {first : Nat} {rest : List Nat}
    (horder : topologicalOrder steps = .ok (first :: rest))
    (hlong : 1 < (recordedLabels (execute steps budget earlier []).trace).length) :
    earlier.replay = .ok () ∧
      ∃ result, (attemptStep steps budget earlier first ⟨[], [], 0, 0⟩).result = .ok result := by
  have hdelivers := @attemptStep_delivers steps budget earlier first ⟨[], [], 0, 0⟩
  have hone : (recordedLabels (attemptStep steps budget earlier first ⟨[], [], 0, 0⟩).trace).length ≤ 1 := by
    rcases hdelivers.recorded with ⟨hnone, -⟩ | ⟨hsome, -⟩
    · simp [hnone]
    · simp [hsome]
  have hreplay : earlier.replay = .ok () := by
    cases hreplay : earlier.replay with
    | error error =>
      unfold execute at hlong
      rw [horder, hreplay] at hlong
      cases hlong
    | ok read => rfl
  have hcompleted : (first :: rest).filter (isRecorded steps []) = [] := by simp [isRecorded]
  have htrace := @execute_trace steps budget earlier (first :: rest) [] horder hreplay
  rw [show replay [] = [] from rfl, hcompleted] at htrace
  refine ⟨hreplay, ?_⟩
  rw [htrace, runSteps] at hlong
  rcases @runStep_cases steps budget earlier first ⟨[], [], 0, 0⟩ rfl with
    ⟨failure, -, hstep⟩ | ⟨output, tokens, hresult, -⟩
  · -- A failed first step leaves its own record at most.
    rw [hstep, mk_error_bind, recordedLabels_append] at hlong
    have hsilent : recordedLabels (if failure.stage = .control then [] else compensate steps earlier ⟨[], [], 0, 0⟩) = [] := by
      split <;> rfl
    rw [hsilent, List.append_nil] at hlong
    omega
  · exact ⟨_, hresult⟩

theorem journaled_of_unordered {earlier : Answers} {cut : Nat} {error : LaserError}
    (horder : topologicalOrder steps = .error error) : journaled steps budget earlier cut = [] := by
  unfold journaled execute
  rw [horder]
  exact congrArg (written fun _ => 0) List.take_nil

/-- A run over more than fifty records dispatches the oldest step again. -/
theorem redispatched_of_long (hlabels : (steps.map Step.label).Nodup) {earlier : Answers} {cut : Nat}
    (hlong : lastRecords < (journaled steps budget earlier cut).length) :
    ¬ Rederives steps (journaled steps budget earlier cut)
      (execute steps budget earlier.building (journaled steps budget earlier cut)).trace := by
  cases horder : topologicalOrder steps with
  | error error =>
    rw [journaled_of_unordered horder] at hlong
    cases hlong
  | ok order =>
    obtain ⟨count, hcount⟩ := @journaled_labels steps budget hlabels order horder earlier cut
    have hnodup := @journaled_nodup steps budget hlabels order horder earlier cut
    have hlength := @journaled_length steps budget earlier cut
    have hrecords := @journaled_length_le steps budget earlier cut
    cases order with
    | nil =>
      rw [hlength, hcount, List.take_nil] at hlong
      cases hlong
    | cons first rest =>
      have hshort : lastRecords = 50 := rfl
      obtain ⟨hreplay, result, hresult⟩ := @first_step_ok steps budget earlier first rest horder (by omega)
      have hfirst : ∃ later, journalLabels (journaled steps budget earlier cut) = labelAt steps first :: later := by
        cases count with
        | zero =>
          rw [hlength, hcount] at hlong
          cases hlong
        | succ count => exact ⟨_, by rw [hcount, List.take_succ_cons, List.map_cons]⟩
      obtain ⟨later, hlater⟩ := hfirst
      -- The order starts with the step whose record is the oldest, and that one is not read.
      have hnew : isRecorded steps (replay (journaled steps budget earlier cut)) first = false := by
        rw [isRecorded, ← labelAt, oldest_not_replayed hlater hnodup (hlength ▸ hlong)]
        rfl
      have hdispatched : .dispatched first ∈
          (execute steps budget earlier.building (journaled steps budget earlier cut)).trace := by
        rw [execute_trace horder (show earlier.building.replay = .ok () from hreplay)]
        have hinitial := @runSteps_first steps budget earlier.building first rest
          ⟨replay (journaled steps budget earlier cut),
            (first :: rest).filter (isRecorded steps (replay (journaled steps budget earlier cut))), 0, 0⟩ hnew
        exact hinitial.subset (redispatched hresult)
      have hmem : labelAt steps first ∈ journalLabels (journaled steps budget earlier cut) := by
        rw [hlater]
        exact List.mem_cons_self
      obtain ⟨output, hrecord⟩ := mem_journalLabels hmem
      intro hrederives
      exact (hrederives _ output hrecord).1 first hdispatched rfl

/-- After an earlier run of a workflow with distinct labels that was cut off
anywhere, every resumed run redoes none of the recorded steps and hands on
their outputs, exactly if the journal holds at most fifty records. -/
theorem rederives_iff_short (hlabels : (steps.map Step.label).Nodup) (earlier : Answers) (cut : Nat) :
    (∀ answers, Rederives steps (journaled steps budget earlier cut)
      (execute steps budget answers (journaled steps budget earlier cut)).trace) ↔
    (journaled steps budget earlier cut).length ≤ lastRecords := by
  constructor
  · intro hall
    by_contra hlong
    exact redispatched_of_long hlabels (Nat.lt_of_not_le hlong) (hall earlier.building)
  · intro hshort answers
    cases horder : topologicalOrder steps with
    | ok order => exact rederives_of_short (journaled_nodup hlabels horder earlier cut) hshort
    | error error =>
      rw [journaled_of_unordered horder]
      nofun

end

/-! ## A long workflow -/

theorem short_booking_rederives : (journaled bookAndPay unlimited calm 4).length = 1 ∧
    Rederives bookAndPay (journaled bookAndPay unlimited calm 4)
      (execute bookAndPay unlimited calm (journaled bookAndPay unlimited calm 4)).trace :=
  ⟨by decide, (rederives_iff_short (by decide) calm 4).2 (by decide) calm⟩

/-- Steps that do not depend on each other. -/
def independent (n : Nat) : List Step :=
  (List.range n).map fun index => ⟨String.ofList (List.replicate index 'x'), .to "worker", [], false, false, .fail, false⟩

/-- All fifty-one steps are recorded, and the next run dispatches the first
of them again. -/
theorem oldest_step_redispatched :
    ((independent 51).map Step.label).Nodup ∧ (journaled (independent 51) unlimited calm 204).length = 51 ∧
    ¬ ∀ answers, Rederives (independent 51) (journaled (independent 51) unlimited calm 204)
      (execute (independent 51) unlimited answers (journaled (independent 51) unlimited calm 204)).trace := by
  have hlabels : ((independent 51).map Step.label).Nodup := by decide +kernel
  have hlength : (journaled (independent 51) unlimited calm 204).length = 51 := by decide +kernel
  refine ⟨hlabels, hlength, fun hall => ?_⟩
  refine redispatched_of_long hlabels ?_ (hall calm.building)
  rw [hlength]
  decide

end LaserSdk.Workflow

import LaserSdk.Workflow.Dependencies
import LaserSdk.Workflow.Replay
/-!
# Every step is dispatched

Outputs are kept by label, and a step whose label has an output is skipped. So
a fresh run that returns has dispatched every step, each after the steps it
names, exactly when no two steps share a label.
-/

namespace LaserSdk.Workflow

open Lib Traced

variable {steps : List Step} {budget : WorkflowBudget} {answers : Answers}

/-- Every step is dispatched, each time after all the steps it names were
completed. -/
def DispatchesAll (steps : List Step) (trace : List Event) : Prop :=
  (∀ i < steps.length, .dispatched i ∈ trace) ∧
    ∀ before i after, trace = before ++ .dispatched i :: after → ∀ j, DependsOn steps i j → .completed j ∈ before

/-! ## With distinct labels -/

theorem Delivers.dispatched_of_ok {index : Nat} {x : Engine (Bytes × Nat)} {result : Bytes × Nat}
    (h : Delivers steps answers index x) (hresult : x.result = .ok result) : .dispatched index ∈ x.trace := by
  obtain ⟨opening, last, htrace, -, -, hreturned, -⟩ := h
  rw [htrace, hreturned result.1 result.2 hresult]
  simp [deliveredTrace]

/-- Each dispatch of a part of the order comes after the completion of what is
before it there. -/
def InOrder (todo : List Nat) (trace : List Event) : Prop :=
  ∀ before i after, trace = before ++ .dispatched i :: after →
    ∃ done rest, todo = done ++ i :: rest ∧ ∀ j ∈ done, .completed j ∈ before

theorem InOrder.cons {index : Nat} {rest : List Nat} {first more : List Event}
    (hfirst : ∀ i, .dispatched i ∈ first → i = index) (hcompleted : .completed index ∈ first) (hmore : InOrder rest more) :
    InOrder (index :: rest) (first ++ more) := by
  intro before i after hsplit
  rcases List.append_eq_append_iff.1 hsplit with ⟨skipped, rfl, hrest⟩ | ⟨kept, rfl, hrest⟩
  · -- The dispatch is one of the steps after this one.
    obtain ⟨done, todo, rfl, hdone⟩ := hmore skipped i after hrest
    refine ⟨index :: done, todo, rfl, fun j hj => ?_⟩
    rcases List.mem_cons.1 hj with rfl | hj
    · exact List.mem_append_left _ hcompleted
    · exact List.mem_append_right _ (hdone j hj)
  · cases kept with
    | nil =>
      obtain ⟨done, todo, rfl, hdone⟩ := hmore [] i after hrest.symm
      refine ⟨index :: done, todo, rfl, fun j hj => ?_⟩
      rcases List.mem_cons.1 hj with rfl | hj
      · simpa using hcompleted
      · cases hdone j hj
    | cons event kept =>
      obtain ⟨rfl, -⟩ := List.cons.inj hrest
      have hsame := hfirst i (by simp)
      exact ⟨[], rest, by rw [hsame, List.nil_append], nofun⟩

/-- How a step of a run that returns goes. -/
theorem runSteps_ok_cons {index : Nat} {rest : List Nat} {progress result : Progress}
    (hnew : isRecorded steps progress.outputs index = false)
    (hok : (runSteps steps budget answers (index :: rest) progress).result = .ok result) :
    ∃ output tokens, (attemptStep steps budget answers index progress).result = .ok (output, tokens) ∧
      (runSteps steps budget answers (index :: rest) progress).trace =
        (attemptStep steps budget answers index progress).trace ++
          (runSteps steps budget answers rest (progress.finish (stepAt steps index).label index output tokens)).trace ∧
      (runSteps steps budget answers rest (progress.finish (stepAt steps index).label index output tokens)).result =
        .ok result := by
  rw [runSteps] at hok ⊢
  obtain ⟨next, hstep, hrest, htrace⟩ := bind_returns hok
  obtain ⟨output, tokens, hresult, hsame, rfl⟩ := runStep_ok hnew hstep
  rw [hsame] at htrace
  exact ⟨output, tokens, hresult, htrace, hrest⟩

theorem runSteps_inOrder {todo : List Nat} {progress result : Progress} (hnodup : todo.Nodup)
    (hnew : ∀ index ∈ todo, isRecorded steps progress.outputs index = false)
    (hlabels : ∀ i ∈ todo, ∀ j ∈ todo, (stepAt steps i).label = (stepAt steps j).label → i = j)
    (hok : (runSteps steps budget answers todo progress).result = .ok result) :
    (∀ i ∈ todo, .dispatched i ∈ (runSteps steps budget answers todo progress).trace) ∧
      InOrder todo (runSteps steps budget answers todo progress).trace := by
  induction todo generalizing progress with
  | nil =>
    refine ⟨nofun, fun before i after hsplit => ?_⟩
    simp [runSteps] at hsplit
  | cons index rest ih =>
    obtain ⟨output, tokens, hresult, htrace, hrest⟩ := runSteps_ok_cons (hnew index (List.mem_cons_self ..)) hok
    have hlater : ∀ j ∈ rest,
        isRecorded steps (progress.finish (stepAt steps index).label index output tokens).outputs j = false := by
      intro j hj
      rw [isRecorded_finish (later_label_ne hnodup hlabels j hj)]
      exact hnew j (List.mem_cons_of_mem _ hj)
    obtain ⟨hdispatched, hinOrder⟩ := ih (List.nodup_cons.1 hnodup).2 hlater
      (fun i hi j hj => hlabels i (List.mem_cons_of_mem _ hi) j (List.mem_cons_of_mem _ hj)) hrest
    have hdelivers := @attemptStep_delivers steps budget answers index progress
    rw [htrace]
    constructor
    · intro i hi
      rcases List.mem_cons.1 hi with rfl | hi
      · exact List.mem_append_left _ (hdelivers.dispatched_of_ok hresult)
      · exact List.mem_append_right _ (hdispatched i hi)
    · refine InOrder.cons (fun i hi => ?_) (hdelivers.completed_of_ok hresult) hinOrder
      exact @attemptStep_ofStep steps budget answers index progress _ hi

/-! ## With a shared label -/

/-- Of the steps with one label a run dispatches at most one. -/
theorem runSteps_dispatched_inj {todo : List Nat} {progress result : Progress}
    (hok : (runSteps steps budget answers todo progress).result = .ok result) {i j : Nat}
    (hi : .dispatched i ∈ (runSteps steps budget answers todo progress).trace)
    (hj : .dispatched j ∈ (runSteps steps budget answers todo progress).trace)
    (hlabel : (stepAt steps i).label = (stepAt steps j).label) : i = j := by
  induction todo generalizing progress with
  | nil => simp [runSteps] at hi
  | cons index rest ih =>
    cases hnew : isRecorded steps progress.outputs index with
    | true =>
      have hskip := @runSteps_skip steps budget answers [index] rest progress (by simpa using hnew)
      rw [List.singleton_append] at hskip
      rw [hskip] at hok hi hj
      exact ih hok hi hj
    | false =>
      obtain ⟨output, tokens, -, htrace, hrest⟩ := runSteps_ok_cons hnew hok
      -- What follows the step dispatches nothing with its label.
      have hother : ∀ k, .dispatched k ∈ (runSteps steps budget answers rest
          (progress.finish (stepAt steps index).label index output tokens)).trace →
          (stepAt steps k).label ≠ (stepAt steps index).label := by
        intro k hk hsame
        have hkeeps : isRecorded steps (progress.finish (stepAt steps index).label index output tokens).outputs k = false :=
          @runSteps_keeps steps budget answers rest _ _ hk
        simp [isRecorded, Progress.finish, hsame] at hkeeps
      have hown : ∀ k, .dispatched k ∈ (attemptStep steps budget answers index progress).trace → k = index := fun k hk =>
        @attemptStep_ofStep steps budget answers index progress _ hk
      rw [htrace, List.mem_append] at hi hj
      rcases hi with hi | hi
      · rcases hj with hj | hj
        · rw [hown i hi, hown j hj]
        · exact absurd (hlabel.symm.trans (by rw [hown i hi])) (hother j hj)
      · rcases hj with hj | hj
        · exact absurd (hlabel.trans (by rw [hown j hj])) (hother i hi)
        · exact ih hrest hi hj

/-! ## A fresh run -/

theorem replay_fresh {journal : List JournalRecord} (hfresh : entries journal = []) : replay journal = [] := by
  refine List.eq_nil_iff_forall_not_mem.2 fun entry hentry => ?_
  have hread := mem_lastN (List.mem_reverse.1 hentry)
  obtain ⟨record, hrecord, hentry⟩ := List.mem_filterMap.1 hread
  have hmem : entry ∈ entries journal := List.mem_filterMap.2 ⟨record, mem_lastN hrecord, hentry⟩
  rw [hfresh] at hmem
  cases hmem

theorem execute_fresh {journal : List JournalRecord} (hfresh : entries journal = []) {order : List Nat}
    (horder : topologicalOrder steps = .ok order) {outputs : Outputs}
    (hok : (execute steps budget answers journal).result = .ok outputs) :
    ∃ result, (runSteps steps budget answers order ⟨[], [], 0, 0⟩).result = .ok result ∧
      (execute steps budget answers journal).trace = (runSteps steps budget answers order ⟨[], [], 0, 0⟩).trace := by
  have hnone : order.filter (isRecorded steps []) = [] := by simp [isRecorded]
  rcases @execute_eq steps budget answers order horder journal with ⟨error, herror⟩ | heq
  · rw [herror] at hok
    cases hok
  · rw [replay_fresh hfresh, hnone] at heq
    rw [heq, map_result] at hok
    rw [heq, map_trace]
    cases hresult : (runSteps steps budget answers order ⟨[], [], 0, 0⟩).result with
    | error failure =>
      rw [hresult] at hok
      cases hok
    | ok result => exact ⟨result, rfl, rfl⟩

/-- Labels that name one step each are distinct. -/
theorem labels_nodup (h : ∀ i < steps.length, ∀ j < steps.length,
    (stepAt steps i).label = (stepAt steps j).label → i = j) : (steps.map Step.label).Nodup := by
  refine List.nodup_iff_injective_get.2 fun i j heq => Fin.ext ?_
  have hi : i.1 < steps.length := by simpa using i.2
  have hj : j.1 < steps.length := by simpa using j.2
  refine h i hi j hj ?_
  simpa [stepAt, hi, hj] using heq

/-- A fresh run that returns has dispatched every step after the steps it names
exactly when the labels are distinct. -/
theorem fresh_run_dispatches_all {journal : List JournalRecord} (hfresh : entries journal = []) {outputs : Outputs}
    (hok : (execute steps budget answers journal).result = .ok outputs) :
    DispatchesAll steps (execute steps budget answers journal).trace ↔ (steps.map Step.label).Nodup := by
  obtain ⟨order, horder⟩ := order_of_ok hok
  obtain ⟨result, hresult, htrace⟩ := execute_fresh hfresh horder hok
  rw [htrace]
  constructor
  · rintro ⟨hall, -⟩
    refine labels_nodup fun i hi j hj hlabel => ?_
    exact runSteps_dispatched_inj hresult (hall i hi) (hall j hj) hlabel
  · intro hlabels
    obtain ⟨hdispatched, hinOrder⟩ := runSteps_inOrder (topologicalOrder_nodup horder) (by simp [isRecorded])
      (fun i hi j hj => order_label_inj hlabels horder hi hj) hresult
    refine ⟨fun i hi => hdispatched i ((mem_topologicalOrder horder).2 hi), fun before i after hsplit j hdepends => ?_⟩
    obtain ⟨done, rest, hordered, hdone⟩ := hinOrder before i after hsplit
    exact hdone j (topologicalOrder_follows hlabels horder done i rest hordered j hdepends)

theorem deployment_dispatched : (∃ outputs, (execute deployment unlimited calm []).result = .ok outputs) ∧
    DispatchesAll deployment (execute deployment unlimited calm []).trace := by
  have hok : ∃ outputs, (execute deployment unlimited calm []).result = .ok outputs := ⟨_, by rfl⟩
  obtain ⟨outputs, hreturned⟩ := hok
  exact ⟨⟨outputs, hreturned⟩, (fresh_run_dispatches_all rfl hreturned).2 (by decide)⟩

/-- Two reviews under one label. -/
def twoReviews : List Step :=
  [⟨"review", .to "lawyer", [], false, false, .fail, false⟩, ⟨"review", .to "auditor", [], false, false, .fail, false⟩]

/-- The second review is never dispatched, and the run returns. -/
theorem second_review_skipped : (∃ order, topologicalOrder twoReviews = .ok order) ∧
    (execute twoReviews unlimited calm []).result = .ok [("review", [1])] ∧
    ¬ DispatchesAll twoReviews (execute twoReviews unlimited calm []).trace := by
  refine ⟨⟨[0, 1], by rfl⟩, by rfl, fun hall => ?_⟩
  have hsecond := hall.1 1 (by decide)
  revert hsecond
  decide

end LaserSdk.Workflow

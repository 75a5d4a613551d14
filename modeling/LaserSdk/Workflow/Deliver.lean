import LaserSdk.Workflow.Engine
/-!
# What one step does

Every step leaves the same kind of trace: commands, then at most one
completed dispatch and at most one record of it. A step that returns left
both. A step can fail after its record landed, and the answers under which
none does are singled out here.
-/

namespace LaserSdk.Workflow

open Lib Traced

/-! ## Traces of a delivery -/

/-- The end of a step's trace: how far its last dispatch came. -/
inductive Delivery (index : Nat) (label : String) : List Event → Prop
  | nothing : Delivery index label []
  | dispatched : Delivery index label [.dispatched index]
  | completed : Delivery index label [.dispatched index, .completed index]
  | recorded (output : Bytes) :
    Delivery index label [.dispatched index, .completed index, .recorded index label output]

/-- The trace of a dispatch that was recorded. -/
def deliveredTrace (index : Nat) (label : String) (output : Bytes) : List Event :=
  [.dispatched index, .completed index, .recorded index label output]

theorem Delivery.length_le {index : Nat} {label : String} {trace : List Event} (h : Delivery index label trace) :
    trace.length ≤ 3 := by
  cases h <;> simp

theorem Delivery.take {index : Nat} {label : String} {trace : List Event} (h : Delivery index label trace) (n : Nat) :
    Delivery index label (trace.take n) := by
  match n with
  | 0 => exact .nothing
  | 1 => cases h <;> first | exact .nothing | exact .dispatched
  | 2 => cases h <;> first | exact .nothing | exact .dispatched | exact .completed
  | n + 3 =>
    have := h.length_le
    rw [List.take_of_length_le (by omega)]
    exact h

/-- An event of a step before its last dispatch: a command or a payload. -/
def Event.isOpening (index : Nat) : Event → Prop
  | .dispatched i | .building i _ => i = index
  | _ => False

section

variable (steps : List Step) (budget : WorkflowBudget) (answers : Answers)

/-! ## Records that stand -/

/-- Finalizing an output appends its record. -/
def records (index : Nat) (output : Bytes) : Bool :=
  (!(stepAt steps index).verifier || (answers.verify index output matches .ok true)) &&
    !(answers.journal index matches .lost _)

/-- The completion of an attempt appends its record. -/
def appends (index attempt : Nat) : Bool :=
  match answers.contract index attempt with
  | .ok (.completed reply) => records steps answers index reply.body
  | _ => false

/-- Keeping the lease does not fail an attempt whose record landed: the loop
drops the completion before its append, or ends with it and without the error
of a renewal, and the release finds the lease. -/
def leaseStands (index attempt : Nat) : Bool :=
  match answers.lease index attempt with
  | .error _ => true
  | .ok granted =>
    match maintain granted 0 (answers.rounds index attempt) with
    | .dropped _ cut => cut ≤ 2
    | .finished (some _) => false
    | .finished none => answers.release index attempt matches .ok true

/-- A step whose record landed does not fail: no append reports an error for a
record that landed, and none is followed by a lost lease. -/
def recordStands (index : Nat) : Prop :=
  (∀ error, answers.journal index ≠ .landed error) ∧
    ((stepAt steps index).exclusive = true → ∀ attempt, appends steps answers index attempt = true →
      leaseStands answers index attempt = true)

/-! ## Single functions -/

theorem finalizeStep_cases (index : Nat) (output : Bytes) :
    -- Not verified, or lost.
    (∃ failure, finalizeStep steps answers index output = ⟨[], .error failure⟩) ∨
    -- On the journal, though an error may come back.
    records steps answers index output = true ∧
      ∃ result, finalizeStep steps answers index output =
          ⟨[.recorded index (stepAt steps index).label output], result⟩ ∧
        (recordStands steps answers index → result = .ok ()) := by
  have hjournal : (∃ failure, journal steps answers index output = ⟨[], .error failure⟩) ∨
      (!(answers.journal index matches .lost _)) = true ∧
        ∃ result, journal steps answers index output =
            ⟨[.recorded index (stepAt steps index).label output], result⟩ ∧
          (recordStands steps answers index → result = .ok ()) := by
    unfold journal
    cases h : answers.journal index with
    | accepted => exact .inr ⟨rfl, _, rfl, fun _ => rfl⟩
    | landed error => exact .inr ⟨rfl, _, rfl, fun hstands => absurd h (hstands.1 error)⟩
    | lost error => exact .inl ⟨_, rfl⟩
  unfold finalizeStep records
  cases hverifier : (stepAt steps index).verifier with
  | false => simpa using hjournal
  | true =>
    cases hverify : answers.verify index output with
    | error error => exact .inl ⟨_, rfl⟩
    | ok passed =>
      cases passed with
      | false => exact .inl ⟨_, rfl⟩
      | true => exact hjournal

theorem dispatchOne_cases (index attempt : Nat) :
    (∃ result, dispatchOne answers index attempt = ⟨[.dispatched index], result⟩ ∧
      ∀ body tokens, result ≠ .ok (.completed body tokens)) ∨
    ∃ reply tokens, answers.contract index attempt = .ok (.completed reply) ∧ dispatchOne answers index attempt =
      ⟨[.dispatched index, .completed index], .ok (.completed reply.body tokens)⟩ := by
  unfold dispatchOne
  cases answers.contract index attempt with
  | error error => exact .inl ⟨_, rfl, nofun⟩
  | ok contract =>
    cases contract with
    | completed reply => exact .inr ⟨reply, _, rfl, rfl⟩
    | _ => exact .inl ⟨_, rfl, nofun⟩

/-- One dispatch and the record of its completion. -/
theorem completion_cases (index attempt : Nat) :
    -- No record: the agent or the record of its reply failed.
    (∃ trace result, completion steps answers index attempt = ⟨trace, result⟩ ∧
      (trace = [.dispatched index] ∨ trace = [.dispatched index, .completed index] ∧ ∃ failure, result = .error failure) ∧
      ∀ body tokens, result ≠ .ok (.completed body tokens)) ∨
    -- A record of the reply.
    appends steps answers index attempt = true ∧
      ∃ output result, completion steps answers index attempt =
          ⟨deliveredTrace index (stepAt steps index).label output, result⟩ ∧
        ((∃ failure, result = .error failure) ∨ ∃ tokens, result = .ok (.completed output tokens)) ∧
        (recordStands steps answers index → ∃ tokens, result = .ok (.completed output tokens)) := by
  unfold completion
  rcases dispatchOne_cases answers index attempt with ⟨result, hone, hresult⟩ | ⟨reply, tokens, hcontract, hone⟩
  · rw [hone]
    left
    cases result with
    | error failure => exact ⟨_, _, rfl, .inl rfl, nofun⟩
    | ok dispatch =>
      cases dispatch with
      | completed body tokens => exact absurd rfl (hresult body tokens)
      | _ => exact ⟨_, _, rfl, .inl rfl, nofun⟩
  · rw [hone]
    rcases finalizeStep_cases steps answers index reply.body with ⟨failure, hfinal⟩ | ⟨happends, result, hfinal, hstands⟩
    · left
      refine ⟨[.dispatched index, .completed index], .error failure, ?_, .inr ⟨rfl, failure, rfl⟩, nofun⟩
      simp [bind_of_ok, bind_of_error, hfinal]
    · refine .inr ⟨by rw [appends, hcontract]; exact happends, reply.body, ?_⟩
      cases result with
      | error failure =>
        refine ⟨.error failure, ?_, .inl ⟨failure, rfl⟩, fun h => absurd (hstands h) nofun⟩
        simp [bind_of_ok, bind_of_error, hfinal, deliveredTrace]
      | ok done =>
        refine ⟨.ok (.completed reply.body tokens), ?_, .inr ⟨tokens, rfl⟩, fun _ => ⟨tokens, rfl⟩⟩
        simp [bind_of_ok, hfinal, deliveredTrace]

/-! ## A step delivered -/

/-- A delivery: openings, then a last dispatch, which is recorded if the
delivery returns, and which returns if it is recorded and records stand. -/
def Delivers (index : Nat) (x : Engine (Bytes × Nat)) : Prop :=
  ∃ opening last, x.trace = opening ++ last ∧ (∀ event ∈ opening, event.isOpening index) ∧
    Delivery index (stepAt steps index).label last ∧
    (∀ output tokens, x.result = .ok (output, tokens) → last = deliveredTrace index (stepAt steps index).label output) ∧
    (recordStands steps answers index → ∀ output, last = deliveredTrace index (stepAt steps index).label output →
      ∃ tokens, x.result = .ok (output, tokens))

variable {steps answers}

theorem delivers_failed {index : Nat} {last : List Event} {failure : Failure}
    (hlast : Delivery index (stepAt steps index).label last)
    (h : recordStands steps answers index → ∀ output, last ≠ deliveredTrace index (stepAt steps index).label output) :
    Delivers steps answers index ⟨last, .error failure⟩ :=
  ⟨[], last, rfl, nofun, hlast, nofun, fun hstands output heq => absurd heq (h hstands output)⟩

theorem delivers_returned {index : Nat} {output : Bytes} {tokens : Nat} : Delivers steps answers index
    ⟨deliveredTrace index (stepAt steps index).label output, .ok (output, tokens)⟩ := by
  refine ⟨[], _, rfl, nofun, .recorded output, fun _ _ h => ?_, fun _ other heq => ?_⟩
  · cases h
    rfl
  · simp only [deliveredTrace, List.cons.injEq, Event.recorded.injEq] at heq
    exact ⟨tokens, by rw [heq.2.2.1.2.2]⟩

/-- Openings before a delivery are part of it. -/
theorem Delivers.after {index : Nat} {x : Engine (Bytes × Nat)} (h : Delivers steps answers index x)
    {before : List Event} (hbefore : ∀ event ∈ before, event.isOpening index) :
    Delivers steps answers index ⟨before ++ x.trace, x.result⟩ := by
  obtain ⟨opening, last, htrace, hopening, hlast⟩ := h
  refine ⟨before ++ opening, last, by simp [htrace], fun event hmem => ?_, hlast⟩
  rcases List.mem_append.1 hmem with hmem | hmem
  · exact hbefore event hmem
  · exact hopening event hmem

/-- A dispatch that came back completed is finalized. -/
theorem delivers_finalized (index : Nat) (output : Bytes) (tokens : Nat) {rest : Engine (Bytes × Nat)}
    (hrest : rest = do
      finalizeStep steps answers index output
      return (output, tokens)) :
    Delivers steps answers index ⟨[.dispatched index, .completed index] ++ rest.trace, rest.result⟩ := by
  subst hrest
  rcases finalizeStep_cases steps answers index output with ⟨failure, hfinal⟩ | ⟨-, result, hfinal, hstands⟩
  · simp only [hfinal, mk_error_bind, List.append_nil]
    exact delivers_failed .completed (fun _ _ => nofun)
  · cases result with
    | error failure =>
      simp only [hfinal, mk_error_bind]
      exact delivers_failed (.recorded output) fun h => absurd (hstands h) nofun
    | ok done =>
      simp only [hfinal, mk_ok_bind]
      exact delivers_returned

theorem scatter_cases (index : Nat) :
    (∃ failure, scatter answers index = ⟨[.dispatched index], .error failure⟩) ∨
    ∃ output tokens, scatter answers index = ⟨[.dispatched index, .completed index], .ok (output, tokens)⟩ := by
  unfold scatter
  cases answers.scatter index with
  | error error => exact .inl ⟨_, rfl⟩
  | ok bodies =>
    cases bodies with
    | nil => exact .inl ⟨_, rfl⟩
    | cons body bodies => exact .inr ⟨_, _, rfl⟩

theorem completion_delivery (index attempt : Nat) :
    Delivery index (stepAt steps index).label (completion steps answers index attempt).trace := by
  rcases completion_cases steps answers index attempt with
    ⟨trace, result, hcompletion, htrace, -⟩ | ⟨-, output, result, hcompletion, -⟩
  · rw [hcompletion]
    rcases htrace with rfl | ⟨rfl, -⟩
    · exact .dispatched
    · exact .completed
  · rw [hcompletion]
    exact .recorded output

/-- A completion that recorded appended. -/
theorem appends_of_completion {index attempt : Nat} {output : Bytes}
    (h : (completion steps answers index attempt).trace = deliveredTrace index (stepAt steps index).label output) :
    appends steps answers index attempt = true := by
  rcases completion_cases steps answers index attempt with
    ⟨trace, result, hcompletion, htrace, -⟩ | ⟨happends, -⟩
  · rw [hcompletion] at h
    rcases htrace with rfl | ⟨rfl, -⟩ <;> cases h
  · exact happends

theorem take_ne_deliveredTrace {index : Nat} {label : String} {trace : List Event} {n : Nat} (h : n ≤ 2) (output : Bytes) :
    trace.take n ≠ deliveredTrace index label output := by
  intro heq
  have := congrArg List.length heq
  simp only [deliveredTrace, List.length_take, List.length_cons, List.length_nil] at this
  omega

variable (steps answers)

/-- How one assignment ends: recorded, without a completion, or with an error
that follows a record only where records do not stand. -/
def AttemptEnds (index : Nat) (x : Engine StepDispatch) : Prop :=
  (∃ output tokens, x = ⟨deliveredTrace index (stepAt steps index).label output, .ok (.completed output tokens)⟩) ∨
  (∃ dispatch, (∀ body tokens, dispatch ≠ .completed body tokens) ∧ x = ⟨[.dispatched index], .ok dispatch⟩) ∨
  ∃ last failure, x = ⟨last, .error failure⟩ ∧ Delivery index (stepAt steps index).label last ∧
    (recordStands steps answers index → ∀ output, last ≠ deliveredTrace index (stepAt steps index).label output)

variable {steps answers}

theorem released_ends {index attempt : Nat} (hexclusive : (stepAt steps index).exclusive = true) {granted : Nat}
    (hlease : answers.lease index attempt = .ok granted)
    (hmaintain : maintain granted 0 (answers.rounds index attempt) = .finished none) :
    AttemptEnds steps answers index (do
      let dispatch ← completion steps answers index attempt
      let released ← ask .lease (answers.release index attempt)
      failIf (released = false) ⟨.lease, .leaseLost⟩
      return dispatch) := by
  have hstands (h : recordStands steps answers index) (happends : appends steps answers index attempt = true) :
      (answers.release index attempt matches .ok true) = true := by
    have := h.2 hexclusive attempt happends
    simpa only [leaseStands, hlease, hmaintain] using this
  rcases completion_cases steps answers index attempt with
    ⟨trace, result, hcompletion, htrace, hresult⟩ | ⟨happends, output, result, hcompletion, hresult, hrecorded⟩
  · rw [hcompletion]
    cases result with
    | error failure =>
      rcases htrace with rfl | ⟨rfl, -⟩
      · exact .inr (.inr ⟨_, failure, rfl, .dispatched, fun _ _ => nofun⟩)
      · exact .inr (.inr ⟨_, failure, rfl, .completed, fun _ _ => nofun⟩)
    | ok dispatch =>
      obtain rfl := htrace.resolve_right fun h => nomatch h.2.choose_spec
      have hdispatch : ∀ body tokens, dispatch ≠ .completed body tokens := fun body tokens h => hresult body tokens (by rw [h])
      cases answers.release index attempt with
      | error error => exact .inr (.inr ⟨_, _, rfl, .dispatched, fun _ _ => nofun⟩)
      | ok released =>
        cases released with
        | true => exact .inr (.inl ⟨dispatch, hdispatch, rfl⟩)
        | false => exact .inr (.inr ⟨_, _, rfl, .dispatched, fun _ _ => nofun⟩)
  · rw [hcompletion]
    rcases hresult with ⟨failure, rfl⟩ | ⟨tokens, rfl⟩
    · refine .inr (.inr ⟨_, failure, rfl, .recorded output, fun h => ?_⟩)
      obtain ⟨tokens, htokens⟩ := hrecorded h
      cases htokens
    · cases hrelease : answers.release index attempt with
      | error error =>
        refine .inr (.inr ⟨_, _, rfl, .recorded output, fun h => ?_⟩)
        have := hstands h happends
        simp [hrelease] at this
      | ok released =>
        cases released with
        | true => exact .inl ⟨output, tokens, rfl⟩
        | false =>
          refine .inr (.inr ⟨_, _, rfl, .recorded output, fun h => ?_⟩)
          have := hstands h happends
          simp [hrelease] at this

theorem underLease_ends {index attempt granted : Nat} (hexclusive : (stepAt steps index).exclusive = true)
    (hlease : answers.lease index attempt = .ok granted) :
    AttemptEnds steps answers index (underLease steps answers index attempt granted) := by
  have hdelivery := @completion_delivery steps answers index attempt
  unfold underLease
  cases hmaintain : maintain granted 0 (answers.rounds index attempt) with
  | dropped error cut =>
    refine .inr (.inr ⟨_, _, rfl, hdelivery.take cut, fun h output => ?_⟩)
    by_cases hcut : cut ≤ 2
    · exact take_ne_deliveredTrace hcut output
    · -- The completion was dropped after its append, so its record does not stand.
      intro heq
      rw [List.take_of_length_le (by have := hdelivery.length_le; omega)] at heq
      have := h.2 hexclusive attempt (appends_of_completion heq)
      simp [leaseStands, hlease, hmaintain, hcut] at this
  | finished renewal =>
    cases renewal with
    | some error =>
      refine .inr (.inr ⟨_, _, rfl, hdelivery, fun h output heq => ?_⟩)
      have := h.2 hexclusive attempt (appends_of_completion heq)
      simp [leaseStands, hlease, hmaintain] at this
    | none => exact released_ends hexclusive hlease hmaintain

theorem attempt_ends (index attempt : Nat) (hexclusive : (stepAt steps index).exclusive = true) :
    AttemptEnds steps answers index (dispatchExclusiveAttempt steps answers index attempt) := by
  have hfailed (failure : Failure) : AttemptEnds steps answers index ⟨[], .error failure⟩ :=
    .inr (.inr ⟨[], failure, rfl, .nothing, fun _ _ => nofun⟩)
  unfold dispatchExclusiveAttempt
  cases hfenced : answers.fencedLeases with
  | false => exact hfailed _
  | true =>
    cases answers.coordination index attempt with
    | error error => exact hfailed _
    | ok connected =>
      cases hlease : answers.lease index attempt with
      | error error => exact hfailed _
      | ok granted => exact underLease_ends hexclusive hlease

theorem exclusiveAttempts_delivers (index attempt left : Nat) (hexclusive : (stepAt steps index).exclusive = true) :
    Delivers steps answers index (exclusiveAttempts steps answers index attempt left) := by
  induction left generalizing attempt with
  | zero =>
    rw [exclusiveAttempts]
    rcases @attempt_ends steps answers index attempt hexclusive with
      ⟨output, tokens, heq⟩ | ⟨dispatch, hdispatch, heq⟩ | ⟨last, failure, heq, hlast, hstands⟩
    · rw [heq]
      exact delivers_returned
    · rw [heq]
      cases dispatch with
      | completed body tokens => exact absurd rfl (hdispatch body tokens)
      | _ => exact delivers_failed .dispatched fun _ _ => nofun
    · rw [heq]
      exact delivers_failed hlast hstands
  | succ left ih =>
    rw [exclusiveAttempts]
    rcases @attempt_ends steps answers index attempt hexclusive with
      ⟨output, tokens, heq⟩ | ⟨dispatch, hdispatch, heq⟩ | ⟨last, failure, heq, hlast, hstands⟩
    · rw [heq]
      exact delivers_returned
    · rw [heq]
      cases dispatch with
      | completed body tokens => exact absurd rfl (hdispatch body tokens)
      | timedOut => exact (ih (attempt + 1)).after fun event hmem => by obtain rfl := List.mem_singleton.1 hmem; rfl
      | notCompleted => exact delivers_failed .dispatched fun _ _ => nofun
    · rw [heq]
      exact delivers_failed hlast hstands

theorem deliver_delivers (index : Nat) : Delivers steps answers index (deliver steps answers index) := by
  unfold deliver
  cases (stepAt steps index).target with
  | allCapable skill =>
    rcases @scatter_cases answers index with ⟨failure, heq⟩ | ⟨output, tokens, heq⟩
    · simp only [heq]
      exact delivers_failed .dispatched fun _ _ => nofun
    · simp only [heq]
      exact delivers_finalized index output tokens rfl
  | _ =>
    show Delivers steps answers index (ite _ _ _)
    by_cases hexclusive : (stepAt steps index).exclusive = true
    · rw [if_pos hexclusive]
      exact exclusiveAttempts_delivers index 1 _ hexclusive
    · rw [if_neg hexclusive]
      rcases dispatchOne_cases answers index 1 with ⟨result, heq, hresult⟩ | ⟨reply, tokens, -, heq⟩
      · rw [heq]
        cases result with
        | error failure => exact delivers_failed .dispatched fun _ _ => nofun
        | ok dispatch =>
          cases dispatch with
          | completed body tokens => exact absurd rfl (hresult body tokens)
          | _ => exact delivers_failed .dispatched fun _ _ => nofun
      · rw [heq]
        exact delivers_finalized index reply.body tokens rfl

theorem checkStep_trace (index : Nat) (progress : Progress) : (checkStep steps budget answers index progress).trace = [] := by
  have hbreach : ∀ breach, (checkBreach breach).Emits fun _ => False := by
    intro breach
    unfold checkBreach
    split
    · exact emits_fail _
    · exact emits_pure ()
  have hfloor : (checkFloor budget answers index).Emits fun _ => False := by
    unfold checkFloor
    split
    · exact emits_failIf
    · exact emits_pure ()
  have hdirected : (checkDirected steps index).Emits fun _ => False := by
    unfold checkDirected
    split
    · exact emits_fail _
    · exact emits_pure ()
  have hsilent : (checkStep steps budget answers index progress).Emits fun _ => False := by
    unfold checkStep
    refine emits_bind (emits_call _) fun cancelled _ => emits_bind emits_failIf fun _ _ => ?_
    refine emits_bind (emits_call _) fun breach _ => emits_bind (hbreach breach) fun _ _ => ?_
    refine emits_bind emits_failIf fun _ _ => emits_bind hfloor fun _ _ => emits_bind hdirected fun _ _ => ?_
    exact emits_bind emits_failIf fun _ _ => emits_call _
  exact List.eq_nil_iff_forall_not_mem.2 hsilent

/-- What a step does up to its record. -/
theorem attemptStep_delivers (index : Nat) (progress : Progress) :
    Delivers steps answers index (attemptStep steps budget answers index progress) := by
  unfold attemptStep
  cases hcheck : (checkStep steps budget answers index progress).result with
  | error failure =>
    rw [bind_of_error hcheck, checkStep_trace]
    exact delivers_failed .nothing fun _ _ => nofun
  | ok checked =>
    have hbuilding : ∀ event ∈ [Event.building index progress.outputs], event.isOpening index := by simp [Event.isOpening]
    rw [bind_of_ok hcheck, checkStep_trace]
    cases answers.build index progress.outputs with
    | error error =>
      have hfailed : Delivers steps answers index ⟨[], .error ⟨.build, error⟩⟩ := delivers_failed .nothing fun _ _ => nofun
      exact hfailed.after hbuilding
    | ok payload => exact (deliver_delivers index).after hbuilding

end

end LaserSdk.Workflow

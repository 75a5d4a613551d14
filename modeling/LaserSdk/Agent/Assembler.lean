import LaserSdk.Sign.Envelope
/-!
# Reassembly of a channel's chunks

An agent streams an answer as chunk envelopes numbered from 0. A
`ChunkAssembler` takes the envelopes of one channel as they arrive, with
redeliveries among them, and emits the bodies in order and one ending. The
consumer's deadline timer calls `abandon`.

Chunks are counted in `Nat`: the counters wrap after `2 ^ 64` calls only.
-/

namespace LaserSdk.Assembler

open LaserSdk.Sign (AgentEnvelope AgentKind TokenUsage)

def finishReasonAbandoned : String := "abandoned"

def finishReasonGap : String := "gap"

inductive StreamEvent where
  | body (sequence : UInt64) (payload : List UInt8)
  | finished (finishReason : Option String) (usage : Option TokenUsage) (synthetic : Bool)
  | failed (body : List UInt8)
  deriving DecidableEq, Repr

structure ChunkAssembler where
  nextSequence : Nat
  finished : Bool
  duplicatesDropped : Nat
  lateDropped : Nat
  deriving DecidableEq, Repr

namespace ChunkAssembler

def new : ChunkAssembler := ⟨0, false, 0, 0⟩

def dropLate (assembler : ChunkAssembler) : ChunkAssembler × List StreamEvent :=
  ({ assembler with lateDropped := assembler.lateDropped + 1 }, [])

def feedChunk (assembler : ChunkAssembler) (envelope : AgentEnvelope) : ChunkAssembler × List StreamEvent :=
  match envelope.sequence with
  -- `validate` refuses such a chunk upstream, and here it never advances the stream.
  | none => (assembler, [])
  | some sequence =>
    if assembler.finished then
      assembler.dropLate
    else if sequence.toNat < assembler.nextSequence then
      ({ assembler with duplicatesDropped := assembler.duplicatesDropped + 1 }, [])
    else if assembler.nextSequence < sequence.toNat then
      ({ assembler with finished := true }, [.finished (some finishReasonGap) none true])
    else
      let advanced := { assembler with nextSequence := assembler.nextSequence + 1 }
      let events := if envelope.body.isEmpty then [] else [.body sequence envelope.body]
      if envelope.last then
        ({ advanced with finished := true }, events ++ [.finished envelope.finishReason envelope.usage false])
      else
        (advanced, events)

def feed (assembler : ChunkAssembler) (envelope : AgentEnvelope) : ChunkAssembler × List StreamEvent :=
  match envelope.kind with
  | .chunk => assembler.feedChunk envelope
  | .error =>
    if assembler.finished then
      assembler.dropLate
    else
      ({ assembler with finished := true }, [.failed envelope.body])
  | .command | .response | .event | .status => (assembler, [])

def abandon (assembler : ChunkAssembler) : ChunkAssembler × Option StreamEvent :=
  if assembler.finished then
    (assembler, none)
  else
    ({ assembler with finished := true }, some (.finished (some finishReasonAbandoned) none true))

end ChunkAssembler

/-- What the consumer of a channel does to its assembler. -/
inductive Call where
  | feed (envelope : AgentEnvelope)
  | abandon

def Call.apply (assembler : ChunkAssembler) : Call → ChunkAssembler × List StreamEvent
  | .feed envelope => assembler.feed envelope
  | .abandon => (assembler.abandon.1, assembler.abandon.2.toList)

/-- The calls in turn, with everything they emit. -/
def run (assembler : ChunkAssembler) : List Call → ChunkAssembler × List StreamEvent
  | [] => (assembler, [])
  | call :: calls =>
    let (next, events) := call.apply assembler
    let (last, later) := run next calls
    (last, events ++ later)

/-- The events of a fresh assembler. -/
def emitted (calls : List Call) : List StreamEvent := (run .new calls).2

/-! ## What one call can do -/

def StreamEvent.isTerminal : StreamEvent → Bool
  | .body .. => false
  | .finished .. | .failed _ => true

/-- The body event of a chunk, absent when the body is empty. -/
def bodyEvent (sequence : UInt64) (envelope : AgentEnvelope) : List StreamEvent :=
  if envelope.body.isEmpty then [] else [.body sequence envelope.body]

/-- The envelope is a chunk of this sequence. -/
def IsChunk (envelope : AgentEnvelope) (sequence : UInt64) : Prop :=
  envelope.kind = .chunk ∧ envelope.sequence = some sequence

instance (envelope : AgentEnvelope) (sequence : UInt64) : Decidable (IsChunk envelope sequence) :=
  inferInstanceAs (Decidable (_ ∧ _))

/-- Nothing is emitted, and no chunk the stream still waits for went by. -/
def Silent (before : ChunkAssembler) (call : Call) (after : ChunkAssembler × List StreamEvent) : Prop :=
  after.2 = [] ∧ after.1.nextSequence = before.nextSequence ∧ after.1.finished = before.finished ∧
    ∀ envelope sequence, call = .feed envelope → IsChunk envelope sequence →
      before.finished ∨ sequence.toNat < before.nextSequence

/-- An ending with no body: a gap, an error or an abandonment. -/
def Ends (before : ChunkAssembler) (after : ChunkAssembler × List StreamEvent) : Prop :=
  before.finished = false ∧ after.1.finished ∧ after.1.nextSequence = before.nextSequence ∧
    ∃ event, after.2 = [event] ∧ event.isTerminal

/-- The chunk that was due, which may be the last one. -/
def Advances (before : ChunkAssembler) (call : Call) (after : ChunkAssembler × List StreamEvent) : Prop :=
  ∃ envelope sequence, call = .feed envelope ∧ IsChunk envelope sequence ∧ before.finished = false ∧
    sequence.toNat = before.nextSequence ∧ after.1.nextSequence = before.nextSequence + 1 ∧
    after.1.finished = envelope.last ∧
    after.2 = bodyEvent sequence envelope ++
      if envelope.last then [.finished envelope.finishReason envelope.usage false] else []

theorem feedChunk_cases (assembler : ChunkAssembler) (envelope : AgentEnvelope) (hkind : envelope.kind = .chunk) :
    Silent assembler (.feed envelope) (assembler.feedChunk envelope) ∨
      Ends assembler (assembler.feedChunk envelope) ∨
      Advances assembler (.feed envelope) (assembler.feedChunk envelope) := by
  cases hseq : envelope.sequence with
  | none =>
    left
    simp only [ChunkAssembler.feedChunk, hseq]
    refine ⟨rfl, rfl, rfl, ?_⟩
    rintro _ sequence ⟨⟩ ⟨-, hsome⟩
    rw [hseq] at hsome
    cases hsome
  | some sequence =>
    have hchunk : IsChunk envelope sequence := ⟨hkind, hseq⟩
    have honly : ∀ other, IsChunk envelope other → other = sequence := by
      rintro other ⟨-, hother⟩
      rw [hseq] at hother
      exact (Option.some.inj hother).symm
    simp only [ChunkAssembler.feedChunk, hseq]
    by_cases hfin : assembler.finished
    · rw [if_pos hfin]
      left
      refine ⟨rfl, rfl, rfl, ?_⟩
      intro _ _ _ _
      exact .inl hfin
    have hopen : assembler.finished = false := by simpa using hfin
    rw [if_neg hfin]
    by_cases hdup : sequence.toNat < assembler.nextSequence
    · rw [if_pos hdup]
      left
      refine ⟨rfl, rfl, rfl, ?_⟩
      rintro _ other ⟨⟩ hother
      rw [honly other hother]
      exact .inr hdup
    rw [if_neg hdup]
    by_cases hgap : assembler.nextSequence < sequence.toNat
    · rw [if_pos hgap]
      exact .inr (.inl ⟨hopen, rfl, rfl, _, rfl, rfl⟩)
    rw [if_neg hgap]
    right; right
    refine ⟨envelope, sequence, rfl, hchunk, hopen, by omega, ?_⟩
    cases hlast : envelope.last with
    | true => exact ⟨rfl, rfl, rfl⟩
    | false => exact ⟨rfl, hopen, (List.append_nil _).symm⟩

theorem apply_cases (assembler : ChunkAssembler) (call : Call) :
    Silent assembler call (call.apply assembler) ∨ Ends assembler (call.apply assembler) ∨
      Advances assembler call (call.apply assembler) := by
  cases call with
  | abandon =>
    simp only [Call.apply, ChunkAssembler.abandon]
    split_ifs with hfin
    · exact .inl ⟨rfl, rfl, rfl, by rintro _ _ ⟨⟩⟩
    · exact .inr (.inl ⟨by simpa using hfin, rfl, rfl, _, rfl, rfl⟩)
  | feed envelope =>
    -- Only a chunk is numbered, so a call of another kind passes no chunk by.
    have hother (hkind : envelope.kind ≠ .chunk) : ∀ other sequence, Call.feed envelope = .feed other →
        IsChunk other sequence → assembler.finished ∨ sequence.toNat < assembler.nextSequence := by
      rintro _ _ ⟨⟩ ⟨hchunk, -⟩
      exact absurd hchunk hkind
    simp only [Call.apply, ChunkAssembler.feed]
    cases hkind : envelope.kind with
    | chunk => exact feedChunk_cases assembler envelope hkind
    | error =>
      dsimp only
      split_ifs with hfin
      · exact .inl ⟨rfl, rfl, rfl, hother (by simp [hkind])⟩
      · exact .inr (.inl ⟨by simpa using hfin, rfl, rfl, _, rfl, rfl⟩)
    | command => exact .inl ⟨rfl, rfl, rfl, hother (by simp [hkind])⟩
    | response => exact .inl ⟨rfl, rfl, rfl, hother (by simp [hkind])⟩
    | event => exact .inl ⟨rfl, rfl, rfl, hother (by simp [hkind])⟩
    | status => exact .inl ⟨rfl, rfl, rfl, hother (by simp [hkind])⟩

/-- A call takes nothing back. -/
theorem apply_forward (assembler : ChunkAssembler) (call : Call) :
    assembler.nextSequence ≤ (call.apply assembler).1.nextSequence ∧
      (assembler.finished → (call.apply assembler).1.finished) := by
  rcases apply_cases assembler call with ⟨-, hnext, hfin, -⟩ | ⟨-, hfin, hnext, -⟩ | ⟨_, _, -, -, hfin, -, hnext, -⟩
  · exact ⟨hnext.ge, by simp [hfin]⟩
  · exact ⟨hnext.ge, fun _ => hfin⟩
  · exact ⟨by omega, by simp [hfin]⟩

theorem apply_finished {assembler : ChunkAssembler} (hfin : assembler.finished) (call : Call) :
    (call.apply assembler).2 = [] := by
  rcases apply_cases assembler call with ⟨hnone, -⟩ | ⟨hopen, -⟩ | ⟨_, _, -, -, hopen, -⟩
  · exact hnone
  · simp [hfin] at hopen
  · simp [hfin] at hopen

/-- Nothing follows the ending. -/
theorem run_finished (calls : List Call) {assembler : ChunkAssembler} (hfin : assembler.finished) :
    (run assembler calls).2 = [] := by
  induction calls generalizing assembler with
  | nil => rfl
  | cons call calls ih =>
    simp only [run, apply_finished hfin, List.nil_append]
    exact ih ((apply_forward assembler call).2 hfin)

/-! ## The bodies -/

/-- The first chunk fed with this sequence. -/
def firstChunk (calls : List Call) (sequence : Nat) : Option (UInt64 × AgentEnvelope) :=
  calls.findSome? fun
    | .feed envelope =>
      match envelope.kind, envelope.sequence with
      | .chunk, some number => if number.toNat = sequence then some (number, envelope) else none
      | _, _ => none
    | .abandon => none

/-- The bodies emitted for the first chunks of the sequences from `start` on, `count` of them. -/
def firstBodies (calls : List Call) (start count : Nat) : List StreamEvent :=
  (List.range' start count).flatMap fun sequence =>
    match firstChunk calls sequence with
    | some (number, envelope) => bodyEvent number envelope
    | none => []

def bodies (events : List StreamEvent) : List StreamEvent := events.filter (!·.isTerminal)

theorem firstChunk_cons_other {call : Call} {sequence : Nat} (calls : List Call)
    (h : ∀ envelope number, call = .feed envelope → IsChunk envelope number → number.toNat ≠ sequence) :
    firstChunk (call :: calls) sequence = firstChunk calls sequence := by
  unfold firstChunk
  rw [List.findSome?_cons]
  cases call with
  | abandon => rfl
  | feed envelope =>
    cases hkind : envelope.kind with
    | chunk =>
      cases hseq : envelope.sequence with
      | none => simp [hkind, hseq]
      | some number => simp [hkind, hseq, h envelope number rfl ⟨hkind, hseq⟩]
    | command => simp [hkind]
    | response => simp [hkind]
    | event => simp [hkind]
    | status => simp [hkind]
    | error => simp [hkind]

theorem firstChunk_cons_chunk {envelope : AgentEnvelope} {number : UInt64} (h : IsChunk envelope number)
    (calls : List Call) :
    firstChunk (.feed envelope :: calls) number.toNat = some (number, envelope) := by
  unfold firstChunk
  rw [List.findSome?_cons]
  simp [h.1, h.2]

theorem firstBodies_congr {calls calls' : List Call} {start count : Nat}
    (h : ∀ sequence, start ≤ sequence → firstChunk calls sequence = firstChunk calls' sequence) :
    firstBodies calls start count = firstBodies calls' start count := by
  simp only [firstBodies, List.flatMap_def]
  congr 1
  apply List.map_congr_left
  intro sequence hmem
  rw [h sequence (List.mem_range'_1.1 hmem).1]

theorem bodies_bodyEvent (sequence : UInt64) (envelope : AgentEnvelope) :
    bodies (bodyEvent sequence envelope) = bodyEvent sequence envelope := by
  unfold bodyEvent
  split_ifs <;> rfl

theorem bodies_append (events later : List StreamEvent) : bodies (events ++ later) = bodies events ++ bodies later :=
  List.filter_append ..

/-- From any state the bodies are those of the first chunks from the one due on. -/
theorem run_bodies (calls : List Call) (assembler : ChunkAssembler) :
    ∃ count, (∀ sequence, assembler.nextSequence ≤ sequence → sequence < assembler.nextSequence + count →
        (firstChunk calls sequence).isSome) ∧
      bodies (run assembler calls).2 = firstBodies calls assembler.nextSequence count := by
  induction calls generalizing assembler with
  | nil => exact ⟨0, by intro _ _ _; omega, rfl⟩
  | cons call calls ih =>
    cases hfin : assembler.finished with
    | true => exact ⟨0, by intro _ _ _; omega, by rw [run_finished _ hfin]; rfl⟩
    | false =>
      simp only [run]
      obtain ⟨hnone, hnext, -, hpast⟩ | ⟨-, hends, -, event, hevent, hterminal⟩ |
        ⟨envelope, number, rfl, hchunk, -, hdue, hnext, hlast, hevents⟩ := apply_cases assembler call
      · -- A chunk that emits nothing lies before the one due.
        have hskip (sequence : Nat) (hge : assembler.nextSequence ≤ sequence) :
            firstChunk (call :: calls) sequence = firstChunk calls sequence := by
          apply firstChunk_cons_other
          intro envelope number hfeed hchunk
          rcases hpast envelope number hfeed hchunk with h | h
          · simp [hfin] at h
          · omega
        obtain ⟨count, hsome, hbodies⟩ := ih (call.apply assembler).1
        rw [hnext] at hsome hbodies
        refine ⟨count, ?_, ?_⟩
        · intro sequence hge hlt
          rw [hskip sequence hge]
          exact hsome sequence hge hlt
        · rw [hnone, List.nil_append, hbodies, firstBodies_congr hskip]
      · refine ⟨0, by intro _ _ _; omega, ?_⟩
        rw [hevent, run_finished calls hends]
        simp [bodies, hterminal, firstBodies]
      · obtain ⟨count, hsome, hbodies⟩ := ih ((Call.feed envelope).apply assembler).1
        rw [hnext] at hsome hbodies
        have hhead := firstChunk_cons_chunk hchunk calls
        rw [hdue] at hhead
        have hskip (sequence : Nat) (hge : assembler.nextSequence + 1 ≤ sequence) :
            firstChunk (.feed envelope :: calls) sequence = firstChunk calls sequence := by
          apply firstChunk_cons_other
          rintro _ other ⟨⟩ hother
          have : other = number := Option.some.inj (hother.2.symm.trans hchunk.2)
          rw [this]
          omega
        refine ⟨count + 1, ?_, ?_⟩
        · intro sequence hge hlt
          rcases Nat.eq_or_lt_of_le hge with rfl | hlater
          · simp [hhead]
          · rw [hskip sequence hlater]
            exact hsome sequence hlater (by omega)
        · have htail : bodies (if envelope.last then
              [.finished envelope.finishReason envelope.usage false] else []) = [] := by
            split_ifs <;> rfl
          rw [hevents, bodies_append, bodies_append, bodies_bodyEvent, htail, hbodies,
            ← firstBodies_congr hskip]
          simp [firstBodies, List.range'_succ, hhead]

/-! ## The ending -/

theorem isTerminal_bodyEvent (sequence : UInt64) (envelope : AgentEnvelope) :
    ∀ event ∈ bodyEvent sequence envelope, event.isTerminal = false := by
  unfold bodyEvent
  split_ifs <;> simp [StreamEvent.isTerminal]

/-- The events are bodies, and then one ending or none. -/
theorem run_ending (calls : List Call) (assembler : ChunkAssembler) :
    ∃ before ending, (run assembler calls).2 = before ++ ending ∧
      (∀ event ∈ before, event.isTerminal = false) ∧ ending.length ≤ 1 := by
  induction calls generalizing assembler with
  | nil => exact ⟨[], [], rfl, by simp, by simp⟩
  | cons call calls ih =>
    simp only [run]
    obtain ⟨hnone, -⟩ | ⟨-, hends, -, event, hevent, -⟩ | ⟨envelope, number, -, -, -, -, -, hlast, hevents⟩ :=
      apply_cases assembler call
    · rw [hnone]
      exact ih _
    · exact ⟨[], [event], by rw [hevent, run_finished calls hends]; rfl, by simp, by simp⟩
    · rw [hevents]
      cases hclosing : envelope.last with
      | true =>
        rw [run_finished calls (hlast.trans hclosing), List.append_nil]
        exact ⟨_, _, rfl, isTerminal_bodyEvent number envelope, le_rfl⟩
      | false =>
        obtain ⟨before, ending, hrest, hbefore, hlength⟩ := ih (call.apply assembler).1
        refine ⟨bodyEvent number envelope ++ before, ending, by simp [hrest], ?_, hlength⟩
        intro event hmem
        rcases List.mem_append.1 hmem with hmem | hmem
        · exact isTerminal_bodyEvent number envelope event hmem
        · exact hbefore event hmem

theorem terminal_last {before ending left right : List StreamEvent} {event : StreamEvent}
    (hbefore : ∀ event ∈ before, event.isTerminal = false) (hlength : ending.length ≤ 1)
    (hsplit : before ++ ending = left ++ event :: right) (hterminal : event.isTerminal) : right = [] := by
  rcases List.append_eq_append_iff.1 hsplit with ⟨rest, hleft, hending⟩ | ⟨rest, hbody, hending⟩
  · rw [hending] at hlength
    apply List.eq_nil_of_length_eq_zero
    simp at hlength
    omega
  · cases rest with
    | nil =>
      rw [List.nil_append] at hending
      rw [← hending] at hlength
      apply List.eq_nil_of_length_eq_zero
      simpa using hlength
    | cons first rest =>
      obtain ⟨rfl, -⟩ := List.cons.inj hending
      have := hbefore event (by simp [hbody])
      simp [hterminal] at this

theorem countP_terminal_le {before ending : List StreamEvent}
    (hbefore : ∀ event ∈ before, event.isTerminal = false) (hlength : ending.length ≤ 1) :
    (before ++ ending).countP (·.isTerminal) ≤ 1 := by
  have hzero : before.countP (·.isTerminal) = 0 := by simpa [List.countP_eq_zero] using hbefore
  have hle : ending.countP (·.isTerminal) ≤ ending.length := List.countP_le_length
  rw [List.countP_append]
  omega

/-! ## Redeliveries -/

/-- The second list is the first with copies of envelopes already fed put in;
`fed` are those fed before. -/
inductive Redelivers : List AgentEnvelope → List Call → List Call → Prop
  | done {fed} : Redelivers fed [] []
  | feed {fed envelope calls calls'} : Redelivers (envelope :: fed) calls calls' →
      Redelivers fed (.feed envelope :: calls) (.feed envelope :: calls')
  | abandon {fed calls calls'} : Redelivers fed calls calls' →
      Redelivers fed (.abandon :: calls) (.abandon :: calls')
  | copy {fed envelope calls calls'} : envelope ∈ fed → Redelivers fed calls calls' →
      Redelivers fed calls (.feed envelope :: calls')

/-- The stream is past this envelope. -/
def Settled (assembler : ChunkAssembler) (envelope : AgentEnvelope) : Prop :=
  assembler.finished ∨ envelope.kind ≠ .error ∧
    ∀ sequence, IsChunk envelope sequence → sequence.toNat < assembler.nextSequence

theorem Settled.mono {assembler next : ChunkAssembler} {envelope : AgentEnvelope} (h : Settled assembler envelope)
    (hnext : assembler.nextSequence ≤ next.nextSequence) (hfin : assembler.finished → next.finished) :
    Settled next envelope := by
  rcases h with h | ⟨hkind, hpast⟩
  · exact .inl (hfin h)
  · exact .inr ⟨hkind, fun sequence hchunk => (hpast sequence hchunk).trans_le hnext⟩

/-- Only its error envelope, its timer and a gap end a stream early. -/
theorem not_ends_of_settled {assembler : ChunkAssembler} {envelope : AgentEnvelope}
    (h : Settled assembler envelope) : ¬ Ends assembler ((Call.feed envelope).apply assembler) := by
  rintro ⟨hopen, -, -, event, hevents, -⟩
  rcases h with h | ⟨herror, hpast⟩
  · simp [hopen] at h
  · simp only [Call.apply, ChunkAssembler.feed] at hevents
    cases hkind : envelope.kind with
    | error => exact herror hkind
    | chunk =>
      cases hseq : envelope.sequence with
      | none => simp [hkind, hseq, ChunkAssembler.feedChunk] at hevents
      | some sequence =>
        have := hpast sequence ⟨hkind, hseq⟩
        simp [hkind, hseq, ChunkAssembler.feedChunk, hopen, this] at hevents
    | command => simp [hkind] at hevents
    | response => simp [hkind] at hevents
    | event => simp [hkind] at hevents
    | status => simp [hkind] at hevents

theorem feed_settled {assembler : ChunkAssembler} {envelope : AgentEnvelope} (h : Settled assembler envelope) :
    Silent assembler (.feed envelope) ((Call.feed envelope).apply assembler) := by
  rcases apply_cases assembler (.feed envelope) with hsilent | hends | ⟨_, sequence, ⟨⟩, hchunk, hopen, hdue, -⟩
  · exact hsilent
  · exact absurd hends (not_ends_of_settled h)
  · rcases h with h | ⟨-, hpast⟩
    · simp [hopen] at h
    · have := hpast sequence hchunk
      omega

theorem settled_feed (assembler : ChunkAssembler) (envelope : AgentEnvelope) :
    Settled ((Call.feed envelope).apply assembler).1 envelope := by
  obtain ⟨hnone, hnext, hfin, hpast⟩ | ⟨-, hends, -⟩ | ⟨_, sequence, ⟨⟩, hchunk, -, hdue, hnext, -⟩ :=
    apply_cases assembler (.feed envelope)
  · cases hopen : assembler.finished with
    | true => exact .inl (hfin.trans hopen)
    | false =>
      refine .inr ⟨?_, ?_⟩
      · -- An error that arrives while the stream is open ends it.
        intro hkind
        simp [Call.apply, ChunkAssembler.feed, hkind, hopen] at hnone
      · intro sequence hchunk
        rw [hnext]
        simpa [hopen] using hpast envelope sequence rfl hchunk
  · exact .inl hends
  · refine .inr ⟨by simp [hchunk.1], ?_⟩
    intro other hother
    have : other = sequence := Option.some.inj (hother.2.symm.trans hchunk.2)
    rw [this, hnext]
    omega

/-- The counts of dropped envelopes play no part in what is emitted. -/
theorem apply_congr (call : Call) {assembler other : ChunkAssembler}
    (hnext : assembler.nextSequence = other.nextSequence) (hfin : assembler.finished = other.finished) :
    (call.apply assembler).2 = (call.apply other).2 ∧
      (call.apply assembler).1.nextSequence = (call.apply other).1.nextSequence ∧
      (call.apply assembler).1.finished = (call.apply other).1.finished := by
  obtain ⟨next, finished, _, _⟩ := assembler
  obtain ⟨_, _, _, _⟩ := other
  dsimp only at hnext hfin
  subst hnext hfin
  cases call with
  | abandon => cases finished <;> exact ⟨rfl, rfl, rfl⟩
  | feed envelope =>
    simp only [Call.apply, ChunkAssembler.feed]
    cases envelope.kind with
    | chunk =>
      simp only [ChunkAssembler.feedChunk]
      cases envelope.sequence with
      | none => exact ⟨rfl, rfl, rfl⟩
      | some sequence =>
        dsimp only
        split_ifs <;> exact ⟨rfl, rfl, rfl⟩
    | error => cases finished <;> exact ⟨rfl, rfl, rfl⟩
    | command => exact ⟨rfl, rfl, rfl⟩
    | response => exact ⟨rfl, rfl, rfl⟩
    | event => exact ⟨rfl, rfl, rfl⟩
    | status => exact ⟨rfl, rfl, rfl⟩

theorem run_congr (calls : List Call) {assembler other : ChunkAssembler}
    (hnext : assembler.nextSequence = other.nextSequence) (hfin : assembler.finished = other.finished) :
    (run assembler calls).2 = (run other calls).2 := by
  induction calls generalizing assembler other with
  | nil => rfl
  | cons call calls ih =>
    obtain ⟨hevents, hnext, hfin⟩ := apply_congr call hnext hfin
    simp only [run]
    rw [hevents, ih hnext hfin]

theorem run_redelivers {fed : List AgentEnvelope} {calls calls' : List Call} (h : Redelivers fed calls calls')
    (assembler : ChunkAssembler) (hfed : ∀ envelope ∈ fed, Settled assembler envelope) :
    (run assembler calls').2 = (run assembler calls).2 := by
  induction h generalizing assembler with
  | done => rfl
  | @feed fed envelope calls calls' _ ih =>
    simp only [run]
    rw [ih]
    intro other hmem
    rcases List.mem_cons.1 hmem with rfl | hmem
    · exact settled_feed assembler _
    · obtain ⟨hnext, hfin⟩ := apply_forward assembler (.feed envelope)
      exact (hfed other hmem).mono hnext hfin
  | abandon _ ih =>
    simp only [run]
    rw [ih]
    intro other hmem
    obtain ⟨hnext, hfin⟩ := apply_forward assembler .abandon
    exact (hfed other hmem).mono hnext hfin
  | @copy fed envelope calls calls' hmem _ ih =>
    obtain ⟨hnone, hnext, hfin, -⟩ := feed_settled (hfed envelope hmem)
    simp only [run]
    rw [hnone, List.nil_append, run_congr calls' hnext hfin]
    exact ih assembler hfed

/-- Whatever is fed and whenever the stream is abandoned: the bodies are the
non-empty ones of the first chunks `0`, `1`, … up to some bound, one ending at
most comes and comes last, and redelivered envelopes change nothing. -/
theorem emitted_reassembles (calls : List Call) :
    (∃ bound, (∀ sequence < bound, (firstChunk calls sequence).isSome) ∧
      bodies (emitted calls) = firstBodies calls 0 bound) ∧
    ((emitted calls).countP (·.isTerminal) ≤ 1 ∧
      ∀ left event right, emitted calls = left ++ event :: right → event.isTerminal → right = []) ∧
    ∀ calls', Redelivers [] calls calls' → emitted calls' = emitted calls := by
  refine ⟨?_, ?_, ?_⟩
  · obtain ⟨bound, hsome, hbodies⟩ := run_bodies calls .new
    refine ⟨bound, ?_, hbodies⟩
    intro sequence hlt
    exact hsome sequence (Nat.zero_le _) (by simpa [ChunkAssembler.new] using hlt)
  · obtain ⟨before, ending, hevents, hbefore, hlength⟩ := run_ending calls .new
    unfold emitted
    rw [hevents]
    refine ⟨countP_terminal_le hbefore hlength, ?_⟩
    intro left event right hsplit hterminal
    exact terminal_last hbefore hlength hsplit hterminal
  · intro calls' h
    exact run_redelivers h .new (by simp)

end LaserSdk.Assembler

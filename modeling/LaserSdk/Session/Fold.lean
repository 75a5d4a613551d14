import Mathlib.Data.List.Induction
import LaserSdk.Lib.Runs
import LaserSdk.Session.State
/-!
# The fold and its only writer

A `Writer` follows one handle through any sequence of calls, with the patches
whose delta was appended. The fold of the lane is compared with those patches.
Until a delta append fails, every suffix of the lane folds either to nothing
or to the whole document, which is what a read of the newest records needs.
-/

namespace LaserSdk.Session

open LaserSdk.Lib

variable {Doc Patch : Type}

/-! ## Calls on a handle -/

inductive Call (Doc Patch : Type) where
  | patch (patch : Patch) (io : Io Doc)
  | snapshot (io : Io Doc)
  | snapshotIfChanged (io : Io Doc)
  /-- Another record of the partition is appended. -/
  | other

structure Writer (Doc Patch : Type) where
  state : SessionState Doc Patch
  /-- The patches whose delta was appended. -/
  accepted : List Patch
  /-- A delta append has failed. -/
  failed : Bool

def CallResult.appended : CallResult → Bool
  | .snapshotFailed | .ok => true
  | _ => false

def LaneRecord.isBaseline : LaneRecord Doc Patch → Bool
  | .snapshot _ _ => true
  | .delta baseRevision _ => baseRevision = 0
  | .other => false

def LaneRecord.isDelta : LaneRecord Doc Patch → Bool
  | .delta _ _ => true
  | _ => false

def LaneRecord.isSnapshot : LaneRecord Doc Patch → Bool
  | .snapshot _ _ => true
  | _ => false

theorem LaneRecord.isBaseline_of_isSnapshot {r : LaneRecord Doc Patch} (h : r.isSnapshot = true) :
    r.isBaseline = true := by
  cases r <;> first | rfl | cases h

section

variable (J : JsonPatch Doc Patch)

def applyAll (patches : List Patch) : Option Doc := patches.foldlM J.apply J.empty

def Writer.new : Writer Doc Patch := ⟨.new, [], false⟩

def Writer.advance (w : Writer Doc Patch) : Call Doc Patch → Writer Doc Patch
  | .patch p io =>
    let r := patch J w.state p io
    ⟨r.1, if r.2.appended then w.accepted ++ [p] else w.accepted, w.failed || (r.2 = .appendFailed : Bool)⟩
  | .snapshot io => { w with state := (snapshot J w.state io).1 }
  | .snapshotIfChanged io => { w with state := (snapshotIfChanged J w.state io).1 }
  | .other => { w with state := { w.state with lane := w.state.lane ++ [.other] } }

def Call.io : Call Doc Patch → Option (Io Doc)
  | .patch _ io | .snapshot io | .snapshotIfChanged io => some io
  | .other => none

/-- The managed index knows nothing of a session before its handle wrote. -/
def Call.IndexAgrees (call : Call Doc Patch) (w : Writer Doc Patch) : Prop :=
  w.state.cursor.document = none → ∀ io ∈ call.io, ∀ view ∈ io.managed, view.revision = 0 ∧ view.document = J.empty

def Step (w : Writer Doc Patch) (call : Call Doc Patch) (w' : Writer Doc Patch) : Prop :=
  call.IndexAgrees J w ∧ w' = w.advance J call

/-- The delta of this call is appended. -/
def Call.appendsDelta (w : Writer Doc Patch) : Call Doc Patch → Bool
  | .patch p io => io.deltaOk && (seed J w.state io).any fun s => (J.apply (s.document J) p).isSome
  | _ => false

/-- A snapshot the caller asked for is appended. -/
def Call.appendsSnapshot (w : Writer Doc Patch) : Call Doc Patch → Bool
  | .snapshot io => io.snapshotOk && (seed J w.state io).isSome
  | .snapshotIfChanged io => (w.state.cursor.sinceSnapshot > 0 : Bool) && io.snapshotOk && (seed J w.state io).isSome
  | _ => false

/-- Once a delta append has failed, no delta is appended, and no snapshot
unless the lane already has a record the fold starts from. -/
def Kept (w : Writer Doc Patch) (call : Call Doc Patch) : Prop :=
  w.failed = true → call.appendsDelta J w = false ∧
    (call.appendsSnapshot J w = true → w.state.lane.any LaneRecord.isBaseline = true)

/-- What one read needs: the newest records are all that bear state, or no
delta append failed and they hold a snapshot or every delta. -/
def Readable (w : Writer Doc Patch) : Prop :=
  (∀ r ∈ w.state.lane.take (w.state.lane.length - contextReadWindow), r = .other) ∨
    w.failed = false ∧ ((fetch w.state.lane).any LaneRecord.isSnapshot = true ∨
      ∀ r ∈ w.state.lane.take (w.state.lane.length - contextReadWindow), r.isDelta = false)

/-- The fold is the document of the accepted patches, at their number. -/
def Sound (w : Writer Doc Patch) : Prop :=
  (get J w.state.lane).revision = w.accepted.length ∧ applyAll J w.accepted = some (get J w.state.lane).document

/-! ## The fold -/

theorem foldRecords_snoc (l : List (LaneRecord Doc Patch)) (r : LaneRecord Doc Patch) :
    foldRecords J (l ++ [r]) = foldRecord J (foldRecords J l) r := by
  simp [foldRecords]

theorem complete_foldRecord {view : SessionStateView Doc} (h : view.complete = true) (r : LaneRecord Doc Patch) :
    (foldRecord J view r).complete = true := by
  cases r with
  | snapshot b d => simp only [foldRecord]; split <;> simp [h]
  | delta b p =>
    simp only [foldRecord]
    repeat' split
    all_goals simp [h]
  | other => exact h

/-- A fold is complete exactly when it read a record to start from, and until
then it has changed nothing. -/
theorem foldRecords_complete (l : List (LaneRecord Doc Patch)) :
    (foldRecords J l).complete = l.any LaneRecord.isBaseline ∧
      ((foldRecords J l).complete = false → foldRecords J l = .new J) := by
  induction l using List.reverseRecOn with
  | nil => simp [foldRecords, SessionStateView.new]
  | append_singleton l r ih =>
    rw [foldRecords_snoc, List.any_append]
    generalize foldRecords J l = v at ih
    obtain ⟨hb, hnew⟩ := ih
    rw [← hb]
    cases hc : v.complete with
    | false =>
      obtain rfl := hnew hc
      cases r with
      | snapshot b d => simp [foldRecord, SessionStateView.new, LaneRecord.isBaseline]
      | delta b p =>
        by_cases h0 : b = 0
        · subst h0
          cases hp : J.apply J.empty p <;> simp [foldRecord, SessionStateView.new, LaneRecord.isBaseline, hp]
        · simp [foldRecord, SessionStateView.new, LaneRecord.isBaseline, h0]
      | other => simp [foldRecord, SessionStateView.new, LaneRecord.isBaseline]
    | true =>
      simp [complete_foldRecord J hc r]

theorem foldRecords_others {l : List (LaneRecord Doc Patch)} (h : ∀ r ∈ l, r = .other) : foldRecords J l = .new J := by
  have hc := foldRecords_complete J l
  refine hc.2 (hc.1.trans ?_)
  simp only [List.any_eq_false]
  intro r hr
  simp [h r hr, LaneRecord.isBaseline]

theorem foldRecords_drop_others {l : List (LaneRecord Doc Patch)} {k : Nat} (h : ∀ r ∈ l.take k, r = .other) :
    foldRecords J (l.drop k) = foldRecords J l := by
  conv_rhs => rw [← List.take_append_drop k l]
  have := foldRecords_others J h
  simp only [foldRecords, List.foldl_append] at this ⊢
  rw [this]

/-! ## Invariant -/

/-- `D` is the document of the accepted patches. Until a delta append fails
the cursor holds it and any suffix of the lane that is complete folds to it.
After one the cursor is ahead of the lane for good. -/
structure Inv (w : Writer Doc Patch) (D : Doc) : Prop where
  applied : applyAll J w.accepted = some D
  whole : foldRecords J w.state.lane = ⟨w.accepted.length, D, w.state.lane.any LaneRecord.isBaseline⟩
  unseeded : w.state.cursor.document = none → w.failed = false ∧ ∀ r ∈ w.state.lane, r = .other
  current : w.failed = false → ∀ d ∈ w.state.cursor.document, d = D ∧ w.state.cursor.revision = w.accepted.length
  ahead : w.failed = true → w.accepted.length < w.state.cursor.revision
  suffixes : w.failed = false → ∀ k, (foldRecords J (w.state.lane.drop k)).complete = true →
    foldRecords J (w.state.lane.drop k) = ⟨w.accepted.length, D, true⟩
  first : w.failed = false → 0 < w.accepted.length → ∃ p, .delta 0 p ∈ w.state.lane

theorem new_inv : Inv J (Writer.new : Writer Doc Patch) J.empty where
  applied := rfl
  whole := rfl
  unseeded _ := ⟨rfl, by simp [Writer.new, SessionState.new]⟩
  current := by simp [Writer.new, SessionState.new]
  ahead := by simp [Writer.new]
  suffixes := by simp [Writer.new, SessionState.new, foldRecords, SessionStateView.new]
  first := by simp [Writer.new]

variable {J} {w : Writer Doc Patch} {D : Doc}

theorem Inv.empty (h : Inv J w D) (h0 : w.accepted.length = 0) : D = J.empty := by
  have happ := h.applied
  rw [List.length_eq_zero_iff.1 h0] at happ
  simpa [applyAll] using happ.symm

/-- A suffix that starts past the end of the lane reads only the new record. -/
theorem drop_snoc (l : List (LaneRecord Doc Patch)) (r : LaneRecord Doc Patch) (k : Nat) :
    (l ++ [r]).drop k = l.drop k ++ [r] ∨ (l ++ [r]).drop k = [] := by
  by_cases hk : k ≤ l.length
  · exact .inl (by rw [List.drop_append_of_le_length hk])
  · exact .inr (List.drop_eq_nil_of_le (by simp; omega))

/-- The suffixes after one more record, when the record keeps a complete fold
at `D` and starts no other one. -/
theorem suffixes_snoc {l : List (LaneRecord Doc Patch)} {r : LaneRecord Doc Patch} {n m : Nat} {D D' : Doc}
    (h : ∀ k, (foldRecords J (l.drop k)).complete = true → foldRecords J (l.drop k) = ⟨n, D, true⟩)
    (hstep : foldRecord J ⟨n, D, true⟩ r = ⟨m, D', true⟩)
    (hstart : (foldRecord J (.new J) r).complete = true → foldRecord J (.new J) r = ⟨m, D', true⟩) :
    ∀ k, (foldRecords J ((l ++ [r]).drop k)).complete = true → foldRecords J ((l ++ [r]).drop k) = ⟨m, D', true⟩ := by
  intro k hk
  rcases drop_snoc l r k with hd | hd
  · rw [hd, foldRecords_snoc] at hk ⊢
    cases hc : (foldRecords J (l.drop k)).complete with
    | true => rw [h k hc, hstep]
    | false =>
      rw [(foldRecords_complete J (l.drop k)).2 hc] at hk ⊢
      exact hstart hk
  · rw [hd] at hk
    simp [foldRecords, SessionStateView.new] at hk

theorem inv_other (h : Inv J w D) : Inv J { w with state := { w.state with lane := w.state.lane ++ [.other] } } D where
  applied := h.applied
  whole := by simp [foldRecords_snoc, h.whole, foldRecord, LaneRecord.isBaseline]
  unseeded hn := ⟨(h.unseeded hn).1, by simpa [or_imp, forall_and] using (h.unseeded hn).2⟩
  current := h.current
  ahead := h.ahead
  suffixes hf := suffixes_snoc (h.suffixes hf) rfl (by simp [foldRecord, SessionStateView.new])
  first hf hn := by
    obtain ⟨p, hp⟩ := h.first hf hn
    exact ⟨p, by simp [hp]⟩

theorem get_others {lane : List (LaneRecord Doc Patch)} (h : ∀ r ∈ lane, r = .other) : get J lane = .new J :=
  foldRecords_others J fun r hr => h r (List.mem_reverse.1 (List.mem_of_mem_take (List.mem_reverse.1 hr)))

/-- What a successful seeding does: nothing, or it starts the cursor at the
current view. -/
theorem seed_cases {s s' : SessionState Doc Patch} {io : Io Doc} (h : seed J s io = some s') :
    s' = s ∧ s.cursor.document.isSome = true ∨ s.cursor.document = none ∧
      ∃ view, view = currentView J s.lane io.managed ∧
        s' = { s with cursor := { s.cursor with revision := view.revision, document := some view.document } } := by
  cases hd : s.cursor.document with
  | some d => simp_all [seed]
  | none =>
    simp only [seed, hd] at h
    split at h
    · exact .inr ⟨rfl, _, rfl, (Option.some.inj h).symm⟩
    · cases h

theorem currentView_others {lane : List (LaneRecord Doc Patch)} (h : ∀ r ∈ lane, r = .other)
    {managed : Option (SessionStateView Doc)}
    (hindex : ∀ view ∈ managed, view.revision = 0 ∧ view.document = J.empty) :
    (currentView J lane managed).revision = 0 ∧ (currentView J lane managed).document = J.empty := by
  have hget : get J lane = .new J := get_others h
  unfold currentView
  generalize get J lane = view at hget
  subst hget
  cases managed with
  | none => simp [SessionStateView.new]
  | some view => simpa [SessionStateView.new] using hindex view rfl

/-- Seeding reads a lane without state. -/
theorem inv_seed (h : Inv J w D) {io : Io Doc} {s : SessionState Doc Patch}
    (hindex : w.state.cursor.document = none → ∀ view ∈ io.managed, view.revision = 0 ∧ view.document = J.empty)
    (hs : seed J w.state io = some s) : Inv J { w with state := s } D ∧ s.cursor.document.isSome = true ∧
      s.lane = w.state.lane := by
  rcases seed_cases hs with ⟨rfl, hd⟩ | ⟨hd, view, hview, rfl⟩
  · exact ⟨h, hd, rfl⟩
  · obtain ⟨hf, hlane⟩ := h.unseeded hd
    obtain ⟨hrev, hdoc⟩ := currentView_others hlane (hindex hd)
    rw [← hview] at hrev hdoc
    have hwhole := h.whole
    rw [foldRecords_others J hlane, SessionStateView.new, SessionStateView.mk.injEq] at hwhole
    refine ⟨⟨h.applied, h.whole, by simp, fun _ d hmem => ?_, fun ht => ?_, h.suffixes, h.first⟩, rfl, rfl⟩
    · simp only [Option.mem_def, Option.some.injEq] at hmem
      exact ⟨by rw [← hmem, hdoc, hwhole.2.1], by rw [hrev]; exact hwhole.1⟩
    · simp [hf] at ht

/-- A delta at the revision the fold reached is applied. -/
theorem foldRecord_delta {n : Nat} {D next : Doc} {complete : Bool} {p : Patch} (hp : J.apply D p = some next) :
    foldRecord J ⟨n, D, complete⟩ (.delta n p) = ⟨n + 1, next, complete || (n = 0 : Bool)⟩ := by
  by_cases hn : n = 0 <;> simp [foldRecord, hn, hp]

/-- A delta at another revision is skipped. -/
theorem foldRecord_skip {n m : Nat} {D : Doc} {complete : Bool} {p : Patch} (hm : m ≠ n) (h0 : m ≠ 0) :
    foldRecord J ⟨n, D, complete⟩ (.delta m p) = ⟨n, D, complete⟩ := by
  simp [foldRecord, hm, h0]

theorem applyAll_snoc {patches : List Patch} {p : Patch} (h : applyAll J patches = some D) :
    applyAll J (patches ++ [p]) = J.apply D p := by
  unfold applyAll at h ⊢
  rw [List.foldlM_append, h]
  simp

/-- The delta of a handle level with its lane. -/
theorem inv_delta (h : Inv J w D) (hf : w.failed = false) {p : Patch} {next : Doc} {since : Nat}
    (hd : w.state.cursor.document = some D) (hp : J.apply D p = some next) :
    Inv J ⟨⟨⟨w.state.cursor.revision + 1, some next, since⟩, w.state.lane ++ [.delta w.state.cursor.revision p]⟩,
      w.accepted ++ [p], w.failed⟩ next := by
  obtain ⟨-, hrev⟩ := h.current hf D hd
  rw [hrev]
  refine ⟨(applyAll_snoc h.applied).trans hp, ?_, by simp, fun _ d hmem => ?_, fun ht => ?_, fun _ => ?_, fun _ _ => ?_⟩
  · simp [foldRecords_snoc, h.whole, foldRecord_delta hp, LaneRecord.isBaseline]
  · simp only [Option.mem_def, Option.some.injEq] at hmem
    simp [← hmem]
  · simp [hf] at ht
  · refine suffixes_snoc (h.suffixes hf) (by simp [foldRecord_delta hp]) fun hc => ?_
    -- A suffix that starts at this delta is the whole lane.
    have h0 : w.accepted.length = 0 := by
      by_contra hne
      simp [SessionStateView.new, foldRecord_skip hne hne] at hc
    rw [h0, SessionStateView.new, ← h.empty h0, foldRecord_delta hp]
    simp [h0]
  · by_cases h0 : w.accepted.length = 0
    · exact ⟨p, by simp [h0]⟩
    · obtain ⟨q, hq⟩ := h.first hf (by omega)
      exact ⟨q, by simp [hq]⟩

/-- A failed append leaves the cursor ahead of the lane. -/
theorem inv_appendFailed (h : Inv J w D) {next : Doc} {since : Nat} (hd : w.state.cursor.document.isSome = true) :
    Inv J ⟨⟨⟨w.state.cursor.revision + 1, some next, since⟩, w.state.lane⟩, w.accepted, true⟩ D := by
  refine ⟨h.applied, h.whole, by simp, by simp, fun _ => ?_, by simp, by simp⟩
  cases hf : w.failed with
  | true => exact Nat.lt_succ_of_lt (h.ahead hf)
  | false =>
    obtain ⟨d, hd'⟩ := Option.isSome_iff_exists.1 hd
    have := (h.current hf d hd').2
    simp [this]

/-- The snapshot of a handle level with its lane, or of one ahead of a lane
whose fold has started. -/
theorem inv_snapshot (h : Inv J w D) {since : Nat} (hd : w.state.cursor.document.isSome = true)
    (hb : w.failed = true → w.state.lane.any LaneRecord.isBaseline = true) :
    Inv J { w with state := ⟨{ w.state.cursor with sinceSnapshot := since },
      w.state.lane ++ [.snapshot w.state.cursor.revision (w.state.document J)]⟩ } D := by
  refine ⟨h.applied, ?_, by simp [Option.ne_none_iff_isSome.2 hd], h.current, h.ahead, fun hf => ?_, fun hf hn => ?_⟩
  · rw [foldRecords_snoc, h.whole]
    cases hf : w.failed with
    | true =>
      have hne : w.state.cursor.revision ≠ w.accepted.length := (Nat.ne_of_lt (h.ahead hf)).symm
      simp [foldRecord, hb hf, LaneRecord.isBaseline, hne]
    | false =>
      obtain ⟨d, hd'⟩ := Option.isSome_iff_exists.1 hd
      obtain ⟨rfl, hrev⟩ := h.current hf d hd'
      simp [foldRecord, hrev, SessionState.document, hd', LaneRecord.isBaseline]
  · obtain ⟨d, hd'⟩ := Option.isSome_iff_exists.1 hd
    obtain ⟨rfl, hrev⟩ := h.current hf d hd'
    refine suffixes_snoc (h.suffixes hf) ?_ fun _ => ?_
    · simp [foldRecord, hrev, SessionState.document, hd']
    · simp [foldRecord, hrev, SessionState.document, hd', SessionStateView.new]
  · obtain ⟨q, hq⟩ := h.first hf hn
    exact ⟨q, by simp [hq]⟩

/-! ## Steps -/

theorem snapshot_seeded {s : SessionState Doc Patch} {io : Io Doc} (hd : s.cursor.document.isSome = true) :
    snapshot J s io = writeSnapshot J s io := by
  obtain ⟨d, hd'⟩ := Option.isSome_iff_exists.1 hd
  simp [snapshot, seed, hd']

/-- Where a patch call ends: before the append, at a failed append, or after
the delta with at most a snapshot behind it. -/
theorem patch_cases (s : SessionState Doc Patch) (p : Patch) (io : Io Doc) :
    -- The read fails.
    ((patch J s p io).1 = s ∧ (patch J s p io).2 = .readFailed ∧ seed J s io = none) ∨
    ∃ s1, seed J s io = some s1 ∧
      -- The patch does not apply.
      (((patch J s p io).1 = s1 ∧ (patch J s p io).2 = .patchFailed ∧ J.apply (s1.document J) p = none) ∨
        ∃ next since, J.apply (s1.document J) p = some next ∧
          -- The append fails, with the cursor moved.
          ((io.deltaOk = false ∧ (patch J s p io).2 = .appendFailed ∧
              (patch J s p io).1 = ⟨⟨s1.cursor.revision + 1, some next, since⟩, s1.lane⟩) ∨
            -- The delta is appended, and a snapshot when it is due.
            io.deltaOk = true ∧ (patch J s p io).2.appended = true ∧
              ∃ s2 : SessionState Doc Patch, s2 = ⟨⟨s1.cursor.revision + 1, some next, since⟩,
                  s1.lane ++ [.delta s1.cursor.revision p]⟩ ∧
                ((patch J s p io).1 = s2 ∨ (patch J s p io).1 = (writeSnapshot J s2 io).1))) := by
  unfold patch
  cases hs : seed J s io with
  | none => exact .inl ⟨rfl, rfl, rfl⟩
  | some s1 =>
    refine .inr ⟨s1, rfl, ?_⟩
    dsimp only
    cases hp : J.apply (s1.document J) p with
    | none => exact .inl ⟨rfl, rfl, rfl⟩
    | some next =>
      refine .inr ⟨next, s1.cursor.sinceSnapshot + 1, rfl, ?_⟩
      dsimp only
      cases hd : io.deltaOk with
      | false => exact .inl ⟨rfl, rfl, rfl⟩
      | true =>
        refine .inr ⟨rfl, ?_⟩
        simp only [if_true]
        by_cases hdue : s1.cursor.sinceSnapshot + 1 ≥ snapshotEveryDeltas
        · rw [if_pos hdue, snapshot_seeded rfl]
          refine ⟨?_, _, rfl, .inr rfl⟩
          unfold writeSnapshot
          split <;> rfl
        · rw [if_neg hdue]
          exact ⟨rfl, _, rfl, .inl rfl⟩

theorem inv_writeSnapshot (h : Inv J w D) (io : Io Doc) (hd : w.state.cursor.document.isSome = true)
    (hb : w.failed = true → io.snapshotOk = true → w.state.lane.any LaneRecord.isBaseline = true) :
    Inv J { w with state := (writeSnapshot J w.state io).1 } D := by
  unfold writeSnapshot
  cases hok : io.snapshotOk with
  | true => exact inv_snapshot h hd fun hf => hb hf hok
  | false => exact h

theorem inv_snapshotCall (h : Inv J w D) {io : Io Doc}
    (hindex : w.state.cursor.document = none → ∀ view ∈ io.managed, view.revision = 0 ∧ view.document = J.empty)
    (hb : w.failed = true → (io.snapshotOk && (seed J w.state io).isSome) = true →
      w.state.lane.any LaneRecord.isBaseline = true) :
    Inv J { w with state := (snapshot J w.state io).1 } D := by
  unfold snapshot
  cases hs : seed J w.state io with
  | none => exact h
  | some s =>
    obtain ⟨hinv, hd, hlane⟩ := inv_seed h hindex hs
    exact inv_writeSnapshot hinv io hd fun hf hok => hlane ▸ hb hf (by simp [hok, hs])

theorem inv_patch (h : Inv J w D) {p : Patch} {io : Io Doc}
    (hindex : w.state.cursor.document = none → ∀ view ∈ io.managed, view.revision = 0 ∧ view.document = J.empty)
    (hk : Kept J w (.patch p io)) : ∃ D', Inv J (w.advance J (.patch p io)) D' := by
  simp only [Writer.advance]
  rcases patch_cases w.state p io with ⟨h1, h2, -⟩ | ⟨s1, hs, ⟨h1, h2, -⟩ | ⟨next, since, hp, hcase⟩⟩
  · exact ⟨D, by rw [h1, h2]; simpa [CallResult.appended] using h⟩
  · exact ⟨D, by rw [h1, h2]; simpa [CallResult.appended] using (inv_seed h hindex hs).1⟩
  · obtain ⟨hinv, hd, -⟩ := inv_seed h hindex hs
    rcases hcase with ⟨-, h2, h1⟩ | ⟨hok, h2, s2, hs2, h1⟩
    · exact ⟨D, by rw [h1, h2]; simpa [CallResult.appended] using inv_appendFailed hinv hd⟩
    · have hf : w.failed = false := by
        by_contra hf
        simp only [Bool.not_eq_false] at hf
        simpa [Call.appendsDelta, hok, hs, hp] using (hk hf).1
      have hne : (patch J w.state p io).2 ≠ .appendFailed := fun he => by simp [he, CallResult.appended] at h2
      obtain ⟨d, hd'⟩ := Option.isSome_iff_exists.1 hd
      obtain ⟨rfl, -⟩ := hinv.current hf d hd'
      have hp' : J.apply d p = some next := by simpa [SessionState.document, hd'] using hp
      have hdelta := @inv_delta _ _ _ _ _ hinv hf p next since hd' hp'
      simp only [← hs2] at hdelta
      refine ⟨next, ?_⟩
      simp only [h2, if_true, decide_eq_false hne, Bool.or_false]
      rcases h1 with h1 | h1
      · simpa [h1] using hdelta
      · rw [h1]
        exact inv_writeSnapshot hdelta io (by simp [hs2]) fun ht => by simp [hf] at ht

theorem step_inv (h : Inv J w D) {call : Call Doc Patch} {w' : Writer Doc Patch} (hs : Step J w call w')
    (hk : Kept J w call) : ∃ D', Inv J w' D' := by
  obtain ⟨hindex, rfl⟩ := hs
  cases call with
  | patch p io => exact inv_patch h (fun hd => hindex hd io rfl) hk
  | snapshot io => exact ⟨D, inv_snapshotCall h (fun hd => hindex hd io rfl) fun hf hb => (hk hf).2 hb⟩
  | snapshotIfChanged io =>
    refine ⟨D, ?_⟩
    simp only [Writer.advance, snapshotIfChanged]
    split
    · rename_i hpos
      refine inv_snapshotCall h (fun hd => hindex hd io rfl) fun hf hb => (hk hf).2 ?_
      simpa [Call.appendsSnapshot, hpos] using hb
    · exact h
  | other => exact ⟨D, inv_other h⟩

/-! ## Reading -/

theorem fetch_eq_drop (lane : List (LaneRecord Doc Patch)) :
    fetch lane = lane.drop (lane.length - contextReadWindow) := by
  unfold fetch
  rw [List.reverse_take, List.reverse_reverse, List.length_reverse]

/-- A read that finds what it needs returns the accepted document. -/
theorem sound_of_inv (h : Inv J w D) (hr : Readable w) : Sound J w := by
  have hdone : ∀ c, get J w.state.lane = ⟨w.accepted.length, D, c⟩ → Sound J w := by
    intro c hg
    exact ⟨by rw [hg], by rw [hg]; exact h.applied⟩
  unfold Readable at hr
  have hget : get J w.state.lane = foldRecords J (w.state.lane.drop (w.state.lane.length - contextReadWindow)) := by
    rw [get, fetch_eq_drop]
  rw [fetch_eq_drop] at hr
  generalize w.state.lane.length - contextReadWindow = k at hr hget
  rcases hr with hall | ⟨hf, hcase⟩
  · exact hdone _ (hget.trans ((foldRecords_drop_others J hall).trans h.whole))
  · cases hc : (foldRecords J (w.state.lane.drop k)).complete with
    | true => exact hdone _ (hget.trans (h.suffixes hf k hc))
    | false =>
      obtain ⟨hany, hnew⟩ := foldRecords_complete J (w.state.lane.drop k)
      rw [hc, eq_comm, List.any_eq_false] at hany
      have h0 : w.accepted.length = 0 := by
        by_contra hne
        obtain ⟨p, hp⟩ := h.first hf (by omega)
        rw [← List.take_append_drop k w.state.lane, List.mem_append] at hp
        rcases hp with hp | hp
        · rcases hcase with hsnap | hdelta
          · obtain ⟨r, hr, hs⟩ := List.any_eq_true.1 hsnap
            exact hany r hr (LaneRecord.isBaseline_of_isSnapshot hs)
          · simpa [LaneRecord.isDelta] using hdelta _ hp
        · exact hany _ hp rfl
      exact hdone false (by rw [hget, hnew hc, h0, h.empty h0]; rfl)

/-! ## Main theorem -/

theorem get_short {lane : List (LaneRecord Doc Patch)} (h : lane.length ≤ contextReadWindow) :
    get J lane = foldRecords J lane := by
  rw [get, fetch_eq_drop, Nat.sub_eq_zero_of_le h, List.drop_zero]

theorem seed_of_failed (h : Inv J w D) (hf : w.failed = true) (io : Io Doc) : seed J w.state io = some w.state := by
  cases hd : w.state.cursor.document with
  | none => simp [(h.unseeded hd).1] at hf
  | some d => simp [seed, hd]

/-- A snapshot changes the fold to its own revision or not at all. -/
theorem foldRecord_snapshot_revision (v : SessionStateView Doc) (m : Nat) (d : Doc) :
    (foldRecord J v (.snapshot m d)).revision = v.revision ∨ (foldRecord J v (.snapshot m d)).revision = m := by
  simp only [foldRecord]
  split
  · exact .inl rfl
  · exact .inr rfl

/-- A delta from a cursor ahead of the lane is skipped, and a snapshot behind
it is skipped or taken at the cursor's revision. Neither is the count. -/
theorem unsound_delta (h : Inv J w D) (hf : w.failed = true) {p : Patch} {io : Io Doc}
    (ha : Call.appendsDelta J w (.patch p io) = true)
    (hfit : (w.advance J (.patch p io)).state.lane.length ≤ contextReadWindow) :
    ¬ Sound J (w.advance J (.patch p io)) := by
  have hahead := h.ahead hf
  have hseed := seed_of_failed h hf io
  simp only [Call.appendsDelta, hseed, Option.any_some, Bool.and_eq_true] at ha
  have hcases := patch_cases (J := J) w.state p io
  simp only [hseed, reduceCtorEq, and_false, false_or, Option.some.injEq, exists_eq_left'] at hcases
  rcases hcases with ⟨-, -, hn⟩ | ⟨next, since, -, ⟨hbad, -, -⟩ | ⟨-, h2, s2, rfl, h1⟩⟩
  · simp [hn] at ha
  · simp [hbad] at ha
  · have hcount : (w.advance J (.patch p io)).accepted.length = w.accepted.length + 1 := by
      simp [Writer.advance, h2]
    have hskip : foldRecords J (w.state.lane ++ [.delta w.state.cursor.revision p]) =
        foldRecords J w.state.lane := by
      rw [foldRecords_snoc, h.whole]
      exact foldRecord_skip (by omega) (by omega)
    have hbase : (foldRecords J (w.state.lane ++ [.delta w.state.cursor.revision p])).revision =
        w.accepted.length := by rw [hskip, h.whole]
    rw [Sound, get_short hfit, hcount]
    simp only [Writer.advance]
    rintro ⟨hrev, -⟩
    rcases h1 with h1 | h1
    · rw [h1, hbase] at hrev
      omega
    · rw [h1] at hrev
      unfold writeSnapshot at hrev
      split at hrev
      · simp only [foldRecords_snoc J (w.state.lane ++ _)] at hrev
        rcases foldRecord_snapshot_revision (J := J) (foldRecords J (w.state.lane ++ [.delta w.state.cursor.revision p]))
          (w.state.cursor.revision + 1) _ with hr | hr
        · rw [hr, hbase] at hrev; omega
        · rw [hr] at hrev; omega
      · rw [hbase] at hrev; omega

/-- The first snapshot of a cursor ahead of the lane is taken as it is. -/
theorem unsound_snapshot (h : Inv J w D) (hf : w.failed = true) {io : Io Doc} (hok : io.snapshotOk = true)
    (hb : w.state.lane.any LaneRecord.isBaseline = false)
    (hfit : (snapshot J w.state io).1.lane.length ≤ contextReadWindow) :
    ¬ Sound J { w with state := (snapshot J w.state io).1 } := by
  have hahead := h.ahead hf
  rintro ⟨hrev, -⟩
  rw [get_short hfit] at hrev
  simp only [snapshot, seed_of_failed h hf io, writeSnapshot, hok, if_true, foldRecords_snoc, h.whole, hb,
    foldRecord, Bool.false_eq_true, false_and, if_false] at hrev
  omega

theorem readable_short (h : w.state.lane.length ≤ contextReadWindow) : Readable w := by
  refine .inl fun r hr => ?_
  simp [Nat.sub_eq_zero_of_le h] at hr

variable (J)

/-- A step after which the handle is still kept and the lane can be read. -/
def KeptStep (w : Writer Doc Patch) (call : Call Doc Patch) (w' : Writer Doc Patch) : Prop :=
  Step J w call w' ∧ Kept J w call ∧ Readable w'

theorem kept_inv {calls : List (Call Doc Patch)} (h : Run (KeptStep J) Writer.new calls w) :
    (∃ D, Inv J w D) ∧ Readable w := by
  refine Run.inv (fun w => (∃ D, Inv J w D) ∧ Readable w) ?_ ?_ h
  · exact ⟨⟨J.empty, new_inv J⟩, readable_short (Nat.zero_le _)⟩
  · rintro w call w' ⟨⟨D, hinv⟩, -⟩ ⟨hstep, hkept, hread⟩
    exact ⟨step_inv hinv hstep hkept, hread⟩

/-- The fold of the lane is the document of the accepted patches in every run
of kept steps, and while the lane fits one read a step that is not kept ends
that. -/
theorem get_folds_accepted (calls : List (Call Doc Patch)) (w : Writer Doc Patch)
    (h : Run (KeptStep J) Writer.new calls w) :
    Sound J w ∧ ∀ call w', Step J w call w' → w'.state.lane.length ≤ contextReadWindow →
      (Sound J w' ↔ Kept J w call) := by
  obtain ⟨⟨D, hinv⟩, hread⟩ := kept_inv J h
  refine ⟨sound_of_inv hinv hread, fun call w' hstep hfit => ⟨fun hsound hf => ?_, fun hkept => ?_⟩⟩
  · obtain ⟨-, rfl⟩ := hstep
    refine ⟨?_, fun hsnap => ?_⟩
    · by_contra hd
      simp only [Bool.not_eq_false] at hd
      cases call with
      | patch p io => exact unsound_delta hinv hf hd hfit hsound
      | snapshot io | snapshotIfChanged io | other => simp [Call.appendsDelta] at hd
    · by_contra hb
      simp only [Bool.not_eq_true] at hb
      cases call with
      | patch p io => simp [Call.appendsSnapshot] at hsnap
      | other => simp [Call.appendsSnapshot] at hsnap
      | snapshot io =>
        simp only [Call.appendsSnapshot, Bool.and_eq_true] at hsnap
        exact unsound_snapshot hinv hf hsnap.1 hb hfit hsound
      | snapshotIfChanged io =>
        simp only [Call.appendsSnapshot, Bool.and_eq_true, decide_eq_true_eq] at hsnap
        simp only [Writer.advance, snapshotIfChanged, hsnap.1.1, if_true] at hfit hsound
        exact unsound_snapshot hinv hf hsnap.1.2 hb hfit hsound
  · obtain ⟨D', hinv'⟩ := step_inv hinv hstep hkept
    exact sound_of_inv hinv' (readable_short hfit)

end

/-! ## A flat object and its add operations -/

/-- Objects with numbers for values, patched by adding one key. -/
def flatJson : JsonPatch (List (String × Nat)) (String × Nat) where
  empty := []
  apply document patch := some (document.filter (·.1 ≠ patch.1) ++ [patch])

def goodIo : Io (List (String × Nat)) := ⟨true, none, true, true⟩

def lostIo : Io (List (String × Nat)) := ⟨true, none, false, true⟩

instance (w : Writer (List (String × Nat)) (String × Nat)) (call : Call (List (String × Nat)) (String × Nat)) :
    Decidable (Kept flatJson w call) :=
  inferInstanceAs (Decidable (w.failed = true → call.appendsDelta flatJson w = false ∧
    (call.appendsSnapshot flatJson w = true → w.state.lane.any LaneRecord.isBaseline = true)))

/-- The kept steps without an index while the lane fits one read, as a function. -/
def nextKept (w : Writer (List (String × Nat)) (String × Nat)) (call : Call (List (String × Nat)) (String × Nat)) :
    Option (Writer (List (String × Nat)) (String × Nat)) :=
  if (call.io.all fun io => io.managed.isNone) = true ∧ Kept flatJson w call ∧
      (w.advance flatJson call).state.lane.length ≤ contextReadWindow then some (w.advance flatJson call)
  else none

theorem keptStep_of_nextKept {w w' : Writer (List (String × Nat)) (String × Nat)}
    {call : Call (List (String × Nat)) (String × Nat)} (h : nextKept w call = some w') : KeptStep flatJson w call w' := by
  unfold nextKept at h
  split at h
  next hnext =>
    obtain ⟨hindex, hkept, hfit⟩ := hnext
    cases h
    refine ⟨⟨fun _ io hio view hview => ?_, rfl⟩, hkept, readable_short hfit⟩
    have hnone := Option.isNone_iff_eq_none.1 (Option.all_eq_true _ _ |>.1 hindex io hio)
    rw [hnone] at hview
    cases hview
  next => cases h

/-- Two patches with a snapshot between them, then a lost delta and a snapshot
of the document that it would have led to, which the fold leaves aside. -/
theorem get_folds_past_lost_delta : ∃ w, Run (KeptStep flatJson) Writer.new
      [.patch ("x", 1) goodIo, .snapshot goodIo, .patch ("y", 2) goodIo, .patch ("x", 3) lostIo, .snapshot goodIo] w ∧
    w.failed = true ∧ w.accepted = [("x", 1), ("y", 2)] ∧ w.state.lane.length = 4 ∧ Sound flatJson w ∧
    (get flatJson w.state.lane).document = [("x", 1), ("y", 2)] := by
  obtain ⟨w, hnext, hfailed, haccepted, hlane⟩ : ∃ w, Run (fun w call w' => nextKept w call = some w') Writer.new
      [.patch ("x", 1) goodIo, .snapshot goodIo, .patch ("y", 2) goodIo, .patch ("x", 3) lostIo, .snapshot goodIo] w ∧
      w.failed = true ∧ w.accepted = [("x", 1), ("y", 2)] ∧ w.state.lane.length = 4 :=
    ⟨_, Run.foldlM_iff.2 rfl, rfl, rfl, rfl⟩
  have hrun := hnext.mono fun _ _ _ => keptStep_of_nextKept
  have hsound := (get_folds_accepted flatJson _ w hrun).1
  refine ⟨w, hrun, hfailed, haccepted, hlane, hsound, ?_⟩
  have hdocument := hsound.2
  rw [haccepted] at hdocument
  exact (Option.some.inj hdocument).symm

/-- The first delta is lost and the second is appended: the fold has neither. -/
theorem lost_delta_hides_next : ∃ w, Run (Step flatJson) Writer.new
      [.patch ("x", 1) lostIo, .patch ("y", 2) goodIo] w ∧
    w.accepted = [("y", 2)] ∧ get flatJson w.state.lane = ⟨0, [], false⟩ ∧ ¬ Sound flatJson w := by
  refine ⟨_, .snoc (.snoc .nil ⟨?_, rfl⟩) ⟨?_, rfl⟩, by decide, by decide, fun hs => absurd hs.1 (by decide)⟩
  · simp [Call.IndexAgrees, Call.io, goodIo]
  · simp [Call.IndexAgrees, Call.io, lostIo]

end LaserSdk.Session

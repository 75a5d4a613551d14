import Mathlib.Data.List.Perm.Basic
import LaserSdk.Session.Fold
/-!
# Patches that run concurrently

Tasks share one handle and call `patch` on it at the same time. A call takes
the next revision under the lock of the cursor and appends its delta after it
gave the lock back, so deltas reach the lane in any order. The fold takes a
delta only at the revision it has reached. It finds every patch exactly when
the deltas stand in the order in which they took their revisions.
-/

namespace LaserSdk.Session

open LaserSdk.Lib

variable {Doc Patch : Type}

/-! ## Calls in flight -/

/-- Where a call of `patch` is. -/
inductive PatchCall (Doc Patch : Type) where
  | started (patch : Patch)
  /-- `seed` found no document and reads the lane. -/
  | reading (patch : Patch)
  | viewed (patch : Patch) (view : SessionStateView Doc)
  | seeded (patch : Patch)
  /-- The delta has its revision and is on its way to the lane. -/
  | appending (baseRevision : Nat) (patch : Patch) (due : Bool)
  /-- The delta landed and a snapshot is due. -/
  | due
  | snapshotting (baseRevision : Nat) (document : Doc)
  /-- The snapshot landed. -/
  | closing (baseRevision : Nat)
  | returned (result : CallResult)
  deriving DecidableEq

structure Handle (Doc Patch : Type) extends SessionState Doc Patch where
  /-- Every call made, by its number. -/
  calls : List (PatchCall Doc Patch)
  /-- The patches that took a revision, in this order. -/
  taken : List Patch

/-- One effect that other tasks can see. -/
inductive PatchAction (Doc Patch : Type) where
  | start (patch : Patch)
  | look (call : Nat)
  | read (call : Nat) (managed : Option (SessionStateView Doc))
  | readFails (call : Nat)
  | settle (call : Nat)
  | take (call : Nat)
  | appendDelta (call : Nat)
  | takeSnapshot (call : Nat)
  | appendSnapshot (call : Nat)
  | close (call : Nat)
  /-- Another record of the partition is appended. -/
  | other

namespace Handle

def new : Handle Doc Patch := { SessionState.new with calls := [], taken := [] }

def setCall (s : Handle Doc Patch) (i : Nat) (call : PatchCall Doc Patch) : Handle Doc Patch :=
  { s with calls := s.calls.set i call }

def append (s : Handle Doc Patch) (record : LaneRecord Doc Patch) : Handle Doc Patch :=
  { s with lane := s.lane ++ [record] }

/-- What `seed` does with the view it read, unless another call was first. -/
def settle (s : Handle Doc Patch) (view : SessionStateView Doc) : Handle Doc Patch :=
  match s.cursor.document with
  | some _ => s
  | none => { s with cursor := { s.cursor with revision := view.revision, document := some view.document } }

/-- The cursor moves under its lock. -/
def advance (s : Handle Doc Patch) (patch : Patch) (next : Doc) : Handle Doc Patch :=
  { s with cursor := ⟨s.cursor.revision + 1, some next, s.cursor.sinceSnapshot + 1⟩, taken := s.taken ++ [patch] }

/-- The deltas counted since the last snapshot start again, unless the cursor
has moved past the snapshot. -/
def reset (s : Handle Doc Patch) (baseRevision : Nat) : Handle Doc Patch :=
  if s.cursor.revision = baseRevision then { s with cursor := { s.cursor with sinceSnapshot := 0 } } else s

section

variable (J : JsonPatch Doc Patch)

def next (s : Handle Doc Patch) : PatchAction Doc Patch → Option (Handle Doc Patch)
  | .start p => some { s with calls := s.calls ++ [.started p] }
  | .look i => match s.calls[i]? with
    | some (.started p) => some (s.setCall i (if s.cursor.document.isSome then .seeded p else .reading p))
    | _ => none
  | .read i managed => match s.calls[i]? with
    | some (.reading p) => some (s.setCall i (.viewed p (currentView J s.lane managed)))
    | _ => none
  | .readFails i => match s.calls[i]? with
    | some (.reading _) => some (s.setCall i (.returned .readFailed))
    | _ => none
  | .settle i => match s.calls[i]? with
    | some (.viewed p view) => some ((s.settle view).setCall i (.seeded p))
    | _ => none
  | .take i => match s.calls[i]? with
    | some (.seeded p) => match J.apply (s.document J) p with
      | none => some (s.setCall i (.returned .patchFailed))
      | some next =>
        let due : Bool := s.cursor.sinceSnapshot + 1 ≥ snapshotEveryDeltas
        some ((s.advance p next).setCall i (.appending s.cursor.revision p due))
    | _ => none
  | .appendDelta i => match s.calls[i]? with
    | some (.appending base p due) => some ((s.append (.delta base p)).setCall i (if due then .due else .returned .ok))
    | _ => none
  -- `seed` returns at once here: the handle has a document since the delta.
  | .takeSnapshot i => match s.calls[i]? with
    | some .due => some (s.setCall i (.snapshotting s.cursor.revision (s.document J)))
    | _ => none
  | .appendSnapshot i => match s.calls[i]? with
    | some (.snapshotting base document) => some ((s.append (.snapshot base document)).setCall i (.closing base))
    | _ => none
  | .close i => match s.calls[i]? with
    | some (.closing base) => some ((s.reset base).setCall i (.returned .ok))
    | _ => none
  | .other => some (s.append .other)

/-- The managed index knows nothing of a session before its handle wrote. -/
def IndexAgrees (s : Handle Doc Patch) : PatchAction Doc Patch → Prop
  | .read _ managed => s.cursor.document = none → ∀ view ∈ managed, view.revision = 0 ∧ view.document = J.empty
  | _ => True

def Step (s : Handle Doc Patch) (a : PatchAction Doc Patch) (s' : Handle Doc Patch) : Prop :=
  s.IndexAgrees J a ∧ s.next J a = some s'

end

/-- All calls have returned. -/
def Done (s : Handle Doc Patch) : Prop := ∀ call ∈ s.calls, ∃ result, call = .returned result

end Handle

/-! ## The order of the deltas -/

def LaneRecord.deltaBase : LaneRecord Doc Patch → Option Nat
  | .delta base _ => some base
  | _ => none

/-- The revisions from which the deltas of the records were taken. -/
def deltaBases (records : List (LaneRecord Doc Patch)) : List Nat := records.filterMap LaneRecord.deltaBase

/-- The revision at which a fold is after the record it starts from. -/
def LaneRecord.startsAt : LaneRecord Doc Patch → Nat
  | .delta base _ => base + 1
  | .snapshot base _ => base
  | .other => 0

/-- After the first record that a fold can start from stand the deltas up to
revision `n`, in the order in which they were taken. -/
def InOrder (n : Nat) (records : List (LaneRecord Doc Patch)) : Prop :=
  match records.dropWhile (!·.isBaseline) with
  | [] => n = 0
  | first :: rest => (List.range' first.startsAt (n - first.startsAt)).Sublist (deltaBases rest)

def PatchCall.pending : PatchCall Doc Patch → Option Nat
  | .appending base _ _ => some base
  | _ => none

/-- The revisions whose delta is on its way to the lane. -/
def Handle.pending (s : Handle Doc Patch) : List Nat := s.calls.filterMap PatchCall.pending

/-- No delta is appended before one that was taken earlier. -/
def Handle.Turn (s : Handle Doc Patch) : PatchAction Doc Patch → Prop
  | .appendDelta i => ∀ call ∈ s.calls[i]?, ∀ base ∈ call.pending, ∀ other ∈ s.pending, base ≤ other
  | _ => True

section

variable (J : JsonPatch Doc Patch)

/-- A step in turn, after which the lane still fits one read. -/
def Handle.TurnStep (s : Handle Doc Patch) (a : PatchAction Doc Patch) (s' : Handle Doc Patch) : Prop :=
  s.Step J a s' ∧ s.Turn a ∧ s'.lane.length ≤ contextReadWindow

/-- The fold of the lane is the handle's own state, with every patch that took
a revision. -/
def TookEffect (s : Handle Doc Patch) : Prop :=
  (get J s.lane).revision = s.cursor.revision ∧ (get J s.lane).document = s.document J ∧
    s.taken.length = (get J s.lane).revision ∧ applyAll J s.taken = some (get J s.lane).document

/-! ## What the fold reaches -/

/-- The document at revision `r` of the patches taken. -/
def At (taken : List Patch) (r : Nat) (document : Doc) : Prop :=
  r ≤ taken.length ∧ applyAll J (taken.take r) = some document

/-- A record that a call on the handle wrote. -/
def LaneRecord.Genuine (taken : List Patch) : LaneRecord Doc Patch → Prop
  | .delta base p => taken[base]? = some p
  | .snapshot base document => At J taken base document
  | .other => True

/-- The revision a fold has reached, once it has a record to start from. -/
def climb (reached : Option Nat) : LaneRecord Doc Patch → Option Nat
  | .snapshot base _ => some (reached.getD base)
  | .delta base _ => match reached with
    | none => if base = 0 then some 1 else none
    | some r => some (if base = r then r + 1 else r)
  | .other => reached

variable {J} {taken : List Patch} {r : Nat} {D document : Doc}

theorem At.zero (taken : List Patch) : At J taken 0 J.empty := ⟨Nat.zero_le _, rfl⟩

theorem At.whole (h : applyAll J taken = some D) : At J taken taken.length D := by
  refine ⟨Nat.le_refl _, ?_⟩
  rwa [List.take_length]

theorem At.unique {document' : Doc} (h : At J taken r document) (h' : At J taken r document') :
    document = document' := by
  simpa using h.2.symm.trans h'.2

theorem At.snoc (h : At J taken r document) (p : Patch) : At J (taken ++ [p]) r document := by
  refine ⟨by simpa using Nat.le_succ_of_le h.1, ?_⟩
  rw [List.take_append_of_le_length h.1]
  exact h.2

/-- The patch taken at a revision applies to the document there. -/
theorem At.next (h : At J taken r document) (hall : applyAll J taken = some D) {p : Patch}
    (hp : taken[r]? = some p) : ∃ next, J.apply document p = some next ∧ At J taken (r + 1) next := by
  have htake : taken.take (r + 1) = taken.take r ++ [p] := by
    rw [List.take_add_one, hp]
    rfl
  have hnext : applyAll J (taken.take (r + 1)) = J.apply document p := by
    rw [htake]
    exact applyAll_snoc h.2
  cases happly : J.apply document p with
  | none =>
    rw [← List.take_append_drop (r + 1) taken] at hall
    simp only [applyAll, List.foldlM_append] at hall hnext
    simp [hnext, happly] at hall
  | some next =>
    refine ⟨next, rfl, ?_, hnext.trans happly⟩
    exact (List.getElem?_eq_some_iff.1 hp).1

/-- A fold is at the document of the revision it has reached. -/
structure Tracks (J : JsonPatch Doc Patch) (taken : List Patch) (reached : Option Nat) (view : SessionStateView Doc) :
    Prop where
  revision : view.revision = reached.getD 0
  complete : view.complete = reached.isSome
  document : At J taken view.revision view.document

theorem foldRecord_tracks (hall : applyAll J taken = some D) {reached : Option Nat} {view : SessionStateView Doc}
    (h : Tracks J taken reached view) {record : LaneRecord Doc Patch} (hr : record.Genuine J taken) :
    Tracks J taken (climb reached record) (foldRecord J view record) := by
  obtain ⟨revision, document, complete⟩ := view
  obtain ⟨rfl, rfl, hdoc⟩ := h
  cases record with
  | other => exact ⟨rfl, rfl, hdoc⟩
  | snapshot base d =>
    cases reached with
    | none => exact ⟨rfl, rfl, hr⟩
    | some k =>
      by_cases hk : base = k
      · subst hk
        exact ⟨by simp [foldRecord, climb], by simp [foldRecord, climb], by simpa [foldRecord, LaneRecord.Genuine] using hr⟩
      · simp only [foldRecord, Option.isSome_some, Option.getD_some, ne_eq, hk, not_false_eq_true, and_self, if_true]
        exact ⟨rfl, rfl, hdoc⟩
  | delta base p =>
    cases reached with
    | none =>
      by_cases h0 : base = 0
      · subst h0
        obtain ⟨next, happly, hnext⟩ := hdoc.next hall hr
        simp only [Option.getD_none] at happly hnext
        simp only [foldRecord, climb, Option.getD_none, and_self, if_true, ne_eq, not_true_eq_false, if_false, happly]
        exact ⟨rfl, rfl, hnext⟩
      · simp only [foldRecord, climb, Option.getD_none, h0, false_and, if_false, ne_eq, not_false_eq_true, if_true]
        exact ⟨rfl, rfl, hdoc⟩
    | some k =>
      have hsame : (if base = 0 ∧ k = 0 then (⟨k, document, true⟩ : SessionStateView Doc) else ⟨k, document, true⟩) =
          ⟨k, document, true⟩ := ite_self _
      by_cases hk : base = k
      · subst hk
        obtain ⟨next, happly, hnext⟩ := hdoc.next hall hr
        simp only [Option.getD_some] at happly hnext
        simp only [foldRecord, climb, Option.getD_some, Option.isSome_some, hsame, ne_eq, not_true_eq_false, if_false,
          if_true, happly]
        exact ⟨rfl, rfl, hnext⟩
      · simp only [foldRecord, climb, Option.getD_some, Option.isSome_some, hsame, ne_eq, hk, not_false_eq_true,
          if_true, if_false]
        exact ⟨rfl, rfl, hdoc⟩

theorem foldRecords_tracks (hall : applyAll J taken = some D) {records : List (LaneRecord Doc Patch)}
    (hr : ∀ record ∈ records, record.Genuine J taken) :
    Tracks J taken (records.foldl climb none) (foldRecords J records) := by
  induction records using List.reverseRecOn with
  | nil => exact ⟨rfl, rfl, At.zero taken⟩
  | append_singleton records record ih =>
    rw [foldRecords_snoc, List.foldl_append]
    refine foldRecord_tracks hall (ih fun x hx => ?_) (hr record (by simp))
    exact hr x (List.mem_append_left _ hx)

/-! ## Climbing through the deltas -/

/-- Steps of one from `k` reach `n` exactly when the revisions between stand
in the list, in this order. -/
theorem foldl_climb_iff {bases : List Nat} {k n : Nat} (hk : k ≤ n) (hb : ∀ base ∈ bases, base < n) :
    bases.foldl (fun r base => if base = r then r + 1 else r) k = n ↔ (List.range' k (n - k)).Sublist bases := by
  induction bases generalizing k with
  | nil =>
    simp only [List.foldl_nil, List.sublist_nil, List.range'_eq_nil_iff]
    omega
  | cons base bases ih =>
    have hbase := hb base List.mem_cons_self
    have hrest : ∀ other ∈ bases, other < n := fun other hother => hb other (List.mem_cons_of_mem _ hother)
    rw [List.foldl_cons]
    by_cases he : base = k
    · subst he
      have hsplit : List.range' base (n - base) = base :: List.range' (base + 1) (n - (base + 1)) := by
        rw [show n - base = n - (base + 1) + 1 by omega, List.range'_succ]
      rw [if_pos rfl, ih hbase hrest, hsplit, List.cons_sublist_cons]
    · rw [if_neg he, ih hk hrest, List.sublist_cons_iff]
      refine ⟨.inl, fun h => h.resolve_right ?_⟩
      rintro ⟨rest, hhead, -⟩
      cases hn : n - k with
      | zero => simp [hn] at hhead
      | succ m =>
        rw [hn, List.range'_succ] at hhead
        exact he (List.cons.inj hhead).1.symm

theorem deltaBases_cons (record : LaneRecord Doc Patch) (records : List (LaneRecord Doc Patch)) :
    deltaBases (record :: records) = record.deltaBase.toList ++ deltaBases records := by
  cases record <;> rfl

theorem foldl_climb_some (records : List (LaneRecord Doc Patch)) (k : Nat) :
    records.foldl climb (some k) =
      some ((deltaBases records).foldl (fun r base => if base = r then r + 1 else r) k) := by
  induction records generalizing k with
  | nil => rfl
  | cons record records ih => cases record <;> simp [climb, deltaBases_cons, LaneRecord.deltaBase, ih]

theorem climb_none (record : LaneRecord Doc Patch) :
    climb none record = if record.isBaseline then some record.startsAt else none := by
  cases record with
  | delta base p => by_cases h0 : base = 0 <;> simp [climb, LaneRecord.isBaseline, LaneRecord.startsAt, h0]
  | snapshot base d => rfl
  | other => rfl

theorem LaneRecord.Genuine.startsAt_le {record : LaneRecord Doc Patch} (h : record.Genuine J taken) :
    record.startsAt ≤ taken.length := by
  cases record with
  | delta base p => exact (List.getElem?_eq_some_iff.1 h).1
  | snapshot base d => exact h.1
  | other => exact Nat.zero_le _

theorem deltaBases_lt {records : List (LaneRecord Doc Patch)} (hr : ∀ record ∈ records, record.Genuine J taken) :
    ∀ base ∈ deltaBases records, base < taken.length := by
  intro base hbase
  obtain ⟨record, hrecord, hdelta⟩ := List.mem_filterMap.1 hbase
  have hle := (hr record hrecord).startsAt_le
  cases record with
  | delta b p =>
    obtain rfl : b = base := by simpa [LaneRecord.deltaBase] using hdelta
    exact hle
  | snapshot b d => simp [LaneRecord.deltaBase] at hdelta
  | other => simp [LaneRecord.deltaBase] at hdelta

theorem climb_eq_iff_inOrder {records : List (LaneRecord Doc Patch)}
    (hr : ∀ record ∈ records, record.Genuine J taken) :
    (records.foldl climb none).getD 0 = taken.length ↔ InOrder taken.length records := by
  induction records with
  | nil => simp [InOrder, eq_comm]
  | cons record records ih =>
    have hrest : ∀ x ∈ records, x.Genuine J taken := fun x hx => hr x (List.mem_cons_of_mem _ hx)
    rw [List.foldl_cons, climb_none]
    cases hbase : record.isBaseline with
    | true =>
      rw [if_pos rfl, foldl_climb_some, Option.getD_some,
        foldl_climb_iff (hr record List.mem_cons_self).startsAt_le (deltaBases_lt hrest)]
      simp [InOrder, hbase]
    | false =>
      rw [if_neg (by simp), ih hrest]
      simp [InOrder, hbase]

/-! ## Steps -/

/-- What one action does to a handle. -/
inductive Effect (J : JsonPatch Doc Patch) (s : Handle Doc Patch) : PatchAction Doc Patch → Handle Doc Patch → Prop
  | start (p : Patch) : Effect J s (.start p) { s with calls := s.calls ++ [.started p] }
  | look {i p call} : s.calls[i]? = some (.started p) → call = .seeded p ∨ call = .reading p →
      Effect J s (.look i) (s.setCall i call)
  | read {i p} (managed : Option (SessionStateView Doc)) : s.calls[i]? = some (.reading p) →
      Effect J s (.read i managed) (s.setCall i (.viewed p (currentView J s.lane managed)))
  | readFails {i p} : s.calls[i]? = some (.reading p) → Effect J s (.readFails i) (s.setCall i (.returned .readFailed))
  | settle {i p view} : s.calls[i]? = some (.viewed p view) →
      Effect J s (.settle i) ((s.settle view).setCall i (.seeded p))
  /-- The patch does not apply. -/
  | reject {i p} : s.calls[i]? = some (.seeded p) → Effect J s (.take i) (s.setCall i (.returned .patchFailed))
  | take {i p next due} : s.calls[i]? = some (.seeded p) → J.apply (s.document J) p = some next →
      Effect J s (.take i) ((s.advance p next).setCall i (.appending s.cursor.revision p due))
  | appendDelta {i base p due call} : s.calls[i]? = some (.appending base p due) → call = .due ∨ call = .returned .ok →
      Effect J s (.appendDelta i) ((s.append (.delta base p)).setCall i call)
  | takeSnapshot {i} : s.calls[i]? = some .due →
      Effect J s (.takeSnapshot i) (s.setCall i (.snapshotting s.cursor.revision (s.document J)))
  | appendSnapshot {i base document} : s.calls[i]? = some (.snapshotting base document) →
      Effect J s (.appendSnapshot i) ((s.append (.snapshot base document)).setCall i (.closing base))
  | close {i base} : s.calls[i]? = some (.closing base) →
      Effect J s (.close i) ((s.reset base).setCall i (.returned .ok))
  | other : Effect J s .other (s.append .other)

theorem effect_of_next {s s' : Handle Doc Patch} {a : PatchAction Doc Patch} (h : s.next J a = some s') :
    Effect J s a s' := by
  cases a with
  | start p => exact Option.some.inj h ▸ .start p
  | other => exact Option.some.inj h ▸ .other
  | look i =>
    simp only [Handle.next] at h
    split at h
    · rename_i hi
      refine Option.some.inj h ▸ .look hi ?_
      split
      · exact .inl rfl
      · exact .inr rfl
    · cases h
  | take i =>
    simp only [Handle.next] at h
    split at h
    · rename_i hi
      split at h
      · exact Option.some.inj h ▸ .reject hi
      · rename_i happly
        exact Option.some.inj h ▸ .take hi happly
    · cases h
  | appendDelta i =>
    simp only [Handle.next] at h
    split at h
    · rename_i hi
      refine Option.some.inj h ▸ .appendDelta hi ?_
      split
      · exact .inl rfl
      · exact .inr rfl
    · cases h
  | read i managed | readFails i | settle i | takeSnapshot i | appendSnapshot i | close i =>
    simp only [Handle.next] at h
    split at h
    · rename_i hi
      obtain rfl := Option.some.inj h
      constructor
      exact hi
    · cases h

@[simp]
theorem Handle.settle_lane (s : Handle Doc Patch) (view : SessionStateView Doc) : (s.settle view).lane = s.lane := by
  unfold Handle.settle
  split <;> rfl

@[simp]
theorem Handle.settle_calls (s : Handle Doc Patch) (view : SessionStateView Doc) : (s.settle view).calls = s.calls := by
  unfold Handle.settle
  split <;> rfl

@[simp]
theorem Handle.reset_lane (s : Handle Doc Patch) (base : Nat) : (s.reset base).lane = s.lane := by
  unfold Handle.reset
  split <;> rfl

@[simp]
theorem Handle.reset_calls (s : Handle Doc Patch) (base : Nat) : (s.reset base).calls = s.calls := by
  unfold Handle.reset
  split <;> rfl

/-! ## Invariant -/

/-- What a call holds is of the patches taken. -/
def PatchCall.Genuine (J : JsonPatch Doc Patch) (s : Handle Doc Patch) : PatchCall Doc Patch → Prop
  | .viewed _ view => s.cursor.document = none → view.revision = 0 ∧ view.document = J.empty
  | .appending base p _ => s.taken[base]? = some p
  | .snapshotting base document => At J s.taken base document
  | _ => True

/-- The cursor is at the patches taken, and each of their deltas is on the lane
or held by one call. -/
structure HandleInv (J : JsonPatch Doc Patch) (s : Handle Doc Patch) : Prop where
  applied : applyAll J s.taken = some (s.document J)
  revision : s.cursor.revision = s.taken.length
  unseeded : s.cursor.document = none → s.taken = []
  lane : ∀ record ∈ s.lane, record.Genuine J s.taken
  calls : ∀ call ∈ s.calls, call.Genuine J s
  once : (deltaBases s.lane ++ s.pending).Perm (List.range s.taken.length)

variable {s s' : Handle Doc Patch} {i : Nat} {call call' : PatchCall Doc Patch}

theorem new_handleInv : HandleInv J (Handle.new : Handle Doc Patch) where
  applied := rfl
  revision := rfl
  unseeded _ := rfl
  lane := by simp [Handle.new, SessionState.new]
  calls := by simp [Handle.new]
  once := by simp [Handle.new, SessionState.new, Handle.pending, deltaBases]

theorem forall_mem_set {P : PatchCall Doc Patch → Prop} {calls : List (PatchCall Doc Patch)} (h : ∀ c ∈ calls, P c)
    (i : Nat) (hcall : P call') : ∀ c ∈ calls.set i call', P c := by
  intro c hc
  rcases List.mem_or_eq_of_mem_set hc with hc | rfl
  · exact h c hc
  · exact hcall

theorem pending_set {calls : List (PatchCall Doc Patch)} (h : calls[i]? = some call) (call' : PatchCall Doc Patch) :
    ((calls.set i call').filterMap PatchCall.pending ++ call.pending.toList).Perm
      (calls.filterMap PatchCall.pending ++ call'.pending.toList) := by
  obtain ⟨hi, rfl⟩ := List.getElem?_eq_some_iff.1 h
  obtain ⟨before, after, hcalls, -, hset⟩ := List.exists_of_set hi
  have hsplit (c : PatchCall Doc Patch) : (before ++ c :: after).filterMap PatchCall.pending =
      before.filterMap PatchCall.pending ++ (c.pending.toList ++ after.filterMap PatchCall.pending) := by
    cases hc : c.pending <;> simp [hc]
  rw [hset, List.perm_iff_count]
  intro base
  conv_rhs => rw [hcalls]
  simp only [hsplit, List.count_append]
  omega

/-- A call goes on with no delta taken or appended. -/
theorem HandleInv.setCall (h : HandleInv J s) (hi : s.calls[i]? = some call) (hp : call.pending = none)
    (hp' : call'.pending = none) (hg : call'.Genuine J s) : HandleInv J (s.setCall i call') where
  applied := h.applied
  revision := h.revision
  unseeded := h.unseeded
  lane := h.lane
  calls := forall_mem_set h.calls i hg
  once := by
    have hset := pending_set hi call'
    rw [hp, hp', Option.toList_none, List.append_nil, List.append_nil] at hset
    exact (hset.append_left _).trans h.once

theorem HandleInv.start (h : HandleInv J s) (p : Patch) :
    HandleInv J { s with calls := s.calls ++ [.started p] } where
  applied := h.applied
  revision := h.revision
  unseeded := h.unseeded
  lane := h.lane
  calls := List.forall_mem_append.2 ⟨h.calls, List.forall_mem_singleton.2 trivial⟩
  once := by
    have hnone : [(.started p : PatchCall Doc Patch)].filterMap PatchCall.pending = [] := rfl
    simpa [Handle.pending, hnone] using h.once

/-- A record that is not a delta is appended. -/
theorem HandleInv.append (h : HandleInv J s) {record : LaneRecord Doc Patch} (hd : record.deltaBase = none)
    (hg : record.Genuine J s.taken) : HandleInv J (s.append record) where
  applied := h.applied
  revision := h.revision
  unseeded := h.unseeded
  lane := List.forall_mem_append.2 ⟨h.lane, List.forall_mem_singleton.2 hg⟩
  calls := h.calls
  once := by simpa [Handle.append, Handle.pending, deltaBases, hd] using h.once

theorem HandleInv.reset (h : HandleInv J s) (base : Nat) : HandleInv J (s.reset base) := by
  unfold Handle.reset
  split
  · exact ⟨h.applied, h.revision, h.unseeded, h.lane, h.calls, h.once⟩
  · exact h

theorem HandleInv.fetched (h : HandleInv J s) : ∀ record ∈ fetch s.lane, record.Genuine J s.taken := by
  intro record hrecord
  rw [fetch_eq_drop] at hrecord
  exact h.lane record (List.mem_of_mem_drop hrecord)

/-- A handle without a document reads an empty lane. -/
theorem HandleInv.currentView (h : HandleInv J s) {managed : Option (SessionStateView Doc)}
    (hindex : s.cursor.document = none → ∀ view ∈ managed, view.revision = 0 ∧ view.document = J.empty)
    (hd : s.cursor.document = none) :
    (currentView J s.lane managed).revision = 0 ∧ (currentView J s.lane managed).document = J.empty := by
  have hview : (get J s.lane).revision = 0 ∧ (get J s.lane).document = J.empty := by
    have hat := (foldRecords_tracks h.applied h.fetched).document
    rw [h.unseeded hd] at hat
    have h0 : (get J s.lane).revision = 0 := Nat.le_zero.1 hat.1
    refine ⟨h0, ?_⟩
    unfold get at h0
    rw [h0] at hat
    exact hat.unique (At.zero [])
  simp only [Session.currentView]
  split
  · exact hview
  · split
    · split
      · exact hindex hd _ rfl
      · exact hview
    · exact hview

theorem HandleInv.settle (h : HandleInv J s) {p : Patch} {view : SessionStateView Doc}
    (hg : (PatchCall.viewed p view).Genuine J s) : HandleInv J (s.settle view) := by
  unfold Handle.settle
  cases hd : s.cursor.document with
  | some d => exact h
  | none =>
    obtain ⟨hrevision, hdocument⟩ := hg hd
    have htaken := h.unseeded hd
    refine ⟨?_, ?_, fun hnone => by simp at hnone, h.lane, fun c hc => ?_, h.once⟩
    · simp [htaken, applyAll, SessionState.document, hdocument]
    · simp [htaken, hrevision]
    · have hc := h.calls c hc
      cases c <;> first | exact hc | (intro hnone; simp at hnone)

theorem LaneRecord.Genuine.snoc {record : LaneRecord Doc Patch} (h : record.Genuine J taken) (p : Patch) :
    record.Genuine J (taken ++ [p]) := by
  cases record with
  | delta base q => exact (List.getElem?_append_left (List.getElem?_eq_some_iff.1 h).1).trans h
  | snapshot base d => exact At.snoc h p
  | other => trivial

/-- What a call holds stays genuine when another one takes a revision. -/
theorem PatchCall.Genuine.advance (h : call.Genuine J s) (p : Patch) (next : Doc) :
    call.Genuine J (s.advance p next) := by
  cases call with
  | viewed q view => intro hnone; simp [Handle.advance] at hnone
  | appending base q due => exact (List.getElem?_append_left (List.getElem?_eq_some_iff.1 h).1).trans h
  | snapshotting base d => exact At.snoc h p
  | started | reading | seeded | due | closing | returned => trivial

theorem HandleInv.take (h : HandleInv J s) {p : Patch} {next : Doc} (hi : s.calls[i]? = some (.seeded p))
    (happly : J.apply (s.document J) p = some next) (due : Bool) :
    HandleInv J ((s.advance p next).setCall i (.appending s.cursor.revision p due)) where
  applied := (applyAll_snoc h.applied).trans happly
  revision := by simp [Handle.advance, Handle.setCall, h.revision]
  unseeded hnone := by simp [Handle.advance, Handle.setCall] at hnone
  lane := fun record hrecord => (h.lane record hrecord).snoc p
  calls := by
    apply forall_mem_set (fun c hc => (h.calls c hc).advance p next)
    simp [PatchCall.Genuine, Handle.advance, h.revision]
  once := by
    have hset := pending_set hi (.appending s.cursor.revision p due)
    simp only [PatchCall.pending, Option.toList_none, List.append_nil, Option.toList_some] at hset
    simp only [Handle.advance, Handle.setCall, Handle.pending, List.length_append, List.length_singleton,
      List.range_succ]
    refine (hset.append_left _).trans ?_
    rw [← List.append_assoc, h.revision]
    exact h.once.append_right _

theorem HandleInv.appendDelta (h : HandleInv J s) {base : Nat} {p : Patch} {due : Bool}
    (hi : s.calls[i]? = some (.appending base p due)) (hp' : call'.pending = none) (hg : call'.Genuine J s) :
    HandleInv J ((s.append (.delta base p)).setCall i call') where
  applied := h.applied
  revision := h.revision
  unseeded := h.unseeded
  lane := List.forall_mem_append.2 ⟨h.lane, List.forall_mem_singleton.2 (h.calls _ (List.mem_of_getElem? hi))⟩
  calls := forall_mem_set h.calls i hg
  once := by
    have hset := pending_set hi call'
    rw [hp', Option.toList_none, List.append_nil] at hset
    have hbases : deltaBases (s.lane ++ [.delta base p]) = deltaBases s.lane ++ [base] := by
      simp [deltaBases, LaneRecord.deltaBase]
    simp only [Handle.append, Handle.setCall, Handle.pending, hbases, List.append_assoc]
    exact ((List.perm_append_comm.trans hset).append_left _).trans h.once

theorem step_handleInv {a : PatchAction Doc Patch} (h : HandleInv J s) (hstep : s.Step J a s') : HandleInv J s' := by
  obtain ⟨hindex, hnext⟩ := hstep
  cases effect_of_next hnext with
  | start p => exact h.start p
  | look hi hcall =>
    rcases hcall with rfl | rfl
    · exact h.setCall hi rfl rfl trivial
    · exact h.setCall hi rfl rfl trivial
  | read managed hi => exact h.setCall hi rfl rfl fun hd => h.currentView hindex hd
  | readFails hi => exact h.setCall hi rfl rfl trivial
  | settle hi =>
    have hsettled := h.settle (h.calls _ (List.mem_of_getElem? hi))
    exact hsettled.setCall (by rwa [Handle.settle_calls]) rfl rfl trivial
  | reject hi => exact h.setCall hi rfl rfl trivial
  | take hi happly => exact h.take hi happly _
  | appendDelta hi hcall =>
    rcases hcall with rfl | rfl
    · exact h.appendDelta hi rfl trivial
    · exact h.appendDelta hi rfl trivial
  | takeSnapshot hi =>
    refine h.setCall hi rfl rfl ?_
    simp only [PatchCall.Genuine, h.revision]
    exact At.whole h.applied
  | @appendSnapshot _ base document hi =>
    have hgenuine : (LaneRecord.snapshot base document).Genuine J s.taken := h.calls _ (List.mem_of_getElem? hi)
    exact (h.append rfl hgenuine).setCall hi rfl rfl trivial
  | close hi => exact (h.reset _).setCall (by rwa [Handle.reset_calls]) rfl rfl trivial
  | other => exact h.append rfl trivial

/-! ## Deltas in turn -/

def PatchCall.snapshots : PatchCall Doc Patch → Bool
  | .due | .snapshotting _ _ => true
  | _ => false

/-- The deltas of the lane are the first ones, in order, and the fold has taken
them all. No snapshot is written before the first. -/
structure InTurn (lane : List (LaneRecord Doc Patch)) (calls : List (PatchCall Doc Patch)) : Prop where
  ordered : deltaBases lane = List.range (deltaBases lane).length
  reached : lane.foldl climb none = if deltaBases lane = [] then none else some (deltaBases lane).length
  started : ∀ call ∈ calls, call.snapshots = true → deltaBases lane ≠ []

variable {lane : List (LaneRecord Doc Patch)} {calls : List (PatchCall Doc Patch)}

theorem deltaBases_snoc (lane : List (LaneRecord Doc Patch)) (record : LaneRecord Doc Patch) :
    deltaBases (lane ++ [record]) = deltaBases lane ++ record.deltaBase.toList := by
  cases record <;> simp [deltaBases, LaneRecord.deltaBase]

theorem InTurn.set (h : InTurn lane calls) (i : Nat) (hcall : call.snapshots = true → deltaBases lane ≠ []) :
    InTurn lane (calls.set i call) :=
  ⟨h.ordered, h.reached, forall_mem_set h.started i hcall⟩

theorem InTurn.start (h : InTurn lane calls) (p : Patch) : InTurn lane (calls ++ [.started p]) :=
  ⟨h.ordered, h.reached, List.forall_mem_append.2 ⟨h.started, List.forall_mem_singleton.2 nofun⟩⟩

/-- A record that leaves the fold where it is. -/
theorem InTurn.append (h : InTurn lane calls) {record : LaneRecord Doc Patch} (hd : record.deltaBase = none)
    (hclimb : climb (lane.foldl climb none) record = lane.foldl climb none) : InTurn (lane ++ [record]) calls := by
  have hbases : deltaBases (lane ++ [record]) = deltaBases lane := by
    rw [deltaBases_snoc, hd, Option.toList_none, List.append_nil]
  refine ⟨?_, ?_, ?_⟩ <;> rw [hbases]
  · exact h.ordered
  · rw [List.foldl_append]
    exact hclimb.trans h.reached
  · exact h.started

/-- A snapshot changes nothing once a delta landed. -/
theorem InTurn.snapshot (h : InTurn lane calls) (hne : deltaBases lane ≠ []) (base : Nat) (document : Doc) :
    InTurn (lane ++ [.snapshot base document]) calls := by
  apply h.append rfl
  rw [h.reached, if_neg hne]
  rfl

theorem InTurn.delta (h : InTurn lane calls) (p : Patch) :
    InTurn (lane ++ [.delta (deltaBases lane).length p]) calls := by
  have hbases : deltaBases (lane ++ [.delta (deltaBases lane).length p]) =
      deltaBases lane ++ [(deltaBases lane).length] := deltaBases_snoc _ _
  have hne : deltaBases lane ++ [(deltaBases lane).length] ≠ [] := by simp
  refine ⟨?_, ?_, ?_⟩ <;> rw [hbases]
  · rw [List.length_append, List.length_singleton, List.range_succ, ← h.ordered]
  · rw [List.foldl_append, h.reached, if_neg hne, List.length_append, List.length_singleton]
    by_cases hempty : deltaBases lane = []
    · simp [hempty, climb]
    · simp [hempty, climb]
  · exact fun _ _ _ => hne

/-- The delta whose turn it is goes to the end of those on the lane. -/
theorem HandleInv.base_of_turn (h : HandleInv J s) (ht : InTurn s.lane s.calls) {base : Nat} {p : Patch} {due : Bool}
    (hi : s.calls[i]? = some (.appending base p due)) (hturn : ∀ other ∈ s.pending, base ≤ other) :
    base = (deltaBases s.lane).length := by
  have hpending : base ∈ s.pending := List.mem_filterMap.2 ⟨_, List.mem_of_getElem? hi, rfl⟩
  have hlt : base < s.taken.length := List.mem_range.1 (h.once.subset (List.mem_append_right _ hpending))
  have hle : (deltaBases s.lane).length ≤ base := by
    have hnodup := h.once.nodup_iff.2 List.nodup_range
    have hnot : base ∉ deltaBases s.lane := fun hmem => (List.nodup_append.1 hnodup).2.2 base hmem base hpending rfl
    rw [ht.ordered, List.mem_range] at hnot
    omega
  -- The first delta that is not on the lane is pending too.
  have hfirst : (deltaBases s.lane).length ∈ s.pending := by
    have hmem : (deltaBases s.lane).length ∈ deltaBases s.lane ++ s.pending :=
      h.once.mem_iff.2 (List.mem_range.2 (by omega))
    refine (List.mem_append.1 hmem).resolve_left fun hlane => ?_
    rw [ht.ordered, List.mem_range, List.length_range] at hlane
    omega
  exact Nat.le_antisymm (hturn _ hfirst) hle

theorem step_inTurn {a : PatchAction Doc Patch} (h : HandleInv J s) (ht : InTurn s.lane s.calls)
    (hstep : s.Step J a s') (hturn : s.Turn a) : InTurn s'.lane s'.calls := by
  cases effect_of_next hstep.2 with
  | start p => exact ht.start p
  | look hi hcall => exact ht.set _ (by rcases hcall with rfl | rfl <;> exact nofun)
  | read managed hi => exact ht.set _ nofun
  | readFails hi => exact ht.set _ nofun
  | settle hi =>
    simp only [Handle.setCall, Handle.settle_lane, Handle.settle_calls]
    exact ht.set _ nofun
  | reject hi => exact ht.set _ nofun
  | take hi happly => exact ht.set _ nofun
  | @appendDelta i base p due call hi hcall =>
    have hbase := h.base_of_turn ht hi (hturn _ hi base rfl)
    subst hbase
    exact (ht.delta p).set i fun _ => by simp [deltaBases_snoc, LaneRecord.deltaBase]
  | takeSnapshot hi => exact ht.set _ fun _ => ht.started _ (List.mem_of_getElem? hi) rfl
  | appendSnapshot hi => exact (ht.snapshot (ht.started _ (List.mem_of_getElem? hi) rfl) _ _).set _ nofun
  | close hi =>
    simp only [Handle.setCall, Handle.reset_lane, Handle.reset_calls]
    exact ht.set _ nofun
  | other => exact ht.append rfl rfl

/-! ## Main theorem -/

/-- The fold has every patch as soon as it has the last revision. -/
theorem HandleInv.tookEffect_iff (h : HandleInv J s) :
    TookEffect J s ↔ ((fetch s.lane).foldl climb none).getD 0 = s.taken.length := by
  have htracks : Tracks J s.taken _ (get J s.lane) := foldRecords_tracks h.applied h.fetched
  rw [← htracks.revision]
  constructor
  · rintro ⟨-, -, hlength, -⟩
    exact hlength.symm
  · intro hlength
    have hdocument : (get J s.lane).document = s.document J := by
      have hat := htracks.document
      rw [hlength] at hat
      exact hat.unique (At.whole h.applied)
    refine ⟨hlength.trans h.revision.symm, hdocument, hlength.symm, ?_⟩
    rw [hdocument]
    exact h.applied

theorem handleInv_of_run {actions : List (PatchAction Doc Patch)} (h : Run (Handle.Step J) .new actions s) :
    HandleInv J s :=
  Run.inv (HandleInv J) new_handleInv (fun _ _ _ hinv hstep => step_handleInv hinv hstep) h

theorem inTurn_of_run {actions : List (PatchAction Doc Patch)} (h : Run (Handle.TurnStep J) .new actions s) :
    HandleInv J s ∧ InTurn s.lane s.calls ∧ s.lane.length ≤ contextReadWindow := by
  refine Run.inv (fun s => HandleInv J s ∧ InTurn s.lane s.calls ∧ s.lane.length ≤ contextReadWindow) ?_ ?_ h
  · refine ⟨new_handleInv, ⟨rfl, rfl, ?_⟩, Nat.zero_le _⟩
    simp [Handle.new]
  · rintro s a s' ⟨hinv, hturn, -⟩ ⟨hstep, hnow, hfit⟩
    exact ⟨step_handleInv hinv hstep, step_inTurn hinv hturn hstep hnow, hfit⟩

theorem pending_done (h : s.Done) : s.pending = [] := by
  refine List.filterMap_eq_nil_iff.2 fun c hc => ?_
  obtain ⟨result, rfl⟩ := h c hc
  rfl

theorem HandleInv.tookEffect_of_inTurn (h : HandleInv J s) (ht : InTurn s.lane s.calls)
    (hfit : s.lane.length ≤ contextReadWindow) (hdone : s.Done) : TookEffect J s := by
  have hfetch : fetch s.lane = s.lane := by
    rw [fetch_eq_drop, Nat.sub_eq_zero_of_le hfit, List.drop_zero]
  have hlength : (deltaBases s.lane).length = s.taken.length := by
    have hperm := h.once
    rw [pending_done hdone, List.append_nil] at hperm
    simpa using hperm.length_eq
  rw [h.tookEffect_iff, hfetch, ht.reached, ← hlength]
  split
  · rename_i hempty
    simp [hempty]
  · rfl

/-- Once all calls have returned, the fold of the lane is the state of the
handle exactly when the records it reads hold the deltas in the order in which
they were taken. That is so in every run that appends each delta in its turn,
on a lane that fits one read. -/
theorem concurrent_patches_fold (J : JsonPatch Doc Patch) (actions : List (PatchAction Doc Patch))
    (s : Handle Doc Patch) (h : Run (Handle.Step J) .new actions s) (hdone : s.Done) :
    (TookEffect J s ↔ InOrder s.taken.length (fetch s.lane)) ∧
      (Run (Handle.TurnStep J) .new actions s → TookEffect J s) := by
  have hinv := handleInv_of_run h
  constructor
  · rw [hinv.tookEffect_iff, climb_eq_iff_inOrder hinv.fetched]
  · intro hrun
    obtain ⟨-, hturn, hfit⟩ := inTurn_of_run hrun
    exact hinv.tookEffect_of_inTurn hturn hfit hdone

end

/-! ## Two patches -/

/-- Two calls take the revisions 0 and 1. -/
def takenTwice : List (PatchAction (List (String × Nat)) (String × Nat)) :=
  [.start ("x", 1), .look 0, .read 0 none, .settle 0, .start ("y", 2), .look 1, .take 0, .take 1]

/-- Both calls are in flight. -/
def inFlight : Handle (List (String × Nat)) (String × Nat) :=
  { cursor := ⟨2, some [("x", 1), ("y", 2)], 2⟩, lane := [], calls := [.appending 0 ("x", 1) false, .appending 1 ("y", 2) false]
    taken := [("x", 1), ("y", 2)] }

theorem takenTwice_inFlight : Run (Handle.TurnStep flatJson) .new takenTwice inFlight := by
  unfold takenTwice
  iterate 8 refine Run.cons_iff.2 ⟨_, ⟨⟨by simp [Handle.IndexAgrees], rfl⟩, trivial, by decide⟩, ?_⟩
  exact Run.nil_iff.2 rfl

theorem concurrent_patches_in_turn : ∃ s, Run (Handle.TurnStep flatJson) .new
      (takenTwice ++ [.appendDelta 0, .appendDelta 1]) s ∧
    s.Done ∧ s.document flatJson = [("x", 1), ("y", 2)] ∧ TookEffect flatJson s := by
  have hlast : ∃ s, Run (Handle.TurnStep flatJson) inFlight [.appendDelta 0, .appendDelta 1] s ∧
      s.calls = [.returned .ok, .returned .ok] ∧ s.document flatJson = [("x", 1), ("y", 2)] := by
    refine ⟨_, Run.cons_iff.2 ⟨_, ⟨⟨trivial, rfl⟩, ?_, by decide⟩,
      Run.cons_iff.2 ⟨_, ⟨⟨trivial, rfl⟩, ?_, by decide⟩, Run.nil_iff.2 rfl⟩⟩, by decide, by decide⟩
    · simp [Handle.Turn, Handle.pending, inFlight, PatchCall.pending]
    · simp [Handle.Turn, Handle.pending, inFlight, PatchCall.pending, Handle.setCall, Handle.append]
  obtain ⟨s, hs, hcalls, hdocument⟩ := hlast
  have hrun := Run.append_iff.2 ⟨_, takenTwice_inFlight, hs⟩
  have hdone : s.Done := by simp [Handle.Done, hcalls]
  refine ⟨s, hrun, hdone, hdocument, (concurrent_patches_fold flatJson _ s ?_ hdone).2 hrun⟩
  exact hrun.mono fun _ _ _ hstep => hstep.1

/-- The second delta reaches the lane first: the fold has only the first patch,
and both calls returned a receipt. -/
theorem swapped_deltas_lose_one : ∃ s, Run (Handle.Step flatJson) .new
      (takenTwice ++ [.appendDelta 1, .appendDelta 0]) s ∧
    s.Done ∧ s.calls = [.returned .ok, .returned .ok] ∧ s.cursor.revision = 2 ∧
    get flatJson s.lane = ⟨1, [("x", 1)], true⟩ ∧ ¬TookEffect flatJson s := by
  have hlast : ∃ s, Run (Handle.Step flatJson) inFlight [.appendDelta 1, .appendDelta 0] s ∧
      s.calls = [.returned .ok, .returned .ok] ∧ s.cursor.revision = 2 ∧
      get flatJson s.lane = ⟨1, [("x", 1)], true⟩ := by
    exact ⟨_, Run.cons_iff.2 ⟨_, ⟨trivial, rfl⟩, Run.cons_iff.2 ⟨_, ⟨trivial, rfl⟩, Run.nil_iff.2 rfl⟩⟩, by decide,
      by decide, by decide⟩
  obtain ⟨s, hs, hcalls, hrevision, hget⟩ := hlast
  have htaken : Run (Handle.Step flatJson) .new takenTwice inFlight :=
    takenTwice_inFlight.mono fun _ _ _ hstep => hstep.1
  refine ⟨s, Run.append_iff.2 ⟨_, htaken, hs⟩, by simp [Handle.Done, hcalls], hcalls, hrevision, hget, fun heffect => ?_⟩
  have hsame := heffect.1
  rw [hget, hrevision] at hsame
  cases hsame

end LaserSdk.Session

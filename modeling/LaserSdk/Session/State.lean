import Mathlib.Data.List.Basic
/-!
# Session state

A session's state document lives on its lane as deltas and snapshots. A
handle keeps a cursor with the revision and the document it continues from,
and a reader folds the newest records of the lane. JSON documents and patches
are parameters: the code uses nothing of them but the partial function that
applies a patch.
-/

namespace LaserSdk.Session

/-- `apply_json_patch` and the empty object. -/
structure JsonPatch (Doc Patch : Type) where
  empty : Doc
  apply : Doc → Patch → Option Doc

inductive LaneRecord (Doc Patch : Type) where
  | delta (baseRevision : Nat) (patch : Patch)
  | snapshot (baseRevision : Nat) (document : Doc)
  /-- Any other record of the partition. -/
  | other
  deriving DecidableEq, Repr

structure SessionStateView (Doc : Type) where
  revision : Nat
  document : Doc
  complete : Bool
  deriving DecidableEq, Repr

structure StateCursor (Doc : Type) where
  revision : Nat
  document : Option Doc
  sinceSnapshot : Nat
  deriving DecidableEq, Repr

structure SessionState (Doc Patch : Type) where
  cursor : StateCursor Doc
  lane : List (LaneRecord Doc Patch)
  deriving DecidableEq, Repr

def snapshotEveryDeltas : Nat := 64

def contextReadWindow : Nat := 10000

section

variable {Doc Patch : Type} (J : JsonPatch Doc Patch)

/-! ## Reading -/

def SessionStateView.new : SessionStateView Doc := ⟨0, J.empty, false⟩

/-- One record of the fold. -/
def foldRecord (view : SessionStateView Doc) : LaneRecord Doc Patch → SessionStateView Doc
  | .snapshot baseRevision document =>
    -- A stale snapshot changes nothing once there is something to start from.
    if view.complete ∧ baseRevision ≠ view.revision then view else ⟨baseRevision, document, true⟩
  | .delta baseRevision patch =>
    -- The first delta of all starts from the empty document.
    let view := if baseRevision = 0 ∧ view.revision = 0 then { view with complete := true } else view
    if baseRevision ≠ view.revision then view
    else match J.apply view.document patch with
      | some next => { view with document := next, revision := view.revision + 1 }
      | none => view
  | .other => view

def foldRecords (records : List (LaneRecord Doc Patch)) : SessionStateView Doc :=
  records.foldl (foldRecord J) (.new J)

/-- The newest records, as many as one read examines. -/
def fetch (lane : List (LaneRecord Doc Patch)) : List (LaneRecord Doc Patch) :=
  (lane.reverse.take contextReadWindow).reverse

def get (lane : List (LaneRecord Doc Patch)) : SessionStateView Doc := foldRecords J (fetch lane)

/-! ## Writing -/

/-- What the outside does during one call: whether the lane can be read, what
the managed index answers, and which appends succeed. -/
structure Io (Doc : Type) where
  readOk : Bool
  managed : Option (SessionStateView Doc)
  deltaOk : Bool
  snapshotOk : Bool

/-- How a call ended. Only `ok` carries a receipt. -/
inductive CallResult where
  | readFailed
  | patchFailed
  | appendFailed
  /-- The delta was appended and the snapshot due after it was not. -/
  | snapshotFailed
  | ok
  deriving DecidableEq, Repr

def currentView (lane : List (LaneRecord Doc Patch)) (managed : Option (SessionStateView Doc)) :
    SessionStateView Doc :=
  let view := get J lane
  if view.complete then view
  -- The lane alone is not enough: the index answers if it is as far.
  else match managed with
    | some managed => if managed.revision ≥ view.revision then managed else view
    | none => view

/-- A handle that has not written yet starts from the current view. -/
def seed (s : SessionState Doc Patch) (io : Io Doc) : Option (SessionState Doc Patch) :=
  match s.cursor.document with
  | some _ => some s
  | none =>
    if io.readOk then
      let view := currentView J s.lane io.managed
      some { s with cursor := { s.cursor with revision := view.revision, document := some view.document } }
    else none

def SessionState.document (s : SessionState Doc Patch) : Doc := s.cursor.document.getD J.empty

/-- The snapshot of a seeded handle. No other call runs between the append and
the reset, so the revision is still the snapshot's. -/
def writeSnapshot (s : SessionState Doc Patch) (io : Io Doc) : SessionState Doc Patch × CallResult :=
  if io.snapshotOk then
    ({ cursor := { s.cursor with sinceSnapshot := 0 }
       lane := s.lane ++ [.snapshot s.cursor.revision (s.document J)] }, .ok)
  else (s, .snapshotFailed)

def snapshot (s : SessionState Doc Patch) (io : Io Doc) : SessionState Doc Patch × CallResult :=
  match seed J s io with
  | none => (s, .readFailed)
  | some s => writeSnapshot J s io

/-- The cursor moves before the delta is appended. -/
def patch (s : SessionState Doc Patch) (patch : Patch) (io : Io Doc) : SessionState Doc Patch × CallResult :=
  match seed J s io with
  | none => (s, .readFailed)
  | some s =>
    match J.apply (s.document J) patch with
    | none => (s, .patchFailed)
    | some next =>
      let delta := .delta s.cursor.revision patch
      let s : SessionState Doc Patch :=
        { s with cursor := ⟨s.cursor.revision + 1, some next, s.cursor.sinceSnapshot + 1⟩ }
      if io.deltaOk then
        let due := s.cursor.sinceSnapshot ≥ snapshotEveryDeltas
        let s := { s with lane := s.lane ++ [delta] }
        if due then snapshot J s io else (s, .ok)
      else (s, .appendFailed)

/-- What the end of a session does with the changes since the last snapshot. -/
def snapshotIfChanged (s : SessionState Doc Patch) (io : Io Doc) : SessionState Doc Patch × CallResult :=
  if s.cursor.sinceSnapshot > 0 then snapshot J s io else (s, .ok)

def SessionState.new : SessionState Doc Patch := ⟨⟨0, none, 0⟩, []⟩

end

end LaserSdk.Session

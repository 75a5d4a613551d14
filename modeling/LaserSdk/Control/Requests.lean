import Mathlib
import LaserSdk.Agent.Worker
/-!
# Control requests

Operators pause, resume and cancel a session with records on `agent.control`.
A session's requests belong on one partition of the topic, the one its id
routes to, and the fold of its records applies these in offset order. A
request on another partition only flags the state.
-/

namespace LaserSdk.Control

open Agent (AgentKind ConversationId)

inductive TaskState where
  | submitted
  | working
  | inputRequired
  | completed
  | canceled
  | failed
  | rejected
  | authRequired
  | unknown
  | paused
  | unrecognized (code : UInt8)
  deriving DecidableEq, Repr

structure AgentEnvelope where
  kind : AgentKind
  record : Option String
  target : Option String
  taskState : Option TaskState
  operation : Option String
  /-- The participants, when the body reads as a pause request. -/
  participants : Option (List String)
  deriving DecidableEq, Repr

def operationSessionPause : String := "session_pause"

def operationSessionResume : String := "session_resume"

def operationSessionCancel : String := "session_cancel"

inductive ControlAction where
  | pause
  | resume
  | cancel
  deriving DecidableEq, Repr

structure ControlRequest where
  action : ControlAction
  named : Bool
  record : Option String
  deriving DecidableEq, Repr

/-- The action a record of the control topic asks for, whoever reads it. -/
def controlAction (envelope : AgentEnvelope) : Option ControlAction :=
  match envelope.kind with
  | .command =>
    match envelope.operation with
    | none => none
    | some operation =>
      if operation = operationSessionPause then some .pause
      else if operation = operationSessionResume then some .resume
      else if operation = operationSessionCancel then some .cancel
      else none
  | .status => if envelope.taskState = some .canceled then some .cancel else none
  | _ => none

def controlRequest (envelope : AgentEnvelope) (me : Option String) : Option ControlRequest :=
  let elsewhere : Bool :=
    match envelope.target, me with
    | some target, some me => target ≠ me
    | _, _ => false
  if elsewhere then none
  else
    match controlAction envelope with
    | none => none
    | some action =>
      let addressed := envelope.target.isSome && me.isSome
      let listed := action = .pause && me.any fun me => envelope.participants.any (·.contains me)
      some ⟨action, addressed || listed, envelope.record⟩

/-! ## The control route -/

def prime1 : UInt32 := 0x9E3779B1
def prime2 : UInt32 := 0x85EBCA77
def prime3 : UInt32 := 0xC2B2AE3D
def prime4 : UInt32 := 0x27D4EB2F
def prime5 : UInt32 := 0x165667B1

def rotateLeft (x n : UInt32) : UInt32 := (x <<< n) ||| (x >>> (32 - n))

/-- The little-endian words of the input and the bytes after them. -/
def lanes : List UInt8 → List UInt32 × List UInt8
  | a :: b :: c :: d :: rest =>
    let word := a.toUInt32 ||| (b.toUInt32 <<< 8) ||| (c.toUInt32 <<< 16) ||| (d.toUInt32 <<< 24)
    (word :: (lanes rest).1, (lanes rest).2)
  | tail => ([], tail)

def round (acc value : UInt32) : UInt32 := rotateLeft (acc + value * prime2) 13 * prime1

/-- Four words at a time, each into its own accumulator. -/
def stripes (a b c d : UInt32) : List UInt32 → (UInt32 × UInt32 × UInt32 × UInt32) × List UInt32
  | w :: x :: y :: z :: rest => stripes (round a w) (round b x) (round c y) (round d z) rest
  | rest => ((a, b, c, d), rest)

def xxh32 (input : List UInt8) : UInt32 :=
  let (words, tail) := lanes input
  let ((a, b, c, d), words) := stripes (prime1 + prime2) prime2 0 (0 - prime1) words
  let hash := if input.length ≥ 16 then rotateLeft a 1 + rotateLeft b 7 + rotateLeft c 12 + rotateLeft d 18 else prime5
  let hash := hash + UInt32.ofNat input.length
  let hash := words.foldl (fun hash word => rotateLeft (hash + word * prime3) 17 * prime4) hash
  let hash := tail.foldl (fun hash byte => rotateLeft (hash + byte.toUInt32 * prime5) 11 * prime1) hash
  let hash := (hash ^^^ (hash >>> 15)) * prime2
  let hash := (hash ^^^ (hash >>> 13)) * prime3
  hash ^^^ (hash >>> 16)

example : xxh32 [] = 0x02CC5D05 ∧ xxh32 "abc".toUTF8.toList = 0x32D153FF ∧
    xxh32 "Nobody inspects the spammish repetition".toUTF8.toList = 0xE2293B2F := by decide +kernel

/-- The text of an id, 26 digits of five bits. -/
def conversationText (conversation : ConversationId) : List UInt8 :=
  (List.range 26).map fun i => "0123456789ABCDEFGHJKMNPQRSTVWXYZ".toUTF8.toList.getD (conversation / 32 ^ (25 - i) % 32) 0

/-- The partition of `agent.control` the session's requests belong on. -/
def controlPartition (conversation : ConversationId) (partitions : Nat) : Option Nat :=
  if partitions > 0 then some ((xxh32 (conversationText conversation)).toNat % partitions) else none

/-! ## The fold -/

structure PendingControl where
  pauseRequested : Bool
  cancelRequested : Bool
  controlConflict : Bool
  deriving DecidableEq, Repr

def PendingControl.apply (flags : PendingControl) : ControlAction → PendingControl
  | .pause => { flags with pauseRequested := true }
  | .resume => { flags with pauseRequested := false }
  | .cancel => { flags with cancelRequested := true }

/-- A record's partition and offset on `agent.control`. -/
abbrev ControlPosition := Nat × Nat

structure PlacedRequest where
  position : ControlPosition
  named : Bool
  record : Option String
  deriving DecidableEq, Repr

structure ControlState where
  flags : PendingControl
  pause : Option PlacedRequest
  resume : Option PlacedRequest
  deriving DecidableEq, Repr

def ControlState.new : ControlState := ⟨⟨false, false, false⟩, none, none⟩

def ControlState.apply (state : ControlState) (position : ControlPosition) (request : ControlRequest) : ControlState :=
  let state := { state with flags := state.flags.apply request.action }
  let placed : PlacedRequest := ⟨position, request.named, request.record⟩
  match request.action with
  | .pause => { state with pause := some placed }
  | .resume => { state with pause := none, resume := some placed }
  | .cancel => state

structure Entry where
  state : ControlState
  last : Option ControlPosition
  folded : Bool
  pending : List (ControlPosition × ControlRequest)
  conflict : Bool
  deriving DecidableEq, Repr

def Entry.new : Entry := ⟨.new, none, false, [], false⟩

def Entry.withConflict (e : Entry) : ControlState :=
  { e.state with flags := { e.state.flags with controlConflict := e.state.flags.controlConflict || e.conflict } }

def newer (position last : ControlPosition) : Bool := position.1 ≠ last.1 || position.2 > last.2

def Entry.apply (e : Entry) (position : ControlPosition) (request : ControlRequest) : Entry :=
  if e.last.any fun last => !newer position last then e
  else { e with state := e.state.apply position request, last := some position }

def onRoute (route : Option Nat) (partition : Nat) : Bool := route.all (· = partition)

/-- One record of the fold. -/
def Entry.take (route : Option Nat) (e : Entry) (record : ControlPosition × ControlRequest) : Entry :=
  if onRoute route record.1.1 then e.apply record.1 record.2 else { e with conflict := true }

def foldEntry (records : List (ControlPosition × ControlRequest)) (route : Option Nat) : Entry :=
  records.foldl (Entry.take route) .new

def fold (records : List (ControlPosition × ControlRequest)) (route : Option Nat) :
    ControlState × Option ControlPosition :=
  ((foldEntry records route).withConflict, (foldEntry records route).last)

/-! ## What the fold has seen -/

theorem foldEntry_snoc (records : List (ControlPosition × ControlRequest)) (route : Option Nat)
    (record : ControlPosition × ControlRequest) :
    foldEntry (records ++ [record]) route = (foldEntry records route).take route record := by
  simp [foldEntry]

theorem onRoute_some {route partition : Nat} : onRoute (some route) partition = true ↔ partition = route := by
  simp [onRoute, eq_comm]

/-- An entry has seen the offsets up to `last` of its route and nothing else. -/
def Entry.Covers (e : Entry) (route : Nat) (records : List (ControlPosition × ControlRequest)) : Prop :=
  ∀ offset, (e.last.any fun last => !newer (route, offset) last) = true ↔
    ∃ record ∈ records, record.1.1 = route ∧ offset ≤ record.1.2

theorem foldEntry_covers (records : List (ControlPosition × ControlRequest)) (route : Nat) :
    (foldEntry records (some route)).Covers route records := by
  induction records using List.reverseRecOn with
  | nil => simp [Entry.Covers, foldEntry, Entry.new]
  | append_singleton records record ih =>
    intro offset
    obtain ⟨⟨partition, position⟩, request⟩ := record
    rw [foldEntry_snoc]
    unfold Entry.take
    dsimp only
    split
    next hroute =>
      obtain rfl := onRoute_some.1 hroute
      unfold Entry.apply
      split
      next hseen =>
        -- The record is not newer: an earlier one already covers it.
        rw [ih offset]
        constructor
        · rintro ⟨earlier, hmem, hpartition, hle⟩
          exact ⟨earlier, List.mem_append_left _ hmem, hpartition, hle⟩
        · rintro ⟨earlier, hmem, hpartition, hle⟩
          rcases List.mem_append.1 hmem with hmem | hmem
          · exact ⟨earlier, hmem, hpartition, hle⟩
          · obtain rfl := List.mem_singleton.1 hmem
            obtain ⟨other, hother, hsame, hcovers⟩ := (ih position).1 hseen
            exact ⟨other, hother, hsame, Nat.le_trans hle hcovers⟩
      next hunseen =>
        have hnew : ∀ earlier ∈ records, earlier.1.1 = partition → earlier.1.2 < position := by
          intro earlier hmem hpartition
          by_contra hle
          exact hunseen ((ih position).2 ⟨earlier, hmem, hpartition, by omega⟩)
        have hlast : (Option.any (fun last => !newer (partition, offset) last) (some (partition, position))) = true ↔
            offset ≤ position := by simp [newer]
        rw [hlast]
        constructor
        · intro hle
          exact ⟨_, List.mem_append_right _ (List.mem_singleton_self _), rfl, hle⟩
        · rintro ⟨earlier, hmem, hpartition, hle⟩
          rcases List.mem_append.1 hmem with hmem | hmem
          · have := hnew earlier hmem hpartition
            omega
          · obtain rfl := List.mem_singleton.1 hmem
            exact hle
    next hroute =>
      have hoff : partition ≠ route := fun heq => hroute (onRoute_some.2 heq)
      rw [ih offset]
      constructor
      · rintro ⟨earlier, hmem, hpartition, hle⟩
        exact ⟨earlier, List.mem_append_left _ hmem, hpartition, hle⟩
      · rintro ⟨earlier, hmem, hpartition, hle⟩
        rcases List.mem_append.1 hmem with hmem | hmem
        · exact ⟨earlier, hmem, hpartition, hle⟩
        · obtain rfl := List.mem_singleton.1 hmem
          exact absurd hpartition hoff

/-- A position of the route is new to the fold if it lies above all of them. -/
theorem foldEntry_unseen {records : List (ControlPosition × ControlRequest)} {route : Nat} {position : ControlPosition}
    (hroute : position.1 = route) :
    ((foldEntry records (some route)).last.any fun last => !newer position last) = false ↔
      ∀ earlier ∈ records, earlier.1.1 = route → earlier.1.2 < position.2 := by
  have hcovers := foldEntry_covers records route position.2
  rw [← hroute] at hcovers ⊢
  rw [← Bool.not_eq_true, hcovers]
  constructor
  · intro hnone earlier hmem hsame
    by_contra hle
    exact hnone ⟨earlier, hmem, hsame, by omega⟩
  · rintro hnew ⟨earlier, hmem, hsame, hle⟩
    have := hnew earlier hmem hsame
    omega

/-- The fold flags a conflict exactly for a record off the route. -/
theorem foldEntry_conflict (records : List (ControlPosition × ControlRequest)) (route : Option Nat) :
    (foldEntry records route).conflict = records.any fun record => !onRoute route record.1.1 := by
  induction records using List.reverseRecOn with
  | nil => rfl
  | append_singleton records record ih =>
    rw [foldEntry_snoc, List.any_append]
    unfold Entry.take
    split
    next hroute =>
      have hkeep : ((foldEntry records route).apply record.1 record.2).conflict = (foldEntry records route).conflict := by
        unfold Entry.apply
        split <;> rfl
      simp [hkeep, ih, hroute]
    next hroute => simp [hroute]

end LaserSdk.Control

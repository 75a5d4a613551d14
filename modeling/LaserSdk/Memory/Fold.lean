import Mathlib.Data.List.Induction
import Mathlib.Logic.Function.Basic
import Mathlib.Data.String.Basic
import LaserSdk.Lib.Sorted
/-!
# The memory projection

Every record of a memory topic is folded into a projection: recalled items,
their scopes, tombstones and feedback, and apart from these the named point
state. A payload is given as what it decodes to, where a typed entry is tried
first and the record with a text id second.
-/

namespace LaserSdk.Memory

open Lib

abbrev Bytes := List UInt8

/-! ## Records -/

structure Provenance where
  conversationId : Nat
  agent : Option String
  deriving DecidableEq, Repr

/-- The headers of a record that decode. -/
structure Headers where
  provenance : Provenance
  memoryNamespace : Option String
  user : Option String
  app : Option String
  deriving DecidableEq, Repr

/-- A record whose id is a recall id. -/
inductive MemoryLogEntry (W : Type) where
  | item (id : Nat) (kind : String) (body : Bytes) (origin producer : Option String)
  | forget (target : Nat) (conversation : Option Nat)
  | feedback (target : Nat) (weight : W) (conversation : Option Nat)

/-- A record whose id is a text. -/
inductive MemoryRecord where
  | item (id kind : String) (body : Bytes)
  | forget (target : String)
  | feedback (target : String)
  deriving DecidableEq, Repr

inductive Payload (W : Type) where
  | entry (entry : MemoryLogEntry W)
  | record (record : MemoryRecord)
  | other

structure Message (W : Type) where
  headers : Option Headers
  payload : Payload W

/-- A message where it lies. -/
structure Placed (W : Type) where
  partition : Nat
  offset : Nat
  message : Message W

/-! ## The fold -/

structure SourceRef where
  partition : Nat
  offset : Nat
  conversation : Nat
  deriving DecidableEq, Repr

structure MemoryItem where
  id : Nat
  payload : Bytes
  provenance : Provenance
  source : SourceRef
  kind : String
  origin : Option String
  producer : Option String
  deriving DecidableEq, Repr

structure StoredMemoryScope where
  user : Option String
  app : Option String
  deriving DecidableEq, Repr

/-- What recall reads. -/
structure Recall (W : Type) where
  items : List MemoryItem
  scopes : Nat → Option StoredMemoryScope
  forgotten : Nat × Option Nat → Bool
  feedback : Nat × Option Nat → Option W

structure Projection (W : Type) where
  recalled : Recall W
  named : String → Option Bytes

def Projection.default {W : Type} : Projection W := ⟨⟨[], fun _ => none, fun _ => false, fun _ => none⟩, fun _ => none⟩

section

variable {W : Type} [Add W] [Zero W]

def Recall.isForgotten (recalled : Recall W) (id conversation : Nat) : Bool :=
  recalled.forgotten (id, none) || recalled.forgotten (id, some conversation)

/-- A typed entry. -/
def Recall.absorb (recalled : Recall W) (provenance : Provenance) (scope : StoredMemoryScope) (source : SourceRef) :
    MemoryLogEntry W → Recall W
  | .forget target conversation =>
    let items := recalled.items.filter fun item =>
      item.id ≠ target || conversation.any (· ≠ item.provenance.conversationId)
    { recalled with
      items
      scopes := if items.length ≠ recalled.items.length then Function.update recalled.scopes target none else recalled.scopes
      forgotten := Function.update recalled.forgotten (target, conversation) true }
  | .feedback target weight conversation =>
    { recalled with
      feedback := Function.update recalled.feedback (target, conversation)
        (some ((recalled.feedback (target, conversation)).getD 0 + weight)) }
  | .item id kind body origin producer =>
    if recalled.isForgotten id provenance.conversationId then recalled
    -- The same item appended twice is one item.
    else if recalled.items.any (·.id = id) then recalled
    else
      { recalled with
        scopes := Function.update recalled.scopes id (some scope)
        items := recalled.items ++ [⟨id, body, provenance, source, kind, origin, producer⟩] }

def absorbNamed (named : String → Option Bytes) : MemoryRecord → String → Option Bytes
  | .item id _ body => Function.update named id (some body)
  | .forget target => Function.update named target none
  | .feedback _ => named

def Projection.absorbScoped (projection : Projection W) (payload : Payload W) (provenance : Provenance)
    (scope : StoredMemoryScope) (source : SourceRef) : Projection W :=
  match payload with
  | .entry entry => { projection with recalled := projection.recalled.absorb provenance scope source entry }
  | .record record => { projection with named := absorbNamed projection.named record }
  | .other => projection

/-- One message of a namespace's fold. -/
def Projection.absorb (resourceNamespace : String) (projection : Projection W) (placed : Placed W) : Projection W :=
  match placed.message.headers with
  | none => projection
  | some headers =>
    if headers.memoryNamespace ≠ some resourceNamespace then projection
    else
      projection.absorbScoped placed.message.payload headers.provenance ⟨headers.user, headers.app⟩
        ⟨placed.partition, placed.offset, headers.provenance.conversationId⟩

def foldAll (resourceNamespace : String) (messages : List (Placed W)) : Projection W :=
  messages.foldl (Projection.absorb resourceNamespace) .default

end

/-! ## Merging -/

/-- A JSON value as far as a merge looks into it. -/
inductive Value where
  | null
  | object (members : List (String × Value))
  | other (text : Bytes)

mutual

/-- RFC 7386. -/
def mergePatch (base : Value) : Value → Value
  | .object fields => .object (mergeFields (match base with | .object members => members | _ => []) fields)
  | .null => .null
  | .other text => .other text

def mergeFields (members : List (String × Value)) : List (String × Value) → List (String × Value)
  | [] => members
  | (key, .null) :: rest => mergeFields (eraseKey key members) rest
  | (key, value) :: rest => mergeFields (insertKey key (mergePatch ((members.lookup key).getD .null) value) members) rest

end

/-- Reading and writing JSON text. -/
structure JsonText where
  parse : Bytes → Except String Value
  print : Value → Bytes

def mergeNamed (json : JsonText) (current : Option Bytes) (patch : Bytes) : Except String Bytes :=
  match json.parse patch with
  | .error error => throw ("update patch is not JSON: " ++ error)
  | .ok patch =>
    match current with
    | none => pure (json.print (mergePatch .null patch))
    | some payload =>
      match json.parse payload with
      | .error error => throw ("stored value is not JSON: " ++ error)
      | .ok base => pure (json.print (mergePatch base patch))

/-! ## What a message writes -/

variable {W : Type} {resourceNamespace : String}

/-- The named entry a message sets or removes. -/
def Message.write (resourceNamespace : String) (message : Message W) : Option (String × Option Bytes) :=
  match message.headers with
  | none => none
  | some headers =>
    if headers.memoryNamespace ≠ some resourceNamespace then none
    else
      match message.payload with
      | .record (.item id _ body) => some (id, some body)
      | .record (.forget target) => some (target, none)
      | _ => none

/-- What the last message that writes a key makes of it. -/
def lastWrite (resourceNamespace : String) (messages : List (Placed W)) (key : String) : Option (Option Bytes) :=
  messages.foldl (fun found placed =>
    match placed.message.write resourceNamespace with
    | some (other, value) => if other = key then some value else found
    | none => found) none

/-- The message writes the key. -/
def Placed.writes (resourceNamespace : String) (placed : Placed W) (key : String) : Prop :=
  ∃ value, placed.message.write resourceNamespace = some (key, value)

theorem lastWrite_concat (messages : List (Placed W)) (placed : Placed W) (key : String) :
    lastWrite resourceNamespace (messages ++ [placed]) key =
      match placed.message.write resourceNamespace with
      | some (other, value) => if other = key then some value else lastWrite resourceNamespace messages key
      | none => lastWrite resourceNamespace messages key := by
  rw [lastWrite, List.foldl_append]
  rfl

theorem lastWrite_concat_of_not {messages : List (Placed W)} {placed : Placed W} {key : String}
    (h : ¬ placed.writes resourceNamespace key) :
    lastWrite resourceNamespace (messages ++ [placed]) key = lastWrite resourceNamespace messages key := by
  rw [lastWrite_concat]
  split
  next other value hwrite =>
    refine if_neg fun hkey => h ⟨value, ?_⟩
    rw [hwrite, hkey]
  next => rfl

theorem lastWrite_isSome {messages : List (Placed W)} {placed : Placed W} {key : String} (hmem : placed ∈ messages)
    (hwrites : placed.writes resourceNamespace key) : (lastWrite resourceNamespace messages key).isSome = true := by
  induction messages using List.reverseRecOn with
  | nil => cases hmem
  | append_singleton messages last ih =>
    by_cases hlast : last.writes resourceNamespace key
    · obtain ⟨value, hvalue⟩ := hlast
      rw [lastWrite_concat, hvalue]
      simp
    · rw [lastWrite_concat_of_not hlast]
      rcases List.mem_append.1 hmem with hold | hnew
      · exact ih hold
      · rw [List.mem_singleton.1 hnew] at hwrites
        exact absurd hwrites hlast

/-- Messages that do not write a key may be left out. -/
theorem lastWrite_filter {messages : List (Placed W)} {key : String} {p : Placed W → Bool}
    (h : ∀ placed ∈ messages, placed.writes resourceNamespace key → p placed = true) :
    lastWrite resourceNamespace (messages.filter p) key = lastWrite resourceNamespace messages key := by
  induction messages using List.reverseRecOn with
  | nil => rfl
  | append_singleton messages placed ih =>
    have hrest := ih fun other hother => h other (List.mem_append_left _ hother)
    rw [List.filter_append]
    by_cases hkeep : p placed = true
    · rw [List.filter_cons_of_pos hkeep, List.filter_nil, lastWrite_concat, lastWrite_concat, hrest]
    · have hnot : ¬ placed.writes resourceNamespace key :=
        fun hwrites => hkeep (h placed (List.mem_append_right _ List.mem_cons_self) hwrites)
      rw [List.filter_cons_of_neg hkeep, List.filter_nil, List.append_nil, lastWrite_concat_of_not hnot, hrest]

theorem lastWrite_split {before after : List (Placed W)} {placed : Placed W} {key : String} {value : Option Bytes}
    (hwrite : placed.message.write resourceNamespace = some (key, value))
    (hafter : ∀ other ∈ after, ¬ other.writes resourceNamespace key) :
    lastWrite resourceNamespace (before ++ placed :: after) key = some value := by
  induction after using List.reverseRecOn with
  | nil =>
    rw [lastWrite_concat, hwrite]
    exact if_pos rfl
  | append_singleton after last ih =>
    rw [← List.cons_append, ← List.append_assoc, lastWrite_concat_of_not (hafter last (List.mem_append_right _ List.mem_cons_self))]
    exact ih fun other hother => hafter other (List.mem_append_left _ hother)

/-! ## What a fold makes of it -/

variable [Add W] [Zero W]

theorem absorb_named (projection : Projection W) (placed : Placed W) :
    (projection.absorb resourceNamespace placed).named =
      match placed.message.write resourceNamespace with
      | none => projection.named
      | some (key, value) => Function.update projection.named key value := by
  unfold Projection.absorb Message.write
  cases placed.message.headers with
  | none => rfl
  | some headers =>
    dsimp only
    by_cases hother : headers.memoryNamespace ≠ some resourceNamespace
    · rw [if_pos hother, if_pos hother]
    · rw [if_neg hother, if_neg hother]
      cases placed.message.payload with
      | entry entry => rfl
      | record record => cases record <;> rfl
      | other => rfl

/-- Named state and recall do not look at each other. -/
theorem absorb_recall {p q : Projection W} (h : p.recalled = q.recalled) (placed : Placed W) :
    (p.absorb resourceNamespace placed).recalled = (q.absorb resourceNamespace placed).recalled := by
  unfold Projection.absorb Projection.absorbScoped
  cases placed.message.headers with
  | none => exact h
  | some headers =>
    dsimp only
    by_cases hother : headers.memoryNamespace ≠ some resourceNamespace
    · rw [if_pos hother, if_pos hother]
      exact h
    · rw [if_neg hother, if_neg hother]
      cases placed.message.payload with
      | entry entry =>
        dsimp only
        rw [h]
      | record record => exact h
      | other => exact h

theorem foldl_recall {p q : Projection W} (h : p.recalled = q.recalled) (messages : List (Placed W)) :
    (messages.foldl (Projection.absorb resourceNamespace) p).recalled =
      (messages.foldl (Projection.absorb resourceNamespace) q).recalled := by
  induction messages generalizing p q with
  | nil => exact h
  | cons placed rest ih => exact ih (absorb_recall h placed)

theorem foldl_named (projection : Projection W) (messages : List (Placed W)) (key : String) :
    (messages.foldl (Projection.absorb resourceNamespace) projection).named key =
      (lastWrite resourceNamespace messages key).getD (projection.named key) := by
  induction messages using List.reverseRecOn with
  | nil => rfl
  | append_singleton messages placed ih =>
    rw [List.foldl_append, lastWrite, List.foldl_append]
    simp only [List.foldl_cons, List.foldl_nil]
    rw [absorb_named]
    cases hwrite : placed.message.write resourceNamespace with
    | none => exact ih
    | some write =>
      obtain ⟨other, value⟩ := write
      dsimp only
      by_cases hkey : other = key
      · rw [if_pos hkey, hkey, Function.update_self]
        rfl
      · rw [if_neg hkey, Function.update_of_ne (Ne.symm hkey)]
        exact ih

end LaserSdk.Memory

import Mathlib.Logic.Function.Basic
import LaserSdk.Lib.Runs
import LaserSdk.Control.Requests
/-!
# The control book

A runtime loads the control requests it finds at the start and a follower
records every later one, so that a session's control state needs no read of
the log. A reader that was under way before the book was current installs the
fold of what it read. The book is compared with the fold of the log, whose
records the follower delivers in order, some of them again.
-/

namespace LaserSdk.Control

open Agent (ConversationId)
open Lib

structure ControlBook where
  entries : ConversationId → Option Entry
  live : Bool
  loaded : Bool
  partitions : Nat

/-- A request on the control topic. -/
structure LogRecord where
  conversation : ConversationId
  position : ControlPosition
  request : ControlRequest
  deriving DecidableEq, Repr

def ControlBook.new : ControlBook := ⟨fun _ => none, false, false, 0⟩

def ControlBook.setPartitions (book : ControlBook) (partitions : Nat) : ControlBook := { book with partitions }

def ControlBook.setLive (book : ControlBook) (live : Bool) : ControlBook := { book with live }

def ControlBook.onRoute (book : ControlBook) (conversation : ConversationId) (partition : Nat) : Bool :=
  Control.onRoute (controlPartition conversation book.partitions) partition

def ControlBook.entry (book : ControlBook) (conversation : ConversationId) : Entry :=
  (book.entries conversation).getD .new

def ControlBook.setEntry (book : ControlBook) (conversation : ConversationId) (e : Entry) : ControlBook :=
  { book with entries := Function.update book.entries conversation (some e) }

def Entry.asFolded (e : Entry) : Entry := { e with folded := true }

def ControlBook.loadRecord (book : ControlBook) (record : LogRecord) : ControlBook :=
  let e := (book.entry record.conversation).asFolded
  book.setEntry record.conversation
    (if book.onRoute record.conversation record.position.1 then e.apply record.position record.request
    else { e with conflict := true })

def ControlBook.load (book : ControlBook) (records : List LogRecord) : ControlBook :=
  { records.foldl ControlBook.loadRecord book with loaded := true }

def ControlBook.observe (book : ControlBook) (record : LogRecord) : ControlBook :=
  let e := book.entry record.conversation
  book.setEntry record.conversation
    -- Unlike at the start, a request off its route does not make the entry folded.
    (if !book.onRoute record.conversation record.position.1 then { e with conflict := true }
    else if e.folded || book.loaded then e.asFolded.apply record.position record.request
    else { e with pending := e.pending ++ [(record.position, record.request)] })

def ControlBook.state (book : ControlBook) (conversation : ConversationId) : Option ControlState :=
  if !book.live then none
  else
    match book.entries conversation with
    | some e => if e.folded then some e.withConflict else none
    | none => if book.loaded then some .new else none

def ControlBook.install (book : ControlBook) (conversation : ConversationId) (state : ControlState)
    (last : Option ControlPosition) : ControlBook × ControlState :=
  let e := book.entry conversation
  -- The follower brings a live entry what the reader found.
  if e.folded && book.live then (book.setEntry conversation e, e.withConflict)
  else
    let installed : Entry := { e with state, last, folded := true, pending := [] }
    let e := e.pending.foldl (fun e record => e.apply record.1 record.2) installed
    (book.setEntry conversation e, e.withConflict)

/-! ## A log and its follower -/

/-- The requests of one session. -/
def requestsOf (conversation : ConversationId) (log : List LogRecord) : List (ControlPosition × ControlRequest) :=
  (log.filter (·.conversation = conversation)).map fun record => (record.position, record.request)

/-- The book and how much of the log the follower delivered. -/
structure Feed where
  book : ControlBook
  delivered : Nat

inductive Call where
  /-- The follower delivers the next record. -/
  | next
  /-- It delivers an earlier record again. -/
  | again (index : Nat)
  /-- A reader installs the fold of the session's records in the first `upTo`
  records of the log. -/
  | install (conversation : ConversationId) (upTo : Nat)
  deriving DecidableEq, Repr

def readFold (log : List LogRecord) (partitions : Nat) (conversation : ConversationId) (upTo : Nat) :
    ControlState × Option ControlPosition :=
  fold (requestsOf conversation (log.take upTo)) (controlPartition conversation partitions)

def Step (log : List LogRecord) (f : Feed) (call : Call) (f' : Feed) : Prop :=
  match call with
  | .next => ∃ record, log[f.delivered]? = some record ∧ f' = ⟨f.book.observe record, f.delivered + 1⟩
  | .again index =>
    index < f.delivered ∧ ∃ record, log[index]? = some record ∧ f' = ⟨f.book.observe record, f.delivered⟩
  | .install conversation upTo =>
    let read := readFold log f.book.partitions conversation upTo
    f' = ⟨(f.book.install conversation read.1 read.2).1, f.delivered⟩

/-- The book after the start: the partition count is known, the first records
are loaded and the follower runs. -/
def Feed.started (log : List LogRecord) (partitions loaded : Nat) : Feed :=
  ⟨((ControlBook.new.setPartitions partitions).load (log.take loaded)).setLive true, loaded⟩

/-! ## Entries that stand for the same records -/

/-- The entries answer alike and take up the same further records. -/
def Entry.Same (e e' : Entry) : Prop := e.last = e'.last ∧ e.withConflict = e'.withConflict

theorem Entry.Same.trans {e e' e'' : Entry} (h : e.Same e') (h' : e'.Same e'') : e.Same e'' :=
  ⟨h.1.trans h'.1, h.2.trans h'.2⟩

theorem withConflict_apply (e : Entry) (position : ControlPosition) (request : ControlRequest)
    (last : Option ControlPosition) :
    Entry.withConflict { e with state := e.state.apply position request, last } =
      e.withConflict.apply position request := by
  obtain ⟨action, named, record⟩ := request
  cases action <;> rfl

theorem withConflict_conflict (e : Entry) : Entry.withConflict { e with conflict := true } =
    { e.withConflict with flags := { e.withConflict.flags with controlConflict := true } } := by
  simp [Entry.withConflict]

theorem Entry.Same.take {e e' : Entry} (h : e.Same e') (route : Option Nat) (record : ControlPosition × ControlRequest) :
    (e.take route record).Same (e'.take route record) := by
  obtain ⟨hlast, hstate⟩ := h
  unfold Entry.take
  split
  · unfold Entry.apply
    rw [hlast]
    split
    · exact ⟨hlast, hstate⟩
    · refine ⟨rfl, ?_⟩
      rw [withConflict_apply, withConflict_apply, hstate]
  · refine ⟨hlast, ?_⟩
    rw [withConflict_conflict, withConflict_conflict, hstate]

/-- A record the fold has seen changes nothing. -/
theorem take_seen {records : List (ControlPosition × ControlRequest)} {route : Nat}
    {record : ControlPosition × ControlRequest} (hseen : record ∈ records) :
    ((foldEntry records (some route)).take (some route) record).Same (foldEntry records (some route)) := by
  unfold Entry.take
  split
  next hroute =>
    have hpartition := onRoute_some.1 hroute
    -- On its route it is not newer than the last request applied.
    have hold : ((foldEntry records (some route)).last.any fun last => !newer record.1 last) = true := by
      rw [← Bool.not_eq_false, foldEntry_unseen hpartition]
      intro hnew
      exact absurd (hnew record hseen hpartition) (Nat.lt_irrefl _)
    unfold Entry.apply
    rw [if_pos hold]
    exact ⟨rfl, rfl⟩
  next hroute =>
    -- Off its route it raised the flag the first time.
    have hconflict : (foldEntry records (some route)).conflict = true := by
      rw [foldEntry_conflict, List.any_eq_true]
      exact ⟨record, hseen, by simpa using hroute⟩
    refine ⟨rfl, ?_⟩
    rw [withConflict_conflict]
    simp [Entry.withConflict, hconflict]

theorem foldEntry_pending (records : List (ControlPosition × ControlRequest)) (route : Option Nat) :
    (foldEntry records route).pending = [] := by
  induction records using List.reverseRecOn with
  | nil => rfl
  | append_singleton records record ih =>
    rw [foldEntry_snoc]
    unfold Entry.take Entry.apply
    split
    · split <;> exact ih
    · exact ih

/-- Records off the route leave only the flag. -/
theorem foldEntry_off {records : List (ControlPosition × ControlRequest)} {route : Option Nat}
    (hoff : ∀ record ∈ records, onRoute route record.1.1 = false) :
    foldEntry records route = { Entry.new with conflict := !records.isEmpty } := by
  induction records using List.reverseRecOn with
  | nil => rfl
  | append_singleton records record ih =>
    rw [foldEntry_snoc, ih fun r hr => hoff r (List.mem_append_left _ hr)]
    unfold Entry.take
    rw [hoff record (List.mem_append_right _ (List.mem_singleton_self _))]
    simp

theorem requestsOf_append (conversation : ConversationId) (first second : List LogRecord) :
    requestsOf conversation (first ++ second) = requestsOf conversation first ++ requestsOf conversation second := by
  simp [requestsOf]

theorem take_next {log : List LogRecord} {n : Nat} {record : LogRecord} (h : log[n]? = some record) :
    log.take (n + 1) = log.take n ++ [record] := by
  rw [List.take_add_one, h, Option.toList_some]

theorem requestsOf_next {log : List LogRecord} {n : Nat} {record : LogRecord} (h : log[n]? = some record)
    (conversation : ConversationId) : requestsOf conversation (log.take (n + 1)) = requestsOf conversation (log.take n) ++
      if record.conversation = conversation then [(record.position, record.request)] else [] := by
  rw [take_next h, requestsOf_append]
  by_cases hsame : record.conversation = conversation <;> simp [requestsOf, hsame]

theorem mem_requestsOf_take {log : List LogRecord} {index n : Nat} {record : LogRecord} (h : log[index]? = some record)
    (hlt : index < n) : (record.position, record.request) ∈ requestsOf record.conversation (log.take n) := by
  refine List.mem_map.2 ⟨record, List.mem_filter.2 ⟨?_, by simp⟩, rfl⟩
  have htake : (log.take n)[index]? = some record := by rw [List.getElem?_take_of_lt hlt, h]
  exact List.mem_of_getElem? htake

theorem requestsOf_take_subset {log : List LogRecord} {m n : Nat} (hle : m ≤ n) (conversation : ConversationId) :
    ∀ r ∈ requestsOf conversation (log.take m), r ∈ requestsOf conversation (log.take n) := by
  intro r hr
  obtain ⟨record, hrecord, rfl⟩ := List.mem_map.1 hr
  obtain ⟨hmem, hsame⟩ := List.mem_filter.1 hrecord
  have hinitial : log.take m <+: log.take n := List.take_prefix_take_left hle
  exact List.mem_map.2 ⟨record, List.mem_filter.2 ⟨hinitial.subset hmem, hsame⟩, rfl⟩

/-! ## The book -/

theorem entry_setEntry (book : ControlBook) (conversation other : ConversationId) (e : Entry) :
    (book.setEntry conversation e).entry other = if other = conversation then e else book.entry other := by
  unfold ControlBook.setEntry ControlBook.entry
  by_cases hsame : other = conversation
  · simp [hsame]
  · simp [hsame]

theorem entries_setEntry (book : ControlBook) {conversation other : ConversationId} (e : Entry) (hne : other ≠ conversation) :
    (book.setEntry conversation e).entries other = book.entries other := Function.update_of_ne hne _ _

/-- What a loaded book makes of one more record of a session. -/
theorem observe_entry {book : ControlBook} (hloaded : book.loaded = true) (record : LogRecord) :
    ∃ e, book.observe record = book.setEntry record.conversation e ∧
      e.Same ((book.entry record.conversation).take (controlPartition record.conversation book.partitions)
        (record.position, record.request)) ∧
      e.pending = (book.entry record.conversation).pending ∧
      (e.folded = false → (book.entry record.conversation).folded = false ∧ e.state = (book.entry record.conversation).state ∧
        onRoute (controlPartition record.conversation book.partitions) record.position.1 = false) ∧
      (e.folded = true → (book.entry record.conversation).folded = true ∨
        onRoute (controlPartition record.conversation book.partitions) record.position.1 = true) := by
  refine ⟨_, rfl, ?_⟩
  unfold ControlBook.onRoute Entry.take
  dsimp only
  cases hroute : onRoute (controlPartition record.conversation book.partitions) record.position.1 with
  | false => exact ⟨⟨rfl, rfl⟩, rfl, fun hfolded => ⟨hfolded, rfl, rfl⟩, .inl⟩
  | true =>
    simp only [Bool.not_true, Bool.false_eq_true, if_false, hloaded, Bool.or_true, if_true]
    unfold Entry.apply Entry.asFolded
    dsimp only
    split
    · exact ⟨⟨rfl, rfl⟩, rfl, nofun, fun _ => .inr trivial⟩
    · exact ⟨⟨rfl, rfl⟩, rfl, nofun, fun _ => .inr trivial⟩

theorem asFolded_take (e : Entry) (route : Option Nat) (record : ControlPosition × ControlRequest) :
    e.asFolded.take route record = (e.take route record).asFolded := by
  unfold Entry.take Entry.apply Entry.asFolded
  dsimp only
  split
  · split <;> rfl
  · rfl

theorem load_entry (partitions : Nat) (records : List LogRecord) (conversation : ConversationId) :
    let book := records.foldl ControlBook.loadRecord (ControlBook.new.setPartitions partitions)
    book.partitions = partitions ∧ book.entries conversation = if requestsOf conversation records = [] then none
      else some (foldEntry (requestsOf conversation records) (controlPartition conversation partitions)).asFolded := by
  induction records using List.reverseRecOn with
  | nil => exact ⟨rfl, rfl⟩
  | append_singleton records record ih =>
    obtain ⟨hpartitions, hentries⟩ := ih
    dsimp only at hpartitions hentries ⊢
    rw [List.foldl_append, List.foldl_cons, List.foldl_nil, requestsOf_append]
    generalize records.foldl ControlBook.loadRecord (ControlBook.new.setPartitions partitions) = book at hpartitions hentries ⊢
    refine ⟨hpartitions, ?_⟩
    by_cases hsame : conversation = record.conversation
    · subst hsame
      have hentry : (book.entry record.conversation).asFolded =
          (foldEntry (requestsOf record.conversation records) (controlPartition record.conversation partitions)).asFolded := by
        unfold ControlBook.entry
        rw [hentries]
        split
        next hnone =>
          rw [hnone]
          rfl
        · rfl
      have hone : requestsOf record.conversation [record] = [(record.position, record.request)] := by simp [requestsOf]
      have hload : (book.loadRecord record).entries record.conversation =
          some ((book.entry record.conversation).asFolded.take (controlPartition record.conversation partitions)
            (record.position, record.request)) := by
        rw [← hpartitions]
        exact Function.update_self _ _ _
      rw [hload, hentry, asFolded_take, hone, ← foldEntry_snoc]
      exact (if_neg (by simp)).symm
    · have hone : requestsOf conversation [record] = [] := by simp [requestsOf, Ne.symm hsame]
      rw [hone, List.append_nil, ← hentries]
      exact Function.update_of_ne hsame _ _

/-! ## Whole runs -/

/-- The first fold installed for the session, before the book met a request of
it on its route or at the start. -/
def Installed (log : List LogRecord) (partitions loaded : Nat) (calls : List Call) (conversation : ConversationId)
    (upTo : Nat) : Prop :=
  ∃ before after, calls = before ++ .install conversation upTo :: after ∧
    (∀ earlier, .install conversation earlier ∉ before) ∧ requestsOf conversation (log.take loaded) = [] ∧
    ∀ r ∈ requestsOf conversation (log.take (loaded + before.count .next)),
      onRoute (controlPartition conversation partitions) r.1.1 = false

section

variable {log : List LogRecord} {partitions loaded delivered reach upTo : Nat} {calls : List Call} {conversation : ConversationId}

theorem Installed.mem (h : Installed log partitions loaded calls conversation upTo) : .install conversation upTo ∈ calls := by
  obtain ⟨before, after, rfl, _⟩ := h
  exact List.mem_append_right _ List.mem_cons_self

theorem Installed.snoc (h : Installed log partitions loaded calls conversation upTo) (call : Call) :
    Installed log partitions loaded (calls ++ [call]) conversation upTo := by
  obtain ⟨before, after, rfl, hrest⟩ := h
  exact ⟨before, after ++ [call], by simp, hrest⟩

/-- The last call installed the fold, or an earlier one did. -/
theorem Installed.of_snoc {call : Call} (h : Installed log partitions loaded (calls ++ [call]) conversation upTo) :
    Installed log partitions loaded calls conversation upTo ∨ call = .install conversation upTo ∧
      (∀ earlier, .install conversation earlier ∉ calls) ∧ requestsOf conversation (log.take loaded) = [] ∧
      ∀ r ∈ requestsOf conversation (log.take (loaded + calls.count .next)),
        onRoute (controlPartition conversation partitions) r.1.1 = false := by
  obtain ⟨before, after, hcalls, hrest⟩ := h
  rcases List.eq_nil_or_concat after with rfl | ⟨between, last, rfl⟩
  · obtain ⟨rfl, hcall⟩ := List.append_inj' hcalls rfl
    exact .inr ⟨(List.cons.inj hcall).1, hrest⟩
  · rw [List.concat_eq_append, ← List.cons_append, ← List.append_assoc] at hcalls
    exact .inl ⟨before, between, (List.append_inj' hcalls rfl).1, hrest⟩

/-- There is one first install. -/
theorem Installed.unique {other : Nat} (h : Installed log partitions loaded calls conversation upTo)
    (h' : Installed log partitions loaded calls conversation other) : upTo = other := by
  induction calls using List.reverseRecOn with
  | nil => exact absurd h.mem List.not_mem_nil
  | append_singleton calls call ih =>
    rcases h.of_snoc with hold | ⟨hcall, hfirst, -⟩
    · rcases h'.of_snoc with hold' | ⟨-, hfirst', -⟩
      · exact ih hold hold'
      · exact absurd hold.mem (hfirst' _)
    · rcases h'.of_snoc with hold' | ⟨hcall', -⟩
      · exact absurd hold'.mem (hfirst _)
      · cases hcall.symm.trans hcall'
        rfl

/-- How much of the log the entry of a session stands for: what was delivered,
or what the installed fold read where that is further. -/
structure Reaches (log : List LogRecord) (partitions loaded : Nat) (calls : List Call) (conversation : ConversationId)
    (delivered reach : Nat) : Prop where
  installed : ∀ upTo, Installed log partitions loaded calls conversation upTo → reach = max delivered upTo
  alone : (∀ upTo, ¬ Installed log partitions loaded calls conversation upTo) → reach = delivered

theorem Reaches.le (h : Reaches log partitions loaded calls conversation delivered reach) : delivered ≤ reach := by
  by_cases hany : ∃ upTo, Installed log partitions loaded calls conversation upTo
  · obtain ⟨upTo, hinstalled⟩ := hany
    rw [h.installed upTo hinstalled]
    exact Nat.le_max_left _ _
  · rw [h.alone (not_exists.1 hany)]

theorem Reaches.deliver (h : Reaches log partitions loaded calls conversation delivered reach) {more : Nat}
    (hmore : delivered ≤ more) : Reaches log partitions loaded calls conversation more (max more reach) := by
  refine ⟨fun upTo hinstalled => ?_, fun hnone => ?_⟩
  · rw [h.installed upTo hinstalled]
    omega
  · rw [h.alone hnone]
    omega

/-- A call that installs no fold for the session leaves it where it is. -/
theorem Reaches.congr {more : List Call} (h : Reaches log partitions loaded calls conversation delivered reach)
    (hsame : ∀ upTo, Installed log partitions loaded more conversation upTo ↔
      Installed log partitions loaded calls conversation upTo) :
    Reaches log partitions loaded more conversation delivered reach := by
  refine ⟨fun upTo hinstalled => h.installed upTo ((hsame upTo).1 hinstalled), fun hnone => h.alone fun upTo => ?_⟩
  exact fun hinstalled => hnone upTo ((hsame upTo).2 hinstalled)

theorem Installed.single (h : Installed log partitions loaded calls conversation upTo) (delivered : Nat) :
    Reaches log partitions loaded calls conversation delivered (max delivered upTo) := by
  refine ⟨fun other hother => ?_, fun hnone => absurd h (hnone upTo)⟩
  rw [h.unique hother]

end

/-- What the book holds of one session: the fold of what was delivered, or of
what an installed read found beyond it. An entry that is not folded has met
only requests off its route, none of them at the start; a folded one has met
one on its route, one at the start or an installed fold. -/
structure Current (log : List LogRecord) (partitions loaded : Nat) (calls : List Call) (f : Feed)
    (conversation : ConversationId) : Prop where
  reach : ∃ reach, Reaches log partitions loaded calls conversation f.delivered reach ∧
    (f.book.entry conversation).Same
      (foldEntry (requestsOf conversation (log.take reach)) (controlPartition conversation partitions))
  pending : (f.book.entry conversation).pending = []
  absent : f.book.entries conversation = none → requestsOf conversation (log.take f.delivered) = []
  present : f.book.entries conversation ≠ none → (f.book.entry conversation).folded = false →
    requestsOf conversation (log.take f.delivered) ≠ []
  unfolded : (f.book.entry conversation).folded = false → (f.book.entry conversation).state = .new ∧
    (∀ r ∈ requestsOf conversation (log.take f.delivered),
      onRoute (controlPartition conversation partitions) r.1.1 = false) ∧
    requestsOf conversation (log.take loaded) = [] ∧ ∀ upTo, .install conversation upTo ∉ calls
  folded : (f.book.entry conversation).folded = true → requestsOf conversation (log.take loaded) ≠ [] ∨
    (∃ r ∈ requestsOf conversation (log.take f.delivered),
      onRoute (controlPartition conversation partitions) r.1.1 = true) ∨ ∃ upTo, .install conversation upTo ∈ calls

structure Inv (log : List LogRecord) (partitions loaded : Nat) (calls : List Call) (f : Feed) : Prop where
  following : f.book.live = true
  complete : f.book.loaded = true
  counted : f.book.partitions = partitions
  delivered : f.delivered = loaded + calls.count .next
  current : ∀ conversation, Current log partitions loaded calls f conversation

theorem started_inv (log : List LogRecord) (partitions loaded : Nat) :
    Inv log partitions loaded [] (.started log partitions loaded) := by
  refine ⟨rfl, rfl, ?_, rfl, fun conversation => ?_⟩
  · exact (load_entry partitions (log.take loaded) 0).1
  · have hentries : (Feed.started log partitions loaded).book.entries conversation = _ :=
      (load_entry partitions (log.take loaded) conversation).2
    have hentry : (Feed.started log partitions loaded).book.entry conversation =
        ((Feed.started log partitions loaded).book.entries conversation).getD .new := rfl
    rw [hentries] at hentry
    have hdelivered : (Feed.started log partitions loaded).delivered = loaded := rfl
    have hreaches : Reaches log partitions loaded [] conversation loaded loaded :=
      ⟨fun upTo hinstalled => absurd hinstalled.mem List.not_mem_nil, fun _ => rfl⟩
    by_cases hnone : requestsOf conversation (log.take loaded) = []
    · rw [if_pos hnone] at hentry hentries
      rw [Option.getD_none] at hentry
      refine ⟨⟨loaded, hreaches, ?_⟩, ?_, fun _ => hnone, fun hsome => absurd hentries hsome, fun _ => ?_, fun hfolded => ?_⟩
      · rw [hentry, hnone]
        exact ⟨rfl, rfl⟩
      · rw [hentry]
        rfl
      · rw [hentry, hdelivered, hnone]
        exact ⟨rfl, nofun, rfl, nofun⟩
      · rw [hentry] at hfolded
        cases hfolded
    · rw [if_neg hnone] at hentry hentries
      rw [Option.getD_some] at hentry
      refine ⟨⟨loaded, hreaches, ?_⟩, ?_, fun habsent => ?_, fun _ hfolded => ?_, fun hfolded => ?_, fun _ => .inl hnone⟩
      · rw [hentry]
        exact ⟨rfl, rfl⟩
      · rw [hentry]
        exact foldEntry_pending _ _
      · rw [hentries] at habsent
        cases habsent
      · rw [hentry] at hfolded
        cases hfolded
      · rw [hentry] at hfolded
        cases hfolded

variable {log : List LogRecord} {partitions loaded : Nat} {calls : List Call} {f : Feed}

/-- The follower delivers the next record, or an earlier one again. -/
def Delivers (f : Feed) (index delivered : Nat) : Prop :=
  index = f.delivered ∧ delivered = f.delivered + 1 ∨ index < f.delivered ∧ delivered = f.delivered

theorem Delivers.le {index delivered : Nat} (h : Delivers f index delivered) : f.delivered ≤ delivered := by
  unfold Delivers at h
  omega

theorem requestsOf_delivered {record : LogRecord} {index delivered : Nat} (hrecord : log[index]? = some record)
    (hdelivers : Delivers f index delivered) (conversation : ConversationId) :
    requestsOf conversation (log.take delivered) = requestsOf conversation (log.take f.delivered) ∨
      record.conversation = conversation ∧ requestsOf conversation (log.take delivered) =
        requestsOf conversation (log.take f.delivered) ++ [(record.position, record.request)] := by
  rcases hdelivers with ⟨rfl, rfl⟩ | ⟨_, rfl⟩
  · rw [requestsOf_next hrecord]
    by_cases hsame : record.conversation = conversation
    · exact .inr ⟨hsame, by rw [if_pos hsame]⟩
    · exact .inl (by rw [if_neg hsame, List.append_nil])
  · exact .inl rfl

/-- Another session: the book keeps its entry. -/
theorem observe_other {conversation : ConversationId} (h : Current log partitions loaded calls f conversation)
    {record : LogRecord} (hne : conversation ≠ record.conversation) {index delivered : Nat}
    (hrecord : log[index]? = some record) (hdelivers : Delivers f index delivered) :
    Current log partitions loaded calls ⟨f.book.observe record, delivered⟩ conversation := by
  have hentries : (f.book.observe record).entries conversation = f.book.entries conversation := entries_setEntry _ _ hne
  have hentry : (f.book.observe record).entry conversation = f.book.entry conversation := by
    unfold ControlBook.entry
    rw [hentries]
  have hrequests : requestsOf conversation (log.take delivered) = requestsOf conversation (log.take f.delivered) := by
    rcases requestsOf_delivered hrecord hdelivers conversation with hsame | ⟨heq, _⟩
    · exact hsame
    · exact absurd heq.symm hne
  obtain ⟨reach, hreach, hfold⟩ := h.reach
  have hle := hreach.le
  refine ⟨⟨max delivered reach, hreach.deliver hdelivers.le, ?_⟩, ?_, ?_, ?_, ?_, ?_⟩
  · dsimp only
    rw [hentry]
    by_cases hahead : delivered ≤ reach
    · rwa [Nat.max_eq_right hahead]
    · -- The follower has just caught up with what was read.
      have hcaught : reach = f.delivered := by
        unfold Delivers at hdelivers
        omega
      rw [Nat.max_eq_left (by omega), hrequests, ← hcaught]
      exact hfold
  · dsimp only
    rw [hentry]
    exact h.pending
  · dsimp only
    rw [hentries, hrequests]
    exact h.absent
  · dsimp only
    rw [hentries, hentry, hrequests]
    exact h.present
  · dsimp only
    rw [hentry, hrequests]
    exact h.unfolded
  · dsimp only
    rw [hentry, hrequests]
    exact h.folded

/-- The session of the delivered record: the book takes it up if it is new,
and an earlier one changes nothing. -/
theorem observe_same {record : LogRecord} (hpartitions : 0 < partitions) (hloaded : f.book.loaded = true)
    (hcounted : f.book.partitions = partitions) (h : Current log partitions loaded calls f record.conversation)
    {index delivered : Nat} (hrecord : log[index]? = some record) (hdelivers : Delivers f index delivered) :
    Current log partitions loaded calls ⟨f.book.observe record, delivered⟩ record.conversation := by
  obtain ⟨e, hobserve, hsame, hpending, hopen, hfolded⟩ := observe_entry hloaded record
  rw [hcounted] at hsame hopen hfolded
  have hentry : (f.book.observe record).entry record.conversation = e := by rw [hobserve, entry_setEntry, if_pos rfl]
  have hentries : (f.book.observe record).entries record.conversation = some e := by
    rw [hobserve]
    exact Function.update_self _ _ _
  have hindex : index < delivered := by
    unfold Delivers at hdelivers
    omega
  have hmem := mem_requestsOf_take hrecord hindex
  obtain ⟨route, hroute⟩ : ∃ route, controlPartition record.conversation partitions = some route :=
    ⟨_, if_pos hpartitions⟩
  obtain ⟨reach, hreach, hfold⟩ := h.reach
  have htaken := hfold.take (controlPartition record.conversation partitions) (record.position, record.request)
  have hle := hreach.le
  refine ⟨⟨max delivered reach, hreach.deliver hdelivers.le, ?_⟩, ?_, ?_, ?_, ?_, ?_⟩
  · dsimp only
    rw [hentry]
    by_cases hlt : index < reach
    · -- A record that was read before.
      have hahead : delivered ≤ reach := by
        unfold Delivers at hdelivers
        omega
      have hknown := @take_seen _ route _ (mem_requestsOf_take hrecord hlt)
      rw [← hroute] at hknown
      rw [Nat.max_eq_right hahead]
      exact (hsame.trans htaken).trans hknown
    · -- A new record, next after all that was read.
      have hcaught : reach = index ∧ index = f.delivered ∧ delivered = f.delivered + 1 := by
        unfold Delivers at hdelivers
        omega
      obtain ⟨rfl, hindex, hdelivered⟩ := hcaught
      rw [Nat.max_eq_left (by omega), hdelivered, ← hindex, requestsOf_next hrecord, if_pos rfl, foldEntry_snoc]
      exact hsame.trans htaken
  · dsimp only
    rw [hentry, hpending]
    exact h.pending
  · dsimp only
    rw [hentries]
    exact nofun
  · exact fun _ _ => List.ne_nil_of_mem hmem
  · dsimp only
    rw [hentry]
    intro hunfolded
    obtain ⟨hold, hstate, hoff⟩ := hopen hunfolded
    obtain ⟨hnew, halloff, hstart, hinstalls⟩ := h.unfolded hold
    refine ⟨hstate.trans hnew, fun r hr => ?_, hstart, hinstalls⟩
    rcases requestsOf_delivered hrecord hdelivers record.conversation with hrequests | ⟨_, hrequests⟩
    · rw [hrequests] at hr
      exact halloff r hr
    · rw [hrequests] at hr
      rcases List.mem_append.1 hr with hr | hr
      · exact halloff r hr
      · obtain rfl := List.mem_singleton.1 hr
        exact hoff
  · dsimp only
    rw [hentry]
    intro hset
    rcases hfolded hset with hold | hon
    · refine (h.folded hold).imp_right (Or.imp_left ?_)
      rintro ⟨r, hr, hon⟩
      exact ⟨r, requestsOf_take_subset hdelivers.le _ r hr, hon⟩
    · exact .inr (.inl ⟨_, hmem, hon⟩)

theorem Current.mono {conversation : ConversationId} (h : Current log partitions loaded calls f conversation)
    {call : Call} (hcall : ∀ upTo, call ≠ .install conversation upTo) :
    Current log partitions loaded (calls ++ [call]) f conversation := by
  obtain ⟨⟨reach, hreach, hfold⟩, hpending, habsent, hpresent, hunfolded, hfolded⟩ := h
  refine ⟨⟨reach, hreach.congr fun upTo => ⟨fun hinstalled => ?_, fun hinstalled => hinstalled.snoc call⟩, hfold⟩, hpending,
    habsent, hpresent, fun hopen => ?_, fun hset => ?_⟩
  · rcases hinstalled.of_snoc with hold | ⟨heq, -⟩
    · exact hold
    · exact absurd heq (hcall upTo)
  · obtain ⟨hnew, hoff, hstart, hinstalls⟩ := hunfolded hopen
    refine ⟨hnew, hoff, hstart, fun upTo hmem => ?_⟩
    rcases List.mem_append.1 hmem with hmem | hmem
    · exact hinstalls upTo hmem
    · exact hcall upTo (List.mem_singleton.1 hmem).symm
  · refine (hfolded hset).imp_right (Or.imp_right ?_)
    rintro ⟨upTo, hmem⟩
    exact ⟨upTo, List.mem_append_left _ hmem⟩

theorem observe_inv (hpartitions : 0 < partitions) (hinv : Inv log partitions loaded calls f) {record : LogRecord}
    {index delivered : Nat} (hrecord : log[index]? = some record) (hdelivers : Delivers f index delivered) {call : Call}
    (hcall : ∀ conversation upTo, call ≠ .install conversation upTo)
    (hdelivered : delivered = f.delivered + [call].count .next) :
    Inv log partitions loaded (calls ++ [call]) ⟨f.book.observe record, delivered⟩ := by
  refine ⟨hinv.following, hinv.complete, hinv.counted, ?_, fun conversation => ?_⟩
  · dsimp only
    rw [hdelivered, hinv.delivered, List.count_append, Nat.add_assoc]
  apply Current.mono _ (hcall conversation)
  by_cases hsame : conversation = record.conversation
  · subst hsame
    exact observe_same hpartitions hinv.complete hinv.counted (hinv.current _) hrecord hdelivers
  · exact observe_other (hinv.current conversation) hsame hrecord hdelivers

/-- A fold is installed for a session that is not folded: it is the state, or
says as little as what was delivered. -/
theorem install_unfolded {conversation : ConversationId} (h : Current log partitions loaded calls f conversation)
    (hopen : (f.book.entry conversation).folded = false) (upTo : Nat) {e : Entry}
    (hstate : e.state = (readFold log partitions conversation upTo).1)
    (hlast : e.last = (readFold log partitions conversation upTo).2)
    (hconflict : e.conflict = (f.book.entry conversation).conflict) :
    e.Same (foldEntry (requestsOf conversation (log.take (max f.delivered upTo))) (controlPartition conversation partitions)) := by
  obtain ⟨hnew, hoff, _, hinstalls⟩ := h.unfolded hopen
  have hcaught : (f.book.entry conversation).Same
      (foldEntry (requestsOf conversation (log.take f.delivered)) (controlPartition conversation partitions)) := by
    obtain ⟨reach, hreach, hfold⟩ := h.reach
    rwa [hreach.alone fun upTo hinstalled => hinstalls upTo hinstalled.mem] at hfold
  -- What was delivered left only the flag, which the entry keeps.
  have hflag : (f.book.entry conversation).conflict = !(requestsOf conversation (log.take f.delivered)).isEmpty := by
    have hflags := congrArg (fun state => state.flags.controlConflict) hcaught.2
    rw [foldEntry_off hoff] at hflags
    simpa [Entry.withConflict, hnew, ControlState.new, Entry.new] using hflags
  by_cases hle : f.delivered ≤ upTo
  · rw [Nat.max_eq_right hle]
    refine ⟨hlast, ?_⟩
    have hkeeps : e.conflict = true →
        (foldEntry (requestsOf conversation (log.take upTo)) (controlPartition conversation partitions)).conflict = true := by
      intro hset
      rw [hconflict, hflag, Bool.not_eq_true', List.isEmpty_eq_false_iff] at hset
      obtain ⟨r, hr⟩ := List.exists_mem_of_ne_nil _ hset
      rw [foldEntry_conflict, List.any_eq_true]
      exact ⟨r, requestsOf_take_subset hle conversation r hr, by simp [hoff r hr]⟩
    unfold Entry.withConflict
    rw [hstate]
    unfold readFold fold Entry.withConflict
    cases hset : e.conflict with
    | false => simp
    | true => simp [hkeeps hset]
  · -- The read is behind: it found none of the route either.
    have hread : ∀ r ∈ requestsOf conversation (log.take upTo),
        onRoute (controlPartition conversation partitions) r.1.1 = false :=
      fun r hr => hoff r (requestsOf_take_subset (by omega) conversation r hr)
    have hsubset : requestsOf conversation (log.take f.delivered) = [] → requestsOf conversation (log.take upTo) = [] := by
      intro hnone
      rw [List.eq_nil_iff_forall_not_mem]
      intro r hr
      have hmem := requestsOf_take_subset (show upTo ≤ f.delivered by omega) conversation r hr
      rw [hnone] at hmem
      cases hmem
    rw [Nat.max_eq_left (by omega)]
    refine ⟨?_, ?_⟩
    · rw [hlast]
      unfold readFold fold
      rw [foldEntry_off hread, foldEntry_off hoff]
    · unfold Entry.withConflict
      rw [hstate, hconflict, hflag]
      unfold readFold fold Entry.withConflict
      rw [foldEntry_off hread, foldEntry_off hoff]
      cases hdelivered : requestsOf conversation (log.take f.delivered) with
      | nil => simp [hsubset hdelivered, Entry.new, ControlState.new]
      | cons r rest => simp [Entry.new, ControlState.new]

theorem Current.frame {conversation : ConversationId} (h : Current log partitions loaded calls f conversation) {f' : Feed}
    (hentries : f'.book.entries conversation = f.book.entries conversation) (hdelivered : f'.delivered = f.delivered) :
    Current log partitions loaded calls f' conversation := by
  have hentry : f'.book.entry conversation = f.book.entry conversation := by
    unfold ControlBook.entry
    rw [hentries]
  obtain ⟨hreach, hpending, habsent, hpresent, hunfolded, hfolded⟩ := h
  rw [← hentry, ← hdelivered] at hreach hunfolded hfolded
  rw [← hentry] at hpending
  rw [← hentries, ← hdelivered] at habsent
  rw [← hentries, ← hentry, ← hdelivered] at hpresent
  exact ⟨hreach, hpending, habsent, hpresent, hunfolded, hfolded⟩

/-- An install touches the entry of its session only. -/
theorem setEntry_inv (hinv : Inv log partitions loaded calls f) {conversation : ConversationId} {upTo : Nat} {e : Entry}
    (h : Current log partitions loaded (calls ++ [.install conversation upTo])
      ⟨f.book.setEntry conversation e, f.delivered⟩ conversation) :
    Inv log partitions loaded (calls ++ [.install conversation upTo]) ⟨f.book.setEntry conversation e, f.delivered⟩ := by
  have hdelivered : f.delivered = loaded + (calls ++ [Call.install conversation upTo]).count .next := by
    rw [hinv.delivered, List.count_append]
    rfl
  refine ⟨hinv.following, hinv.complete, hinv.counted, hdelivered, fun other => ?_⟩
  by_cases hsame : other = conversation
  · rwa [hsame]
  · refine ((hinv.current other).mono ?_).frame (entries_setEntry _ _ hsame) rfl
    intro n heq
    cases heq
    exact hsame rfl

/-- The entry of the session after an install is folded. -/
theorem current_setEntry {conversation : ConversationId} {upTo reach : Nat} {e : Entry} (hpending : e.pending = [])
    (hfolded : e.folded = true)
    (hreach : Reaches log partitions loaded (calls ++ [.install conversation upTo]) conversation f.delivered reach)
    (hfold : e.Same (foldEntry (requestsOf conversation (log.take reach)) (controlPartition conversation partitions))) :
    Current log partitions loaded (calls ++ [.install conversation upTo])
      ⟨f.book.setEntry conversation e, f.delivered⟩ conversation := by
  have hentry : (f.book.setEntry conversation e).entry conversation = e := by rw [entry_setEntry, if_pos rfl]
  refine ⟨⟨reach, hreach, ?_⟩, ?_, ?_, ?_, ?_, fun _ => .inr (.inr ⟨upTo, by simp⟩)⟩
  · dsimp only
    rwa [hentry]
  · dsimp only
    rw [hentry, hpending]
  · simp [ControlBook.setEntry]
  · dsimp only
    rw [hentry, hfolded]
    exact fun _ => nofun
  · dsimp only
    rw [hentry, hfolded]
    exact nofun

theorem install_inv (hinv : Inv log partitions loaded calls f) (conversation : ConversationId) (upTo : Nat) :
    Inv log partitions loaded (calls ++ [.install conversation upTo])
      ⟨(f.book.install conversation (readFold log f.book.partitions conversation upTo).1
        (readFold log f.book.partitions conversation upTo).2).1, f.delivered⟩ := by
  have hcurrent := hinv.current conversation
  rw [hinv.counted]
  unfold ControlBook.install
  dsimp only
  rw [hinv.following, Bool.and_true, hcurrent.pending, List.foldl_nil]
  cases hfolded : (f.book.entry conversation).folded with
  | true =>
    -- A folded entry is kept as it is, and the fold is not the first thing the book met.
    rw [if_pos rfl]
    obtain ⟨reach, hreach, hfold⟩ := hcurrent.reach
    refine setEntry_inv hinv (current_setEntry hcurrent.pending hfolded (hreach.congr fun other => ?_) hfold)
    refine ⟨fun hinstalled => ?_, fun hinstalled => hinstalled.snoc _⟩
    rcases hinstalled.of_snoc with hold | ⟨-, hfirst, hstart, hoff⟩
    · exact hold
    · rw [← hinv.delivered] at hoff
      rcases hcurrent.folded hfolded with hloaded | ⟨r, hr, hon⟩ | ⟨earlier, hearlier⟩
      · exact absurd hstart hloaded
      · exact absurd ((hoff r hr).symm.trans hon) (by decide)
      · exact absurd hearlier (hfirst earlier)
  | false =>
    rw [if_neg Bool.false_ne_true]
    obtain ⟨_, hoff, hstart, hinstalls⟩ := hcurrent.unfolded hfolded
    rw [hinv.delivered] at hoff
    have hinstalled : Installed log partitions loaded (calls ++ [.install conversation upTo]) conversation upTo :=
      ⟨calls, [], rfl, hinstalls, hstart, hoff⟩
    exact setEntry_inv hinv (current_setEntry rfl rfl (hinstalled.single f.delivered)
      (install_unfolded hcurrent hfolded upTo rfl rfl rfl))

theorem run_inv (hpartitions : 0 < partitions) (hrun : Run (Step log) (.started log partitions loaded) calls f) :
    Inv log partitions loaded calls f := by
  induction hrun with
  | nil => exact started_inv log partitions loaded
  | @snoc calls f call f' _ hstep ih =>
    cases call with
    | next =>
      obtain ⟨record, hrecord, rfl⟩ := hstep
      exact observe_inv hpartitions ih hrecord (.inl ⟨rfl, rfl⟩) nofun rfl
    | again index =>
      obtain ⟨hindex, record, hrecord, rfl⟩ := hstep
      exact observe_inv hpartitions ih hrecord (.inr ⟨hindex, rfl⟩) nofun rfl
    | install conversation upTo =>
      obtain rfl := hstep
      exact install_inv ih conversation upTo

/-- Through any run of the follower and any installs, the state the book gives
is the fold of the session's records delivered so far, or of those the first
installed fold read where these are more. It gives one unless all it met of
the session came off its route after the start. -/
theorem book_state_is_fold (hpartitions : 0 < partitions)
    (hrun : Run (Step log) (.started log partitions loaded) calls f) (conversation : ConversationId) :
    (∀ state, f.book.state conversation = some state →
      (∀ upTo, Installed log partitions loaded calls conversation upTo → state =
        (fold (requestsOf conversation (log.take (max f.delivered upTo))) (controlPartition conversation partitions)).1) ∧
      ((∀ upTo, ¬ Installed log partitions loaded calls conversation upTo) → state =
        (fold (requestsOf conversation (log.take f.delivered)) (controlPartition conversation partitions)).1)) ∧
    (requestsOf conversation (log.take f.delivered) = [] ∨ requestsOf conversation (log.take loaded) ≠ [] ∨
      (∃ r ∈ requestsOf conversation (log.take f.delivered),
        onRoute (controlPartition conversation partitions) r.1.1 = true) ∨
      (∃ upTo, .install conversation upTo ∈ calls) → (f.book.state conversation).isSome = true) := by
  have hinv := run_inv hpartitions hrun
  obtain ⟨⟨reach, hreach, hfold⟩, _, habsent, hpresent, hunfolded, -⟩ := hinv.current conversation
  unfold ControlBook.state
  rw [hinv.following, Bool.not_true, if_neg Bool.false_ne_true, hinv.complete]
  cases hentries : f.book.entries conversation with
  | none =>
    have hentry : f.book.entry conversation = .new := by
      unfold ControlBook.entry
      rw [hentries, Option.getD_none]
    rw [hentry] at hunfolded
    obtain ⟨_, _, _, hinstalls⟩ := hunfolded rfl
    refine ⟨fun state hstate => ⟨fun upTo hinstalled => absurd hinstalled.mem (hinstalls upTo), fun _ => ?_⟩, fun _ => rfl⟩
    rw [habsent hentries]
    exact (Option.some.inj hstate).symm
  | some e =>
    have hentry : f.book.entry conversation = e := by
      unfold ControlBook.entry
      rw [hentries, Option.getD_some]
    rw [hentry] at hfold hpresent hunfolded
    dsimp only
    cases hfolded : e.folded with
    | true =>
      refine ⟨fun state hstate => ?_, fun _ => rfl⟩
      rw [← Option.some.inj hstate]
      refine ⟨fun upTo hinstalled => ?_, fun hnone => ?_⟩
      · rw [← hreach.installed upTo hinstalled]
        exact hfold.2
      · rw [← hreach.alone hnone]
        exact hfold.2
    | false =>
      refine ⟨nofun, fun hseen => ?_⟩
      obtain ⟨_, hoff, hstart, hinstalls⟩ := hunfolded hfolded
      rcases hseen with hnone | hloaded | ⟨r, hr, hroute⟩ | ⟨upTo, hinstalled⟩
      · exact absurd hnone (hpresent (by simp [hentries]) hfolded)
      · exact absurd hstart hloaded
      · exact absurd ((hoff r hr).symm.trans hroute) (by decide)
      · exact absurd hinstalled (hinstalls upTo)

/-! ## A read that is ahead -/

def pauseRecord : LogRecord := ⟨7, (0, 0), ⟨.pause, false, none⟩⟩

def resumeRecord : LogRecord := ⟨7, (0, 1), ⟨.resume, false, none⟩⟩

/-- A reader installs the pause and the resume before the follower brings the
pause, twice: the state stays the fold of both. -/
theorem pause_behind_read_is_fold :
    ∃ f, Run (Step [pauseRecord, resumeRecord]) (.started [pauseRecord, resumeRecord] 1 0) [.install 7 2, .next, .again 0] f ∧
      f.delivered = 1 ∧ f.book.state 7 = some (fold (requestsOf 7 [pauseRecord, resumeRecord]) (some 0)).1 := by
  have hinstall : Run (Step [pauseRecord, resumeRecord]) (.started [pauseRecord, resumeRecord] 1 0) [.install 7 2] _ :=
    .snoc .nil rfl
  have hnext : Run (Step [pauseRecord, resumeRecord]) (.started [pauseRecord, resumeRecord] 1 0) [.install 7 2, .next] _ :=
    hinstall.snoc ⟨pauseRecord, rfl, rfl⟩
  have hrun : Run (Step [pauseRecord, resumeRecord]) (.started [pauseRecord, resumeRecord] 1 0)
      [.install 7 2, .next, .again 0] _ := hnext.snoc ⟨by decide, pauseRecord, rfl, rfl⟩
  obtain ⟨hfold, hsome⟩ := book_state_is_fold (by decide) hrun 7
  obtain ⟨state, hstate⟩ := Option.isSome_iff_exists.1 (hsome (.inr (.inr (.inr ⟨2, by simp⟩))))
  have hinstalled : Installed [pauseRecord, resumeRecord] 1 0 [.install 7 2, .next, .again 0] 7 2 :=
    ⟨[], [.next, .again 0], rfl, nofun, rfl, nofun⟩
  have hroute : controlPartition 7 1 = some 0 := by simp [controlPartition, Nat.mod_one]
  refine ⟨_, hrun, rfl, ?_⟩
  rw [hstate, (hfold state hstate).1 2 hinstalled, hroute]
  rfl

/-- Nothing was delivered, and a reader that found the pause in the log
installs its fold: the book says the session is paused. -/
theorem installed_read_is_ahead :
    ∃ f, Run (Step [pauseRecord]) (.started [pauseRecord] 1 0) [.install 7 1] f ∧ f.delivered = 0 ∧
      f.book.state 7 ≠ some (fold (requestsOf 7 ([pauseRecord].take f.delivered)) (controlPartition 7 1)).1 := by
  refine ⟨_, .snoc .nil rfl, rfl, ?_⟩
  decide +kernel

end LaserSdk.Control

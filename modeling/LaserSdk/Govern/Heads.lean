import Mathlib.Data.Finmap
import Mathlib.Data.Finset.Card
import Mathlib.Logic.Function.Basic
import LaserSdk.Lib.Runs
import LaserSdk.Govern.Evidence
/-!
# Heads of the evidence chains

A governed handle keeps, for each conversation, the digest of the last evidence
it published. Calls of `emit_chained_evidence` run concurrently. A call leases
the entry of its conversation under the lock of the map, waits for the lock of
the digest, and keeps that lock over the publish. Entries that no call leases
are evicted when they were idle too long, and when the map is full.

One action below is one effect that other tasks can see. The map is read while
leases are returned, so a pass over it is not one action.
-/

namespace LaserSdk.Govern

/-- The conversation of a chain, or none for actions outside one. -/
abbrev ChainKey := Option Nat

structure ChainEntry where
  digest : Option String
  /-- The call that holds the lock of the digest. -/
  lockedBy : Option Nat
  /-- The calls that hold the entry. With the map they are its strong count. -/
  holders : Finset Nat
  touchedMicros : Nat

/-- Where a call of `emit_chained_evidence` is. -/
inductive Phase where
  | idle
  /-- Before the lock of the map, or waiting for a release. -/
  | waiting
  /-- In `prune_chain`, with the keys not visited yet. -/
  | pruning (now : Nat) (unseen : Finset ChainKey)
  /-- The conversation has no entry. -/
  | making (now : Nat)
  /-- The map is full. Of its keys `unheld` had no holder at the start of the scan. -/
  | scanning (now : Nat) (unheld : Finset ChainKey)
  | leased (entry : Nat)
  | sealing (entry : Nat)
  | publishing (entry : Nat) (evidence : PolicyEvidence)
  /-- The record landed and the digest is not set yet. -/
  | published (entry : Nat) (evidence : PolicyEvidence)
  /-- About to unlock the digest. -/
  | closing (entry : Nat)
  /-- The lease is dropped: the entry is touched, then given up. -/
  | dropping (entry : Nat)
  | touched (entry : Nat)

/-- The entry that a call holds. -/
def Phase.entry : Phase → Option Nat
  | .leased e | .sealing e | .publishing e _ | .published e _ | .closing e | .dropping e | .touched e => some e
  | _ => none

structure Call where
  key : ChainKey
  phase : Phase

inductive ChainEvent where
  | published (key : ChainKey) (evidence : PolicyEvidence)
  | evicted (key : ChainKey)
  deriving DecidableEq

structure GovernorRetention where
  capacity : Nat
  idleTtlMicros : Nat

/-- The retention that a state is built with: at least one head. -/
def GovernorRetention.atLeastOne (r : GovernorRetention) : GovernorRetention := { r with capacity := max r.capacity 1 }

structure GovernorState where
  chainLock : Option Nat
  chain : Finmap fun _ : ChainKey => Nat
  entries : Nat → ChainEntry
  made : Nat
  calls : Nat → Call
  /-- What was published and evicted, in this order. -/
  history : List ChainEvent

namespace GovernorState

def new : GovernorState :=
  { chainLock := none, chain := ∅, entries := fun _ => ⟨none, none, ∅, 0⟩, made := 0, calls := fun _ => ⟨none, .idle⟩
    history := [] }

def setCall (s : GovernorState) (c : Nat) (call : Call) : GovernorState :=
  { s with calls := Function.update s.calls c call }

def setPhase (s : GovernorState) (c : Nat) (phase : Phase) : GovernorState :=
  s.setCall c { s.calls c with phase := phase }

def setEntry (s : GovernorState) (e : Nat) (entry : ChainEntry) : GovernorState :=
  { s with entries := Function.update s.entries e entry }

@[simp]
theorem setEntry_self (s : GovernorState) (e : Nat) (entry : ChainEntry) : (s.setEntry e entry).entries e = entry := by
  simp [setEntry]

def isUnheld (s : GovernorState) (key : ChainKey) : Bool :=
  (s.chain.lookup key).any fun e => decide ((s.entries e).holders = ∅)

/-- What `prune_chain` does not retain. -/
def isExpired (s : GovernorState) (ttl now : Nat) (key : ChainKey) : Bool :=
  s.isUnheld key && (s.chain.lookup key).any fun e => decide (ttl ≤ now - (s.entries e).touchedMicros)

/-- The entry was touched no later than any that the scan was bound to see. -/
def isOldest (s : GovernorState) (unheld : Finset ChainKey) (key : ChainKey) : Bool :=
  (s.chain.lookup key).any fun e => decide (∀ other ∈ unheld, ∀ e' ∈ s.chain.lookup other,
    (s.entries e).touchedMicros ≤ (s.entries e').touchedMicros)

def log (s : GovernorState) (event : ChainEvent) : GovernorState := { s with history := s.history ++ [event] }

def evict (s : GovernorState) (key : ChainKey) : GovernorState :=
  { s with chain := s.chain.erase key }.log (.evicted key)

/-- Return from `acquire_chain` with a lease. -/
def lease (s : GovernorState) (c e : Nat) : GovernorState :=
  let entry := s.entries e
  ({ s with chainLock := none }.setEntry e { entry with holders := insert c entry.holders }).setPhase c (.leased e)

def insertEntry (s : GovernorState) (key : ChainKey) (now : Nat) : GovernorState :=
  { s with chain := s.chain.insert key s.made, made := s.made + 1 }.setEntry s.made ⟨none, none, ∅, now⟩

end GovernorState

/-- One effect of one call. -/
inductive ChainAction where
  | start (key : ChainKey)
  | lockChain (now : Nat)
  | prune (key : ChainKey)
  | get
  | make
  | remove (key : ChainKey)
  | wait
  | lockDigest
  | seal (draft : PolicyEvidence)
  | publish (landed : Bool)
  | advance
  | unlock
  | touch (now : Nat)
  | release

section

variable {Bytes Failure : Type} (encode : PolicyEvidence → Except Failure Bytes) (hash : Bytes → String)

/-- `emit_chained_evidence` and `acquire_chain`, one effect at a time. An action
that the call is not at is none. -/
def GovernorState.next (r : GovernorRetention) (s : GovernorState) (c : Nat) (action : ChainAction) : Option GovernorState :=
  match (s.calls c).phase, action with
  | .idle, .start key => some (s.setCall c ⟨key, .waiting⟩)
  | .waiting, .lockChain now =>
    if s.chainLock = none then some ({ s with chainLock := some c }.setPhase c (.pruning now s.chain.keys)) else none
  | .pruning now unseen, .prune key =>
    if key ∈ unseen then
      some ((if s.isExpired r.idleTtlMicros now key then s.evict key else s).setPhase c (.pruning now (unseen.erase key)))
    else none
  | .pruning now unseen, .get =>
    if unseen = ∅ then
      match s.chain.lookup (s.calls c).key with
      | some e => some (s.lease c e)
      | none => some (s.setPhase c (.making now))
    else none
  | .making now, .make =>
    if s.chain.keys.card < r.capacity then some ((s.insertEntry (s.calls c).key now).lease c s.made)
    else some (s.setPhase c (.scanning now (s.chain.keys.filter fun key => s.isUnheld key = true)))
  | .scanning now unheld, .remove key =>
    if s.isUnheld key && s.isOldest unheld key then some ((s.evict key).setPhase c (.making now)) else none
  | .scanning _ unheld, .wait =>
    if unheld = ∅ then some ({ s with chainLock := none }.setPhase c .waiting) else none
  | .leased e, .lockDigest =>
    if (s.entries e).lockedBy = none then
      some ((s.setEntry e { s.entries e with lockedBy := some c }).setPhase c (.sealing e))
    else none
  | .sealing e, .seal draft =>
    match PolicyEvidence.seal encode hash { draft with previousDigest := (s.entries e).digest } with
    | .ok evidence => some (s.setPhase c (.publishing e evidence))
    | .error _ => some (s.setPhase c (.closing e))
  | .publishing e evidence, .publish landed =>
    if landed then some ((s.log (.published (s.calls c).key evidence)).setPhase c (.published e evidence))
    else some (s.setPhase c (.closing e))
  | .published e evidence, .advance =>
    some ((s.setEntry e { s.entries e with digest := some evidence.receiptDigest }).setPhase c (.closing e))
  | .closing e, .unlock => some ((s.setEntry e { s.entries e with lockedBy := none }).setPhase c (.dropping e))
  | .dropping e, .touch now => some ((s.setEntry e { s.entries e with touchedMicros := now }).setPhase c (.touched e))
  | .touched e, .release =>
    some ((s.setEntry e { s.entries e with holders := (s.entries e).holders.erase c }).setPhase c .idle)
  | _, _ => none

/-- Some call takes its next effect. -/
def GovernorState.Step (retention : GovernorRetention) (s : GovernorState) (a : Nat × ChainAction) (s' : GovernorState) : Prop :=
  s.next encode hash retention.atLeastOne a.1 a.2 = some s'

end

/-! ## The records of a conversation -/

/-- The records published for a conversation. -/
def publishedFor (key : ChainKey) (events : List ChainEvent) : List PolicyEvidence :=
  events.filterMap fun
    | .published k evidence => if k = key then some evidence else none
    | .evicted _ => none

/-- Those since its head was last evicted. -/
def openRecords (key : ChainKey) (history : List ChainEvent) : List PolicyEvidence :=
  history.foldl (fun records event =>
    match event with
    | .published k evidence => if k = key then records ++ [evidence] else records
    | .evicted k => if k = key then [] else records) []

theorem openRecords_published (key k : ChainKey) (history : List ChainEvent) (evidence : PolicyEvidence) :
    openRecords key (history ++ [.published k evidence]) =
      if k = key then openRecords key history ++ [evidence] else openRecords key history := by
  rw [openRecords, List.foldl_append]
  rfl

theorem openRecords_evicted (key k : ChainKey) (history : List ChainEvent) :
    openRecords key (history ++ [.evicted k]) = if k = key then [] else openRecords key history := by
  rw [openRecords, List.foldl_append]
  rfl

/-- After an eviction, and with none since, the open records are all those published. -/
theorem openRecords_append {key : ChainKey} {before events : List ChainEvent}
    (hbefore : before = [] ∨ ∃ earlier, before = earlier ++ [.evicted key]) (hnone : .evicted key ∉ events) :
    openRecords key (before ++ events) = publishedFor key events := by
  induction events using List.reverseRecOn with
  | nil =>
    rw [List.append_nil]
    rcases hbefore with rfl | ⟨earlier, rfl⟩
    · rfl
    · rw [openRecords_evicted, if_pos rfl]
      rfl
  | append_singleton events event ih =>
    have hrest : .evicted key ∉ events := fun hmem => hnone (List.mem_append_left _ hmem)
    rw [← List.append_assoc, publishedFor, List.filterMap_append]
    cases event with
    | published k evidence =>
      rw [openRecords_published, ih hrest]
      by_cases hk : k = key
      · rw [if_pos hk, hk]
        simp [publishedFor]
      · rw [if_neg hk]
        simp [publishedFor, hk]
    | evicted k =>
      have hk : k ≠ key := fun hk => hnone (List.mem_append_right _ (by simp [hk]))
      rw [openRecords_evicted, if_neg hk, ih hrest]
      simp [publishedFor]

/-- The digest that the next record has to name. -/
def lastDigest (records : List PolicyEvidence) : Option String := records.getLast?.map (·.receiptDigest)

section

variable {Bytes Failure : Type} {encode : PolicyEvidence → Except Failure Bytes} {hash : Bytes → String}

theorem verifyFrom_append {previous : Option String} {records : List PolicyEvidence} {evidence : PolicyEvidence} :
    verifyFrom encode hash previous (records ++ [evidence]) = true ↔ verifyFrom encode hash previous records = true ∧
      evidence.previousDigest = (lastDigest records).or previous ∧ evidence.Sealed encode hash := by
  induction records generalizing previous with
  | nil =>
    rw [List.nil_append, verifyFrom_cons]
    simp [verifyFrom, lastDigest]
  | cons first rest ih =>
    have hlast : (lastDigest (first :: rest)).or previous = (lastDigest rest).or (some first.receiptDigest) := by
      cases rest with
      | nil => rfl
      | cons second rest =>
        rw [lastDigest, lastDigest, List.getLast?_cons_cons]
        cases hlast : (second :: rest).getLast? with
        | none => simp at hlast
        | some last => rfl
    rw [List.cons_append, verifyFrom_cons, verifyFrom_cons, ih, hlast]
    constructor
    · rintro ⟨hprevious, hsealed, hverified, hnames, hown⟩
      exact ⟨⟨hprevious, hsealed, hverified⟩, hnames, hown⟩
    · rintro ⟨⟨hprevious, hsealed, hverified⟩, hnames, hown⟩
      exact ⟨hprevious, hsealed, hverified, hnames, hown⟩

theorem seal_sealed {draft evidence : PolicyEvidence} (h : draft.seal encode hash = .ok evidence) :
    evidence.Sealed encode hash ∧ evidence.previousDigest = draft.previousDigest := by
  unfold PolicyEvidence.seal at h
  cases hencode : encode draft.unsealed with
  | error failure =>
    rw [hencode] at h
    cases h
  | ok canonical =>
    rw [hencode] at h
    cases h
    exact ⟨⟨canonical, hencode, rfl⟩, rfl⟩

end

/-! ## The invariant -/

namespace GovernorState

/-- A call holds the entry of its conversation, and the map keeps it. -/
def Holds (s : GovernorState) (c e : Nat) : Prop :=
  c ∈ (s.entries e).holders ∧ s.chain.lookup (s.calls c).key = some e

end GovernorState

section

variable {Bytes Failure : Type} (encode : PolicyEvidence → Except Failure Bytes) (hash : Bytes → String)

/-- What a call can rely on where it is. -/
def PhaseOk (s : GovernorState) (c : Nat) : Phase → Prop
  | .idle | .waiting => True
  | .pruning _ _ => s.chainLock = some c
  | .making _ | .scanning _ _ => s.chainLock = some c ∧ s.chain.lookup (s.calls c).key = none
  | .leased e | .dropping e | .touched e => s.Holds c e
  | .sealing e | .closing e => s.Holds c e ∧ (s.entries e).lockedBy = some c
  | .publishing e evidence => s.Holds c e ∧ (s.entries e).lockedBy = some c ∧
      evidence.previousDigest = (s.entries e).digest ∧ evidence.Sealed encode hash
  | .published e evidence => s.Holds c e ∧ (s.entries e).lockedBy = some c ∧
      lastDigest (openRecords (s.calls c).key s.history) = some evidence.receiptDigest

/-- No record of the entry waits for its digest to be set. -/
def Settled (s : GovernorState) (e : Nat) : Prop := ∀ c evidence, (s.calls c).phase ≠ .published e evidence

/-- The map stays in its bound, one entry for each conversation, and the digest
of an entry is that of the last record since its eviction. -/
structure HeadsOk (capacity : Nat) (s : GovernorState) : Prop where
  room : s.chain.keys.card ≤ capacity
  fresh : ∀ key e, s.chain.lookup key = some e → e < s.made
  distinct : ∀ key key' e, s.chain.lookup key = some e → s.chain.lookup key' = some e → key = key'
  absent : ∀ key, s.chain.lookup key = none → openRecords key s.history = []
  head : ∀ key e, s.chain.lookup key = some e → Settled s e → (s.entries e).digest = lastDigest (openRecords key s.history)
  verified : ∀ key before after, s.history = before ++ after →
    verifyEvidenceChain encode hash (openRecords key before) = true

/-- What holds between any two actions. -/
structure ChainInv (capacity : Nat) (s : GovernorState) : Prop where
  calls : ∀ c, PhaseOk encode hash s c (s.calls c).phase
  heads : HeadsOk encode hash capacity s

/-- What an action of call `c` leaves to the other calls. -/
structure Frame (c : Nat) (s s' : GovernorState) : Prop where
  calls : ∀ c', c' ≠ c → s'.calls c' = s.calls c'
  chainLock : ∀ c', c' ≠ c → s.chainLock = some c' → s'.chainLock = some c' ∧
    ∀ key, s.chain.lookup key = none → s'.chain.lookup key = none
  held : ∀ c' e, c' ≠ c → s.Holds c' e → s'.Holds c' e
  locked : ∀ c' e, c' ≠ c → s.Holds c' e → (s.entries e).lockedBy = some c' →
    (s'.entries e).lockedBy = some c' ∧ (s'.entries e).digest = (s.entries e).digest ∧
    openRecords (s.calls c').key s'.history = openRecords (s.calls c').key s.history

variable {encode hash} {c : Nat} {s s' : GovernorState}

theorem PhaseOk.frame (h : Frame c s s') {c' : Nat} (hother : c' ≠ c) {phase : Phase} (hphase : PhaseOk encode hash s c' phase) :
    PhaseOk encode hash s' c' phase := by
  have hkey : (s'.calls c').key = (s.calls c').key := by rw [h.calls c' hother]
  cases phase with
  | idle => trivial
  | waiting => trivial
  | pruning now unseen => exact (h.chainLock c' hother hphase).1
  | making now =>
    obtain ⟨hlock, habsent⟩ := h.chainLock c' hother hphase.1
    refine ⟨hlock, ?_⟩
    rw [hkey]
    exact habsent _ hphase.2
  | scanning now unheld =>
    obtain ⟨hlock, habsent⟩ := h.chainLock c' hother hphase.1
    refine ⟨hlock, ?_⟩
    rw [hkey]
    exact habsent _ hphase.2
  | leased e => exact h.held c' e hother hphase
  | sealing e => exact ⟨h.held c' e hother hphase.1, (h.locked c' e hother hphase.1 hphase.2).1⟩
  | publishing e evidence =>
    obtain ⟨hheld, hlocked, hprevious, hsealed⟩ := hphase
    obtain ⟨hlocked', hdigest, -⟩ := h.locked c' e hother hheld hlocked
    exact ⟨h.held c' e hother hheld, hlocked', hprevious.trans hdigest.symm, hsealed⟩
  | published e evidence =>
    obtain ⟨hheld, hlocked, hlast⟩ := hphase
    obtain ⟨hlocked', -, hopen⟩ := h.locked c' e hother hheld hlocked
    refine ⟨h.held c' e hother hheld, hlocked', ?_⟩
    rw [hkey, hopen]
    exact hlast
  | closing e => exact ⟨h.held c' e hother hphase.1, (h.locked c' e hother hphase.1 hphase.2).1⟩
  | dropping e => exact h.held c' e hother hphase
  | touched e => exact h.held c' e hother hphase

/-- All calls are where they should be when the acting one is. -/
theorem Frame.phases (h : Frame c s s') (hcalls : ∀ c', PhaseOk encode hash s c' (s.calls c').phase)
    (hown : PhaseOk encode hash s' c (s'.calls c).phase) : ∀ c', PhaseOk encode hash s' c' (s'.calls c').phase := by
  intro c'
  by_cases heq : c' = c
  · rw [heq]
    exact hown
  · rw [h.calls c' heq]
    exact (hcalls c').frame h heq

namespace Frame

theorem refl (c : Nat) (s : GovernorState) : Frame c s s :=
  ⟨fun _ _ => rfl, fun _ _ h => ⟨h, fun _ h => h⟩, fun _ _ _ h => h, fun _ _ _ _ h => ⟨h, rfl, rfl⟩⟩

theorem trans {s'' : GovernorState} (h : Frame c s s') (h' : Frame c s' s'') : Frame c s s'' where
  calls c' hother := (h'.calls c' hother).trans (h.calls c' hother)
  chainLock c' hother hlock := by
    obtain ⟨hlock', habsent⟩ := h.chainLock c' hother hlock
    obtain ⟨hlock'', habsent'⟩ := h'.chainLock c' hother hlock'
    exact ⟨hlock'', fun key hkey => habsent' key (habsent key hkey)⟩
  held c' e hother hheld := h'.held c' e hother (h.held c' e hother hheld)
  locked c' e hother hheld hlocked := by
    obtain ⟨hlocked', hdigest, hopen⟩ := h.locked c' e hother hheld hlocked
    obtain ⟨hlocked'', hdigest', hopen'⟩ := h'.locked c' e hother (h.held c' e hother hheld) hlocked'
    rw [h.calls c' hother] at hopen'
    exact ⟨hlocked'', hdigest'.trans hdigest, hopen'.trans hopen⟩

theorem setCall (c : Nat) (s : GovernorState) (call : Call) : Frame c s (s.setCall c call) := by
  have hcalls : ∀ c', c' ≠ c → (s.setCall c call).calls c' = s.calls c' :=
    fun c' hother => Function.update_of_ne hother _ _
  refine ⟨hcalls, fun _ _ hlock => ⟨hlock, fun _ h => h⟩, fun c' e hother hheld => ⟨hheld.1, ?_⟩,
    fun _ _ _ _ hlocked => ⟨hlocked, rfl, rfl⟩⟩
  rw [hcalls c' hother]
  exact hheld.2

theorem setPhase (c : Nat) (s : GovernorState) (phase : Phase) : Frame c s (s.setPhase c phase) := setCall c s _

/-- Taking the lock of the map, or returning it. -/
theorem setLock (hlock : ∀ c', c' ≠ c → s.chainLock ≠ some c') (lock : Option Nat) : Frame c s { s with chainLock := lock } :=
  ⟨fun _ _ => rfl, fun c' hother h => absurd h (hlock c' hother), fun _ _ _ h => h, fun _ _ _ _ h => ⟨h, rfl, rfl⟩⟩

/-- Changing an entry without taking it or its lock from another call. -/
theorem setEntry {e : Nat} {entry : ChainEntry} (hholders : ∀ c', c' ≠ c → c' ∈ (s.entries e).holders → c' ∈ entry.holders)
    (hlocked : ∀ c', c' ≠ c → (s.entries e).lockedBy = some c' →
      entry.lockedBy = some c' ∧ entry.digest = (s.entries e).digest) : Frame c s (s.setEntry e entry) := by
  have hentries : ∀ e', (s.setEntry e entry).entries e' = if e' = e then entry else s.entries e' :=
    fun e' => Function.update_apply _ _ _ _
  refine ⟨fun _ _ => rfl, fun _ _ hlock => ⟨hlock, fun _ h => h⟩, fun c' e' hother hheld => ⟨?_, hheld.2⟩,
    fun c' e' hother _ h => ?_⟩
  · rw [hentries]
    split
    · rename_i heq
      rw [heq] at hheld
      exact hholders c' hother hheld.1
    · exact hheld.1
  · rw [hentries]
    split
    · rename_i heq
      rw [heq] at h ⊢
      obtain ⟨hlocked', hdigest⟩ := hlocked c' hother h
      exact ⟨hlocked', hdigest, rfl⟩
    · exact ⟨h, rfl, rfl⟩

/-- Evicting an entry that no call holds, under the lock of the map. -/
theorem evict (hlock : s.chainLock = some c) {key : ChainKey} (hunheld : s.isUnheld key = true) : Frame c s (s.evict key) := by
  -- A call that holds an entry is of another conversation.
  have hkeys : ∀ c' e, s.Holds c' e → (s.calls c').key ≠ key := by
    intro c' e hheld heq
    obtain ⟨e', he', hempty⟩ := (Option.any_eq_true _ _).1 hunheld
    have hlookup := hheld.2
    rw [heq, he'] at hlookup
    cases hlookup
    have hmem := hheld.1
    rw [of_decide_eq_true hempty] at hmem
    exact Finset.notMem_empty c' hmem
  refine ⟨fun _ _ => rfl, fun c' hother h => ?_, fun c' e hother hheld => ⟨hheld.1, ?_⟩, fun c' e hother hheld h => ⟨h, rfl, ?_⟩⟩
  · cases hlock.symm.trans h
    exact absurd rfl hother
  · exact (Finmap.lookup_erase_ne (hkeys c' e hheld)).trans hheld.2
  · exact (openRecords_evicted _ _ _).trans (if_neg (hkeys c' e hheld).symm)

/-- Publishing a record under the lock of its digest. -/
theorem log {e : Nat} (hheld : s.Holds c e) (hlocked : (s.entries e).lockedBy = some c) (evidence : PolicyEvidence) :
    Frame c s (s.log (.published (s.calls c).key evidence)) := by
  refine ⟨fun _ _ => rfl, fun _ _ hlock => ⟨hlock, fun _ h => h⟩, fun _ _ _ h => h, fun c' e' hother hheld' h => ⟨h, rfl, ?_⟩⟩
  refine (openRecords_published _ _ _ _).trans (if_neg fun heq => ?_)
  have hsame := hheld.2
  rw [heq, hheld'.2] at hsame
  cases hsame
  cases hlocked.symm.trans h
  exact hother rfl

/-- A new entry for a conversation without one, under the lock of the map. -/
theorem insertEntry (hlock : s.chainLock = some c) {key : ChainKey} (habsent : s.chain.lookup key = none)
    (hfresh : ∀ k e, s.chain.lookup k = some e → e < s.made) (now : Nat) : Frame c s (s.insertEntry key now) := by
  have hentries : ∀ c' e, s.Holds c' e → (s.insertEntry key now).entries e = s.entries e := by
    intro c' e hheld
    exact Function.update_of_ne (hfresh _ e hheld.2).ne _ _
  refine ⟨fun _ _ => rfl, fun c' hother h => ?_, fun c' e hother hheld => ⟨?_, ?_⟩, fun c' e hother hheld h => ?_⟩
  · cases hlock.symm.trans h
    exact absurd rfl hother
  · rw [hentries c' e hheld]
    exact hheld.1
  · refine (Finmap.lookup_insert_of_ne _ fun heq => ?_).trans hheld.2
    have heq : (s.calls c').key = key := heq
    have hlookup := hheld.2
    rw [heq, habsent] at hlookup
    cases hlookup
  · rw [hentries c' e hheld]
    exact ⟨h, rfl, rfl⟩

end Frame

/-! ## The heads -/

variable {capacity : Nat}

/-- Only the map, the digests and the records waiting for one matter. -/
theorem HeadsOk.quiet (h : HeadsOk encode hash capacity s) (hchain : s'.chain = s.chain) (hmade : s'.made = s.made)
    (hhistory : s'.history = s.history)
    (hdigest : ∀ e, Settled s' e → Settled s e ∧ (s'.entries e).digest = (s.entries e).digest) :
    HeadsOk encode hash capacity s' := by
  refine ⟨?_, ?_, ?_, ?_, fun key e hlookup hsettled => ?_, ?_⟩
  · rw [hchain]
    exact h.room
  · rw [hchain, hmade]
    exact h.fresh
  · rw [hchain]
    exact h.distinct
  · rw [hchain, hhistory]
    exact h.absent
  · rw [hchain] at hlookup
    rw [hhistory, (hdigest e hsettled).2]
    exact h.head key e hlookup (hdigest e hsettled).1
  · rw [hhistory]
    exact h.verified

/-- A call moves on that has no record waiting. -/
theorem HeadsOk.setCall (h : HeadsOk encode hash capacity s)
    (hphase : ∀ e evidence, (s.calls c).phase ≠ .published e evidence) (call : Call) :
    HeadsOk encode hash capacity (s.setCall c call) := by
  refine h.quiet rfl rfl rfl fun e hsettled => ⟨fun c' evidence => ?_, rfl⟩
  by_cases heq : c' = c
  · rw [heq]
    exact hphase e evidence
  · have := hsettled c' evidence
    rw [(Frame.setCall c s call).calls c' heq] at this
    exact this

theorem HeadsOk.setLock (h : HeadsOk encode hash capacity s) (lock : Option Nat) :
    HeadsOk encode hash capacity { s with chainLock := lock } :=
  h.quiet rfl rfl rfl fun _ hsettled => ⟨hsettled, rfl⟩

theorem HeadsOk.setEntry (h : HeadsOk encode hash capacity s) {e : Nat} {entry : ChainEntry}
    (hdigest : entry.digest = (s.entries e).digest) : HeadsOk encode hash capacity (s.setEntry e entry) := by
  refine h.quiet rfl rfl rfl fun e' hsettled => ⟨hsettled, ?_⟩
  by_cases heq : e' = e
  · rw [heq]
    exact (congrArg ChainEntry.digest (Function.update_self _ _ _)).trans hdigest
  · exact congrArg ChainEntry.digest (Function.update_of_ne heq _ _)

/-- One more event: what was verified before stays, and the new records are. -/
theorem verified_snoc {history : List ChainEvent} {event : ChainEvent} {key : ChainKey}
    (h : ∀ before after, history = before ++ after → verifyEvidenceChain encode hash (openRecords key before) = true)
    (hnew : verifyEvidenceChain encode hash (openRecords key (history ++ [event])) = true) :
    ∀ before after, history ++ [event] = before ++ after →
      verifyEvidenceChain encode hash (openRecords key before) = true := by
  intro before after hsplit
  rcases List.eq_nil_or_concat after with rfl | ⟨rest, last, rfl⟩
  · rw [List.append_nil] at hsplit
    rw [← hsplit]
    exact hnew
  · rw [List.concat_eq_append, ← List.append_assoc] at hsplit
    exact h before rest (List.append_inj_left' hsplit rfl)

theorem HeadsOk.evict (h : HeadsOk encode hash capacity s) (key : ChainKey) : HeadsOk encode hash capacity (s.evict key) := by
  have hlookup : ∀ k e, (s.evict key).chain.lookup k = some e → k ≠ key ∧ s.chain.lookup k = some e := by
    intro k e hk
    by_cases heq : k = key
    · rw [heq] at hk
      cases (Finmap.lookup_erase key s.chain).symm.trans hk
    · exact ⟨heq, (Finmap.lookup_erase_ne heq).symm.trans hk⟩
  have hopen : ∀ k, openRecords k (s.evict key).history = if key = k then [] else openRecords k s.history :=
    fun k => openRecords_evicted k key s.history
  refine ⟨?_, fun k e hk => h.fresh k e (hlookup k e hk).2, fun k k' e hk hk' => ?_, fun k hk => ?_, fun k e hk hsettled => ?_,
    fun k => ?_⟩
  · exact (Finset.card_le_card (by
      rw [show (s.evict key).chain.keys = s.chain.keys.erase key from Finmap.keys_erase key s.chain]
      exact Finset.erase_subset _ _)).trans h.room
  · exact h.distinct k k' e (hlookup k e hk).2 (hlookup k' e hk').2
  · rw [hopen]
    split
    · rfl
    · rename_i hne
      exact h.absent k ((Finmap.lookup_erase_ne (Ne.symm hne)).symm.trans hk)
  · obtain ⟨hne, hold⟩ := hlookup k e hk
    rw [hopen, if_neg hne.symm]
    exact h.head k e hold hsettled
  · refine verified_snoc (h.verified k) ?_
    rw [openRecords_evicted]
    split
    · rfl
    · exact h.verified k s.history [] (List.append_nil _).symm

theorem HeadsOk.insertEntry (h : HeadsOk encode hash capacity s) {key : ChainKey} (habsent : s.chain.lookup key = none)
    (hroom : s.chain.keys.card < capacity) (now : Nat) : HeadsOk encode hash capacity (s.insertEntry key now) := by
  have hlookup : ∀ k e, (s.insertEntry key now).chain.lookup k = some e →
      (k = key ∧ e = s.made) ∨ (k ≠ key ∧ s.chain.lookup k = some e) := by
    intro k e hk
    by_cases heq : k = key
    · rw [heq] at hk
      cases (Finmap.lookup_insert s.chain).symm.trans hk
      exact .inl ⟨heq, rfl⟩
    · exact .inr ⟨heq, (Finmap.lookup_insert_of_ne s.chain heq).symm.trans hk⟩
  refine ⟨?_, fun k e hk => ?_, fun k k' e hk hk' => ?_, fun k hk => ?_, fun k e hk hsettled => ?_, h.verified⟩
  · refine (Finset.card_le_card (fun k hk => ?_ : (s.insertEntry key now).chain.keys ⊆ insert key s.chain.keys)).trans
      ((Finset.card_insert_le _ _).trans hroom)
    rw [Finset.mem_insert, Finmap.mem_keys]
    exact Finmap.mem_insert.1 (Finmap.mem_keys.1 hk)
  · rcases hlookup k e hk with ⟨-, rfl⟩ | ⟨-, hold⟩
    · exact Nat.lt_succ_self _
    · exact (h.fresh k e hold).trans (Nat.lt_succ_self _)
  · rcases hlookup k e hk with ⟨rfl, rfl⟩ | ⟨-, hold⟩ <;> rcases hlookup k' _ hk' with ⟨rfl, hmade⟩ | ⟨-, hold'⟩
    · rfl
    · exact absurd (h.fresh k' _ hold') (Nat.lt_irrefl _)
    · rw [hmade] at hold
      exact absurd (h.fresh k _ hold) (Nat.lt_irrefl _)
    · exact h.distinct k k' e hold hold'
  · refine h.absent k ?_
    by_cases heq : k = key
    · rw [heq]
      exact habsent
    · exact (Finmap.lookup_insert_of_ne s.chain heq).symm.trans hk
  · rcases hlookup k e hk with ⟨rfl, rfl⟩ | ⟨-, hold⟩
    · rw [show (s.insertEntry k now).history = s.history from rfl, h.absent k habsent]
      exact congrArg ChainEntry.digest (Function.update_self s.made _ s.entries)
    · refine (congrArg ChainEntry.digest (Function.update_of_ne (h.fresh k e hold).ne _ s.entries)).trans ?_
      exact h.head k e hold hsettled

/-- Under the lock of its digest an entry has no other record waiting. -/
theorem ChainInv.settled (h : ChainInv encode hash capacity s) {e : Nat} (hlocked : (s.entries e).lockedBy = some c)
    (hphase : ∀ evidence, (s.calls c).phase ≠ .published e evidence) : Settled s e := by
  intro c' evidence hpublished
  have hother := h.calls c'
  rw [hpublished] at hother
  cases hlocked.symm.trans hother.2.1
  exact hphase evidence hpublished

theorem HeadsOk.publish (h : ChainInv encode hash capacity s) {e : Nat} {evidence : PolicyEvidence}
    (hphase : (s.calls c).phase = .publishing e evidence) :
    HeadsOk encode hash capacity ((s.log (.published (s.calls c).key evidence)).setPhase c (.published e evidence)) := by
  have hown := h.calls c
  rw [hphase] at hown
  obtain ⟨⟨-, hlookup⟩, hlocked, hprevious, hsealed⟩ := hown
  have hnext : verifyEvidenceChain encode hash (openRecords (s.calls c).key s.history ++ [evidence]) = true := by
    refine verifyFrom_append.2 ⟨h.heads.verified _ s.history [] (List.append_nil _).symm, ?_, hsealed⟩
    rw [Option.or_none, hprevious]
    exact h.heads.head _ e hlookup (h.settled hlocked (by simp [hphase]))
  have hothers : ∀ k, (s.calls c).key ≠ k →
      openRecords k (s.history ++ [.published (s.calls c).key evidence]) = openRecords k s.history :=
    fun k hne => (openRecords_published _ _ _ _).trans (if_neg hne)
  refine ⟨h.heads.room, h.heads.fresh, h.heads.distinct, fun k hk => ?_, fun k e' hk hsettled => ?_, fun k => ?_⟩
  · refine (hothers k fun heq => ?_).trans (h.heads.absent k hk)
    rw [← heq] at hk
    cases hlookup.symm.trans hk
  · by_cases heq : (s.calls c).key = k
    · rw [← heq] at hk
      cases hlookup.symm.trans hk
      -- The record itself waits for its digest.
      refine absurd ?_ (hsettled c evidence)
      simp [GovernorState.setPhase, GovernorState.setCall]
    · refine Eq.trans ?_ (congrArg lastDigest (hothers k heq)).symm
      refine h.heads.head k e' hk fun c' evidence' hpublished => hsettled c' evidence' ?_
      have hne : c' ≠ c := by
        rintro rfl
        rw [hphase] at hpublished
        cases hpublished
      rw [(Frame.setPhase c _ _).calls c' hne]
      exact hpublished
  · refine verified_snoc (h.heads.verified k) ?_
    by_cases heq : (s.calls c).key = k
    · rw [openRecords_published, if_pos heq, ← heq]
      exact hnext
    · rw [hothers k heq]
      exact h.heads.verified k s.history [] (List.append_nil _).symm

theorem HeadsOk.advance (h : ChainInv encode hash capacity s) {e : Nat} {evidence : PolicyEvidence}
    (hphase : (s.calls c).phase = .published e evidence) :
    HeadsOk encode hash capacity
      ((s.setEntry e { s.entries e with digest := some evidence.receiptDigest }).setPhase c (.closing e)) := by
  have hown := h.calls c
  rw [hphase] at hown
  obtain ⟨⟨-, hlookup⟩, -, hlast⟩ := hown
  refine ⟨h.heads.room, h.heads.fresh, h.heads.distinct, h.heads.absent, fun k e' hk hsettled => ?_, h.heads.verified⟩
  by_cases heq : e' = e
  · obtain rfl := heq
    obtain rfl := h.heads.distinct _ _ _ hlookup hk
    refine Eq.trans ?_ hlast.symm
    exact congrArg ChainEntry.digest (Function.update_self e' _ s.entries)
  · refine (congrArg ChainEntry.digest (Function.update_of_ne heq _ s.entries)).trans ?_
    refine h.heads.head k e' hk fun c' evidence' hpublished => hsettled c' evidence' ?_
    have hne : c' ≠ c := by
      rintro rfl
      rw [hphase] at hpublished
      cases hpublished
      exact heq rfl
    rw [(Frame.setPhase c _ _).calls c' hne]
    exact hpublished

/-! ## Steps and runs -/

theorem phaseOk_setPhase {phase : Phase} (h : PhaseOk encode hash s c phase) :
    PhaseOk encode hash (s.setPhase c phase) c ((s.setPhase c phase).calls c).phase := by
  have hphase : ((s.setPhase c phase).calls c).phase = phase := by simp [GovernorState.setPhase, GovernorState.setCall]
  have hkey : ((s.setPhase c phase).calls c).key = (s.calls c).key := by simp [GovernorState.setPhase, GovernorState.setCall]
  rw [hphase]
  unfold PhaseOk GovernorState.Holds at h ⊢
  rw [hkey]
  exact h

/-- A call moves on where nothing else changes for the heads. -/
theorem ChainInv.move (h : ChainInv encode hash capacity s) (hframe : Frame c s s') (hcall : s'.calls c = s.calls c)
    (hheads : HeadsOk encode hash capacity s') (hphase : ∀ e evidence, (s.calls c).phase ≠ .published e evidence)
    {phase : Phase} (hown : PhaseOk encode hash s' c phase) : ChainInv encode hash capacity (s'.setPhase c phase) := by
  refine ⟨(hframe.trans (Frame.setPhase c s' phase)).phases h.calls (phaseOk_setPhase hown), hheads.setCall ?_ _⟩
  rw [hcall]
  exact hphase

/-- A call under the lock of the map keeps all others out. -/
theorem not_locked (hlock : s.chainLock = some c) : ∀ c', c' ≠ c → s.chainLock ≠ some c' := by
  intro c' hother hlock'
  cases hlock.symm.trans hlock'
  exact hother rfl

/-- The frame and the heads of a lease. The caller knows the rest. -/
theorem lease_frame (hlock : s.chainLock = some c) (e : Nat) : Frame c s (s.lease c e) := by
  refine ((Frame.setLock (not_locked hlock) none).trans (Frame.setEntry ?_ ?_)).trans (Frame.setPhase c _ _)
  · exact fun c' _ hmem => Finset.mem_insert_of_mem hmem
  · exact fun c' _ hlocked => ⟨hlocked, rfl⟩

theorem HeadsOk.lease (h : HeadsOk encode hash capacity s) (hphase : ∀ e evidence, (s.calls c).phase ≠ .published e evidence)
    (e : Nat) : HeadsOk encode hash capacity (s.lease c e) := by
  have hentry : HeadsOk encode hash capacity
      ({ s with chainLock := none }.setEntry e { s.entries e with holders := insert c (s.entries e).holders }) :=
    HeadsOk.setEntry (h.setLock none) rfl
  exact hentry.setCall hphase _

theorem phaseOk_lease {e : Nat} (hlookup : s.chain.lookup (s.calls c).key = some e) :
    PhaseOk encode hash (s.lease c e) c ((s.lease c e).calls c).phase := by
  refine phaseOk_setPhase ⟨?_, hlookup⟩
  simp

variable {r : GovernorRetention}

theorem start_chainInv (h : ChainInv encode hash capacity s) (hphase : (s.calls c).phase = .idle) (key : ChainKey) :
    ChainInv encode hash capacity (s.setCall c ⟨key, .waiting⟩) := by
  refine ⟨(Frame.setCall c s _).phases h.calls ?_, h.heads.setCall (by simp [hphase]) _⟩
  simp [GovernorState.setCall, PhaseOk]

theorem evict_chainInv (h : ChainInv encode hash capacity s) (hlock : s.chainLock = some c)
    (hphase : ∀ e evidence, (s.calls c).phase ≠ .published e evidence) {key : ChainKey} (hunheld : s.isUnheld key = true)
    {phase : Phase} (hown : PhaseOk encode hash (s.evict key) c phase) :
    ChainInv encode hash capacity ((s.evict key).setPhase c phase) :=
  h.move (Frame.evict hlock hunheld) rfl (h.heads.evict key) hphase hown

theorem make_chainInv (h : ChainInv encode hash capacity s) (hlock : s.chainLock = some c)
    (habsent : s.chain.lookup (s.calls c).key = none) (hphase : ∀ e evidence, (s.calls c).phase ≠ .published e evidence)
    (hroom : s.chain.keys.card < capacity) (now : Nat) :
    ChainInv encode hash capacity ((s.insertEntry (s.calls c).key now).lease c s.made) := by
  have hframe := Frame.insertEntry hlock habsent h.heads.fresh now
  have hlocked : (s.insertEntry (s.calls c).key now).chainLock = some c := hlock
  refine ⟨(hframe.trans (lease_frame hlocked s.made)).phases h.calls (phaseOk_lease ?_), ?_⟩
  · exact Finmap.lookup_insert s.chain
  · exact (h.heads.insertEntry habsent hroom now).lease hphase s.made

theorem publish_chainInv (h : ChainInv encode hash capacity s) {e : Nat} {evidence : PolicyEvidence}
    (hphase : (s.calls c).phase = .publishing e evidence) :
    ChainInv encode hash capacity ((s.log (.published (s.calls c).key evidence)).setPhase c (.published e evidence)) := by
  have hown := h.calls c
  rw [hphase] at hown
  obtain ⟨hheld, hlocked, -, -⟩ := hown
  refine ⟨((Frame.log hheld hlocked evidence).trans (Frame.setPhase c _ _)).phases h.calls (phaseOk_setPhase ?_),
    HeadsOk.publish h hphase⟩
  refine ⟨hheld, hlocked, ?_⟩
  show lastDigest (openRecords (s.calls c).key (s.history ++ [.published (s.calls c).key evidence])) = _
  rw [openRecords_published, if_pos rfl, lastDigest, List.getLast?_concat]
  rfl

theorem advance_chainInv (h : ChainInv encode hash capacity s) {e : Nat} {evidence : PolicyEvidence}
    (hphase : (s.calls c).phase = .published e evidence) : ChainInv encode hash capacity
      ((s.setEntry e { s.entries e with digest := some evidence.receiptDigest }).setPhase c (.closing e)) := by
  have hown := h.calls c
  rw [hphase] at hown
  obtain ⟨⟨hholds, hlookup⟩, hlocked, -⟩ := hown
  refine ⟨Frame.phases (Frame.trans (Frame.setEntry ?_ ?_) (Frame.setPhase c _ _)) h.calls (phaseOk_setPhase ?_),
    HeadsOk.advance h hphase⟩
  · exact fun _ _ hmem => hmem
  · intro c' hother hlocked'
    cases hlocked.symm.trans hlocked'
    exact absurd rfl hother
  · exact ⟨⟨by simpa using hholds, hlookup⟩, by simpa using hlocked⟩

/-- A change of an entry that keeps its digest, and the lock of every other call. -/
theorem entry_chainInv (h : ChainInv encode hash capacity s) {e : Nat} {entry : ChainEntry}
    (hholders : ∀ c', c' ≠ c → c' ∈ (s.entries e).holders → c' ∈ entry.holders)
    (hlocked : ∀ c', c' ≠ c → (s.entries e).lockedBy = some c' → entry.lockedBy = some c')
    (hdigest : entry.digest = (s.entries e).digest) (hphase : ∀ e evidence, (s.calls c).phase ≠ .published e evidence)
    {phase : Phase} (hown : PhaseOk encode hash (s.setEntry e entry) c phase) :
    ChainInv encode hash capacity ((s.setEntry e entry).setPhase c phase) :=
  h.move (Frame.setEntry hholders fun c' hother hlock => ⟨hlocked c' hother hlock, hdigest⟩) rfl
    (h.heads.setEntry hdigest) hphase hown

theorem step_chainInv (h : ChainInv encode hash r.capacity s) {action : ChainAction}
    (hstep : s.next encode hash r c action = some s') : ChainInv encode hash r.capacity s' := by
  have hown := h.calls c
  unfold GovernorState.next at hstep
  split at hstep
  · -- A call starts.
    rename_i key hphase
    cases hstep
    exact start_chainInv h hphase key
  · -- It takes the lock of the map.
    rename_i now hphase
    rw [hphase] at hown
    split at hstep
    · rename_i hfree
      cases hstep
      refine h.move (Frame.setLock (fun c' _ hlock => ?_) (some c)) rfl (h.heads.setLock _) (by simp [hphase]) rfl
      rw [hfree] at hlock
      cases hlock
    · cases hstep
  · -- It visits one entry to prune it.
    rename_i now unseen key hphase
    rw [hphase] at hown
    have hlock : s.chainLock = some c := hown
    split at hstep
    · cases hstep
      split
      · rename_i hexpired
        rw [GovernorState.isExpired, Bool.and_eq_true] at hexpired
        exact evict_chainInv h hlock (by simp [hphase]) hexpired.1 hlock
      · exact h.move (Frame.refl c s) rfl h.heads (by simp [hphase]) hlock
    · cases hstep
  · -- It looks its conversation up.
    rename_i now unseen hphase
    rw [hphase] at hown
    have hlock : s.chainLock = some c := hown
    split at hstep
    · split at hstep
      · rename_i e hlookup
        cases hstep
        exact ⟨(lease_frame hlock e).phases h.calls (phaseOk_lease hlookup), h.heads.lease (by simp [hphase]) e⟩
      · rename_i hlookup
        cases hstep
        exact h.move (Frame.refl c s) rfl h.heads (by simp [hphase]) ⟨hlock, hlookup⟩
    · cases hstep
  · -- It makes an entry, or finds the map full.
    rename_i now hphase
    rw [hphase] at hown
    obtain ⟨hlock, habsent⟩ := hown
    split at hstep
    · rename_i hroom
      cases hstep
      exact make_chainInv h hlock habsent (by simp [hphase]) hroom now
    · cases hstep
      exact h.move (Frame.refl c s) rfl h.heads (by simp [hphase]) ⟨hlock, habsent⟩
  · -- It evicts the oldest entry that nobody holds.
    rename_i now unheld key hphase
    rw [hphase] at hown
    obtain ⟨hlock, habsent⟩ := hown
    split at hstep
    · rename_i holdest
      rw [Bool.and_eq_true] at holdest
      cases hstep
      refine evict_chainInv h hlock (by simp [hphase]) holdest.1 ⟨hlock, ?_⟩
      by_cases heq : (s.calls c).key = key
      · exact (congrArg (fun k => (s.chain.erase key).lookup k) heq).trans (Finmap.lookup_erase key s.chain)
      · exact (Finmap.lookup_erase_ne heq).trans habsent
    · cases hstep
  · -- Every entry is held: it waits for a release.
    rename_i now unheld hphase
    rw [hphase] at hown
    split at hstep
    · cases hstep
      exact h.move (Frame.setLock (not_locked hown.1) none) rfl (h.heads.setLock _) (by simp [hphase]) trivial
    · cases hstep
  · -- It takes the lock of the digest.
    rename_i e hphase
    rw [hphase] at hown
    split at hstep
    · rename_i hfree
      cases hstep
      refine entry_chainInv h ?_ ?_ ?_ ?_ ?_
      · exact fun _ _ hmem => hmem
      · intro c' _ hlock
        rw [hfree] at hlock
        cases hlock
      · rfl
      · simp [hphase]
      · exact ⟨⟨by simpa using hown.1, hown.2⟩, by simp⟩
    · cases hstep
  · -- It seals the evidence against the digest it reads there.
    rename_i e draft hphase
    rw [hphase] at hown
    split at hstep
    · rename_i evidence hseal
      cases hstep
      obtain ⟨hsealed, hprevious⟩ := seal_sealed hseal
      exact h.move (Frame.refl c s) rfl h.heads (by simp [hphase]) ⟨hown.1, hown.2, hprevious, hsealed⟩
    · cases hstep
      exact h.move (Frame.refl c s) rfl h.heads (by simp [hphase]) hown
  · -- The publish lands or fails.
    rename_i e evidence landed hphase
    rw [hphase] at hown
    split at hstep
    · cases hstep
      exact publish_chainInv h hphase
    · cases hstep
      exact h.move (Frame.refl c s) rfl h.heads (by simp [hphase]) ⟨hown.1, hown.2.1⟩
  · -- The digest moves to what was published.
    rename_i e evidence hphase
    cases hstep
    exact advance_chainInv h hphase
  · -- It gives the lock of the digest back.
    rename_i e hphase
    rw [hphase] at hown
    cases hstep
    refine entry_chainInv h ?_ ?_ ?_ ?_ ?_
    · exact fun _ _ hmem => hmem
    · intro c' hother hlock
      cases hown.2.symm.trans hlock
      exact absurd rfl hother
    · rfl
    · simp [hphase]
    · exact ⟨by simpa using hown.1.1, hown.1.2⟩
  · -- The entry is touched.
    rename_i e now hphase
    rw [hphase] at hown
    cases hstep
    refine entry_chainInv h ?_ ?_ ?_ ?_ ?_
    · exact fun _ _ hmem => hmem
    · exact fun _ _ hlock => hlock
    · rfl
    · simp [hphase]
    · exact ⟨by simpa using hown.1, hown.2⟩
  · -- The entry is given up.
    rename_i e hphase
    cases hstep
    refine entry_chainInv h ?_ ?_ ?_ ?_ ?_
    · exact fun _ hother hmem => Finset.mem_erase.2 ⟨hother, hmem⟩
    · exact fun _ _ hlock => hlock
    · rfl
    · simp [hphase]
    · trivial
  · cases hstep

theorem new_chainInv (capacity : Nat) : ChainInv encode hash capacity .new := by
  have hempty : ∀ key e, GovernorState.new.chain.lookup key ≠ some e := by
    intro key e hlookup
    cases (Finmap.lookup_empty key).symm.trans hlookup
  refine ⟨fun _ => trivial, Nat.zero_le _, fun key e h => (hempty key e h).elim, fun key _ e h => (hempty key e h).elim,
    fun _ _ => rfl, fun key e h => (hempty key e h).elim, fun key before after hsplit => ?_⟩
  obtain ⟨rfl, -⟩ := List.append_eq_nil_iff.1 hsplit.symm
  rfl

theorem PhaseOk.holds {phase : Phase} (h : PhaseOk encode hash s c phase) {e : Nat} (hentry : phase.entry = some e) :
    s.Holds c e := by
  cases phase with
  | leased | dropping | touched =>
    cases hentry
    exact h
  | sealing | closing | publishing | published =>
    cases hentry
    exact h.1
  | idle | waiting | pruning | making | scanning => cases hentry

end

/-- In every interleaving the map stays within its capacity and keeps what a
call holds, and the records published for a conversation from one eviction of
its head to the next are a chain that verifies. -/
theorem evidence_chains_verified {Bytes Failure : Type} {encode : PolicyEvidence → Except Failure Bytes}
    {hash : Bytes → String} {retention : GovernorRetention} {actions : List (Nat × ChainAction)} {s : GovernorState}
    (h : Lib.Run (GovernorState.Step encode hash retention) .new actions s) :
    s.chain.keys.card ≤ max retention.capacity 1 ∧
      (∀ c e, (s.calls c).phase.entry = some e → s.chain.lookup (s.calls c).key = some e) ∧
      ∀ key before events after, s.history = before ++ events ++ after →
        (before = [] ∨ ∃ earlier, before = earlier ++ [.evicted key]) → .evicted key ∉ events →
        verifyEvidenceChain encode hash (publishedFor key events) = true := by
  have hinv : ChainInv encode hash retention.atLeastOne.capacity s :=
    h.inv _ (new_chainInv _) fun _ _ _ hinv hstep => step_chainInv hinv hstep
  refine ⟨hinv.heads.room, fun c e hentry => ((hinv.calls c).holds hentry).2, ?_⟩
  intro key before events after hsplit hbefore hnone
  rw [← openRecords_append hbefore hnone]
  exact hinv.heads.verified key (before ++ events) after hsplit

/-- Two calls lease one head before either publishes. A third, of another
conversation, finds the map full and evicts the head. -/
def leasedTwice : List (Nat × ChainAction) :=
  [(0, .start none), (0, .lockChain 1), (0, .get), (0, .make),
    (1, .start none), (1, .lockChain 2), (1, .prune none), (1, .get),
    (0, .lockDigest), (0, .seal firstDecision), (0, .publish true), (0, .advance), (0, .unlock),
    (1, .lockDigest), (0, .touch 3), (0, .release),
    (1, .seal secondDecision), (1, .publish true), (1, .advance), (1, .unlock), (1, .touch 4), (1, .release),
    (2, .start (some 7)), (2, .lockChain 5), (2, .prune none), (2, .get), (2, .make), (2, .remove none), (2, .make)]

theorem leasedTwice_verified : ∃ s, Lib.Run (GovernorState.Step encodeKnown hashKnown ⟨1, 1000⟩) .new leasedTwice s ∧
    s.history = [.published none firstDecision, .published none secondDecision, .evicted none] ∧
    verifyEvidenceChain encodeKnown hashKnown
      (publishedFor none [.published none firstDecision, .published none secondDecision]) = true := by
  have hhistory : (leasedTwice.foldlM
      (fun s a => GovernorState.next encodeKnown hashKnown (GovernorRetention.atLeastOne ⟨1, 1000⟩) s a.1 a.2) .new).map (·.history) =
      some [.published none firstDecision, .published none secondDecision, .evicted none] := by decide +kernel
  obtain ⟨s, hs, hlog⟩ := Option.map_eq_some_iff.1 hhistory
  have hrun : Lib.Run (GovernorState.Step encodeKnown hashKnown ⟨1, 1000⟩) .new leasedTwice s := Lib.Run.foldlM_iff.2 hs
  refine ⟨s, hrun, hlog, ?_⟩
  exact (evidence_chains_verified hrun).2.2 none [] _ [.evicted none] hlog (.inl rfl) (by simp)

end LaserSdk.Govern

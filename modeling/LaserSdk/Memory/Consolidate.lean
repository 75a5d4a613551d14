import LaserSdk.Memory.Recalled
/-!
# Consolidation

A pass recalls the newest items of a scope through a bounded window, folds the
messages among them into summaries if it has a summarizer, and prunes the tail
of what it saw. Any backend may stand behind it. What lies beyond the window is
neither kept nor pruned.
-/

namespace LaserSdk.Memory

/-! ## The pass -/

inductive Lifetime where
  | session
  | durable
  deriving DecidableEq, Repr

/-- The owner of an item and how long it is meant to live. -/
structure PassScope where
  owner : MemoryScope
  lifetime : Lifetime

/-- What a pass reads of a recalled item. -/
structure PassItem where
  id : Nat
  kind : MemoryKind
  conversation : Nat
  payload : Bytes
  deriving DecidableEq, Repr

/-- A call on a backend with the state `σ` behind it. A call that fails may
have changed the state. -/
abbrev Call (σ ε α : Type) := σ → Except ε α × σ

structure Backend (σ ε : Type) where
  /-- `recall`. -/
  recallItems : PassScope → MemoryQuery → Call σ ε (List PassItem)
  append : PassScope → Nat → MemoryKind → Bytes → Call σ ε Unit
  forget : PassScope → Nat → Call σ ε Unit
  /-- `MemoryId::new`. -/
  newId : σ → Nat

structure ConsolidationReport where
  summarized : Nat
  pruned : Nat
  deriving DecidableEq, Repr

structure DefaultConsolidator (ε : Type) where
  maxItems : Nat
  summarizer : Option (List Bytes → Except ε Bytes)
  pruneSummarized : Bool

def consolidationWindow : Nat := 10000

/-- Grouped by conversation, in the order each first appears. -/
def byConversation (items : List PassItem) : List (Nat × List PassItem) :=
  items.foldl
    (fun groups item =>
      if groups.any (·.1 == item.conversation) then
        groups.map fun group => if group.1 == item.conversation then (group.1, group.2 ++ [item]) else group
      else groups ++ [(item.conversation, [item])])
    []

section

variable {σ ε : Type} (memory : Backend σ ε)

/-- Forget one after another and count what succeeded. -/
def forgetEach (scope : PassScope) : List Nat → σ → Nat × σ
  | [], s => (0, s)
  | id :: ids, s =>
    match memory.forget scope id s with
    | (.ok (), s) =>
      let (pruned, s) := forgetEach scope ids s
      (pruned + 1, s)
    | (.error _, s) => forgetEach scope ids s

/-- Fold each conversation and store its summary. -/
def summarizeEach (summarizer : List Bytes → Except ε Bytes) (scope : PassScope) :
    List (Nat × List PassItem) → Call σ ε Unit
  | [], s => (.ok (), s)
  | (conversation, turns) :: groups, s =>
    match summarizer (turns.map (·.payload)) with
    | .error error => (.error error, s)
    | .ok summary =>
      let summaryScope : PassScope := ⟨{ scope.owner with conversation := some conversation }, .durable⟩
      match memory.append summaryScope (memory.newId s) .summary summary s with
      | (.error error, s) => (.error error, s)
      | (.ok (), s) => summarizeEach summarizer scope groups s

/-- The summarize half, with the items it leaves to the prune half. -/
def summarizePass (c : DefaultConsolidator ε) (scope : PassScope) (items : List PassItem) :
    Call σ ε (ConsolidationReport × List PassItem) := fun s =>
  match c.summarizer with
  | none => (.ok (⟨0, 0⟩, items), s)
  | some summarizer =>
    let sessions := items.filter (·.kind == .message)
    if sessions.isEmpty then (.ok (⟨0, 0⟩, items), s)
    else
      match summarizeEach memory summarizer scope (byConversation sessions) s with
      | (.error error, s) => (.error error, s)
      | (.ok (), s) =>
        if c.pruneSummarized then
          let (pruned, s) := forgetEach memory scope (sessions.map (·.id)) s
          (.ok (⟨sessions.length, pruned⟩, items.filter (·.kind != .message)), s)
        else (.ok (⟨sessions.length, 0⟩, items), s)

/-- What the prune half forgets, the oldest first. -/
def toPrune (maxItems : Nat) (items : List PassItem) : List Nat :=
  (items.reverse.take (items.length - maxItems)).map (·.id)

def consolidate (c : DefaultConsolidator ε) (scope : PassScope) : Call σ ε ConsolidationReport := fun s =>
  match memory.recallItems scope ⟨none, .recent, none, consolidationWindow⟩ s with
  | (.error error, s) => (.error error, s)
  | (.ok items, s) =>
    match summarizePass memory c scope items s with
    | (.error error, s) => (.error error, s)
    | (.ok (report, items), s) =>
      if items.length ≤ c.maxItems then (.ok report, s)
      else
        let (pruned, s) := forgetEach memory scope (toPrune c.maxItems items) s
        (.ok { report with pruned := report.pruned + pruned }, s)

/-! ## What a pass relies on -/

/-- What a backend holds under a scope, the newest first: a recent recall
returns the first of them and changes nothing, a forget that succeeds removes
the item of its id, and no two items share an id. -/
structure HoldsRecent (scope : PassScope) (stored : σ → List PassItem) : Prop where
  recallItems : ∀ s n, ∃ s', memory.recallItems scope ⟨none, .recent, none, n⟩ s = (.ok ((stored s).take n), s') ∧
    stored s' = stored s
  forget : ∀ s id s', memory.forget scope id s = (.ok (), s') → stored s' = (stored s).filter (·.id ≠ id)
  nodup : ∀ s, ((stored s).map (·.id)).Nodup

/-- Every forget of these ids succeeds, one after another. -/
def ForgetsSucceed (scope : PassScope) : List Nat → σ → Prop
  | [], _ => True
  | id :: ids, s => ∃ s', memory.forget scope id s = (.ok (), s') ∧ ForgetsSucceed scope ids s'

end

section

variable {σ ε : Type} {memory : Backend σ ε} {scope : PassScope} {stored : σ → List PassItem}

/-- Forgetting ids that all succeed removes their items and nothing else. -/
theorem forgetEach_stored (h : HoldsRecent memory scope stored) {ids : List Nat} {s : σ}
    (hsucceed : ForgetsSucceed memory scope ids s) :
    (forgetEach memory scope ids s).1 = ids.length ∧
      stored (forgetEach memory scope ids s).2 = (stored s).filter (·.id ∉ ids) := by
  induction ids generalizing s with
  | nil => simp [forgetEach]
  | cons id ids ih =>
    obtain ⟨s', hforget, hrest⟩ := hsucceed
    obtain ⟨hcount, hleft⟩ := ih hrest
    rw [forgetEach, hforget]
    refine ⟨by simp [hcount], ?_⟩
    rw [hleft, h.forget s id s' hforget, List.filter_filter]
    refine List.filter_congr fun item _ => ?_
    simp [Bool.and_comm]

/-- Of a list without repetition, what is left of a part taken out. -/
theorem filter_not_mem_middle {kept middle older : List PassItem} (h : ((kept ++ middle ++ older).map (·.id)).Nodup) :
    (kept ++ middle ++ older).filter (·.id ∉ middle.map (·.id)) = kept ++ older := by
  rw [List.map_append, List.map_append] at h
  obtain ⟨hfront, -, hdisjoint⟩ := List.nodup_append.1 h
  obtain ⟨-, -, hfront⟩ := List.nodup_append.1 hfront
  rw [List.filter_append, List.filter_append]
  have hkept : kept.filter (·.id ∉ middle.map (·.id)) = kept := by
    refine List.filter_eq_self.2 fun item hitem => ?_
    simp only [decide_eq_true_eq]
    exact fun hmem => hfront _ (List.mem_map_of_mem hitem) _ hmem rfl
  have hmiddle : middle.filter (·.id ∉ middle.map (·.id)) = [] := by
    refine List.filter_eq_nil_iff.2 fun item hitem => ?_
    simp only [decide_eq_true_eq, not_not]
    exact List.mem_map_of_mem hitem
  have holder : older.filter (·.id ∉ middle.map (·.id)) = older := by
    refine List.filter_eq_self.2 fun item hitem => ?_
    simp only [decide_eq_true_eq]
    exact fun hmem => hdisjoint _ (List.mem_append_right _ hmem) _ (List.mem_map_of_mem hitem) rfl
  rw [hkept, hmiddle, holder, List.append_nil]

theorem toPrune_eq {maxItems : Nat} {items : List PassItem} (h : maxItems < items.length) :
    toPrune maxItems items = ((items.drop maxItems).map (·.id)).reverse := by
  have hdrop : items.length - (items.length - maxItems) = maxItems := by omega
  rw [toPrune, List.take_reverse, hdrop, List.map_reverse]

/-- The window and what is older. -/
def keptOf (maxItems : Nat) (items : List PassItem) : List PassItem :=
  (items.take consolidationWindow).take maxItems ++ items.drop consolidationWindow

theorem keptOf_of_length_le {maxItems : Nat} {items : List PassItem} (h : items.length ≤ consolidationWindow) :
    keptOf maxItems items = items.take maxItems := by
  rw [keptOf, List.take_of_length_le h, List.drop_of_length_le h, List.append_nil]

theorem consolidate_stored (h : HoldsRecent memory scope stored) (c : DefaultConsolidator ε) (hnone : c.summarizer = none)
    (s : σ)
    (hforgets : ∀ items s', memory.recallItems scope ⟨none, .recent, none, consolidationWindow⟩ s = (.ok items, s') →
      ForgetsSucceed memory scope (toPrune c.maxItems items) s') :
    ∃ report s', consolidate memory c scope s = (.ok report, s') ∧ stored s' = keptOf c.maxItems (stored s) := by
  obtain ⟨seen, hrecall, hseen⟩ := h.recallItems s consolidationWindow
  have hsummarize : summarizePass memory c scope ((stored s).take consolidationWindow) seen =
      (.ok (⟨0, 0⟩, (stored s).take consolidationWindow), seen) := by
    rw [summarizePass, hnone]
  rw [consolidate, hrecall]
  dsimp only
  rw [hsummarize]
  dsimp only
  split
  · rename_i hfew
    refine ⟨_, _, rfl, ?_⟩
    rw [hseen, keptOf, List.take_of_length_le hfew, List.take_append_drop]
  · rename_i hmany
    refine ⟨_, _, rfl, ?_⟩
    rw [(forgetEach_stored h (hforgets _ _ hrecall)).2, hseen, toPrune_eq (Nat.not_le.1 hmany)]
    simp only [List.mem_reverse]
    -- the window is its kept part and its pruned part, and the older items follow
    have hparts : (stored s) = ((stored s).take consolidationWindow).take c.maxItems ++
        ((stored s).take consolidationWindow).drop c.maxItems ++ (stored s).drop consolidationWindow := by
      rw [List.take_append_drop, List.take_append_drop]
    have hleft := @filter_not_mem_middle _ _ _ (hparts ▸ h.nodup s)
    rwa [← hparts] at hleft

/-- After a pass without a summarizer, the newest `maxItems` of the window are
left, and with them everything older than the window. A scope that fits into
the window is left with its newest `maxItems`. -/
theorem consolidate_keeps_newest_of_window (h : HoldsRecent memory scope stored) (c : DefaultConsolidator ε)
    (hnone : c.summarizer = none) (s : σ)
    (hforgets : ∀ items s', memory.recallItems scope ⟨none, .recent, none, consolidationWindow⟩ s = (.ok items, s') →
      ForgetsSucceed memory scope (toPrune c.maxItems items) s') :
    ∃ report s', consolidate memory c scope s = (.ok report, s') ∧
      stored s' = ((stored s).take consolidationWindow).take c.maxItems ++ (stored s).drop consolidationWindow ∧
      ((stored s).length ≤ consolidationWindow → stored s' = (stored s).take c.maxItems) := by
  obtain ⟨report, s', hpass, hleft⟩ := consolidate_stored h c hnone s hforgets
  refine ⟨report, s', hpass, hleft, fun hfits => ?_⟩
  rw [hleft, keptOf_of_length_le hfits]

end

/-! ## A backend -/

/-- Items in memory, the newest first. -/
structure Shelf where
  items : List PassItem
  nodup : (items.map (·.id)).Nodup

def Shelf.remove (shelf : Shelf) (id : Nat) : Shelf where
  items := shelf.items.filter (·.id ≠ id)
  nodup := shelf.nodup.sublist ((List.filter_sublist).map _)

/-- A backend over a shelf with one scope, which stores no summaries. -/
def shelfBackend : Backend Shelf String where
  recallItems _ query shelf := (.ok (shelf.items.take query.limit), shelf)
  append _ _ _ _ shelf := (.error "read only", shelf)
  forget _ id shelf := (.ok (), shelf.remove id)
  newId shelf := shelf.items.length

theorem shelfBackend_holds (scope : PassScope) : HoldsRecent shelfBackend scope Shelf.items where
  recallItems shelf n := ⟨shelf, rfl, rfl⟩
  forget shelf id s' hforget := by
    obtain rfl := (Prod.mk.inj hforget).2
    rfl
  nodup shelf := shelf.nodup

theorem shelfBackend_forgets (scope : PassScope) (ids : List Nat) (shelf : Shelf) :
    ForgetsSucceed shelfBackend scope ids shelf := by
  induction ids generalizing shelf with
  | nil => trivial
  | cons id ids ih => exact ⟨_, rfl, ih _⟩

/-- Facts of one conversation, the newest with the highest id. -/
def factsUpTo (count : Nat) : Shelf where
  items := (List.range count).reverse.map fun id => ⟨id, .fact, 0, []⟩
  nodup := by
    rw [List.map_map]
    show ((List.range count).reverse.map fun id => id).Nodup
    rw [List.map_id']
    exact List.nodup_reverse.2 List.nodup_range

def wholeScope : PassScope := ⟨⟨none, none, none, none, none⟩, .session⟩

def keepOnly (maxItems : Nat) : DefaultConsolidator String := ⟨maxItems, none, false⟩

theorem consolidate_three_of_five : ∃ report s',
    consolidate shelfBackend (keepOnly 3) wholeScope (factsUpTo 5) = (.ok report, s') ∧
      s'.items.map (·.id) = [4, 3, 2] := by
  obtain ⟨report, s', hpass, -, hleft⟩ := consolidate_keeps_newest_of_window (shelfBackend_holds wholeScope) (keepOnly 3) rfl
    (factsUpTo 5) (fun _ _ _ => shelfBackend_forgets wholeScope _ _)
  refine ⟨report, s', hpass, ?_⟩
  rw [hleft (by decide)]
  rfl

/-- One item beyond the window stays next to the newest one. -/
theorem consolidate_leaves_older : ∃ report s',
    consolidate shelfBackend (keepOnly 1) wholeScope (factsUpTo 10001) = (.ok report, s') ∧
      s'.items ≠ (factsUpTo 10001).items.take 1 := by
  obtain ⟨report, s', hpass, hleft⟩ := consolidate_stored (shelfBackend_holds wholeScope) (keepOnly 1) rfl
    (factsUpTo 10001) (fun _ _ _ => shelfBackend_forgets wholeScope _ _)
  refine ⟨report, s', hpass, fun hnewest => ?_⟩
  have hlength := congrArg List.length (hleft.symm.trans hnewest)
  simp [keptOf, keepOnly, factsUpTo, consolidationWindow] at hlength

end LaserSdk.Memory

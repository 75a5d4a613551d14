import LaserSdk.Memory.ContentId
import LaserSdk.Memory.Fold
/-!
# Recall of a folded topic

Recall selects the folded items by scope and query. The fold keeps one item of
an id, the first that no tombstone holds back, and drops the rest. As long as
what it drops is a copy of what it keeps, the items are the remembered records
that no tombstone reaches, in whatever order the records are folded.
-/

namespace LaserSdk.Memory

open Registry

/-! ## Selecting items -/

inductive RecallStrategy where
  | auto
  | recent
  | semantic
  | keyword
  | graph
  | temporal
  | hybrid
  deriving DecidableEq, Repr

structure MemoryQuery where
  agent : Option AgentId
  strategy : RecallStrategy
  semantic : Option String
  limit : Nat
  deriving DecidableEq

/-- A signal of a recalled item: its rank and score. -/
structure RecallSignal (W : Type) where
  rank : Nat
  score : W
  deriving DecidableEq, Repr

/-- A recalled item, with what ranking adds to it. -/
structure RecalledItem (W : Type) where
  item : MemoryItem
  score : Option W
  signals : List (RecallSignal W)

section

variable {W : Type} (keywordHit : String → Bytes → Bool)

/-- `keywordHit` says of a query's text whether it has no tokens or a body scores on them. -/
def memoryQueryMatches (query : MemoryQuery) (body : Bytes) : Bool :=
  query.strategy == .recent || query.semantic.all fun text => keywordHit text body

/-- The filters of `folded_memory_items`. -/
def Recall.selects (recalled : Recall W) (scope : MemoryScope) (query : MemoryQuery) (item : MemoryItem) : Bool :=
  let stored := recalled.scopes item.id
  scope.conversation.all (item.provenance.conversationId = ·) &&
    !recalled.isForgotten item.id item.provenance.conversationId &&
    (scope.user.all (stored.bind (·.user) = some ·) && scope.app.all (stored.bind (·.app) = some ·)) &&
    (query.agent.or scope.agent).all (item.provenance.agent = some ·.name) && memoryQueryMatches keywordHit query item.payload

variable [Add W] [Zero W] [LE W] [DecidableLE W]

def Recall.feedbackFor (recalled : Recall W) (item : MemoryItem) : Option W :=
  match recalled.feedback (item.id, none), recalled.feedback (item.id, some item.provenance.conversationId) with
  | none, none => none
  | any, own => some (any.getD 0 + own.getD 0)

/-- The order of feedback, with a signal for each item that has any. Where
nothing has feedback it changes nothing, so the source skips it there. -/
def Recall.rank (recalled : Recall W) (items : List MemoryItem) : List (RecalledItem W) :=
  let scored := items.map fun item => RecalledItem.mk item (recalled.feedbackFor item) []
  let sorted := scored.insertionSort fun left right => right.score.getD 0 ≤ left.score.getD 0
  sorted.zipIdx.map fun (found, rank) => { found with signals := (found.score.map fun score => ⟨rank, score⟩).toList }

def foldedMemoryItems (recalled : Recall W) (scope : MemoryScope) (query : MemoryQuery) : List (RecalledItem W) :=
  let items := (recalled.items.filter (recalled.selects keywordHit scope query)).reverse
  let items := if query.strategy = .recent then items.map fun item => ⟨item, none, []⟩ else recalled.rank items
  items.take query.limit

end

/-! ## What records remember and forget -/

/-- What recall looks at in a remembered record. -/
structure Remembered where
  id : Nat
  conversation : Nat
  agent : Option String
  user : Option String
  app : Option String
  body : Bytes
  deriving DecidableEq, Repr

section

variable {W : Type} (resourceNamespace : String)

/-- The typed entry of a record that the fold of a namespace takes in. -/
def Placed.entry (placed : Placed W) : Option (Headers × MemoryLogEntry W) :=
  match placed.message.headers, placed.message.payload with
  | some headers, .entry entry => if headers.memoryNamespace = some resourceNamespace then some (headers, entry) else none
  | _, _ => none

def Placed.remembers (placed : Placed W) : Option Remembered :=
  match placed.entry resourceNamespace with
  | some (headers, .item id _ body _ _) =>
    some ⟨id, headers.provenance.conversationId, headers.provenance.agent, headers.user, headers.app, body⟩
  | _ => none

/-- The id of a tombstone and the conversation it is limited to. -/
def Placed.forgets (placed : Placed W) : Option (Nat × Option Nat) :=
  match placed.entry resourceNamespace with
  | some (_, .forget target conversation) => some (target, conversation)
  | _ => none

/-- A remembered record that no tombstone of the list reaches. -/
def Live (order : List (Placed W)) (r : Remembered) : Prop :=
  (∃ e ∈ order, e.remembers resourceNamespace = some r) ∧
    ¬ ∃ e ∈ order, e.forgets resourceNamespace = some (r.id, none) ∨
      e.forgets resourceNamespace = some (r.id, some r.conversation)

/-- What recall looks at in an item. -/
def Recall.shown (recalled : Recall W) (item : MemoryItem) : Remembered :=
  ⟨item.id, item.provenance.conversationId, item.provenance.agent, (recalled.scopes item.id).bind (·.user),
    (recalled.scopes item.id).bind (·.app), item.payload⟩

/-- A record that the fold drops because its id is there is a copy of the item
that is there. -/
def OnlyCopy (recalled : Recall W) (placed : Placed W) : Prop :=
  ∀ r, placed.remembers resourceNamespace = some r → recalled.isForgotten r.id r.conversation = false →
    ∀ item ∈ recalled.items, item.id = r.id → recalled.shown item = r

instance (recalled : Recall W) (placed : Placed W) : Decidable (OnlyCopy resourceNamespace recalled placed) :=
  inferInstanceAs (Decidable (∀ r ∈ placed.remembers resourceNamespace, recalled.isForgotten r.id r.conversation = false →
    ∀ item ∈ recalled.items, item.id = r.id → recalled.shown item = r))

variable [Add W] [Zero W]

/-- Every record of a fold that is dropped for its id is a copy. -/
def OnlyCopies (projection : Projection W) : List (Placed W) → Prop
  | [] => True
  | placed :: rest =>
    OnlyCopy resourceNamespace projection.recalled placed ∧ OnlyCopies (projection.absorb resourceNamespace placed) rest

instance decidableOnlyCopies : ∀ (projection : Projection W) (messages : List (Placed W)),
    Decidable (OnlyCopies resourceNamespace projection messages)
  | _, [] => inferInstanceAs (Decidable True)
  | projection, placed :: rest =>
    have := decidableOnlyCopies (projection.absorb resourceNamespace placed) rest
    inferInstanceAs (Decidable (_ ∧ _))

end

section

variable {W : Type} {resourceNamespace : String} {recalled : Recall W} {order : List (Placed W)}
  {placed : Placed W}

/-! ## The items are the live records -/

/-- What recall holds after folding `order`. -/
structure Shows (resourceNamespace : String) (order : List (Placed W)) (recalled : Recall W) : Prop where
  forgotten : ∀ key, recalled.forgotten key = true ↔ ∃ e ∈ order, e.forgets resourceNamespace = some key
  distinct : (recalled.items.map (·.id)).Nodup
  live : ∀ item ∈ recalled.items, (∃ e ∈ order, e.remembers resourceNamespace = some (recalled.shown item)) ∧
    recalled.isForgotten item.id item.provenance.conversationId = false
  kept : ∀ e ∈ order, ∀ r, e.remembers resourceNamespace = some r → recalled.isForgotten r.id r.conversation = false →
    ∃ item ∈ recalled.items, recalled.shown item = r

theorem shown_congr {recalled' : Recall W} {item : MemoryItem} (h : recalled'.scopes item.id = recalled.scopes item.id) :
    recalled'.shown item = recalled.shown item := by
  rw [Recall.shown, Recall.shown, h]

/-- A record without an item or tombstone changes nothing that recall shows. -/
theorem Shows.other {recalled' : Recall W} (h : Shows resourceNamespace order recalled)
    (hremembers : placed.remembers resourceNamespace = none) (hforgets : placed.forgets resourceNamespace = none)
    (hitems : recalled'.items = recalled.items) (hscopes : recalled'.scopes = recalled.scopes)
    (hforgotten : recalled'.forgotten = recalled.forgotten) : Shows resourceNamespace (order ++ [placed]) recalled' := by
  have hshown : recalled'.shown = recalled.shown := funext fun item => shown_congr (by rw [hscopes])
  have hreach : recalled'.isForgotten = recalled.isForgotten := by
    funext id conversation
    rw [Recall.isForgotten, Recall.isForgotten, hforgotten]
  constructor
  · intro key
    rw [hforgotten, h.forgotten key]
    simp [hforgets]
  · rw [hitems]
    exact h.distinct
  · rw [hitems, hshown, hreach]
    intro item hitem
    obtain ⟨⟨e, he, hr⟩, hlive⟩ := h.live item hitem
    exact ⟨⟨e, List.mem_append_left _ he, hr⟩, hlive⟩
  · rw [hitems, hshown, hreach]
    intro e he r hr hlive
    rcases List.mem_append.1 he with hold | hnew
    · exact h.kept e hold r hr hlive
    · rw [List.mem_singleton.1 hnew, hremembers] at hr
      cases hr

/-- What is left of the items by a tombstone. -/
def survives (target : Nat) (conversation : Option Nat) (item : MemoryItem) : Bool :=
  item.id ≠ target || conversation.any (· ≠ item.provenance.conversationId)

theorem survives_iff {target : Nat} {conversation : Option Nat} {item : MemoryItem} :
    survives target conversation item = true ↔
      ¬ (item.id = target ∧ (conversation = none ∨ conversation = some item.provenance.conversationId)) := by
  cases conversation with
  | none => simp [survives]
  | some c => simp [survives, imp_iff_not_or]

/-- An item that a tombstone leaves keeps its scope, as no other has its id. -/
theorem scopes_of_survives (hdistinct : (recalled.items.map (·.id)).Nodup) {target : Nat} {conversation : Option Nat}
    {item : MemoryItem} (hitem : item ∈ recalled.items) (hsurvives : survives target conversation item = true) :
    (if (recalled.items.filter (survives target conversation)).length ≠ recalled.items.length then
        Function.update recalled.scopes target none else recalled.scopes) item.id = recalled.scopes item.id := by
  split
  next hremoved =>
    rw [Function.update_of_ne]
    rintro rfl
    refine hremoved (congrArg List.length (List.filter_eq_self.2 fun other hother => ?_))
    by_cases hid : other.id = item.id
    · rwa [List.inj_on_of_nodup_map hdistinct hother hitem hid]
    · simp [survives, hid]
  next => rfl

section

variable {r : Remembered} (h : Shows resourceNamespace order recalled)
  (hremembers : placed.remembers resourceNamespace = some r) (hforgets : placed.forgets resourceNamespace = none)

include h hforgets

theorem Shows.forgotten_concat (key : Nat × Option Nat) :
    recalled.forgotten key = true ↔ ∃ e ∈ order ++ [placed], e.forgets resourceNamespace = some key := by
  rw [h.forgotten key]
  simp [hforgets]

include hremembers

/-- A record that adds nothing is one that a tombstone reaches, or a copy. -/
theorem Shows.drop
    (hthere : recalled.isForgotten r.id r.conversation = false → ∃ item ∈ recalled.items, recalled.shown item = r) :
    Shows resourceNamespace (order ++ [placed]) recalled := by
  refine ⟨h.forgotten_concat hforgets, h.distinct, fun item hitem => ?_, fun e he r' hr' hreached => ?_⟩
  · obtain ⟨⟨e, he, hshown⟩, hreached⟩ := h.live item hitem
    exact ⟨⟨e, List.mem_append_left _ he, hshown⟩, hreached⟩
  · rcases List.mem_append.1 he with hold | hnew
    · exact h.kept e hold r' hr' hreached
    · rw [List.mem_singleton.1 hnew, hremembers] at hr'
      cases hr'
      exact hthere hreached

/-- A record whose id is not there is shown as it is. -/
theorem Shows.insert (hfree : recalled.isForgotten r.id r.conversation = false)
    (hother : ∀ item ∈ recalled.items, item.id ≠ r.id) {after : Recall W} {new : MemoryItem}
    (hitems : after.items = recalled.items ++ [new])
    (hscopes : after.scopes = Function.update recalled.scopes r.id (some ⟨r.user, r.app⟩))
    (hforgotten : after.forgotten = recalled.forgotten)
    (hnew : new.id = r.id ∧ new.provenance = ⟨r.conversation, r.agent⟩ ∧ new.payload = r.body) :
    Shows resourceNamespace (order ++ [placed]) after := by
  obtain ⟨hid, hprovenance, hpayload⟩ := hnew
  have hreach : after.isForgotten = recalled.isForgotten := by
    funext id conversation
    rw [Recall.isForgotten, Recall.isForgotten, hforgotten]
  have hold : ∀ item ∈ recalled.items, after.shown item = recalled.shown item := by
    intro item hitem
    apply shown_congr
    rw [hscopes, Function.update_of_ne (hother item hitem)]
  have hshown : after.shown new = r := by
    rw [Recall.shown, hid, hscopes, Function.update_self, hprovenance, hpayload]
    rfl
  constructor
  · rw [hforgotten]
    exact h.forgotten_concat hforgets
  · rw [hitems, List.map_append, List.map_singleton, hid]
    refine List.nodup_append.2 ⟨h.distinct, List.nodup_singleton _, ?_⟩
    rintro a ha b hb rfl
    obtain ⟨item, hitem, rfl⟩ := List.mem_map.1 ha
    exact hother item hitem (List.mem_singleton.1 hb)
  · intro item hitem
    rw [hreach]
    rcases List.mem_append.1 (hitems ▸ hitem) with hmem | hmem
    · obtain ⟨⟨e, he, hr⟩, hreached⟩ := h.live item hmem
      rw [hold item hmem]
      exact ⟨⟨e, List.mem_append_left _ he, hr⟩, hreached⟩
    · rw [List.mem_singleton.1 hmem, hshown, hid, hprovenance]
      exact ⟨⟨placed, List.mem_append_right _ List.mem_cons_self, hremembers⟩, hfree⟩
  · intro e he r' hr' hreached
    rw [hreach] at hreached
    rcases List.mem_append.1 he with hmem | hmem
    · obtain ⟨item, hitem, rfl⟩ := h.kept e hmem r' hr' hreached
      exact ⟨item, hitems ▸ List.mem_append_left _ hitem, hold item hitem⟩
    · rw [List.mem_singleton.1 hmem, hremembers] at hr'
      cases hr'
      exact ⟨new, hitems ▸ List.mem_append_right _ List.mem_cons_self, hshown⟩

end

theorem Shows.default : Shows resourceNamespace [] (Projection.default : Projection W).recalled :=
  ⟨fun key => by simp [Projection.default], List.nodup_nil, nofun, by simp⟩

/-- The items are the records that no tombstone reaches. -/
theorem Shows.live_iff (h : Shows resourceNamespace order recalled) {r : Remembered} :
    (∃ item ∈ recalled.items, recalled.shown item = r) ↔ Live resourceNamespace order r := by
  have hreach : recalled.isForgotten r.id r.conversation = false ↔
      ¬ ∃ e ∈ order, e.forgets resourceNamespace = some (r.id, none) ∨
        e.forgets resourceNamespace = some (r.id, some r.conversation) := by
    rw [Recall.isForgotten, Bool.eq_false_iff, ne_eq, Bool.or_eq_true, h.forgotten, h.forgotten, ← exists_or]
    simp only [and_or_left]
  rw [Live, ← hreach]
  constructor
  · rintro ⟨item, hitem, rfl⟩
    exact h.live item hitem
  · rintro ⟨⟨e, he, hr⟩, hlive⟩
    exact h.kept e he r hr hlive

variable [Add W] [Zero W]

theorem absorb_recalled (projection : Projection W) (placed : Placed W) :
    (projection.absorb resourceNamespace placed).recalled =
      match placed.entry resourceNamespace with
      | none => projection.recalled
      | some (headers, entry) =>
        projection.recalled.absorb headers.provenance ⟨headers.user, headers.app⟩
          ⟨placed.partition, placed.offset, headers.provenance.conversationId⟩ entry := by
  unfold Projection.absorb Placed.entry Projection.absorbScoped
  cases placed.message.headers with
  | none => rfl
  | some headers =>
    cases placed.message.payload with
    | entry entry =>
      by_cases hown : headers.memoryNamespace = some resourceNamespace
      · simp [hown]
      · simp [hown]
    | record record => by_cases hown : headers.memoryNamespace = some resourceNamespace <;> simp [hown]
    | other => simp

/-- A tombstone takes its items, and nothing else, from what is shown. -/
theorem Shows.forget (h : Shows resourceNamespace order recalled) {headers : Headers} {target : Nat}
    {conversation : Option Nat} (hentry : placed.entry resourceNamespace = some (headers, .forget target conversation))
    (provenance : Provenance) (scope : StoredMemoryScope) (source : SourceRef) :
    Shows resourceNamespace (order ++ [placed])
      (recalled.absorb provenance scope source (.forget target conversation)) := by
  have hremembers : placed.remembers resourceNamespace = none := by rw [Placed.remembers, hentry]
  have hforgets : placed.forgets resourceNamespace = some (target, conversation) := by rw [Placed.forgets, hentry]
  generalize hafter : recalled.absorb provenance scope source (.forget target conversation) = after
  have hitems : after.items = recalled.items.filter (survives target conversation) := by
    rw [← hafter]
    rfl
  have hforgotten : after.forgotten = Function.update recalled.forgotten (target, conversation) true := by
    rw [← hafter]
    rfl
  have hshown : ∀ item ∈ recalled.items, survives target conversation item = true → after.shown item = recalled.shown item := by
    intro item hitem hsurvives
    apply shown_congr
    rw [← hafter]
    exact scopes_of_survives h.distinct hitem hsurvives
  have hreach : ∀ id c, after.isForgotten id c = false ↔ recalled.isForgotten id c = false ∧
      ¬ (id = target ∧ (conversation = none ∨ conversation = some c)) := by
    intro id c
    simp only [Recall.isForgotten, hforgotten, Function.update_apply, Bool.or_eq_false_iff, Prod.mk.injEq]
    by_cases hid : id = target
    · cases conversation with
      | none => simp [hid]
      | some limit =>
        by_cases hlimit : c = limit
        · simp [hid, hlimit]
        · simp [hid, hlimit, Ne.symm hlimit]
    · simp [hid]
  constructor
  · intro key
    rw [hforgotten, Function.update_apply]
    simp only [List.mem_append, List.mem_singleton, or_and_right, exists_or, exists_eq_left, hforgets, ← h.forgotten key,
      Option.some.injEq]
    split_ifs with hkey
    · simp [hkey]
    · simp [Ne.symm hkey]
  · rw [hitems]
    exact h.distinct.sublist (List.filter_sublist.map _)
  · intro item hitem
    rw [hitems, List.mem_filter] at hitem
    obtain ⟨⟨e, he, hr⟩, hlive⟩ := h.live item hitem.1
    rw [hshown item hitem.1 hitem.2]
    exact ⟨⟨e, List.mem_append_left _ he, hr⟩, (hreach _ _).2 ⟨hlive, survives_iff.1 hitem.2⟩⟩
  · intro e he r hr hlive
    rcases List.mem_append.1 he with hold | hnew
    · obtain ⟨hbefore, hmissed⟩ := (hreach _ _).1 hlive
      obtain ⟨item, hitem, rfl⟩ := h.kept e hold r hr hbefore
      have hsurvives : survives target conversation item = true := survives_iff.2 hmissed
      exact ⟨item, hitems ▸ List.mem_filter.2 ⟨hitem, hsurvives⟩, hshown item hitem hsurvives⟩
    · rw [List.mem_singleton.1 hnew, hremembers] at hr
      cases hr

theorem Shows.item (h : Shows resourceNamespace order recalled) {headers : Headers} {id : Nat} {kind : String} {body : Bytes}
    {origin producer : Option String}
    (hentry : placed.entry resourceNamespace = some (headers, .item id kind body origin producer))
    (hcopy : OnlyCopy resourceNamespace recalled placed) (source : SourceRef) :
    Shows resourceNamespace (order ++ [placed])
      (recalled.absorb headers.provenance ⟨headers.user, headers.app⟩ source (.item id kind body origin producer)) := by
  have hremembers : placed.remembers resourceNamespace =
      some ⟨id, headers.provenance.conversationId, headers.provenance.agent, headers.user, headers.app, body⟩ := by
    rw [Placed.remembers, hentry]
  have hforgets : placed.forgets resourceNamespace = none := by rw [Placed.forgets, hentry]
  unfold Recall.absorb
  dsimp only
  split
  next hreached =>
    refine h.drop hremembers hforgets fun hfree => ?_
    rw [hreached] at hfree
    cases hfree
  next hfree =>
    split
    next hpresent =>
      obtain ⟨item, hitem, hid⟩ := List.any_eq_true.1 hpresent
      refine h.drop hremembers hforgets fun hreached => ⟨item, hitem, ?_⟩
      exact hcopy _ hremembers hreached item hitem (of_decide_eq_true hid)
    next habsent =>
      refine h.insert hremembers hforgets (by simpa using hfree) (fun item hitem hid => ?_) rfl rfl rfl ⟨rfl, rfl, rfl⟩
      exact habsent (List.any_eq_true.2 ⟨item, hitem, decide_eq_true hid⟩)

/-- One more record of a fold. -/
theorem Shows.absorb {projection : Projection W} (h : Shows resourceNamespace order projection.recalled)
    (hcopy : OnlyCopy resourceNamespace projection.recalled placed) :
    Shows resourceNamespace (order ++ [placed]) (projection.absorb resourceNamespace placed).recalled := by
  rw [absorb_recalled]
  cases hentry : placed.entry resourceNamespace with
  | none => exact h.other (by rw [Placed.remembers, hentry]) (by rw [Placed.forgets, hentry]) rfl rfl rfl
  | some found =>
    obtain ⟨headers, entry⟩ := found
    cases entry with
    | item id kind body origin producer => exact h.item hentry hcopy _
    | forget target conversation => exact h.forget hentry _ _ _
    | feedback target weight conversation =>
      exact h.other (by rw [Placed.remembers, hentry]) (by rw [Placed.forgets, hentry]) rfl rfl rfl

theorem Shows.foldl {projection : Projection W} (h : Shows resourceNamespace order projection.recalled)
    {messages : List (Placed W)} (hcopies : OnlyCopies resourceNamespace projection messages) :
    Shows resourceNamespace (order ++ messages) (messages.foldl (Projection.absorb resourceNamespace) projection).recalled := by
  induction messages generalizing projection order with
  | nil => simpa using h
  | cons placed rest ih =>
    rw [List.append_cons]
    exact ih (h.absorb hcopies.1) hcopies.2

end

/-! ## What recall returns -/

section

variable {W : Type} (keywordHit : String → Bytes → Bool)

/-- The filters, as far as they look at what is remembered. -/
def Remembered.selected (scope : MemoryScope) (query : MemoryQuery) (r : Remembered) : Bool :=
  scope.conversation.all (r.conversation = ·) && (scope.user.all (r.user = some ·) && scope.app.all (r.app = some ·)) &&
    (query.agent.or scope.agent).all (r.agent = some ·.name) && memoryQueryMatches keywordHit query r.body

variable {keywordHit} {resourceNamespace : String} {order : List (Placed W)} {recalled : Recall W} {scope : MemoryScope}
  {query : MemoryQuery}

theorem selects_eq {item : MemoryItem} (h : recalled.isForgotten item.id item.provenance.conversationId = false) :
    recalled.selects keywordHit scope query item = (recalled.shown item).selected keywordHit scope query := by
  rw [Recall.selects, h, Bool.not_false, Bool.and_true]
  rfl

variable [Add W] [Zero W] [LE W] [DecidableLE W]

theorem rank_items (recalled : Recall W) (items : List MemoryItem) : ((recalled.rank items).map (·.item)).Perm items := by
  unfold Recall.rank
  dsimp only
  rw [List.map_map]
  have hitem : (fun found : RecalledItem W × Nat =>
      (RecalledItem.mk found.1.item found.1.score (found.1.score.map fun score => ⟨found.2, score⟩).toList).item) =
        RecalledItem.item ∘ Prod.fst := rfl
  rw [Function.comp_def, hitem, ← List.map_map, List.zipIdx_map_fst]
  refine ((List.perm_insertionSort _ _).map _).trans ?_
  rw [List.map_map, Function.comp_def, List.map_id']

/-- Without a limit, recall returns the ids of what it selects. -/
theorem mem_foldedMemoryItems (hlimit : recalled.items.length ≤ query.limit) {id : Nat} :
    id ∈ (foldedMemoryItems keywordHit recalled scope query).map (·.item.id) ↔
      ∃ item ∈ recalled.items, recalled.selects keywordHit scope query item = true ∧ item.id = id := by
  have hperm : ((foldedMemoryItems keywordHit recalled scope query).map (·.item)).Perm
      (recalled.items.filter (recalled.selects keywordHit scope query)) := by
    unfold foldedMemoryItems
    dsimp only
    generalize hall : (if query.strategy = .recent then
      (recalled.items.filter (recalled.selects keywordHit scope query)).reverse.map fun item => ⟨item, none, []⟩
      else recalled.rank (recalled.items.filter (recalled.selects keywordHit scope query)).reverse) = all
    have hall : (all.map (·.item)).Perm (recalled.items.filter (recalled.selects keywordHit scope query)) := by
      refine List.Perm.trans ?_ (List.reverse_perm _)
      rw [← hall]
      split
      · rw [List.map_map, Function.comp_def, List.map_id']
      · exact rank_items _ _
    rwa [List.take_of_length_le]
    rw [← List.length_map (·.item), hall.length_eq]
    exact (List.length_filter_le _ _).trans hlimit
  have hids := (hperm.map (·.id)).mem_iff (a := id)
  rw [List.map_map] at hids
  refine hids.trans ?_
  simp only [List.mem_map, List.mem_filter, and_assoc]

/-- The ids that recall returns are those of the live records it selects. -/
theorem Shows.recalls (h : Shows resourceNamespace order recalled) (hlimit : recalled.items.length ≤ query.limit) {id : Nat} :
    id ∈ (foldedMemoryItems keywordHit recalled scope query).map (·.item.id) ↔
      ∃ r, Live resourceNamespace order r ∧ r.selected keywordHit scope query = true ∧ r.id = id := by
  rw [mem_foldedMemoryItems hlimit]
  constructor
  · rintro ⟨item, hitem, hselects, rfl⟩
    rw [selects_eq (h.live item hitem).2] at hselects
    exact ⟨recalled.shown item, h.live_iff.1 ⟨item, hitem, rfl⟩, hselects, rfl⟩
  · rintro ⟨r, hlive, hselected, rfl⟩
    obtain ⟨item, hitem, rfl⟩ := h.live_iff.2 hlive
    refine ⟨item, hitem, ?_, rfl⟩
    rw [selects_eq (h.live item hitem).2]
    exact hselected

end

end LaserSdk.Memory

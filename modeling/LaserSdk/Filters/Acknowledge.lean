import LaserSdk.Lib.Checks
import LaserSdk.Lib.Runs
import LaserSdk.Filters.Progress
/-!
# Acknowledgments never run ahead of the work

A `Ledger` follows one `PartitionProgress` through any sequence of calls,
together with what the caller knows: which returned records it has not
handled, and which targets the progress offered to store. The pages come from
an arbitrary server, restricted only by `validatePage`. The page queue keeps
one order (`Queue`): an earlier page's safe offset lies below everything a
later page still waits for.
-/

namespace LaserSdk.Filters

open PartitionProgress

/-! ## Calls on a progress -/

/-- A record a page returned, named by its page and its offset. -/
structure Delivery where
  sequence : Nat
  offset : Nat
  deriving DecidableEq, Repr

inductive Op where
  | record (sequence : Nat) (request : FilteredPollRequest) (page : FilteredPage) (polled : PolledMessages)
  | completeRecord (sequence offset : Nat)
  | completePage (sequence : Nat)
  | completeThrough (sequence offset : Nat)
  | stored (target : AckTarget)

structure Ledger where
  progress : PartitionProgress
  /-- The sequences recorded so far, of empty pages too. -/
  recorded : List Nat
  /-- The returned records no call handled yet. -/
  unhandled : List Delivery
  /-- Every target `unstored` has offered. -/
  offered : List AckTarget
  /-- Only offered targets were passed to `stored`. -/
  onlyOffered : Bool

namespace Op

def apply (p : PartitionProgress) : Op → PartitionProgress
  | .record sequence _ page polled => p.record sequence page polled.offsets
  | .completeRecord sequence offset => p.completeRecord sequence offset
  | .completePage sequence => p.completePage sequence
  | .completeThrough sequence offset => (p.completeThrough sequence offset).2
  | .stored target => p.stored target

def sequences : Op → List Nat
  | .record sequence _ _ _ => [sequence]
  | _ => []

def returned : Op → List Delivery
  | .record sequence _ _ polled => polled.offsets.map (⟨sequence, ·⟩)
  | _ => []

/-- The records a call handles: the one it names, those of the page it names,
or those at or before the position it names in a page still tracked. -/
def handles (p : PartitionProgress) (d : Delivery) : Op → Bool
  | .completeRecord sequence offset => d.sequence == sequence && d.offset == offset
  | .completePage sequence => d.sequence == sequence
  | .completeThrough sequence offset =>
    p.pages.any (·.sequence == sequence) && (p.completeThrough sequence offset).1 &&
      ((d.sequence == sequence && d.offset ≤ offset) || d.sequence < sequence)
  | _ => false

def storesOffered (offered : List AckTarget) : Op → Bool
  | .stored target => offered.contains target
  | _ => true

/-- A recorded page answers a request from the progress's own start, passed
the check and carries a new sequence. Every other call is free. -/
def Allowed (l : Ledger) : Op → Prop
  | .record sequence request page polled =>
    request.start = l.progress.start ∧ validatePage request page polled = .ok () ∧
      ∀ n ∈ l.recorded, n < sequence
  | _ => True

end Op

namespace Ledger

def new (start : FilteredStart) : Ledger := ⟨PartitionProgress.new start, [], [], [], true⟩

def advance (l : Ledger) (op : Op) : Ledger :=
  let progress := op.apply l.progress
  { progress := progress
    recorded := l.recorded ++ op.sequences
    unhandled := l.unhandled.filter (fun d => !op.handles l.progress d) ++ op.returned
    offered := l.offered ++ progress.unstored.toList
    onlyOffered := l.onlyOffered && op.storesOffered l.offered }

def Step (l : Ledger) (op : Op) (l' : Ledger) : Prop := op.Allowed l ∧ l' = l.advance op

end Ledger

/-! ## What the check gives -/

/-- Everything before this offset was examined by an earlier page. -/
def FilteredStart.examinedTo : FilteredStart → Nat
  | .continue cursor => cursor.nextScanOffset
  | _ => 0

theorem FilteredStart.examinedTo_le (start : FilteredStart) :
    ∀ n ∈ start.scanFrom, start.examinedTo ≤ n := by
  cases start <;> simp [FilteredStart.scanFrom, FilteredStart.examinedTo]

theorem FilteredStart.examinedTo_of_none {start : FilteredStart} (h : start.scanFrom = none) :
    start.examinedTo = 0 := by
  cases start <;> simp_all [FilteredStart.scanFrom, FilteredStart.examinedTo]

theorem nextStart_examinedTo {page : FilteredPage} {next : Nat} (h : page.nextScanOffset = some next)
    (original : FilteredStart) : (page.nextStart original).examinedTo = next := by
  simp [FilteredPage.nextStart, h, FilteredStart.examinedTo]

theorem offsetsMatch_mem {start scannedTo : Option Nat} {frontier : Nat} {previous : Option Nat} {offsets : List Nat}
    (h : offsetsMatch start scannedTo frontier previous offsets = true) :
    ∀ o ∈ offsets, (∀ n ∈ start, n ≤ o) ∧ ∃ n ∈ scannedTo, o ≤ n := by
  induction offsets generalizing previous with
  | nil => simp
  | cons x xs ih =>
    simp only [offsetsMatch, Bool.and_eq_true] at h
    obtain ⟨⟨⟨⟨-, hs⟩, hn⟩, -⟩, hrest⟩ := h
    intro o ho
    rcases List.mem_cons.1 ho with rfl | ho
    · exact ⟨by simpa [Option.all_eq_true] using hs, by simpa [Option.any_eq_true] using hn⟩
    · exact ih hrest o ho

theorem scannedTo_lt {page : FilteredPage} : ∀ n ∈ page.scannedTo, page.nextScanOffset = some (n + 1) := by
  unfold FilteredPage.scannedTo
  split <;> simp_all

/-- What an accepted page says about offsets: the scan never goes back, the
records lie between the start and the next scan offset, and the safe offset
is just below it. -/
structure PageBounds (start : FilteredStart) (original : FilteredStart) (page : FilteredPage) (offsets : List Nat) :
    Prop where
  forward : start.examinedTo ≤ (page.nextStart original).examinedTo
  records : ∀ o ∈ offsets, start.examinedTo ≤ o
  safe : ∀ n ∈ page.safeAckOffset, n < (page.nextStart original).examinedTo

theorem validatePage_scan {request : FilteredPollRequest} {page : FilteredPage} {polled : PolledMessages}
    (h : validatePage request page polled = .ok ()) :
    scanMatches request.start.scanFrom page = true ∧
      offsetsMatch request.start.scanFrom page.scannedTo page.frontier none polled.offsets = true := by
  simp only [validatePage, Lib.branch_ok, Bool.not_eq_true', Bool.not_eq_false] at h
  obtain ⟨-, -, -, -, -, hscan, hoffsets, -⟩ := h
  exact ⟨hscan, hoffsets⟩

/-- The safe offset of an accepted page is the last one examined. -/
theorem validatePage_safe {request : FilteredPollRequest} {page : FilteredPage} {polled : PolledMessages}
    (h : validatePage request page polled = .ok ()) (original : FilteredStart) :
    ∀ n ∈ page.safeAckOffset, (page.nextStart original).examinedTo = n + 1 := by
  intro n hn
  obtain ⟨hscan, -⟩ := validatePage_scan h
  simp only [scanMatches, Bool.and_eq_true] at hscan
  obtain ⟨⟨hexam, -⟩, -⟩ := hscan
  split at hexam
  · simp only [Bool.and_eq_true, Option.isNone_iff_eq_none] at hexam
    rw [hexam.1] at hn
    cases hn
  · simp only [Bool.and_eq_true, beq_iff_eq] at hexam
    exact nextStart_examinedTo (scannedTo_lt n (hexam.2 ▸ hn)) original

theorem validatePage_bounds {request : FilteredPollRequest} {page : FilteredPage} {polled : PolledMessages}
    (h : validatePage request page polled = .ok ()) (original : FilteredStart) :
    PageBounds request.start original page polled.offsets := by
  obtain ⟨hscan, hoff⟩ := validatePage_scan h
  simp only [scanMatches, Bool.and_eq_true] at hscan
  obtain ⟨⟨hexam, -⟩, hforward⟩ := hscan
  refine ⟨?_, ?_, ?_⟩
  · cases hn : page.nextScanOffset with
    | some next =>
      rw [nextStart_examinedTo hn]
      cases hs : request.start.scanFrom with
      | some n =>
        simp only [hs, hn, Option.all_some, decide_eq_true_eq] at hforward
        exact (request.start.examinedTo_le n hs).trans hforward
      | none => rw [FilteredStart.examinedTo_of_none hs]; exact Nat.zero_le _
    | none =>
      -- Nothing was examined, so the request named no offset either.
      have hs : request.start.scanFrom = none := by
        split at hexam
        · simp only [Bool.and_eq_true, beq_iff_eq] at hexam
          rw [← hexam.2, hn]
        · simp [FilteredPage.scannedTo, hn] at hexam
      rw [FilteredStart.examinedTo_of_none hs]
      exact Nat.zero_le _
  · intro o ho
    cases hs : request.start.scanFrom with
    | some n => exact (request.start.examinedTo_le n hs).trans ((offsetsMatch_mem hoff o ho).1 n hs)
    | none => rw [FilteredStart.examinedTo_of_none hs]; exact Nat.zero_le _
  · intro n hn
    rw [validatePage_safe h original n hn]
    exact Nat.lt_succ_self n

/-! ## The page queue -/

/-- `p` was read before `q`: what `p` makes safe lies below every record `q`
still waits for. -/
def Before (p q : PendingPage) : Prop :=
  p.sequence < q.sequence ∧ ∀ t ∈ p.target, ∀ o ∈ q.outstanding, t.offset < o

/-- `offset` lies below every outstanding record. -/
def Clear (pages : List PendingPage) (offset : Nat) : Prop :=
  ∀ p ∈ pages, ∀ o ∈ p.outstanding, offset < o

/-- The open pages in reading order, none past the examined range. -/
structure Queue (limit : Nat) (pages : List PendingPage) : Prop where
  ordered : pages.Pairwise Before
  bounded : ∀ p ∈ pages, ∀ t ∈ p.target, t.offset < limit

/-- `p'` is `p` with some of its records handled. -/
def Shrinks (p p' : PendingPage) : Prop :=
  p'.sequence = p.sequence ∧ p'.target = p.target ∧ p'.outstanding ⊆ p.outstanding

theorem Shrinks.refl (p : PendingPage) : Shrinks p p := ⟨rfl, rfl, subset_rfl⟩

/-- In an ordered queue the page with the larger sequence was read later. -/
theorem before_of_lt {pages : List PendingPage} (h : pages.Pairwise Before) {p q : PendingPage}
    (hp : p ∈ pages) (hq : q ∈ pages) (hlt : p.sequence < q.sequence) : Before p q := by
  induction h with
  | nil => cases hp
  | @cons x xs hx _ ih =>
    rcases List.mem_cons.1 hp with rfl | hp' <;> rcases List.mem_cons.1 hq with rfl | hq'
    · exact absurd hlt (Nat.lt_irrefl _)
    · exact hx q hq'
    · exact absurd (hx p hp').1 (Nat.lt_asymm hlt)
    · exact ih hp' hq'

theorem shrinks_mem {pages pages' : List PendingPage} (h : List.Forall₂ Shrinks pages pages') :
    ∀ p' ∈ pages', ∃ p ∈ pages, Shrinks p p' := by
  induction h with
  | nil => simp
  | cons hx _ ih =>
    intro p' hp'
    rcases List.mem_cons.1 hp' with rfl | hp'
    · exact ⟨_, List.mem_cons_self, hx⟩
    · obtain ⟨p, hp, hs⟩ := ih p' hp'
      exact ⟨p, List.mem_cons_of_mem _ hp, hs⟩

theorem Clear.shrinks {pages pages' : List PendingPage} (h : List.Forall₂ Shrinks pages pages') {offset : Nat}
    (hc : Clear pages offset) : Clear pages' offset := by
  intro p' hp' o ho
  obtain ⟨p, hp, hs⟩ := shrinks_mem h p' hp'
  exact hc p hp o (hs.2.2 ho)

theorem Queue.shrinks {limit : Nat} {pages pages' : List PendingPage} (h : List.Forall₂ Shrinks pages pages')
    (hq : Queue limit pages) : Queue limit pages' := by
  refine ⟨?_, fun p' hp' t ht => ?_⟩
  · have ho := hq.ordered
    clear hq
    induction h with
    | nil => exact .nil
    | @cons p p' ps ps' hx hrest ih =>
      obtain ⟨hp, hps⟩ := List.pairwise_cons.1 ho
      refine .cons (fun q' hq' => ?_) (ih hps)
      obtain ⟨q, hqm, hs⟩ := shrinks_mem hrest q' hq'
      obtain ⟨hlt, hbelow⟩ := hp q hqm
      refine ⟨by rw [hx.1, hs.1]; exact hlt, fun t ht o hto => ?_⟩
      exact hbelow t (hx.2.1 ▸ ht) o (hs.2.2 hto)
  · obtain ⟨p, hp, hs⟩ := shrinks_mem h p' hp'
    exact hq.bounded p hp t (hs.2.1 ▸ ht)

/-! ## Settling -/

theorem settlePages_suffix (pages : List PendingPage) (unstored : Option AckTarget) (settled : Nat) :
    (settlePages pages unstored settled).1 <:+ pages := by
  induction pages generalizing unstored settled with
  | nil => exact List.suffix_refl _
  | cons page rest ih =>
    unfold settlePages
    split
    · exact (ih _ _).trans (List.suffix_cons page rest)
    · exact List.suffix_refl _

/-- The front page waits for a record. -/
theorem settlePages_front (pages : List PendingPage) (unstored : Option AckTarget) (settled : Nat) :
    ∀ page ∈ (settlePages pages unstored settled).1.head?, page.outstanding ≠ ∅ := by
  induction pages generalizing unstored settled with
  | nil => simp [settlePages]
  | cons page rest ih =>
    unfold settlePages
    split
    · exact ih _ _
    · simpa using ‹page.outstanding ≠ ∅›

/-- Settling drops only pages without outstanding records, keeps the order,
and offers a target below everything left. -/
theorem settlePages_spec {limit : Nat} {pages : List PendingPage} (hq : Queue limit pages)
    (unstored : Option AckTarget) (settled : Nat) :
    Queue limit (settlePages pages unstored settled).1 ∧
      (settlePages pages unstored settled).1 ⊆ pages ∧
      (∀ p ∈ pages, p.outstanding ≠ ∅ → p ∈ (settlePages pages unstored settled).1) ∧
      ∀ t ∈ (settlePages pages unstored settled).2.1,
        t ∈ unstored ∨ (t.offset < limit ∧ Clear (settlePages pages unstored settled).1 t.offset) := by
  induction pages generalizing unstored settled with
  | nil => exact ⟨hq, by simp [settlePages], by simp, fun t ht => .inl ht⟩
  | cons page rest ih =>
    obtain ⟨hbefore, hrest⟩ := List.pairwise_cons.1 hq.ordered
    have hqrest : Queue limit rest := ⟨hrest, fun p hp => hq.bounded p (List.mem_cons_of_mem _ hp)⟩
    by_cases he : page.outstanding = ∅
    · obtain ⟨h1, h2, h3, h4⟩ := ih hqrest (page.target.or unstored) page.sequence
      simp only [settlePages, he, if_true]
      refine ⟨h1, fun p hp => List.mem_cons_of_mem _ (h2 hp), fun p hp hne => ?_, fun t ht => ?_⟩
      · rcases List.mem_cons.1 hp with rfl | hp
        · exact absurd he hne
        · exact h3 p hp hne
      · rcases h4 t ht with hor | hclear
        · rcases Option.or_eq_some_iff.1 hor with hpage | ⟨-, hold⟩
          · refine .inr ⟨hq.bounded page List.mem_cons_self t hpage, fun q hqm o ho => ?_⟩
            exact (hbefore q (h2 hqm)).2 t hpage o ho
          · exact .inl hold
        · exact .inr hclear
    · simp only [settlePages, he, if_false]
      exact ⟨hq, fun p hp => hp, fun p hp _ => hp, fun t ht => .inl ht⟩

/-! ## Queueing a page -/

/-- The two shapes of a queue after `enqueue`: the page appended, or its safe
offset folded into the newest page. -/
theorem enqueue_cases (pages : List PendingPage) (sequence : Nat) (target : Option AckTarget)
    (outstanding : Finset Nat) :
    -- A page of its own.
    enqueue pages sequence target outstanding = pages ++ [⟨sequence, target, outstanding⟩] ∨
      -- A page that returned nothing moves the target of the newest one.
      ∃ older newest, pages = older ++ [newest] ∧ outstanding = ∅ ∧
        enqueue pages sequence target outstanding = older ++ [{ newest with target := target.or newest.target }] := by
  unfold enqueue
  rcases List.eq_nil_or_concat pages with rfl | ⟨older, newest, rfl⟩
  · exact .inl rfl
  · by_cases he : outstanding = ∅
    · exact .inr ⟨older, newest, by simp, he, by simp [he]⟩
    · exact .inl (by simp [he])

theorem enqueue_queue {limit limit' : Nat} {pages : List PendingPage} (hq : Queue limit pages) (hle : limit ≤ limit')
    {sequence : Nat} (hs : ∀ p ∈ pages, p.sequence < sequence) {target : Option AckTarget}
    (ht : ∀ t ∈ target, t.offset < limit') {outstanding : Finset Nat} (ho : ∀ o ∈ outstanding, limit ≤ o) :
    Queue limit' (enqueue pages sequence target outstanding) := by
  rcases enqueue_cases pages sequence target outstanding with h | ⟨older, newest, rfl, -, h⟩ <;> rw [h]
  · refine ⟨List.pairwise_append.2 ⟨hq.ordered, List.pairwise_singleton _ _, ?_⟩, ?_⟩
    · intro p hp q hqm
      rw [List.mem_singleton.1 hqm]
      exact ⟨hs p hp, fun t htp o hto => Nat.lt_of_lt_of_le (hq.bounded p hp t htp) (ho o hto)⟩
    · intro p hp t htp
      rcases List.mem_append.1 hp with hp | hp
      · exact Nat.lt_of_lt_of_le (hq.bounded p hp t htp) hle
      · rw [List.mem_singleton.1 hp] at htp
        exact ht t htp
  · obtain ⟨hold, -, hcross⟩ := List.pairwise_append.1 hq.ordered
    refine ⟨List.pairwise_append.2 ⟨hold, List.pairwise_singleton _ _, ?_⟩, ?_⟩
    · intro p hp q hqm
      rw [List.mem_singleton.1 hqm]
      exact hcross p hp newest List.mem_cons_self
    · intro p hp t htp
      rcases List.mem_append.1 hp with hp | hp
      · exact Nat.lt_of_lt_of_le (hq.bounded p (List.mem_append_left _ hp) t htp) hle
      · rw [List.mem_singleton.1 hp] at htp
        rcases Option.or_eq_some_iff.1 htp with h | ⟨-, h⟩
        · exact ht t h
        · exact Nat.lt_of_lt_of_le (hq.bounded newest (by simp) t h) hle

/-- A queued page is one of the old ones, up to its target, or the new one. -/
theorem enqueue_mem {pages : List PendingPage} {sequence : Nat} {target : Option AckTarget}
    {outstanding : Finset Nat} {p : PendingPage} (hp : p ∈ enqueue pages sequence target outstanding) :
    (∃ q ∈ pages, q.sequence = p.sequence ∧ q.outstanding = p.outstanding) ∨
      p = ⟨sequence, target, outstanding⟩ := by
  rcases enqueue_cases pages sequence target outstanding with h | ⟨older, newest, rfl, -, h⟩ <;> rw [h] at hp <;>
    rcases List.mem_append.1 hp with hp | hp
  · exact .inl ⟨p, hp, rfl, rfl⟩
  · exact .inr (List.mem_singleton.1 hp)
  · exact .inl ⟨p, List.mem_append_left _ hp, rfl, rfl⟩
  · rw [List.mem_singleton.1 hp]
    exact .inl ⟨newest, by simp, rfl, rfl⟩

/-- No outstanding record leaves the queue when a page is queued. -/
theorem enqueue_keeps {pages : List PendingPage} (sequence : Nat) (target : Option AckTarget)
    (outstanding : Finset Nat) {p : PendingPage} (hp : p ∈ pages) :
    ∃ q ∈ enqueue pages sequence target outstanding, q.sequence = p.sequence ∧ q.outstanding = p.outstanding := by
  rcases enqueue_cases pages sequence target outstanding with h | ⟨older, newest, rfl, -, h⟩ <;> rw [h]
  · exact ⟨p, List.mem_append_left _ hp, rfl, rfl⟩
  · rcases List.mem_append.1 hp with hp | hp
    · exact ⟨p, List.mem_append_left _ hp, rfl, rfl⟩
    · rw [List.mem_singleton.1 hp]
      exact ⟨{ newest with target := target.or newest.target }, by simp, rfl, rfl⟩

theorem enqueue_new {pages : List PendingPage} {sequence : Nat} {target : Option AckTarget}
    {outstanding : Finset Nat} (h : outstanding ≠ ∅) :
    ⟨sequence, target, outstanding⟩ ∈ enqueue pages sequence target outstanding := by
  rcases enqueue_cases pages sequence target outstanding with he | ⟨older, newest, rfl, he, -⟩
  · rw [he]; simp
  · exact absurd he h

/-! ## The invariant -/

/-- What every call keeps: the queue is ordered within the examined range, an
unhandled record is still outstanding in its own page, and every target ever
offered lies below all outstanding records and inside the examined range. -/
structure Inv (l : Ledger) : Prop where
  queue : Queue l.progress.start.examinedTo l.progress.pages
  numbered : ∀ p ∈ l.progress.pages, p.sequence ∈ l.recorded
  tracked : ∀ d ∈ l.unhandled, ∃ p ∈ l.progress.pages, p.sequence = d.sequence ∧ d.offset ∈ p.outstanding
  offered : ∀ t ∈ l.offered, t.offset < l.progress.start.examinedTo ∧ Clear l.progress.pages t.offset
  unstored : ∀ t ∈ l.progress.unstored, t ∈ l.offered
  stored : l.onlyOffered = true → ∀ n ∈ l.progress.storedOffset, ∃ t ∈ l.offered, t.offset = n

theorem new_inv (start : FilteredStart) : Inv (Ledger.new start) where
  queue := ⟨.nil, by simp [Ledger.new, PartitionProgress.new]⟩
  numbered := by simp [Ledger.new, PartitionProgress.new]
  tracked := by simp [Ledger.new]
  offered := by simp [Ledger.new]
  unstored := by simp [Ledger.new, PartitionProgress.new]
  stored := by simp [Ledger.new, PartitionProgress.new]

/-- Settling and then offering `u` keeps the invariant, when `u` is the
settled target or lies below everything left. -/
theorem inv_settle {l : Ledger} (hi : Inv l) (u : Option AckTarget)
    (hu : ∀ t ∈ u, t ∈ (settle l.progress).unstored ∨
      (t.offset < l.progress.start.examinedTo ∧ Clear (settle l.progress).pages t.offset)) :
    Inv { l with progress := { settle l.progress with unstored := u }, offered := l.offered ++ u.toList } := by
  obtain ⟨hq, hsub, hkeep, hnew⟩ :=
    settlePages_spec hi.queue l.progress.unstored l.progress.settledSequence
  have hclear : ∀ n, Clear l.progress.pages n → Clear (settle l.progress).pages n :=
    fun n h p hp o ho => h p (hsub hp) o ho
  refine ⟨hq, fun p hp => hi.numbered p (hsub hp), fun d hd => ?_, fun t ht => ?_, fun t ht => ?_, fun ho n hn => ?_⟩
  · obtain ⟨p, hp, hseq, hoff⟩ := hi.tracked d hd
    exact ⟨p, hkeep p hp (Finset.ne_empty_of_mem hoff), hseq, hoff⟩
  · rcases List.mem_append.1 ht with ht | ht
    · exact ⟨(hi.offered t ht).1, hclear _ (hi.offered t ht).2⟩
    · rcases hu t (by simpa using ht) with hs | hs
      · rcases hnew t hs with hold | hsafe
        · exact ⟨(hi.offered t (hi.unstored t hold)).1, hclear _ (hi.offered t (hi.unstored t hold)).2⟩
        · exact hsafe
      · exact hs
  · exact List.mem_append_right _ (by simpa using ht)
  · obtain ⟨t, ht, he⟩ := hi.stored ho n hn
    exact ⟨t, List.mem_append_left _ ht, he⟩

/-- Handling records keeps the invariant up to settling: `pages'` are the open
pages with fewer outstanding records, and what is unhandled is still in them. -/
theorem inv_shrinks {l : Ledger} (hi : Inv l) {pages' : List PendingPage}
    (hp : List.Forall₂ Shrinks l.progress.pages pages') (unhandled' : List Delivery)
    (ht : ∀ d ∈ unhandled', ∃ p ∈ pages', p.sequence = d.sequence ∧ d.offset ∈ p.outstanding) :
    Inv { l with progress := { l.progress with pages := pages' }, unhandled := unhandled' } where
  queue := hi.queue.shrinks hp
  numbered p' hp' := by
    obtain ⟨p, hpm, hs⟩ := shrinks_mem hp p' hp'
    rw [hs.1]
    exact hi.numbered p hpm
  tracked := ht
  offered t h := ⟨(hi.offered t h).1, (hi.offered t h).2.shrinks hp⟩
  unstored := hi.unstored
  stored := hi.stored

/-! ## One lemma per call -/

theorem onPage_shrinks (sequence : Nat) (f : Finset Nat → Finset Nat) (hf : ∀ s, f s ⊆ s) (pages : List PendingPage) :
    List.Forall₂ Shrinks pages (onPage sequence f pages) := by
  induction pages with
  | nil => exact .nil
  | cons page rest ih =>
    unfold onPage
    split
    · exact .cons ⟨rfl, rfl, hf _⟩ (List.forall₂_same.2 fun p _ => Shrinks.refl p)
    · exact .cons (Shrinks.refl _) ih

theorem onPage_keeps {sequence : Nat} {f : Finset Nat → Finset Nat} {pages : List PendingPage} {p : PendingPage}
    (hp : p ∈ pages) {o : Nat} (ho : o ∈ p.outstanding) (hf : p.sequence = sequence → o ∈ f p.outstanding) :
    ∃ q ∈ onPage sequence f pages, q.sequence = p.sequence ∧ o ∈ q.outstanding := by
  induction pages with
  | nil => cases hp
  | cons page rest ih =>
    unfold onPage
    by_cases hs : page.sequence = sequence <;> simp only [hs, if_true, if_false]
    · rcases List.mem_cons.1 hp with rfl | hp
      · exact ⟨_, List.mem_cons_self, hs.symm, hf hs⟩
      · exact ⟨p, List.mem_cons_of_mem _ hp, rfl, ho⟩
    · rcases List.mem_cons.1 hp with rfl | hp
      · exact ⟨p, List.mem_cons_self, rfl, ho⟩
      · obtain ⟨q, hq, h⟩ := ih hp
        exact ⟨q, List.mem_cons_of_mem _ hq, h⟩

/-- A completion that only changes the first page `sequence` keeps the
invariant, when what it leaves unhandled is still outstanding there. -/
theorem inv_onPage {l : Ledger} (hi : Inv l) (sequence : Nat) (f : Finset Nat → Finset Nat) (hf : ∀ s, f s ⊆ s)
    {unhandled' : List Delivery} (hsub : unhandled' ⊆ l.unhandled)
    (hleft : ∀ d ∈ unhandled', d.sequence = sequence → ∀ s, d.offset ∈ s → d.offset ∈ f s) :
    Inv { l with
      progress := settle { l.progress with pages := onPage sequence f l.progress.pages }
      unhandled := unhandled'
      offered := l.offered ++
        (settle { l.progress with pages := onPage sequence f l.progress.pages }).unstored.toList } := by
  refine inv_settle (inv_shrinks hi (onPage_shrinks sequence f hf _) unhandled' (fun d hd => ?_)) _ (fun t ht => .inl ht)
  obtain ⟨p, hp, hseq, hoff⟩ := hi.tracked d (hsub hd)
  obtain ⟨q, hq, hqs, hqo⟩ := onPage_keeps hp hoff (fun hs => hleft d hd (hseq ▸ hs) _ hoff)
  exact ⟨q, hq, hqs.trans hseq, hqo⟩

theorem filter_subset_unhandled (l : Ledger) (op : Op) :
    l.unhandled.filter (fun d => !op.handles l.progress d) ⊆ l.unhandled :=
  fun _ h => (List.mem_filter.1 h).1

theorem completeRecord_inv {l : Ledger} (hi : Inv l) (sequence offset : Nat) :
    Inv (l.advance (.completeRecord sequence offset)) := by
  simp only [Ledger.advance, Op.apply, Op.sequences, Op.returned, Op.storesOffered, completeRecord, List.append_nil,
    Bool.and_true]
  refine inv_onPage hi sequence (·.erase offset) (fun s => Finset.erase_subset _ _)
    (filter_subset_unhandled l (.completeRecord sequence offset)) (fun d hd hs s hds => ?_)
  have hne := (List.mem_filter.1 hd).2
  simp only [Op.handles, hs, beq_self_eq_true, Bool.true_and, Bool.not_eq_true', beq_eq_false_iff_ne] at hne
  exact Finset.mem_erase.2 ⟨hne, hds⟩

theorem completePage_inv {l : Ledger} (hi : Inv l) (sequence : Nat) :
    Inv (l.advance (.completePage sequence)) := by
  simp only [Ledger.advance, Op.apply, Op.sequences, Op.returned, Op.storesOffered, completePage, List.append_nil,
    Bool.and_true]
  refine inv_onPage hi sequence (fun _ => ∅) (fun s => Finset.empty_subset _)
    (filter_subset_unhandled l (.completePage sequence)) (fun d hd hs _ _ => ?_)
  have hne := (List.mem_filter.1 hd).2
  simp [Op.handles, hs] at hne

theorem throughPage_shrinks (sequence offset : Nat) (pages : List PendingPage) :
    List.Forall₂ Shrinks pages (pages.map (throughPage sequence offset)) := by
  refine List.forall₂_map_right_iff.2 (List.forall₂_same.2 fun p _ => ?_)
  unfold throughPage
  split
  · exact ⟨rfl, rfl, Finset.empty_subset _⟩
  · split
    · exact ⟨rfl, rfl, Finset.filter_subset _ _⟩
    · exact Shrinks.refl p

/-- The tracked page a completion through an offset names, and its target. -/
theorem find_target {pages : List PendingPage} {sequence : Nat} {target : AckTarget}
    (h : (pages.find? (·.sequence = sequence)).bind (·.target) = some target) :
    ∃ p ∈ pages, p.sequence = sequence ∧ target ∈ p.target := by
  obtain ⟨p, hp, ht⟩ := Option.bind_eq_some_iff.1 h
  exact ⟨p, List.mem_of_find?_eq_some hp, by simpa using List.find?_some hp, ht⟩

/-- Completing through `offset` of a tracked page leaves only records past
`offset`: earlier pages are cleared, and later ones were read past the page's
safe offset. -/
theorem throughPage_clear {limit : Nat} {pages : List PendingPage} (hq : Queue limit pages) {p : PendingPage}
    (hp : p ∈ pages) {target : AckTarget} (ht : target ∈ p.target) {offset : Nat} (hle : offset ≤ target.offset) :
    Clear (pages.map (throughPage p.sequence offset)) offset := by
  intro q hqm o ho
  obtain ⟨q', hq', rfl⟩ := List.mem_map.1 hqm
  unfold throughPage at ho
  split at ho
  · cases ho
  · split at ho
    · exact (Finset.mem_filter.1 ho).2
    · have hlt : p.sequence < q'.sequence := by omega
      exact Nat.lt_of_le_of_lt hle ((before_of_lt hq.ordered hp hq' hlt).2 target ht o ho)

theorem completeThrough_inv {l : Ledger} (hi : Inv l) (sequence offset : Nat) :
    Inv (l.advance (.completeThrough sequence offset)) := by
  simp only [Ledger.advance, Op.apply, Op.sequences, Op.returned, Op.storesOffered, List.append_nil, Bool.and_true]
  have hsub := filter_subset_unhandled l (.completeThrough sequence offset)
  have hidle : Inv { l with
      unhandled := l.unhandled.filter (fun d => !Op.handles l.progress d (.completeThrough sequence offset))
      offered := l.offered ++ l.progress.unstored.toList } :=
    { hi with
      tracked := fun d hd => hi.tracked d (hsub hd)
      offered := fun t ht => by
        rcases List.mem_append.1 ht with ht | ht
        · exact hi.offered t ht
        · exact hi.offered t (hi.unstored t (by simpa using ht))
      unstored := fun t ht => List.mem_append_left _ (hi.unstored t ht)
      stored := fun ho n hn => by
        obtain ⟨t, ht, he⟩ := hi.stored ho n hn
        exact ⟨t, List.mem_append_left _ ht, he⟩ }
  cases hf : (l.progress.pages.find? (·.sequence = sequence)).bind (·.target) with
  | none => simpa only [completeThrough, hf] using hidle
  | some target =>
    by_cases hlt : target.offset < offset
    · simpa only [completeThrough, hf, hlt, if_true] using hidle
    · obtain ⟨p, hp, rfl, ht⟩ := find_target hf
      have hclear := throughPage_clear hi.queue hp ht (Nat.le_of_not_lt hlt)
      have hres : (l.progress.completeThrough p.sequence offset).1 = true := by
        simp only [completeThrough, hf, hlt, if_false]
      have htracked : l.progress.pages.any (·.sequence == p.sequence) = true :=
        List.any_eq_true.2 ⟨p, hp, by simp⟩
      have hinv := inv_shrinks hi (throughPage_shrinks p.sequence offset _)
        (l.unhandled.filter (fun d => !Op.handles l.progress d (.completeThrough p.sequence offset)))
        (fun d hd => by
            -- What is left unhandled lies past the position, so its page keeps it.
            obtain ⟨q, hq, hseq, hoff⟩ := hi.tracked d (hsub hd)
            have hne := (List.mem_filter.1 hd).2
            simp only [Op.handles, hres, htracked, Bool.true_and, Bool.not_eq_true', Bool.or_eq_false_iff,
              Bool.and_eq_false_iff, beq_eq_false_iff_ne, decide_eq_false_iff_not, Nat.not_le, Nat.not_lt] at hne
            refine ⟨_, List.mem_map_of_mem hq, ?_⟩
            unfold throughPage
            rcases Nat.lt_or_eq_of_le hne.2 with h | h
            · rw [if_neg (by omega), if_neg (by omega)]
              exact ⟨hseq, hoff⟩
            · rw [if_neg (by omega), if_pos (by omega)]
              refine ⟨hseq, Finset.mem_filter.2 ⟨hoff, ?_⟩⟩
              rcases hne.1 with h' | h'
              · exact absurd h.symm h'
              · exact h')
      have hsettled := fun n (h : Clear (l.progress.pages.map (throughPage p.sequence offset)) n) q hq =>
        h q ((settlePages_spec (hi.queue.shrinks (throughPage_shrinks p.sequence offset _)) l.progress.unstored
          l.progress.settledSequence).2.1 hq)
      simp only [completeThrough, hf, hlt, if_false]
      split
      · refine inv_settle hinv (some { target with offset := offset }) (fun t ht' => ?_)
        obtain rfl := Option.some.inj ht'
        refine .inr ⟨?_, hsettled offset hclear⟩
        exact Nat.lt_of_le_of_lt (Nat.le_of_not_lt hlt) (hi.queue.bounded p hp target ht)
      · exact inv_settle hinv _ (fun t ht' => .inl ht')

theorem stored_inv {l : Ledger} (hi : Inv l) (target : AckTarget) : Inv (l.advance (.stored target)) := by
  have hun : ∀ t ∈ (l.progress.stored target).unstored, t ∈ l.offered := by
    intro t ht
    simp only [PartitionProgress.stored] at ht
    split at ht
    · cases ht
    · exact hi.unstored t ht
  refine ⟨hi.queue, fun p hp => List.mem_append_left _ (hi.numbered p hp), fun d hd => ?_, fun t ht => ?_,
    fun t ht => List.mem_append_left _ (hun t ht), fun ho n hn => ?_⟩
  · have hd' : d ∈ l.unhandled := by simpa [Ledger.advance, Op.handles, Op.returned] using hd
    exact hi.tracked d hd'
  · rcases List.mem_append.1 ht with ht | ht
    · exact hi.offered t ht
    · exact hi.offered t (hun t (by simpa [Op.apply] using ht))
  · simp only [Ledger.advance, Op.storesOffered, Bool.and_eq_true, List.contains_iff_mem] at ho
    have hmax : n = target.offset ∨ n ∈ l.progress.storedOffset := by
      simp only [Ledger.advance, Op.apply, PartitionProgress.stored, Option.mem_def, Option.some.injEq] at hn
      cases hso : l.progress.storedOffset with
      | none => simp_all
      | some m =>
        rw [hso, Option.elim_some] at hn
        rcases max_choice m target.offset with h | h
        · exact .inr (by rw [← hn, h]; rfl)
        · exact .inl (hn.symm.trans h)
    rcases hmax with rfl | hold
    · exact ⟨target, List.mem_append_left _ ho.2, rfl⟩
    · obtain ⟨t, ht, he⟩ := hi.stored ho.1 n hold
      exact ⟨t, List.mem_append_left _ ht, he⟩

theorem record_inv {l : Ledger} (hi : Inv l) {sequence : Nat} {request : FilteredPollRequest} {page : FilteredPage}
    {polled : PolledMessages} (ha : Op.Allowed l (.record sequence request page polled)) :
    Inv (l.advance (.record sequence request page polled)) := by
  obtain ⟨hstart, hvalid, hfresh⟩ := ha
  have hb := validatePage_bounds hvalid l.progress.original
  rw [hstart] at hb
  have hrec : ∀ o ∈ polled.offsets.toFinset, l.progress.start.examinedTo ≤ o :=
    fun o ho => hb.records o (List.mem_toFinset.1 ho)
  have hqueue : Queue (page.nextStart l.progress.original).examinedTo
      (enqueue l.progress.pages sequence (targetOf page) polled.offsets.toFinset) := by
    refine enqueue_queue hi.queue hb.forward (fun p hp => hfresh _ (hi.numbered p hp)) (fun t ht => ?_) hrec
    obtain ⟨n, hn, rfl⟩ := Option.map_eq_some_iff.1 ht
    exact hb.safe n hn
  simp only [Ledger.advance, Op.apply, Op.sequences, Op.returned, Op.storesOffered, Op.handles, record, Bool.and_true,
    Bool.not_false, List.filter_true]
  refine inv_settle (l := { l with
    progress := { l.progress with
      retryAt := none
      firstSequence := l.progress.firstSequence.or (some sequence)
      start := page.nextStart l.progress.original
      waitFrom := some (waitAfter page)
      blocked := blockedBy page
      pages := enqueue l.progress.pages sequence (targetOf page) polled.offsets.toFinset }
    recorded := l.recorded ++ [sequence]
    unhandled := l.unhandled ++ polled.offsets.map (⟨sequence, ·⟩) }) ?_ _ (fun t ht => .inl ht)
  refine ⟨hqueue, fun p hp => ?_, fun d hd => ?_, fun t ht => ?_, hi.unstored, hi.stored⟩
  · rcases enqueue_mem hp with ⟨q, hq, hseq, -⟩ | rfl
    · exact List.mem_append_left _ (hseq ▸ hi.numbered q hq)
    · exact List.mem_append_right _ List.mem_cons_self
  · rcases List.mem_append.1 hd with hd | hd
    · obtain ⟨p, hp, hseq, hoff⟩ := hi.tracked d hd
      obtain ⟨q, hq, hqs, hqo⟩ := enqueue_keeps sequence (targetOf page) polled.offsets.toFinset hp
      exact ⟨q, hq, hqs.trans hseq, hqo ▸ hoff⟩
    · obtain ⟨o, ho, rfl⟩ := List.mem_map.1 hd
      have hmem : o ∈ polled.offsets.toFinset := List.mem_toFinset.2 ho
      exact ⟨_, enqueue_new (Finset.ne_empty_of_mem hmem), rfl, hmem⟩
  · obtain ⟨hlt, hclear⟩ := hi.offered t ht
    refine ⟨Nat.lt_of_lt_of_le hlt hb.forward, fun p hp o ho => ?_⟩
    rcases enqueue_mem hp with ⟨q, hq, -, hout⟩ | rfl
    · exact hclear q hq o (hout ▸ ho)
    · exact Nat.lt_of_lt_of_le hlt (hrec o ho)

theorem step_inv {l l' : Ledger} {op : Op} (hi : Inv l) (h : l.Step op l') : Inv l' := by
  obtain ⟨ha, rfl⟩ := h
  cases op with
  | record => exact record_inv hi ha
  | completeRecord => exact completeRecord_inv hi _ _
  | completePage => exact completePage_inv hi _
  | completeThrough => exact completeThrough_inv hi _ _
  | stored => exact stored_inv hi _

/-! ## Main theorem -/

/-- The offset a progress offers to store, and the one it stored when it was
only asked to store what it offered, lie strictly below every returned record
that is not handled. -/
theorem unstored_below_unhandled {start : FilteredStart} {ops : List Op} {l : Ledger}
    (h : Lib.Run Ledger.Step (Ledger.new start) ops l) :
    (∀ t, l.progress.unstored = some t → ∀ d ∈ l.unhandled, t.offset < d.offset) ∧
      (l.onlyOffered = true → ∀ n, l.progress.storedOffset = some n → ∀ d ∈ l.unhandled, n < d.offset) := by
  have hi : Inv l := h.inv Inv (new_inv start) (fun _ _ _ => step_inv)
  have hoffered : ∀ t ∈ l.offered, ∀ d ∈ l.unhandled, t.offset < d.offset := by
    intro t ht d hd
    obtain ⟨p, hp, -, hoff⟩ := hi.tracked d hd
    exact (hi.offered t ht).2 p hp d.offset hoff
  refine ⟨fun t ht => hoffered t (hi.unstored t ht), fun ho n hn d hd => ?_⟩
  obtain ⟨t, ht, rfl⟩ := hi.stored ho n hn
  exact hoffered t ht d hd

/-- A page of partition 0 that examined ten records and returned `offsets`. -/
def scannedPage (next : Nat) (offsets : List Nat) : FilteredPage :=
  { v := filterOpVersion, partitionId := 0, policy := ⟨none, some ⟨List.replicate 32 7⟩, none, none, .filtered, 0⟩
    generation := ⟨1, 10, 2, 20, 0, 30⟩, ackContext := ⟨0, 0⟩, nextScanOffset := some next
    safeAckOffset := some (next - 1), frontier := 100, examined := 10, matched := offsets.length, stop := .filled
    fault := none, unevaluated := [] }

/-- The calls that read offsets 3 and 7 and then finish everything through 3. -/
def throughFirst : List Op :=
  [.record 1 ⟨0, .consumer "c", .revision 1 1, .first, none⟩ (scannedPage 10 [3, 7]) ⟨0, 100, 30, 0, 0, [3, 7]⟩,
    .completeThrough 1 3]

/-- Inside a page: offset 3 may be stored while 7 is still open. -/
theorem unstored_below_open_record :
    ∃ l, Lib.Run Ledger.Step (Ledger.new .first) throughFirst l ∧
      l.progress.unstored.map (·.offset) = some 3 ∧ l.unhandled = [⟨1, 7⟩] ∧
      ∀ t, l.progress.unstored = some t → ∀ d ∈ l.unhandled, t.offset < d.offset := by
  have hrun : Lib.Run Ledger.Step (Ledger.new .first) throughFirst
      (throughFirst.foldl Ledger.advance (Ledger.new .first)) := by
    have hread : Lib.Run Ledger.Step (Ledger.new .first) ([] ++ throughFirst.take 1) _ :=
      .snoc .nil ⟨⟨rfl, by decide, fun _ hn => by cases hn⟩, rfl⟩
    exact hread.snoc ⟨trivial, rfl⟩
  exact ⟨_, hrun, by decide, by decide, (unstored_below_unhandled hrun).1⟩

end LaserSdk.Filters

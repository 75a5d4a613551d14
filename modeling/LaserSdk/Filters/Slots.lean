import LaserSdk.Filters.Acknowledge
/-!
# Slots of a partition

The reader reads a partition only while fewer than `max_unacked_pages` of its
pages are open. A page that returned nothing takes no slot: its safe offset is
folded into the newest open page, or offered at once. We prove that the bound
holds, and that once everything returned is handled the newest safe offset of
all pages is offered or stored.
-/

namespace LaserSdk.Filters

open PartitionProgress

/-! ## The reader's rule -/

/-- The safe offset that a call reports. -/
def Op.safe : Op → Option Nat
  | .record _ _ page _ => page.safeAckOffset
  | _ => none

/-- The newest safe offset of all recorded pages. -/
def newestSafe (ops : List Op) : Option Nat := ops.foldl (fun newest op => op.safe.or newest) none

theorem newestSafe_concat (ops : List Op) (op : Op) : newestSafe (ops ++ [op]) = op.safe.or (newestSafe ops) := by
  rw [newestSafe, List.foldl_append]
  rfl

/-- A partition is read while it has a slot free. -/
def Op.HasSlot (maximum : Nat) (l : Ledger) : Op → Prop
  | .record _ _ _ _ => l.progress.inFlight < maximum
  | _ => True

/-- The calls of a reader: it reads while there is a slot, and stores what it was offered. -/
def Ledger.ReaderStep (maximum : Nat) (l : Ledger) (op : Op) (l' : Ledger) : Prop :=
  l.Step op l' ∧ op.HasSlot maximum l ∧ op.storesOffered l.offered = true

/-! ## Settling -/

/-- A queue whose front page waits is left alone. -/
theorem settlePages_eq {pages : List PendingPage} (h : ∀ page ∈ pages.head?, page.outstanding ≠ ∅)
    (unstored : Option AckTarget) (settled : Nat) : settlePages pages unstored settled = (pages, unstored, settled) := by
  cases pages with
  | nil => rfl
  | cons page rest => rw [settlePages, if_neg (h page rfl)]

/-- A queue that empties offers the target of its newest page. -/
theorem settlePages_last {pages : List PendingPage} {unstored : Option AckTarget} {settled : Nat} {page : PendingPage}
    {target : AckTarget} (hlast : pages.getLast? = some page) (htarget : page.target = some target)
    (hempty : (settlePages pages unstored settled).1 = []) : (settlePages pages unstored settled).2.1 = some target := by
  induction pages generalizing unstored settled with
  | nil => cases hlast
  | cons first rest ih =>
    unfold settlePages at hempty ⊢
    split at hempty
    · rename_i hdone
      rw [if_pos hdone]
      cases rest with
      | nil =>
        obtain rfl : first = page := by simpa using hlast
        simp [settlePages, htarget]
      | cons second rest => exact ih (by simpa using hlast) hempty
    · cases hempty

/-- What is offered was offered before, or is the target of a page. -/
theorem settlePages_target {pages : List PendingPage} {unstored : Option AckTarget} {settled : Nat} {target : AckTarget}
    (h : target ∈ (settlePages pages unstored settled).2.1) : target ∈ unstored ∨ ∃ page ∈ pages, target ∈ page.target := by
  induction pages generalizing unstored settled with
  | nil => exact .inl h
  | cons page rest ih =>
    unfold settlePages at h
    split at h
    · rcases ih h with hor | ⟨other, hother, htarget⟩
      · rcases Option.or_eq_some_iff.1 hor with hpage | ⟨-, hold⟩
        · exact .inr ⟨page, List.mem_cons_self, hpage⟩
        · exact .inl hold
      · exact .inr ⟨other, List.mem_cons_of_mem _ hother, htarget⟩
    · exact .inl h

/-! ## What an accepted page reports -/

/-- A page with records reports a safe offset. -/
theorem validatePage_returned {request : FilteredPollRequest} {page : FilteredPage} {polled : PolledMessages}
    (h : validatePage request page polled = .ok ()) (hreturned : polled.offsets ≠ []) : ∃ n, page.safeAckOffset = some n := by
  obtain ⟨hscan, hoffsets⟩ := validatePage_scan h
  obtain ⟨offset, rest, hcons⟩ := List.exists_cons_of_ne_nil hreturned
  obtain ⟨hfrom, last, hlast, hle⟩ := offsetsMatch_mem hoffsets offset (hcons ▸ List.mem_cons_self)
  simp only [scanMatches, Bool.and_eq_true] at hscan
  obtain ⟨⟨hexam, -⟩, -⟩ := hscan
  split at hexam
  · -- A page that examined nothing stays where it started.
    simp only [Bool.and_eq_true, beq_iff_eq] at hexam
    have hnext := scannedTo_lt last hlast
    have := hfrom (last + 1) (hexam.2 ▸ hnext)
    omega
  · simp only [Bool.and_eq_true, beq_iff_eq] at hexam
    exact ⟨last, hexam.2.trans hlast⟩

/-! ## The invariant -/

/-- An offset that is not past the newest safe one. -/
def UpTo (ops : List Op) (offset : Nat) : Prop := ∃ n ∈ newestSafe ops, offset ≤ n

/-- What every call of the reader keeps. The newest open page carries the newest
safe offset, and with no page open it is offered or stored. -/
structure Slots (maximum : Nat) (ops : List Op) (l : Ledger) : Prop where
  inv : Inv l
  onlyOffered : l.onlyOffered = true
  room : l.progress.inFlight ≤ maximum
  front : ∀ page ∈ l.progress.pages.head?, page.outstanding ≠ ∅
  returned : ∀ page ∈ l.progress.pages, ∃ d ∈ ops.flatMap Op.returned, d.sequence = page.sequence
  unhandled : ∀ page ∈ l.progress.pages, ∀ o ∈ page.outstanding, ⟨page.sequence, o⟩ ∈ l.unhandled
  newest : ∀ page ∈ l.progress.pages.getLast?, ∃ target, page.target = some target ∧ newestSafe ops = some target.offset
  targets : ∀ page ∈ l.progress.pages, ∃ target, page.target = some target ∧ UpTo ops target.offset
  offered : ∀ target ∈ l.offered, UpTo ops target.offset
  settled : l.progress.pages = [] →
    (l.progress.unstored.map (·.offset)).or l.progress.storedOffset = newestSafe ops

theorem Slots.new (maximum : Nat) (start : FilteredStart) : Slots maximum [] (Ledger.new start) where
  inv := new_inv start
  onlyOffered := rfl
  room := Nat.zero_le _
  front := by simp [Ledger.new, PartitionProgress.new]
  returned := by simp [Ledger.new, PartitionProgress.new]
  unhandled := by simp [Ledger.new, PartitionProgress.new]
  newest := by simp [Ledger.new, PartitionProgress.new]
  targets := by simp [Ledger.new, PartitionProgress.new]
  offered := by simp [Ledger.new, PartitionProgress.new]
  settled _ := rfl

variable {maximum : Nat} {ops : List Op} {l : Ledger}

theorem forall₂_getLast {pages pages' : List PendingPage} (h : List.Forall₂ Shrinks pages pages') :
    ∀ page' ∈ pages'.getLast?, ∃ page ∈ pages.getLast?, Shrinks page page' := by
  induction h with
  | nil => nofun
  | @cons page page' rest rest' hpage hrest ih =>
    cases hrest with
    | nil =>
      intro last hlast
      obtain rfl : page' = last := by simpa using hlast
      exact ⟨page, by simp, hpage⟩
    | cons => simpa using ih

theorem unstored_upTo (h : Slots maximum ops l) : ∀ target ∈ l.progress.unstored, UpTo ops target.offset :=
  fun target htarget => h.offered target (h.inv.unstored target htarget)

/-- Settling the last open page offers the newest safe offset. -/
theorem Slots.settled_newest (h : Slots maximum ops l) {pages' : List PendingPage}
    (hshrinks : List.Forall₂ Shrinks l.progress.pages pages') {last : PendingPage} (hlast : pages'.getLast? = some last)
    (hempty : (settlePages pages' l.progress.unstored l.progress.settledSequence).1 = []) :
    ∃ target, (settlePages pages' l.progress.unstored l.progress.settledSequence).2.1 = some target ∧
      newestSafe ops = some target.offset := by
  obtain ⟨old, hold, hsame⟩ := forall₂_getLast hshrinks last hlast
  obtain ⟨target, htarget, hsafest⟩ := h.newest old hold
  exact ⟨target, settlePages_last hlast (hsame.2.1.trans htarget) hempty, hsafest⟩

/-- Handling records and settling keeps the invariant. `pages'` are the open
pages with fewer outstanding records, and what is left in them is unhandled. -/
theorem Slots.handle (h : Slots maximum ops l) {op : Op} (hallowed : op.Allowed l) (hsafe : op.safe = none)
    (hreturned : op.returned = []) (hstores : op.storesOffered l.offered = true) {pages' : List PendingPage}
    (hshrinks : List.Forall₂ Shrinks l.progress.pages pages')
    (hpages : (op.apply l.progress).pages = (settlePages pages' l.progress.unstored l.progress.settledSequence).1)
    (hstored : (op.apply l.progress).storedOffset = l.progress.storedOffset)
    (hunstored : (op.apply l.progress).pages = [] →
      (op.apply l.progress).unstored = (settlePages pages' l.progress.unstored l.progress.settledSequence).2.1)
    (hupTo : ∀ target ∈ (op.apply l.progress).unstored, UpTo ops target.offset)
    (hleft : ∀ page ∈ pages', ∀ o ∈ page.outstanding, op.handles l.progress ⟨page.sequence, o⟩ = false) :
    Slots maximum (ops ++ [op]) (l.advance op) := by
  have hnewest : newestSafe (ops ++ [op]) = newestSafe ops := by rw [newestSafe_concat, hsafe, Option.none_or]
  have hall : (ops ++ [op]).flatMap Op.returned = ops.flatMap Op.returned := by simp [hreturned]
  have hsuffix := settlePages_suffix pages' l.progress.unstored l.progress.settledSequence
  rw [← hpages] at hsuffix
  have hfrom : ∀ page ∈ (op.apply l.progress).pages, ∃ old ∈ l.progress.pages, Shrinks old page :=
    fun page hpage => shrinks_mem hshrinks page (hsuffix.subset hpage)
  refine ⟨step_inv h.inv ⟨hallowed, rfl⟩, ?_, ?_, ?_, ?_, ?_, ?_, ?_, ?_, ?_⟩
  · simp [Ledger.advance, h.onlyOffered, hstores]
  · have hle := hsuffix.length_le
    rw [← hshrinks.length_eq] at hle
    exact hle.trans h.room
  · show ∀ page ∈ (op.apply l.progress).pages.head?, _
    rw [hpages]
    exact settlePages_front _ _ _
  · intro page hpage
    obtain ⟨old, hold, hsame⟩ := hfrom page hpage
    rw [hall, hsame.1]
    exact h.returned old hold
  · intro page hpage o ho
    obtain ⟨old, hold, hsame⟩ := hfrom page hpage
    have hmem := h.unhandled old hold o (hsame.2.2 ho)
    rw [← hsame.1] at hmem
    refine List.mem_append_left _ (List.mem_filter.2 ⟨hmem, ?_⟩)
    rw [hleft page (hsuffix.subset hpage) o ho]
    rfl
  · intro page hpage
    -- The newest page left is the newest there was.
    have hlast : page ∈ pages'.getLast? := by
      obtain ⟨before, hbefore⟩ := hsuffix
      rw [← hbefore, List.getLast?_append, show (op.apply l.progress).pages.getLast? = some page from hpage]
      rfl
    obtain ⟨old, hold, hsame⟩ := forall₂_getLast hshrinks page hlast
    rw [hnewest, hsame.2.1]
    exact h.newest old hold
  · intro page hpage
    obtain ⟨old, hold, hsame⟩ := hfrom page hpage
    rw [hsame.2.1]
    unfold UpTo
    rw [hnewest]
    exact h.targets old hold
  · intro target htarget
    unfold UpTo
    rw [hnewest]
    rcases List.mem_append.1 htarget with hold | hnew
    · exact h.offered target hold
    · exact hupTo target (by simpa using hnew)
  · intro hempty
    have hempty : (op.apply l.progress).pages = [] := hempty
    show ((op.apply l.progress).unstored.map _).or (op.apply l.progress).storedOffset = _
    rw [hunstored hempty, hstored, hnewest]
    rw [hpages] at hempty
    cases hlast : pages'.getLast? with
    | none =>
      obtain rfl := List.getLast?_eq_none_iff.1 hlast
      rw [settlePages]
      exact h.settled (List.eq_nil_of_length_eq_zero (by rw [hshrinks.length_eq]; rfl))
    | some page =>
      obtain ⟨target, hoffer, hsafest⟩ := h.settled_newest hshrinks hlast hempty
      rw [hoffer, hsafest]
      rfl

/-! ## One lemma per call -/

/-- What settling offers is not past the newest safe offset. -/
theorem Slots.settle_upTo (h : Slots maximum ops l) {pages' : List PendingPage}
    (hshrinks : List.Forall₂ Shrinks l.progress.pages pages') :
    ∀ target ∈ (settlePages pages' l.progress.unstored l.progress.settledSequence).2.1, UpTo ops target.offset := by
  intro target htarget
  rcases settlePages_target htarget with hold | ⟨page, hpage, hown⟩
  · exact unstored_upTo h target hold
  · obtain ⟨old, hold, hsame⟩ := shrinks_mem hshrinks page hpage
    obtain ⟨target', htarget', hupTo⟩ := h.targets old hold
    rw [hsame.2.1, htarget'] at hown
    cases hown
    exact hupTo

/-- The pages of a queue have a sequence each, so only one of them changes. -/
theorem onPage_mem {sequence : Nat} {f : Finset Nat → Finset Nat} {pages : List PendingPage} (hordered : pages.Pairwise Before)
    {page : PendingPage} (hpage : page ∈ onPage sequence f pages) (hsequence : page.sequence = sequence) :
    ∃ old : Finset Nat, page.outstanding = f old := by
  induction pages with
  | nil => cases hpage
  | cons first rest ih =>
    obtain ⟨hfirst, hrest⟩ := List.pairwise_cons.1 hordered
    unfold onPage at hpage
    split at hpage
    · rename_i hfound
      rcases List.mem_cons.1 hpage with rfl | hlater
      · exact ⟨first.outstanding, rfl⟩
      · have := (hfirst page hlater).1
        omega
    · rename_i hother
      rcases List.mem_cons.1 hpage with rfl | hlater
      · exact absurd hsequence hother
      · exact ih hrest hlater

theorem Slots.completeRecord (h : Slots maximum ops l) (sequence offset : Nat) :
    Slots maximum (ops ++ [.completeRecord sequence offset]) (l.advance (.completeRecord sequence offset)) := by
  have hshrinks := onPage_shrinks sequence (·.erase offset) (fun s => Finset.erase_subset _ _) l.progress.pages
  refine h.handle trivial rfl rfl rfl hshrinks rfl rfl (fun _ => rfl) (h.settle_upTo hshrinks) ?_
  intro page hpage o ho
  simp only [Op.handles, Bool.and_eq_false_iff, beq_eq_false_iff_ne, ne_eq]
  by_cases hsequence : page.sequence = sequence
  · obtain ⟨old, hold⟩ := onPage_mem h.inv.queue.ordered hpage hsequence
    rw [hold] at ho
    exact .inr (Finset.mem_erase.1 ho).1
  · exact .inl hsequence

theorem Slots.completePage (h : Slots maximum ops l) (sequence : Nat) :
    Slots maximum (ops ++ [.completePage sequence]) (l.advance (.completePage sequence)) := by
  have hshrinks := onPage_shrinks sequence (fun _ => ∅) (fun s => Finset.empty_subset _) l.progress.pages
  refine h.handle trivial rfl rfl rfl hshrinks rfl rfl (fun _ => rfl) (h.settle_upTo hshrinks) ?_
  intro page hpage o ho
  simp only [Op.handles, beq_eq_false_iff_ne, ne_eq]
  intro hsequence
  obtain ⟨old, hold⟩ := onPage_mem h.inv.queue.ordered hpage hsequence
  rw [hold] at ho
  cases ho

/-- A call that leaves the pages as they are, and handles nothing in them. -/
theorem Slots.idle (h : Slots maximum ops l) {op : Op} (hallowed : op.Allowed l) (hsafe : op.safe = none)
    (hreturned : op.returned = []) (hstores : op.storesOffered l.offered = true) (happly : op.apply l.progress = l.progress)
    (hleft : ∀ page ∈ l.progress.pages, ∀ o ∈ page.outstanding, op.handles l.progress ⟨page.sequence, o⟩ = false) :
    Slots maximum (ops ++ [op]) (l.advance op) := by
  have hidle := settlePages_eq h.front l.progress.unstored l.progress.settledSequence
  refine h.handle hallowed hsafe hreturned hstores (List.forall₂_same.2 fun page _ => Shrinks.refl page) ?_ ?_ ?_ ?_ hleft <;>
    rw [happly]
  · rw [hidle]
  · intro _
    rw [hidle]
  · exact unstored_upTo h

/-- What a completion through an offset leaves lies past it. -/
theorem throughPage_left {sequence offset : Nat} {page : PendingPage} {o : Nat}
    (ho : o ∈ (throughPage sequence offset page).outstanding) :
    (throughPage sequence offset page).sequence = page.sequence ∧ ¬ (page.sequence = sequence ∧ o ≤ offset) ∧
      ¬ page.sequence < sequence := by
  unfold throughPage at ho ⊢
  split at ho
  · cases ho
  · rename_i hearlier
    rw [if_neg hearlier]
    split at ho
    · rename_i hsame
      rw [if_pos hsame]
      have hpast := (Finset.mem_filter.1 ho).2
      exact ⟨rfl, by omega, hearlier⟩
    · rename_i hother
      rw [if_neg hother]
      exact ⟨rfl, fun hown => hother hown.1, hearlier⟩

/-- Every open page has a target, so a sequence without one is not open. -/
theorem Slots.closed_of_find (h : Slots maximum ops l) {sequence : Nat}
    (hfound : (l.progress.pages.find? (·.sequence = sequence)).bind (·.target) = none) :
    l.progress.pages.any (·.sequence == sequence) = false := by
  refine List.any_eq_false.2 fun page hpage hsequence => ?_
  obtain ⟨found, hfind⟩ := Option.isSome_iff_exists.1
    (List.find?_isSome.2 ⟨page, hpage, by simpa using hsequence⟩ : (l.progress.pages.find? (·.sequence = sequence)).isSome)
  obtain ⟨target, htarget, -⟩ := h.targets found (List.mem_of_find?_eq_some hfind)
  rw [hfind, Option.bind_some, htarget] at hfound
  cases hfound

theorem Slots.completeThrough (h : Slots maximum ops l) (sequence offset : Nat) :
    Slots maximum (ops ++ [.completeThrough sequence offset]) (l.advance (.completeThrough sequence offset)) := by
  cases hfound : (l.progress.pages.find? (·.sequence = sequence)).bind (·.target) with
  | none =>
    refine h.idle trivial rfl rfl rfl ?_ fun page _ o _ => ?_
    · simp only [Op.apply, PartitionProgress.completeThrough, hfound]
    · simp only [Op.handles, h.closed_of_find hfound, Bool.false_and]
  | some target =>
    by_cases hpast : target.offset < offset
    · refine h.idle trivial rfl rfl rfl ?_ fun page _ o _ => ?_
      · simp only [Op.apply, PartitionProgress.completeThrough, hfound, hpast, if_true]
      · simp only [Op.handles, PartitionProgress.completeThrough, hfound, hpast, if_true, Bool.and_false, Bool.false_and]
    · obtain ⟨page, hpage, -, htarget⟩ := find_target hfound
      have hupTo : UpTo ops target.offset := by
        obtain ⟨target', htarget', hupTo⟩ := h.targets page hpage
        rw [htarget'] at htarget
        cases htarget
        exact hupTo
      have hshrinks := throughPage_shrinks sequence offset l.progress.pages
      generalize hpages' : l.progress.pages.map (throughPage sequence offset) = pages' at hshrinks
      have happly : Op.apply l.progress (.completeThrough sequence offset) =
          if (settlePages pages' l.progress.unstored l.progress.settledSequence).2.1.all (·.offset < offset)
          then { settle { l.progress with pages := pages' } with unstored := some { target with offset := offset } }
          else settle { l.progress with pages := pages' } := by
        simp only [Op.apply, PartitionProgress.completeThrough, hfound, hpast, if_false, hpages']
        rfl
      refine h.handle trivial rfl rfl rfl hshrinks ?_ ?_ ?_ ?_ ?_
      · rw [happly]
        split <;> rfl
      · rw [happly]
        split <;> rfl
      · intro hempty
        -- The newest page is settled too, and its target is no older.
        have hempty : (settlePages pages' l.progress.unstored l.progress.settledSequence).1 = [] := by
          rw [← hempty, happly]
          split <;> rfl
        obtain ⟨last, hlast⟩ : ∃ last, pages'.getLast? = some last := by
          refine Option.ne_none_iff_exists'.1 fun hnone => ?_
          rw [List.getLast?_eq_none_iff.1 hnone, List.forall₂_nil_right_iff] at hshrinks
          rw [hshrinks] at hpage
          cases hpage
        obtain ⟨newest, hoffer, hsafest⟩ := h.settled_newest hshrinks hlast hempty
        obtain ⟨n, hn, hle⟩ := hupTo
        rw [hsafest] at hn
        cases hn
        rw [happly, if_neg]
        · rfl
        · rw [hoffer, Option.all_some, decide_eq_true_eq]
          omega
      · intro other hother
        rw [happly] at hother
        split at hother
        · cases hother
          obtain ⟨n, hn, hle⟩ := hupTo
          exact ⟨n, hn, (Nat.le_of_not_lt hpast).trans hle⟩
        · exact h.settle_upTo hshrinks other hother
      · intro left hleft o ho
        rw [← hpages'] at hleft
        obtain ⟨old, hold, rfl⟩ := List.mem_map.1 hleft
        obtain ⟨hsequence, hpage, hearlier⟩ := throughPage_left ho
        rw [hsequence]
        simp only [Op.handles, Bool.and_eq_false_iff, Bool.or_eq_false_iff, beq_eq_false_iff_ne, decide_eq_false_iff_not]
        exact .inr ⟨not_and_or.1 hpage, hearlier⟩

theorem Slots.stored (h : Slots maximum ops l) {target : AckTarget} (htarget : target ∈ l.offered) :
    Slots maximum (ops ++ [.stored target]) (l.advance (.stored target)) := by
  have hnewest : newestSafe (ops ++ [.stored target]) = newestSafe ops := by
    rw [newestSafe_concat]
    rfl
  have hunhandled : (l.advance (.stored target)).unhandled = l.unhandled := by
    simp [Ledger.advance, Op.handles, Op.returned]
  have hunstored : ∀ t ∈ (l.progress.stored target).unstored, t ∈ l.progress.unstored := by
    intro t ht
    simp only [PartitionProgress.stored] at ht
    split at ht
    · cases ht
    · exact ht
  refine ⟨stored_inv h.inv target, ?_, h.room, h.front, ?_, ?_, ?_, ?_, ?_, ?_⟩
  · simp [Ledger.advance, h.onlyOffered, Op.storesOffered, htarget]
  · intro page hpage
    obtain ⟨d, hd, hsequence⟩ := h.returned page hpage
    exact ⟨d, by simpa [Op.returned] using hd, hsequence⟩
  · rw [hunhandled]
    exact h.unhandled
  · rw [hnewest]
    exact h.newest
  · unfold UpTo
    rw [hnewest]
    exact h.targets
  · unfold UpTo
    rw [hnewest]
    intro t ht
    rcases List.mem_append.1 ht with hold | hnew
    · exact h.offered t hold
    · exact unstored_upTo h t (hunstored t (by simpa [Op.apply] using hnew))
  · intro hempty
    have hbefore := h.settled hempty
    obtain ⟨n, hn, hle⟩ := h.offered target htarget
    have hstored : ∀ m ∈ l.progress.storedOffset, m ≤ n := by
      intro m hm
      obtain ⟨t, ht, rfl⟩ := h.inv.stored h.onlyOffered m hm
      obtain ⟨n', hn', hle'⟩ := h.offered t ht
      rw [hn] at hn'
      cases hn'
      exact hle'
    rw [hnewest, hn]
    rw [hn] at hbefore
    show ((l.progress.stored target).unstored.map _).or (l.progress.stored target).storedOffset = some n
    unfold PartitionProgress.stored
    dsimp only
    split
    next hsame =>
      -- The newest target is stored now, and nothing newer was before.
      rw [hsame] at hbefore
      cases hbefore
      cases hm : l.progress.storedOffset with
      | none => rfl
      | some m => simp [Nat.max_eq_right (hstored m hm)]
    next hother =>
      cases hu : l.progress.unstored with
      | some u =>
        rw [hu] at hbefore
        exact hbefore
      | none =>
        rw [hu] at hbefore
        have hbefore : l.progress.storedOffset = some n := hbefore
        simp [hbefore, Nat.max_eq_left hle]

/-- The newest safe offset does not go back. -/
theorem upTo_record {sequence : Nat} {request : FilteredPollRequest} {page : FilteredPage} {polled : PolledMessages}
    (hallowed : Op.Allowed l (.record sequence request page polled)) {offset : Nat} (h : UpTo ops offset)
    (hexamined : offset < l.progress.start.examinedTo) : UpTo (ops ++ [.record sequence request page polled]) offset := by
  obtain ⟨hstart, hvalid, -⟩ := hallowed
  have hforward := (validatePage_bounds hvalid l.progress.original).forward
  rw [hstart] at hforward
  unfold UpTo
  rw [newestSafe_concat, Op.safe]
  cases hsafe : page.safeAckOffset with
  | none =>
    rw [Option.none_or]
    exact h
  | some n =>
    have := validatePage_safe hvalid l.progress.original n hsafe
    exact ⟨n, rfl, by omega⟩

section

variable {sequence : Nat} {request : FilteredPollRequest} {page : FilteredPage} {polled : PolledMessages}

/-- A page is queued behind pages that are open, or with records of its own. -/
theorem Slots.enqueue (h : Slots maximum ops l) (hallowed : Op.Allowed l (.record sequence request page polled))
    {pages' : List PendingPage}
    (hpages : PartitionProgress.enqueue l.progress.pages sequence (targetOf page) polled.offsets.toFinset = pages')
    (hopen : pages' ≠ []) (hroom : pages'.length ≤ maximum) (hfront : ∀ first ∈ pages'.head?, first.outstanding ≠ ∅)
    (hnewest : ∀ last ∈ pages'.getLast?, ∃ target, last.target = some target ∧
      newestSafe (ops ++ [.record sequence request page polled]) = some target.offset)
    (hold : ∀ open' ∈ pages', (∃ old ∈ l.progress.pages, old.sequence = open'.sequence ∧ old.outstanding = open'.outstanding ∧
      (old.target = open'.target ∨ open' ∈ pages'.getLast?)) ∨
      open' ∈ pages'.getLast? ∧ open'.sequence = sequence ∧ open'.outstanding = polled.offsets.toFinset ∧ polled.offsets ≠ []) :
    Slots maximum (ops ++ [.record sequence request page polled]) (l.advance (.record sequence request page polled)) := by
  have hsettle := settlePages_eq hfront l.progress.unstored l.progress.settledSequence
  have hprogress : (l.advance (.record sequence request page polled)).progress.pages = pages' ∧
      (l.advance (.record sequence request page polled)).progress.unstored = l.progress.unstored := by
    simp only [Ledger.advance, Op.apply, record, settle, hpages, hsettle, and_self]
  have hunhandled : (l.advance (.record sequence request page polled)).unhandled =
      l.unhandled ++ polled.offsets.map (⟨sequence, ·⟩) := by
    simp [Ledger.advance, Op.handles, Op.returned]
  have hlast : ∀ last ∈ pages'.getLast?, ∃ target, last.target = some target ∧
      UpTo (ops ++ [.record sequence request page polled]) target.offset := by
    intro last hmem
    obtain ⟨target, htarget, hsafest⟩ := hnewest last hmem
    exact ⟨target, htarget, target.offset, hsafest, Nat.le_refl _⟩
  refine ⟨record_inv h.inv hallowed, ?_, ?_, ?_, ?_, ?_, ?_, ?_, ?_, ?_⟩
  · simp [Ledger.advance, h.onlyOffered, Op.storesOffered]
  · rw [inFlight, hprogress.1]
    exact hroom
  · rw [hprogress.1]
    exact hfront
  · rw [hprogress.1]
    intro open' hmem
    rw [List.flatMap_append]
    rcases hold open' hmem with ⟨old, hmem', hsequence, -⟩ | ⟨-, hsequence, -, hreturned⟩
    · obtain ⟨d, hd, hsame⟩ := h.returned old hmem'
      exact ⟨d, List.mem_append_left _ hd, hsame.trans hsequence⟩
    · obtain ⟨offset, rest, hcons⟩ := List.exists_cons_of_ne_nil hreturned
      refine ⟨⟨sequence, offset⟩, List.mem_append_right _ ?_, hsequence.symm⟩
      simp [Op.returned, hcons]
  · rw [hprogress.1, hunhandled]
    intro open' hmem o ho
    rcases hold open' hmem with ⟨old, hmem', hsequence, houtstanding, -⟩ | ⟨-, hsequence, houtstanding, -⟩
    · rw [← hsequence]
      exact List.mem_append_left _ (h.unhandled old hmem' o (houtstanding ▸ ho))
    · rw [hsequence]
      rw [houtstanding] at ho
      exact List.mem_append_right _ (List.mem_map_of_mem (List.mem_toFinset.1 ho))
  · rw [hprogress.1]
    exact hnewest
  · rw [hprogress.1]
    intro open' hmem
    rcases hold open' hmem with ⟨old, hmem', -, -, hsame | hnew⟩ | ⟨hnew, -⟩
    · obtain ⟨target, htarget, hupTo⟩ := h.targets old hmem'
      exact ⟨target, hsame ▸ htarget, upTo_record hallowed hupTo (h.inv.queue.bounded old hmem' target htarget)⟩
    · exact hlast open' hnew
    · exact hlast open' hnew
  · intro target hmem
    have hmem : target ∈ l.offered := by
      rcases List.mem_append.1 hmem with hold | hnew
      · exact hold
      · have hnew : target ∈ (l.advance (.record sequence request page polled)).progress.unstored := Option.mem_toList.1 hnew
        rw [hprogress.2] at hnew
        exact h.inv.unstored target hnew
    exact upTo_record hallowed (h.offered target hmem) (h.inv.offered target hmem).1
  · rw [hprogress.1]
    exact fun hempty => absurd hempty hopen

/-- A page without records is settled at once when no page is open. -/
theorem Slots.settleEmpty (h : Slots maximum ops l) (hallowed : Op.Allowed l (.record sequence request page polled))
    (hempty : l.progress.pages = []) (hnone : polled.offsets = []) :
    Slots maximum (ops ++ [.record sequence request page polled]) (l.advance (.record sequence request page polled)) := by
  have hpages : (l.advance (.record sequence request page polled)).progress.pages = [] := by
    simp [Ledger.advance, Op.apply, record, settle, hempty, PartitionProgress.enqueue, hnone, settlePages]
  have hunstored : (l.advance (.record sequence request page polled)).progress.unstored =
      (targetOf page).or l.progress.unstored := by
    simp [Ledger.advance, Op.apply, record, settle, hempty, PartitionProgress.enqueue, hnone, settlePages]
  have hsafe : (targetOf page).map (·.offset) = page.safeAckOffset := by
    rw [targetOf, Option.map_map]
    exact Option.map_id'
  have hnewest : newestSafe (ops ++ [.record sequence request page polled]) = page.safeAckOffset.or (newestSafe ops) :=
    newestSafe_concat _ _
  refine ⟨record_inv h.inv hallowed, ?_, ?_, ?_, ?_, ?_, ?_, ?_, fun target hmem => ?_, fun _ => ?_⟩
  · simp [Ledger.advance, h.onlyOffered, Op.storesOffered]
  · rw [inFlight, hpages]
    exact Nat.zero_le _
  · rw [hpages]
    simp
  · rw [hpages]
    simp
  · rw [hpages]
    simp
  · rw [hpages]
    simp
  · rw [hpages]
    simp
  · rcases List.mem_append.1 hmem with hold | hnew
    · exact upTo_record hallowed (h.offered target hold) (h.inv.offered target hold).1
    · have hnew : target ∈ (l.advance (.record sequence request page polled)).progress.unstored := Option.mem_toList.1 hnew
      rw [hunstored] at hnew
      rcases Option.or_eq_some_iff.1 hnew with hown | ⟨-, hold⟩
      · have hoffset : page.safeAckOffset = some target.offset := by rw [← hsafe, hown, Option.map_some]
        refine ⟨target.offset, ?_, Nat.le_refl _⟩
        rw [hnewest, hoffset]
        rfl
      · have hmem := h.inv.unstored target hold
        exact upTo_record hallowed (h.offered target hmem) (h.inv.offered target hmem).1
  · rw [hunstored, hnewest, ← hsafe, ← h.settled hempty]
    cases targetOf page <;> rfl

theorem Slots.record (h : Slots maximum ops l) (hallowed : Op.Allowed l (.record sequence request page polled))
    (hslot : l.progress.inFlight < maximum) :
    Slots maximum (ops ++ [.record sequence request page polled]) (l.advance (.record sequence request page polled)) := by
  have hnewest : newestSafe (ops ++ [.record sequence request page polled]) = page.safeAckOffset.or (newestSafe ops) :=
    newestSafe_concat _ _
  by_cases hnone : polled.offsets = []
  · rcases List.eq_nil_or_concat l.progress.pages with hempty | ⟨older, newest, hpages⟩
    · exact h.settleEmpty hallowed hempty hnone
    · -- The newest open page takes over the safe offset.
      have hmem : newest ∈ l.progress.pages := by simp [hpages]
      obtain ⟨target, htarget, hsafest⟩ := h.newest newest (by simp [hpages])
      have hlength : l.progress.pages.length = older.length + 1 := by simp [hpages]
      refine @Slots.enqueue _ _ _ _ _ _ _ h hallowed (older ++ [{ newest with target := (targetOf page).or newest.target }]) ?_
        (by simp) ?_ ?_ ?_ ?_
      · simp [PartitionProgress.enqueue, hpages, hnone]
      · rw [List.length_append, List.length_singleton, ← hlength]
        exact h.room
      · have hfront := h.front
        rw [hpages] at hfront
        cases older with
        | nil => simpa using hfront
        | cons => simpa using hfront
      · intro last hlast
        obtain rfl : { newest with target := (targetOf page).or newest.target } = last := by simpa using hlast
        rw [hnewest, hsafest, htarget]
        unfold targetOf
        cases page.safeAckOffset with
        | none => exact ⟨target, rfl, rfl⟩
        | some n => exact ⟨_, rfl, rfl⟩
      · intro open' hopen
        rcases List.mem_append.1 hopen with hold | hnew
        · exact .inl ⟨open', by simp [hpages, hold], rfl, rfl, .inl rfl⟩
        · obtain rfl := List.mem_singleton.1 hnew
          exact .inl ⟨newest, hmem, rfl, rfl, .inr (by simp)⟩
  · obtain ⟨n, hsafe⟩ := validatePage_returned hallowed.2.1 hnone
    have hsome : polled.offsets.toFinset ≠ ∅ := by simpa using hnone
    refine @Slots.enqueue _ _ _ _ _ _ _ h hallowed
      (l.progress.pages ++ [⟨sequence, targetOf page, polled.offsets.toFinset⟩]) ?_ (by simp) ?_ ?_ ?_ ?_
    · rcases enqueue_cases l.progress.pages sequence (targetOf page) polled.offsets.toFinset with heq | ⟨_, _, _, hempty, _⟩
      · exact heq
      · exact absurd hempty hsome
    · rw [List.length_append, List.length_singleton]
      exact hslot
    · cases hpages : l.progress.pages with
      | nil => simpa using hnone
      | cons first rest =>
        have hfront := h.front
        rw [hpages] at hfront
        simpa using hfront
    · intro last hlast
      obtain rfl : ⟨sequence, targetOf page, polled.offsets.toFinset⟩ = last := by simpa using hlast
      rw [hnewest]
      unfold targetOf
      rw [hsafe]
      exact ⟨_, rfl, rfl⟩
    · intro open' hopen
      rcases List.mem_append.1 hopen with hold | hnew
      · exact .inl ⟨open', hold, rfl, rfl, .inl rfl⟩
      · obtain rfl := List.mem_singleton.1 hnew
        exact .inr ⟨by simp, rfl, rfl, hnone⟩

theorem Slots.step {op : Op} {l' : Ledger} (h : Slots maximum ops l) (hstep : l.ReaderStep maximum op l') :
    Slots maximum (ops ++ [op]) l' := by
  obtain ⟨⟨hallowed, rfl⟩, hslot, hstores⟩ := hstep
  cases op with
  | record sequence request page polled => exact h.record hallowed hslot
  | completeRecord sequence offset => exact h.completeRecord sequence offset
  | completePage sequence => exact h.completePage sequence
  | completeThrough sequence offset => exact h.completeThrough sequence offset
  | stored target => exact h.stored (List.contains_iff_mem.1 hstores)

theorem Slots.run {start : FilteredStart} {ops : List Op} {l : Ledger}
    (h : Lib.Run (Ledger.ReaderStep maximum) (Ledger.new start) ops l) : Slots maximum ops l := by
  induction h with
  | nil => exact Slots.new maximum start
  | snoc _ hstep ih => exact ih.step hstep

/-- Under the reader's rule a partition never holds more pages than its slots,
its front page waits for a record, only pages that returned records are held,
and when all of these are handled the newest safe offset is offered or stored. -/
theorem newest_safe_kept {start : FilteredStart} {ops : List Op} {l : Ledger}
    (h : Lib.Run (Ledger.ReaderStep maximum) (Ledger.new start) ops l) :
    l.progress.inFlight ≤ maximum ∧ (∀ page ∈ l.progress.pages.head?, page.outstanding ≠ ∅) ∧
      (∀ page ∈ l.progress.pages, ∃ d ∈ ops.flatMap Op.returned, d.sequence = page.sequence) ∧
      (l.unhandled = [] → (l.progress.unstored.map (·.offset)).or l.progress.storedOffset = newestSafe ops) := by
  have hslots := Slots.run h
  refine ⟨hslots.room, hslots.front, hslots.returned, fun hall => hslots.settled ?_⟩
  cases hpages : l.progress.pages with
  | nil => rfl
  | cons first rest =>
    -- The front page would still wait for an unhandled record.
    obtain ⟨o, ho⟩ := Finset.nonempty_iff_ne_empty.2 (hslots.front first (by rw [hpages]; rfl))
    have hmem := hslots.unhandled first (by rw [hpages]; exact List.mem_cons_self) o ho
    rw [hall] at hmem
    cases hmem

end

/-- A page with two records, a page without any behind it, and then everything is handled. -/
def emptyBehind : List Op :=
  [.record 1 ⟨0, .consumer "c", .revision 1 1, .first, none⟩ (scannedPage 10 [3, 7]) ⟨0, 100, 30, 0, 0, [3, 7]⟩,
    .record 2 ⟨0, .consumer "c", .revision 1 1, (scannedPage 10 [3, 7]).nextStart .first, none⟩ (scannedPage 20 [])
      ⟨0, 100, 30, 0, 0, []⟩,
    .completeThrough 1 3, .completeRecord 1 7]

theorem emptyBehind_kept : ∃ l, Lib.Run (Ledger.ReaderStep 2) (Ledger.new .first) emptyBehind l ∧ l.unhandled = [] ∧
    (l.progress.unstored.map (·.offset)).or l.progress.storedOffset = newestSafe emptyBehind ∧ newestSafe emptyBehind = some 19 := by
  have hrun : Lib.Run (Ledger.ReaderStep 2) (Ledger.new .first) emptyBehind
      (emptyBehind.foldl Ledger.advance (Ledger.new .first)) := by
    have hread : Lib.Run (Ledger.ReaderStep 2) (Ledger.new .first) ([] ++ emptyBehind.take 1) _ :=
      .snoc .nil ⟨⟨⟨rfl, by decide, fun _ hn => by cases hn⟩, rfl⟩, by unfold Op.HasSlot; decide, rfl⟩
    have hempty : Lib.Run (Ledger.ReaderStep 2) (Ledger.new .first) (emptyBehind.take 1 ++ (emptyBehind.drop 1).take 1) _ :=
      hread.snoc ⟨⟨⟨by decide, by decide, by decide⟩, rfl⟩, by unfold Op.HasSlot; decide, rfl⟩
    have hthrough : Lib.Run (Ledger.ReaderStep 2) (Ledger.new .first) (emptyBehind.take 2 ++ (emptyBehind.drop 2).take 1) _ :=
      hempty.snoc ⟨⟨trivial, rfl⟩, trivial, rfl⟩
    exact hthrough.snoc ⟨⟨trivial, rfl⟩, trivial, rfl⟩
  have hall : (emptyBehind.foldl Ledger.advance (Ledger.new .first)).unhandled = [] := by decide
  exact ⟨_, hrun, hall, (newest_safe_kept hrun).2.2.2 hall, by decide⟩

end LaserSdk.Filters

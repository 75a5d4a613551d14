import LaserSdk.Filters.Acknowledge
/-!
# Stored offsets never go back

The targets a progress offers rise along the open pages, and a target that
settles is at least as far as any offered before it. Only a completion through
a position inside an open page can offer less than what is stored: it compares
the position with the pending target, and after a store there is none. A run
in which no completion does so offers nothing below a stored offset.
-/

namespace LaserSdk.Filters

open PartitionProgress

/-- What is offered to be stored is not below what is stored. -/
def Ledger.Monotone (l : Ledger) : Prop :=
  ∀ u ∈ l.progress.unstored, ∀ n ∈ l.progress.storedOffset, n ≤ u.offset

/-- A completion through a position of an open page starts at the stored
offset or past it, or is overtaken by a target: one that is pending, one of an
earlier page, or the page's own when no record of it is left. -/
def Op.Onward (p : PartitionProgress) : Op → Prop
  | .completeThrough sequence offset => ∀ page ∈ p.pages, page.sequence = sequence → page.target.any (offset ≤ ·.offset) = true →
    (∀ n ∈ p.storedOffset, n ≤ offset) ∨ p.unstored.isSome = true ∨
      (∃ earlier ∈ p.pages, earlier.sequence < sequence ∧ earlier.target.isSome = true) ∨ ∀ o ∈ page.outstanding, o ≤ offset
  | _ => True

def Ledger.OnwardStep (l : Ledger) (op : Op) (l' : Ledger) : Prop := op.Onward l.progress ∧ l.Step op l'

/-! ## Settling -/

/-- Where settling takes its target from: the pending one, or the last page of
a completed initial part. -/
theorem settlePages_source (pages : List PendingPage) (unstored : Option AckTarget) (settled : Nat) :
    (settlePages pages unstored settled).2.1 = unstored ∨
      ∃ before page after target, pages = before ++ page :: after ∧ (∀ q ∈ before ++ [page], q.outstanding = ∅) ∧
        page.target = some target ∧ (settlePages pages unstored settled).2.1 = some target ∧
        (settlePages pages unstored settled).1 <:+ after := by
  induction pages generalizing unstored settled with
  | nil => exact .inl rfl
  | cons page rest ih =>
    by_cases hempty : page.outstanding = ∅
    · simp only [settlePages, hempty, if_true]
      rcases ih (page.target.or unstored) page.sequence with
        hkept | ⟨before, last, after, target, rfl, hdone, htarget, hres, hafter⟩
      · rw [hkept]
        cases htarget : page.target with
        | none => exact .inl rfl
        | some target =>
          exact .inr ⟨[], page, rest, target, rfl, by simpa using hempty, htarget, rfl, settlePages_suffix _ _ _⟩
      · refine .inr ⟨page :: before, last, after, target, rfl, fun q hq => ?_, htarget, hres, hafter⟩
        rcases List.mem_cons.1 hq with rfl | hq
        · exact hempty
        · exact hdone q hq
    · simp only [settlePages, hempty, if_false]
      exact .inl trivial

/-- A target that settles replaces the pending one. -/
theorem settlePages_none {pages : List PendingPage} {unstored : Option AckTarget} {settled : Nat}
    (h : (settlePages pages unstored settled).2.1 = none) : unstored = none ∧ ∀ before page after,
      pages = before ++ page :: after → (∀ q ∈ before ++ [page], q.outstanding = ∅) → page.target = none := by
  induction pages generalizing unstored settled with
  | nil => exact ⟨h, by simp⟩
  | cons first rest ih =>
    by_cases hempty : first.outstanding = ∅
    · simp only [settlePages, hempty, if_true] at h
      obtain ⟨hor, hrest⟩ := ih h
      obtain ⟨htarget, hnone⟩ := Option.or_eq_none_iff.1 hor
      refine ⟨hnone, fun before page after heq hdone => ?_⟩
      cases before with
      | nil =>
        obtain ⟨rfl, -⟩ := List.cons.inj heq
        exact htarget
      | cons other before =>
        obtain ⟨-, hsplit⟩ := List.cons.inj heq
        exact hrest before page after hsplit fun q hq => hdone q (List.mem_cons_of_mem _ hq)
    · simp only [settlePages, hempty, if_false] at h
      refine ⟨h, fun before page after heq hdone => absurd (hdone first ?_) hempty⟩
      cases before with
      | nil => exact (List.cons.inj heq).1 ▸ List.mem_singleton_self _
      | cons other before => exact (List.cons.inj heq).1 ▸ List.mem_cons_self

/-! ## Rising targets -/

def Rises (p q : PendingPage) : Prop := ∀ t ∈ p.target, ∀ u ∈ q.target, t.offset ≤ u.offset

/-- The targets of the open pages rise, from what was offered on. The pending
target is the furthest one offered. With none pending that one is stored. -/
structure Rising (p : PartitionProgress) (offered : List AckTarget) : Prop where
  targets : p.pages.Pairwise Rises
  ahead : ∀ t ∈ offered, ∀ page ∈ p.pages, ∀ u ∈ page.target, t.offset ≤ u.offset
  pending : ∀ t ∈ offered, ∀ u ∈ p.unstored, t.offset ≤ u.offset
  settled : p.unstored = none → ∀ t ∈ offered, ∃ n ∈ p.storedOffset, t.offset ≤ n

theorem new_rising (start : FilteredStart) : Rising (.new start) [] where
  targets := .nil
  ahead := by simp
  pending := by simp
  settled := by simp

theorem Rises.shrinks {p p' q q' : PendingPage} (h : Rises p q) (hp : Shrinks p p') (hq : Shrinks q q') : Rises p' q' := by
  intro t ht u hu
  exact h t (hp.2.1 ▸ ht) u (hq.2.1 ▸ hu)

theorem rises_shrinks {pages pages' : List PendingPage} (h : List.Forall₂ Shrinks pages pages')
    (hr : pages.Pairwise Rises) : pages'.Pairwise Rises := by
  induction h with
  | nil => exact .nil
  | @cons p p' ps ps' hx hrest ih =>
    obtain ⟨hp, hps⟩ := List.pairwise_cons.1 hr
    refine .cons (fun q' hq' => ?_) (ih hps)
    obtain ⟨q, hq, hs⟩ := shrinks_mem hrest q' hq'
    exact (hp q hq).shrinks hx hs

section

variable {p : PartitionProgress} {offered : List AckTarget}

/-- Handling records keeps the targets. -/
theorem rising_shrinks (hr : Rising p offered) {pages' : List PendingPage} (h : List.Forall₂ Shrinks p.pages pages') :
    Rising { p with pages := pages' } offered where
  targets := rises_shrinks h hr.targets
  ahead t ht page' hpage' u hu := by
    obtain ⟨page, hpage, hs⟩ := shrinks_mem h page' hpage'
    exact hr.ahead t ht page hpage u (hs.2.1 ▸ hu)
  pending := hr.pending
  settled := hr.settled

/-- A target at least as far as those offered before, and not past those of
the open pages, can be offered next. -/
theorem rising_offer (hr : Rising p offered) (hpending : ∀ t ∈ p.unstored, t ∈ offered) {u : Option AckTarget}
    (hu : u = p.unstored ∨ ∃ target, u = some target ∧ (∀ t ∈ offered, t.offset ≤ target.offset) ∧
      ∀ page ∈ p.pages, ∀ v ∈ page.target, target.offset ≤ v.offset) :
    Rising { p with unstored := u } (offered ++ u.toList) := by
  rcases hu with rfl | ⟨target, rfl, hfurthest, hbelow⟩
  · have hsame : ∀ t ∈ offered ++ p.unstored.toList, t ∈ offered := by
      intro t ht
      rcases List.mem_append.1 ht with ht | ht
      · exact ht
      · exact hpending t (Option.mem_toList.1 ht)
    exact ⟨hr.targets, fun t ht => hr.ahead t (hsame t ht), fun t ht => hr.pending t (hsame t ht),
      fun hnone t ht => hr.settled hnone t (hsame t ht)⟩
  · refine ⟨hr.targets, fun t ht => ?_, fun t ht u hu => ?_, nofun⟩
    · rcases List.mem_append.1 ht with ht | ht
      · exact hr.ahead t ht
      · rw [List.mem_singleton.1 ht]
        exact hbelow
    · obtain rfl := Option.some.inj hu
      rcases List.mem_append.1 ht with ht | ht
      · exact hfurthest t ht
      · rw [List.mem_singleton.1 ht]

theorem rising_suffix (hr : Rising p offered) {pages' : List PendingPage} (h : pages' <:+ p.pages) (settled : Nat) :
    Rising { p with pages := pages', settledSequence := settled } offered :=
  ⟨hr.targets.sublist h.sublist, fun t ht page hpage => hr.ahead t ht page (h.subset hpage), hr.pending, hr.settled⟩

/-- Settling offers the pending target again, or one at least as far as any
offered before. -/
theorem settle_offers (hr : Rising p offered) :
    (settle p).unstored = p.unstored ∨ ∃ target, (settle p).unstored = some target ∧
      (∀ t ∈ offered, t.offset ≤ target.offset) ∧ ∀ page ∈ (settle p).pages, ∀ v ∈ page.target, target.offset ≤ v.offset := by
  rcases settlePages_source p.pages p.unstored p.settledSequence with
    hkept | ⟨before, last, after, target, hsplit, -, htarget, hres, hafter⟩
  · exact .inl hkept
  · have hmem : last ∈ p.pages := by
      rw [hsplit]
      exact List.mem_append_right _ List.mem_cons_self
    refine .inr ⟨target, hres, fun t ht => hr.ahead t ht last hmem target htarget, fun page hpage v hv => ?_⟩
    have hrest := hr.targets
    rw [hsplit] at hrest
    obtain ⟨-, hfrom, -⟩ := List.pairwise_append.1 hrest
    exact (List.pairwise_cons.1 hfrom).1 page (hafter.subset hpage) target htarget v hv

theorem settle_suffix (p : PartitionProgress) : (settle p).pages <:+ p.pages :=
  settlePages_suffix p.pages p.unstored p.settledSequence

theorem rising_settle (hr : Rising p offered) (hpending : ∀ t ∈ p.unstored, t ∈ offered) :
    Rising (settle p) (offered ++ (settle p).unstored.toList) :=
  rising_offer (rising_suffix hr (settle_suffix p) _) hpending (settle_offers hr)

end

/-! ## One lemma per call -/

theorem onPage_rising {l : Ledger} (hi : Inv l) (hr : Rising l.progress l.offered) (sequence : Nat)
    {f : Finset Nat → Finset Nat} (hf : ∀ s, f s ⊆ s) :
    Rising (settle { l.progress with pages := onPage sequence f l.progress.pages })
      (l.offered ++ (settle { l.progress with pages := onPage sequence f l.progress.pages }).unstored.toList) :=
  rising_settle (rising_shrinks hr (onPage_shrinks sequence f hf _)) hi.unstored

/-- A page queued with a target at least as far as all before it. -/
theorem enqueue_rising {pages : List PendingPage} (hr : pages.Pairwise Rises) (sequence : Nat) {target : Option AckTarget}
    (outstanding : Finset Nat) (hbefore : ∀ p ∈ pages, ∀ t ∈ p.target, ∀ u ∈ target, t.offset ≤ u.offset) :
    (enqueue pages sequence target outstanding).Pairwise Rises := by
  rcases enqueue_cases pages sequence target outstanding with h | ⟨older, newest, rfl, -, h⟩ <;> rw [h]
  · refine List.pairwise_append.2 ⟨hr, List.pairwise_singleton _ _, fun p hp q hq => ?_⟩
    rw [List.mem_singleton.1 hq]
    exact hbefore p hp
  · obtain ⟨hold, -, hcross⟩ := List.pairwise_append.1 hr
    refine List.pairwise_append.2 ⟨hold, List.pairwise_singleton _ _, fun p hp q hq t ht u hu => ?_⟩
    rw [List.mem_singleton.1 hq] at hu
    rcases Option.or_eq_some_iff.1 hu with hu | ⟨-, hu⟩
    · exact hbefore p (List.mem_append_left _ hp) t ht u hu
    · exact hcross p hp newest List.mem_cons_self t ht u hu

/-- The target of a queued page is one of the old ones or the new one. -/
theorem enqueue_target {pages : List PendingPage} {sequence : Nat} {target : Option AckTarget} {outstanding : Finset Nat}
    {p : PendingPage} (hp : p ∈ enqueue pages sequence target outstanding) {t : AckTarget} (ht : t ∈ p.target) :
    (∃ q ∈ pages, t ∈ q.target) ∨ t ∈ target := by
  rcases enqueue_cases pages sequence target outstanding with h | ⟨older, newest, rfl, -, h⟩ <;> rw [h] at hp <;>
    rcases List.mem_append.1 hp with hp | hp
  · exact .inl ⟨p, hp, ht⟩
  · rw [List.mem_singleton.1 hp] at ht
    exact .inr ht
  · exact .inl ⟨p, List.mem_append_left _ hp, ht⟩
  · rw [List.mem_singleton.1 hp] at ht
    rcases Option.or_eq_some_iff.1 ht with ht | ⟨-, ht⟩
    · exact .inr ht
    · exact .inl ⟨newest, by simp, ht⟩

theorem record_rising {l : Ledger} (hi : Inv l) (hr : Rising l.progress l.offered) {sequence : Nat} {request : FilteredPollRequest}
    {page : FilteredPage} {polled : PolledMessages} (ha : Op.Allowed l (.record sequence request page polled)) :
    Rising (l.advance (.record sequence request page polled)).progress
      (l.advance (.record sequence request page polled)).offered := by
  obtain ⟨hstart, hvalid, -⟩ := ha
  have hforward := (validatePage_bounds hvalid l.progress.original).forward
  rw [hstart] at hforward
  -- Everything safe so far was examined before this page.
  have hfurthest : ∀ offset < l.progress.start.examinedTo, ∀ u ∈ targetOf page, offset ≤ u.offset := by
    intro offset hoffset u hu
    obtain ⟨n, hn, rfl⟩ := Option.map_eq_some_iff.1 hu
    have hnext := validatePage_safe hvalid l.progress.original n hn
    show offset ≤ n
    omega
  have hbefore : ∀ p ∈ l.progress.pages, ∀ t ∈ p.target, ∀ u ∈ targetOf page, t.offset ≤ u.offset :=
    fun p hp t ht => hfurthest t.offset (hi.queue.bounded p hp t ht)
  refine rising_settle ?_ hi.unstored
  refine ⟨enqueue_rising hr.targets sequence _ hbefore, fun t ht p hp u hu => ?_, hr.pending, hr.settled⟩
  rcases enqueue_target hp hu with ⟨q, hq, hu⟩ | hu
  · exact hr.ahead t ht q hq u hu
  · exact hfurthest t.offset (hi.offered t ht).1 u hu

theorem stored_rising {l : Ledger} (hi : Inv l) (hr : Rising l.progress l.offered) (target : AckTarget) :
    Rising (l.advance (.stored target)).progress (l.advance (.stored target)).offered := by
  have hsame : ∀ t ∈ (l.advance (.stored target)).offered, t ∈ l.offered := by
    intro t ht
    rcases List.mem_append.1 ht with ht | ht
    · exact ht
    · simp only [Op.apply, stored, Option.mem_toList] at ht
      split at ht
      · cases ht
      · exact hi.unstored t ht
  refine ⟨hr.targets, fun t ht => hr.ahead t (hsame t ht), fun t ht u hu => ?_, fun hnone t ht => ?_⟩
  · simp only [Ledger.advance, Op.apply, stored] at hu
    split at hu
    · cases hu
    · exact hr.pending t (hsame t ht) u hu
  · refine ⟨_, rfl, ?_⟩
    simp only [Ledger.advance, Op.apply, stored] at hnone
    split at hnone
    next hcurrent =>
      have hbelow := hr.pending t (hsame t ht) target hcurrent
      cases l.progress.storedOffset with
      | none => exact hbelow
      | some n => exact hbelow.trans (Nat.le_max_right _ _)
    · obtain ⟨n, hn, hbelow⟩ := hr.settled hnone t (hsame t ht)
      rw [Option.mem_def.1 hn]
      exact hbelow.trans (Nat.le_max_left _ _)

/-! ## Completing through a position -/

/-- The progress of a completion through a position, before it looks at the
pending target. -/
def through (p : PartitionProgress) (sequence offset : Nat) : PartitionProgress :=
  settle { p with pages := p.pages.map (throughPage sequence offset) }

theorem throughPage_sequence (sequence offset : Nat) (page : PendingPage) :
    (throughPage sequence offset page).sequence = page.sequence := by
  unfold throughPage
  split
  · rfl
  · split <;> rfl

theorem throughPage_target (sequence offset : Nat) (page : PendingPage) :
    (throughPage sequence offset page).target = page.target := by
  unfold throughPage
  split
  · rfl
  · split <;> rfl

theorem through_rising {p : PartitionProgress} {offered : List AckTarget} (hr : Rising p offered) (sequence offset : Nat) :
    Rising { p with pages := p.pages.map (throughPage sequence offset) } offered :=
  rising_shrinks hr (throughPage_shrinks sequence offset p.pages)

/-- The pages before the one named are settled. -/
theorem through_left {limit : Nat} {p : PartitionProgress} (hq : Queue limit p.pages) {sequence offset : Nat} :
    ∀ page ∈ (through p sequence offset).pages, sequence ≤ page.sequence := by
  intro page hpage
  have hordered := (hq.shrinks (throughPage_shrinks sequence offset p.pages)).ordered
  have hsuffix := settlePages_suffix (p.pages.map (throughPage sequence offset)) p.unstored p.settledSequence
  have hhead := settlePages_front (p.pages.map (throughPage sequence offset)) p.unstored p.settledSequence
  cases hpages : (through p sequence offset).pages with
  | nil =>
    rw [hpages] at hpage
    cases hpage
  | cons head rest =>
    have hopen : head.outstanding ≠ ∅ := hhead head (by rw [show (settlePages _ _ _).1 = _ from hpages]; rfl)
    have hmem : head ∈ p.pages.map (throughPage sequence offset) :=
      hsuffix.subset (by rw [show (settlePages _ _ _).1 = _ from hpages]; exact List.mem_cons_self)
    have hfirst : head.sequence ≤ page.sequence := by
      have hsub := hordered.sublist hsuffix.sublist
      rw [show (settlePages _ _ _).1 = _ from hpages] at hsub
      rw [hpages] at hpage
      rcases List.mem_cons.1 hpage with rfl | hpage
      · exact Nat.le_refl _
      · exact Nat.le_of_lt ((List.pairwise_cons.1 hsub).1 page hpage).1
    obtain ⟨original, -, rfl⟩ := List.mem_map.1 hmem
    by_contra hlt
    rw [throughPage_sequence] at hfirst
    refine hopen ?_
    unfold throughPage
    rw [if_pos (by omega)]

/-- A page that the completion leaves without records brings in its target,
if it has one. -/
theorem through_done {limit : Nat} {p : PartitionProgress} (hq : Queue limit p.pages) {sequence offset : Nat}
    {page : PendingPage} (hpage : page ∈ p.pages)
    (hdone : page.sequence < sequence ∨ page.sequence = sequence ∧ ∀ o ∈ page.outstanding, o ≤ offset)
    (hnone : (through p sequence offset).unstored = none) : page.target = none := by
  obtain ⟨before, after, hsplit⟩ := List.append_of_mem hpage
  have hbefore : ∀ q ∈ before, q.sequence < page.sequence := by
    intro q hqm
    have hordered := hq.ordered
    rw [hsplit] at hordered
    exact ((List.pairwise_append.1 hordered).2.2 q hqm page List.mem_cons_self).1
  have hle : page.sequence ≤ sequence := hdone.elim Nat.le_of_lt fun h => Nat.le_of_eq h.1
  rw [← throughPage_target sequence offset page]
  refine (settlePages_none hnone).2 (before.map (throughPage sequence offset)) _ (after.map (throughPage sequence offset))
    (by rw [hsplit, List.map_append, List.map_cons]) fun q hqm => ?_
  rcases List.mem_append.1 hqm with hqm | hqm
  · obtain ⟨original, horiginal, rfl⟩ := List.mem_map.1 hqm
    unfold throughPage
    rw [if_pos (Nat.lt_of_lt_of_le (hbefore original horiginal) hle)]
  · rw [List.mem_singleton.1 hqm]
    unfold throughPage
    rcases hdone with hlt | ⟨heq, hall⟩
    · rw [if_pos hlt]
    · rw [if_neg (by omega), if_pos heq]
      exact Finset.filter_eq_empty_iff.2 fun o ho => Nat.not_lt.2 (hall o ho)

/-- The two ends of a completion through a position: nothing changes, or the
position is offered unless a pending target is as far. -/
theorem completeThrough_cases (p : PartitionProgress) (sequence offset : Nat) :
    ((p.completeThrough sequence offset).2 = p ∧ ∀ page ∈ p.pages.find? (·.sequence = sequence),
      page.target.any (offset ≤ ·.offset) = false) ∨
    ∃ page target, p.pages.find? (·.sequence = sequence) = some page ∧ page.target = some target ∧ offset ≤ target.offset ∧
      (p.completeThrough sequence offset).2 = { through p sequence offset with
        unstored := if (through p sequence offset).unstored.all (·.offset < offset) = true then
          some { target with offset := offset } else (through p sequence offset).unstored } := by
  unfold completeThrough
  cases hfind : p.pages.find? (·.sequence = sequence) with
  | none => exact .inl ⟨rfl, nofun⟩
  | some page =>
    cases htarget : page.target with
    | none => exact .inl ⟨by simp [htarget], by simp [htarget]⟩
    | some target =>
      by_cases hlt : target.offset < offset
      · exact .inl ⟨by simp [htarget, hlt], by simp [htarget, hlt]⟩
      · refine .inr ⟨page, target, rfl, htarget, Nat.le_of_not_lt hlt, ?_⟩
        simp only [Option.bind_some, htarget, hlt, if_false]
        unfold through
        split <;> rfl

/-- In an ordered queue a page is the same as, or stands before, any with at
least its sequence. -/
theorem related_of_le {R : PendingPage → PendingPage → Prop} {pages : List PendingPage} (ho : pages.Pairwise Before)
    (hr : pages.Pairwise R) {p q : PendingPage} (hp : p ∈ pages) (hq : q ∈ pages) (hle : p.sequence ≤ q.sequence) :
    p = q ∨ R p q := by
  induction pages with
  | nil => cases hp
  | cons x xs ih =>
    obtain ⟨hox, hos⟩ := List.pairwise_cons.1 ho
    obtain ⟨hrx, hrs⟩ := List.pairwise_cons.1 hr
    rcases List.mem_cons.1 hp with rfl | hp' <;> rcases List.mem_cons.1 hq with rfl | hq'
    · exact .inl rfl
    · exact .inr (hrx q hq')
    · exact absurd (hox p hp').1 (Nat.not_lt.2 hle)
    · exact ih hos hrs hp' hq'

theorem same_page {limit : Nat} {pages : List PendingPage} (hq : Queue limit pages) {p q : PendingPage} (hp : p ∈ pages)
    (hqm : q ∈ pages) (hseq : p.sequence = q.sequence) : p = q := by
  rcases related_of_le hq.ordered hq.ordered hp hqm (Nat.le_of_eq hseq) with hsame | ⟨hlt, -⟩
  · exact hsame
  · omega

/-- No page left by the completion makes less safe than its position. -/
theorem through_below {l : Ledger} (hi : Inv l) (hr : Rising l.progress l.offered) {sequence offset : Nat} {page : PendingPage}
    {target : AckTarget} (hpage : page ∈ l.progress.pages) (hseq : page.sequence = sequence)
    (htarget : page.target = some target) (hle : offset ≤ target.offset) :
    ∀ left ∈ (through l.progress sequence offset).pages, ∀ v ∈ left.target, offset ≤ v.offset := by
  intro left hleft v hv
  have hlater := through_left hi.queue left hleft
  obtain ⟨original, horiginal, rfl⟩ := List.mem_map.1 ((settle_suffix _).subset hleft)
  rw [throughPage_sequence, ← hseq] at hlater
  rw [throughPage_target] at hv
  rcases related_of_le hi.queue.ordered hr.targets hpage horiginal hlater with rfl | hrises
  · rw [htarget] at hv
    exact Option.some.inj hv ▸ hle
  · exact hle.trans (hrises target htarget v hv)

/-- With a target pending after the completion, the position past it is past
everything offered. -/
theorem through_past {p : PartitionProgress} {offered : List AckTarget} (hr : Rising p offered) {sequence offset : Nat}
    {s : AckTarget} (hs : (through p sequence offset).unstored = some s) (hlt : s.offset < offset) :
    ∀ t ∈ offered, t.offset ≤ offset := by
  intro t ht
  have hbelow : t.offset ≤ s.offset := by
    rcases settle_offers (through_rising hr sequence offset) with hsame | ⟨target, hres, hfurthest, -⟩
    · exact hr.pending t ht s (hsame.symm.trans hs)
    · obtain rfl : target = s := Option.some.inj (hres.symm.trans hs)
      exact hfurthest t ht
  omega

/-- With nothing pending after it, an onward completion starts at the stored
offset or past it. -/
theorem through_onward {l : Ledger} (hi : Inv l) {sequence offset : Nat}
    {page : PendingPage} (hpage : page ∈ l.progress.pages) (hseq : page.sequence = sequence) {target : AckTarget}
    (htarget : page.target = some target) (hle : offset ≤ target.offset)
    (hnone : (through l.progress sequence offset).unstored = none)
    (ho : Op.Onward l.progress (.completeThrough sequence offset)) : ∀ n ∈ l.progress.storedOffset, n ≤ offset := by
  rcases ho page hpage hseq (by simp [htarget, hle]) with hstored | hpending | ⟨earlier, hearlier, hlt, hsome⟩ | hall
  · exact hstored
  · rw [(settlePages_none hnone).1] at hpending
    cases hpending
  · rw [through_done hi.queue hearlier (.inl hlt) hnone] at hsome
    cases hsome
  · rw [through_done hi.queue hpage (.inr ⟨hseq, hall⟩) hnone] at htarget
    cases htarget

theorem completeThrough_rising {l : Ledger} (hi : Inv l) (hr : Rising l.progress l.offered) {sequence offset : Nat}
    (ho : Op.Onward l.progress (.completeThrough sequence offset)) :
    Rising (l.advance (.completeThrough sequence offset)).progress (l.advance (.completeThrough sequence offset)).offered := by
  simp only [Ledger.advance, Op.apply]
  rcases completeThrough_cases l.progress sequence offset with ⟨hidle, -⟩ | ⟨page, target, hfind, htarget, hle, hend⟩
  · rw [hidle]
    exact rising_offer hr hi.unstored (.inl rfl)
  · have hpage := List.mem_of_find?_eq_some hfind
    have hseq : page.sequence = sequence := by simpa using List.find?_some hfind
    have hthrough := through_rising hr sequence offset
    rw [hend]
    split
    next hall =>
      refine rising_offer (rising_suffix hthrough (settle_suffix _) _) hi.unstored
        (.inr ⟨_, rfl, fun t ht => ?_, through_below hi hr hpage hseq htarget hle⟩)
      cases hpending : (through l.progress sequence offset).unstored with
      | some s =>
        rw [hpending] at hall
        exact through_past hr hpending (by simpa using hall) t ht
      | none =>
        obtain ⟨n, hn, hbelow⟩ := hr.settled (settlePages_none hpending).1 t ht
        exact hbelow.trans (through_onward hi hpage hseq htarget hle hpending ho n hn)
    · exact rising_settle hthrough hi.unstored

/-! ## Runs -/

theorem step_rising {l l' : Ledger} {op : Op} (hi : Inv l) (hr : Rising l.progress l.offered) (h : l.OnwardStep op l') :
    Rising l'.progress l'.offered := by
  obtain ⟨ho, ha, rfl⟩ := h
  cases op with
  | record => exact record_rising hi hr ha
  | completeRecord => exact onPage_rising hi hr _ fun s => Finset.erase_subset _ _
  | completePage => exact onPage_rising hi hr _ fun s => Finset.empty_subset _
  | completeThrough => exact completeThrough_rising hi hr ho
  | stored => exact stored_rising hi hr _

theorem run_rising {start : FilteredStart} {ops : List Op} {l : Ledger}
    (h : Lib.Run Ledger.OnwardStep (Ledger.new start) ops l) : Inv l ∧ Rising l.progress l.offered :=
  h.inv (fun l => Inv l ∧ Rising l.progress l.offered) ⟨new_inv start, new_rising start⟩
    fun _ _ _ hl hstep => ⟨step_inv hl.1 hstep.2, step_rising hl.1 hl.2 hstep⟩

theorem monotone_of_rising {l : Ledger} (hi : Inv l) (hr : Rising l.progress l.offered) (hoffered : l.onlyOffered = true) :
    l.Monotone := by
  intro u hu n hn
  obtain ⟨t, ht, rfl⟩ := hi.stored hoffered n hn
  exact hr.pending t ht u hu

/-- A completion that leaves a record of its page open, with no target on an
earlier page, settles none. -/
theorem through_kept {limit : Nat} {p : PartitionProgress} (hq : Queue limit p.pages) {sequence offset : Nat}
    {page : PendingPage} (hpage : page ∈ p.pages) (hseq : page.sequence = sequence) {o : Nat} (ho : o ∈ page.outstanding)
    (hopen : offset < o) (hearlier : ∀ e ∈ p.pages, e.sequence < sequence → e.target = none) :
    (through p sequence offset).unstored = p.unstored := by
  have hleft : (throughPage sequence offset page).outstanding ≠ ∅ := by
    unfold throughPage
    rw [if_neg (by omega), if_pos hseq]
    exact Finset.ne_empty_of_mem (Finset.mem_filter.2 ⟨ho, hopen⟩)
  rcases settlePages_source (p.pages.map (throughPage sequence offset)) p.unstored p.settledSequence with
    hkept | ⟨before, last, after, target, hsplit, hdone, htarget, -, -⟩
  · exact hkept
  · -- The settled part ends before the open page, where no page has a target.
    have hlast : last ∈ p.pages.map (throughPage sequence offset) := by
      rw [hsplit]
      exact List.mem_append_right _ List.mem_cons_self
    have hmem : throughPage sequence offset page ∈ after := by
      have hall := List.mem_map_of_mem (f := throughPage sequence offset) hpage
      rw [hsplit, List.append_cons] at hall
      rcases List.mem_append.1 hall with hbefore | hafter
      · exact absurd (hdone _ hbefore) hleft
      · exact hafter
    have hordered := (hq.shrinks (throughPage_shrinks sequence offset p.pages)).ordered
    rw [hsplit] at hordered
    have hlt := ((List.pairwise_cons.1 (List.pairwise_append.1 hordered).2.1).1 _ hmem).1
    obtain ⟨original, horiginal, rfl⟩ := List.mem_map.1 hlast
    rw [throughPage_sequence, throughPage_sequence, hseq] at hlt
    rw [throughPage_target, hearlier original horiginal hlt] at htarget
    cases htarget

/-- A completion that is not onward offers less than what is stored. -/
theorem backward_offer {l : Ledger} (hi : Inv l) {op : Op} (ho : ¬op.Onward l.progress) : ¬(l.advance op).Monotone := by
  cases op with
  | completeThrough sequence offset =>
    simp only [Op.Onward, not_forall, not_or, not_exists, not_and, Bool.not_eq_true, Option.isSome_eq_false_iff,
      Option.isNone_iff_eq_none, Nat.not_le] at ho
    obtain ⟨page, hpage, hseq, hany, ⟨n, hn, hback⟩, hnone, hearlier, o, ho, hopen⟩ := ho
    have hkept := through_kept hi.queue hpage hseq ho hopen hearlier
    intro hmono
    rcases completeThrough_cases l.progress sequence offset with ⟨-, hidle⟩ | ⟨found, target, hfind, -, -, hend⟩
    · obtain ⟨found, hfind⟩ : ∃ found, l.progress.pages.find? (·.sequence = sequence) = some found := by
        rw [← Option.isSome_iff_exists, List.find?_isSome]
        exact ⟨page, hpage, by simpa using hseq⟩
      have hsame : found = page := same_page hi.queue (List.mem_of_find?_eq_some hfind) hpage
        (by rw [hseq]; simpa using List.find?_some hfind)
      rw [← hsame, hidle found hfind] at hany
      cases hany
    · refine absurd (hmono { target with offset := offset } ?_ n ?_) (Nat.not_le.2 hback)
      · simp only [Ledger.advance, Op.apply, hend, hkept, hnone, Option.all_none, if_true, Option.mem_def]
      · simp only [Ledger.advance, Op.apply, hend]
        exact hn
  | record => exact absurd trivial ho
  | completeRecord => exact absurd trivial ho
  | completePage => exact absurd trivial ho
  | stored => exact absurd trivial ho

/-! ## Main theorem -/

/-- Storing only what was offered, no run of onward calls offers less than
what it stored, and the first call that is not onward does. -/
theorem onward_monotone {start : FilteredStart} {ops : List Op} {l : Ledger}
    (h : Lib.Run Ledger.OnwardStep (Ledger.new start) ops l) :
    (l.onlyOffered = true → l.Monotone) ∧
      ∀ op, op.Allowed l → (l.advance op).onlyOffered = true → ((l.advance op).Monotone ↔ op.Onward l.progress) := by
  obtain ⟨hi, hr⟩ := run_rising h
  refine ⟨monotone_of_rising hi hr, fun op ha hoffered => ⟨fun hmono => ?_, fun ho => ?_⟩⟩
  · by_contra ho
    exact backward_offer hi ho hmono
  · have hstep : l.OnwardStep op (l.advance op) := ⟨ho, ha, rfl⟩
    exact monotone_of_rising (step_inv hi hstep.2) (step_rising hi hr hstep) hoffered

/-- The target offered for `offset` of the page that returned 2, 5 and 7. -/
def offeredAt (offset : Nat) : AckTarget :=
  { groupId := none, offset := offset, generation := (scannedPage 10 [2, 5, 7]).generation,
    ackContext := (scannedPage 10 [2, 5, 7]).ackContext, policy := (scannedPage 10 [2, 5, 7]).policy }

/-- Read offsets 2, 5 and 7, finish everything through 5 and store it. -/
def storedFive : List Op :=
  [.record 1 ⟨0, .consumer "c", .revision 1 1, .first, none⟩ (scannedPage 10 [2, 5, 7]) ⟨0, 100, 30, 0, 0, [2, 5, 7]⟩,
    .completeThrough 1 5, .stored (offeredAt 5)]

theorem storedFive_run :
    Lib.Run Ledger.OnwardStep (Ledger.new .first) storedFive (storedFive.foldl Ledger.advance (Ledger.new .first)) := by
  have hread : Lib.Run Ledger.OnwardStep (Ledger.new .first) ([] ++ storedFive.take 1) _ :=
    .snoc .nil ⟨trivial, ⟨rfl, by decide, fun _ hn => by cases hn⟩, rfl⟩
  have honward : Op.Onward ((storedFive.take 1).foldl Ledger.advance (Ledger.new .first)).progress (.completeThrough 1 5) :=
    fun _ _ _ _ => .inl nofun
  exact (hread.snoc ⟨honward, trivial, rfl⟩).snoc ⟨trivial, trivial, rfl⟩

/-- The rest of the page follows the stored offset. -/
theorem rest_of_page_monotone :
    ∃ l, Lib.Run Ledger.OnwardStep (Ledger.new .first) (storedFive ++ [.completeThrough 1 7]) l ∧ l.onlyOffered = true ∧
      l.progress.storedOffset = some 5 ∧ l.progress.unstored.map (·.offset) = some 9 ∧ l.Monotone := by
  have honward : Op.Onward (storedFive.foldl Ledger.advance (Ledger.new .first)).progress (.completeThrough 1 7) := by
    refine fun _ _ _ _ => .inl fun n hn => ?_
    obtain rfl : 5 = n := Option.some.inj hn
    decide
  have hrun := storedFive_run.snoc ⟨honward, trivial, rfl⟩
  exact ⟨_, hrun, by decide, by decide, by decide, (onward_monotone hrun).1 (by decide)⟩

/-- Finishing the page through 2 then offers 2, below the stored 5. -/
theorem earlier_record_offered_back :
    ∃ l, Lib.Run Ledger.Step (Ledger.new .first) (storedFive ++ [.completeThrough 1 2]) l ∧ l.onlyOffered = true ∧
      l.progress.storedOffset = some 5 ∧ l.progress.unstored = some (offeredAt 2) ∧ ¬l.Monotone := by
  have hback : Ledger.Step (storedFive.foldl Ledger.advance (Ledger.new .first)) (.completeThrough 1 2) _ := ⟨trivial, rfl⟩
  have hrun := (storedFive_run.mono fun _ _ _ h => h.2).snoc hback
  refine ⟨_, hrun, by decide, by decide, by decide, fun hmono => ?_⟩
  exact absurd (hmono (offeredAt 2) (by decide) 5 (by decide)) (by decide)

end LaserSdk.Filters

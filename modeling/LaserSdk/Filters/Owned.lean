import LaserSdk.Filters.Reader
import LaserSdk.Filters.Slots
/-!
# Which pages a reader still owns

A page is known to a progress when it is open, or when its sequence lies
between the first one the progress recorded and the last one it settled. The
sequences of all partitions come from one counter, and a progress is replaced
by one that recorded nothing yet. So everything an earlier progress recorded
lies below the first sequence of the one held now.
-/

namespace LaserSdk.Filters

open PartitionProgress

/-! ## Sequences of one progress -/

/-- The sequences of the open pages. -/
def PartitionProgress.sequences (p : PartitionProgress) : List Nat := p.pages.map (·.sequence)

theorem knows_iff {p : PartitionProgress} {sequence : Nat} :
    p.knows sequence = true ↔ sequence ∈ p.sequences ∨
      ∃ first ∈ p.firstSequence, first ≤ sequence ∧ sequence ≤ p.settledSequence := by
  simp [knows, sequences, Option.any_eq_true]

/-- The open pages are numbered upwards, past what is settled, from the first
sequence to `limit`. -/
structure Numbered (limit : Nat) (p : PartitionProgress) : Prop where
  ordered : p.sequences.Pairwise (· < ·)
  unsettled : ∀ n ∈ p.sequences, p.settledSequence < n
  started : ∀ n ∈ p.sequences, ∃ first ∈ p.firstSequence, first ≤ n
  bounded : ∀ n ∈ p.sequences, n ≤ limit
  first : ∀ first ∈ p.firstSequence, first ≤ limit
  settled : p.settledSequence ≤ limit

theorem Numbered.new (limit : Nat) (start : FilteredStart) : Numbered limit (PartitionProgress.new start) :=
  ⟨.nil, nofun, nofun, nofun, nofun, Nat.zero_le _⟩

theorem Numbered.mono {limit limit' : Nat} {p : PartitionProgress} (h : Numbered limit p) (hle : limit ≤ limit') :
    Numbered limit' p :=
  ⟨h.ordered, h.unsettled, h.started, fun n hn => (h.bounded n hn).trans hle,
    fun first hfirst => (h.first first hfirst).trans hle, h.settled.trans hle⟩

/-- `p'` is `p` after some completions: it knows what `p` knew and started
where `p` did. -/
structure Keeps (p p' : PartitionProgress) : Prop where
  first : p'.firstSequence = p.firstSequence
  numbered : ∀ limit, Numbered limit p → Numbered limit p'
  knows : ∀ limit, Numbered limit p → ∀ sequence, p.knows sequence = true → p'.knows sequence = true

theorem Keeps.trans {p p' p'' : PartitionProgress} (h : Keeps p p') (h' : Keeps p' p'') : Keeps p p'' where
  first := h'.first.trans h.first
  numbered limit hp := h'.numbered limit (h.numbered limit hp)
  knows limit hp sequence hknows := h'.knows limit (h.numbered limit hp) sequence (h.knows limit hp sequence hknows)

/-- Only the sequences matter. -/
theorem Keeps.same {p p' : PartitionProgress} (hsequences : p'.sequences = p.sequences)
    (hfirst : p'.firstSequence = p.firstSequence) (hsettled : p'.settledSequence = p.settledSequence) : Keeps p p' where
  first := hfirst
  numbered limit h := by
    refine ⟨?_, ?_, ?_, ?_, ?_, ?_⟩
    · rw [hsequences]
      exact h.ordered
    · rw [hsequences, hsettled]
      exact h.unsettled
    · rw [hsequences, hfirst]
      exact h.started
    · rw [hsequences]
      exact h.bounded
    · rw [hfirst]
      exact h.first
    · rw [hsettled]
      exact h.settled
  knows _ _ sequence h := by
    rw [knows_iff] at h ⊢
    rw [hsequences, hfirst, hsettled]
    exact h

theorem Keeps.refl (p : PartitionProgress) : Keeps p p := Keeps.same rfl rfl rfl

theorem shrinks_sequences {pages pages' : List PendingPage} (h : List.Forall₂ Shrinks pages pages') :
    pages'.map (·.sequence) = pages.map (·.sequence) := by
  induction h with
  | nil => rfl
  | cons hpage _ ih => rw [List.map_cons, List.map_cons, hpage.1, ih]

theorem Keeps.shrinks {p : PartitionProgress} {pages' : List PendingPage} (h : List.Forall₂ Shrinks p.pages pages') :
    Keeps p { p with pages := pages' } := Keeps.same (shrinks_sequences h) rfl rfl

/-- Settling moves the settled sequence up to the pages it drops. -/
theorem settlePages_settled {pages : List PendingPage} (unstored : Option AckTarget) {settled : Nat}
    (hordered : (pages.map (·.sequence)).Pairwise (· < ·)) (habove : ∀ n ∈ pages.map (·.sequence), settled < n) :
    settled ≤ (settlePages pages unstored settled).2.2 ∧
      (∀ n ∈ (settlePages pages unstored settled).1.map (·.sequence), (settlePages pages unstored settled).2.2 < n) ∧
      (∀ n ∈ pages.map (·.sequence), n ∈ (settlePages pages unstored settled).1.map (·.sequence) ∨
        n ≤ (settlePages pages unstored settled).2.2) ∧
      ∀ limit, settled ≤ limit → (∀ n ∈ pages.map (·.sequence), n ≤ limit) →
        (settlePages pages unstored settled).2.2 ≤ limit := by
  induction pages generalizing unstored settled with
  | nil => exact ⟨Nat.le_refl _, nofun, nofun, fun _ h _ => h⟩
  | cons page rest ih =>
    rw [List.map_cons] at hordered habove ⊢
    obtain ⟨hpage, hrest⟩ := List.pairwise_cons.1 hordered
    unfold settlePages
    split
    · obtain ⟨hle, hopen, hdropped, hlimit⟩ := ih (page.target.or unstored) hrest hpage
      have hsettled := habove page.sequence List.mem_cons_self
      refine ⟨by omega, hopen, fun n hn => ?_, fun limit _ hpages => ?_⟩
      · rcases List.mem_cons.1 hn with rfl | hn
        · exact .inr hle
        · exact hdropped n hn
      · exact hlimit limit (hpages _ List.mem_cons_self) fun n hn => hpages n (List.mem_cons_of_mem _ hn)
    · exact ⟨Nat.le_refl _, habove, fun n hn => .inl hn, fun _ h _ => h⟩

theorem Keeps.settle (p : PartitionProgress) : Keeps p (settle p) where
  first := rfl
  numbered limit h := by
    obtain ⟨-, hopen, -, hlimit⟩ := settlePages_settled p.unstored h.ordered h.unsettled
    have hsuffix := (settlePages_suffix p.pages p.unstored p.settledSequence).map (·.sequence)
    exact ⟨h.ordered.sublist hsuffix.sublist, hopen, fun n hn => h.started n (hsuffix.subset hn),
      fun n hn => h.bounded n (hsuffix.subset hn), h.first, hlimit limit h.settled h.bounded⟩
  knows limit h sequence hknows := by
    obtain ⟨hle, -, hdropped, -⟩ := settlePages_settled p.unstored h.ordered h.unsettled
    rw [knows_iff] at hknows ⊢
    rcases hknows with hopen | ⟨first, hfirst, hfrom, hto⟩
    · rcases hdropped sequence hopen with hstill | hsettled
      · exact .inl hstill
      · obtain ⟨first, hfirst, hfrom⟩ := h.started sequence hopen
        exact .inr ⟨first, hfirst, hfrom, hsettled⟩
    · exact .inr ⟨first, hfirst, hfrom, hto.trans hle⟩

theorem completeRecord_keeps (p : PartitionProgress) (sequence offset : Nat) : Keeps p (p.completeRecord sequence offset) :=
  (Keeps.shrinks (onPage_shrinks sequence (·.erase offset) (fun _ => Finset.erase_subset _ _) p.pages)).trans (Keeps.settle _)

theorem completePage_keeps (p : PartitionProgress) (sequence : Nat) : Keeps p (p.completePage sequence) :=
  (Keeps.shrinks (onPage_shrinks sequence (fun _ => ∅) (fun _ => Finset.empty_subset _) p.pages)).trans (Keeps.settle _)

theorem completeThrough_keeps (p : PartitionProgress) (sequence offset : Nat) :
    Keeps p (p.completeThrough sequence offset).2 := by
  unfold completeThrough
  split
  · exact Keeps.refl p
  · split
    · exact Keeps.refl p
    · have hsettled := (Keeps.shrinks (throughPage_shrinks sequence offset p.pages)).trans (Keeps.settle _)
      dsimp only
      split
      · exact hsettled.trans (Keeps.same rfl rfl rfl)
      · exact hsettled

theorem stored_keeps (p : PartitionProgress) (target : AckTarget) : Keeps p (p.stored target) := Keeps.same rfl rfl rfl

theorem defer_keeps (p : PartitionProgress) (retryAt : Nat) : Keeps p (p.defer retryAt) := Keeps.same rfl rfl rfl

/-! ## Recording a page -/

section

variable {p : PartitionProgress} {limit sequence : Nat}

/-- A page with records joins the open pages under its own sequence. -/
theorem enqueue_sequences (pages : List PendingPage) (sequence : Nat) (target : Option AckTarget) (outstanding : Finset Nat) :
    (enqueue pages sequence target outstanding).map (·.sequence) = pages.map (·.sequence) ++ [sequence] ∨
      outstanding = ∅ ∧ (enqueue pages sequence target outstanding).map (·.sequence) = pages.map (·.sequence) := by
  rcases enqueue_cases pages sequence target outstanding with h | ⟨older, newest, rfl, hempty, h⟩
  · rw [h, List.map_append]
    exact .inl rfl
  · rw [h, List.map_append, List.map_append]
    exact .inr ⟨hempty, rfl⟩

theorem Numbered.enqueue (h : Numbered limit p) (hnext : limit < sequence) {p' : PartitionProgress}
    (hfirst : p'.firstSequence = p.firstSequence.or (some sequence)) (hsettled : p'.settledSequence = p.settledSequence)
    (hsequences : p'.sequences = p.sequences ++ [sequence] ∨ p'.sequences = p.sequences) : Numbered sequence p' := by
  have hfrom : ∃ first ∈ p'.firstSequence, first ≤ sequence := by
    rw [hfirst]
    cases hp : p.firstSequence with
    | none => exact ⟨sequence, rfl, Nat.le_refl _⟩
    | some first => exact ⟨first, rfl, (h.first first hp).trans hnext.le⟩
  have hmem : ∀ n ∈ p'.sequences, n ∈ p.sequences ∨ n = sequence := by
    intro n hn
    rcases hsequences with hnew | hsame
    · rw [hnew] at hn
      simpa using hn
    · rw [hsame] at hn
      exact .inl hn
  refine ⟨?_, fun n hn => ?_, fun n hn => ?_, fun n hn => ?_, fun first hmem => ?_, ?_⟩
  · rcases hsequences with hnew | hsame
    · rw [hnew, List.pairwise_append]
      refine ⟨h.ordered, List.pairwise_singleton _ _, fun n hn m hm => ?_⟩
      rw [List.mem_singleton.1 hm]
      exact (h.bounded n hn).trans_lt hnext
    · rw [hsame]
      exact h.ordered
  · rw [hsettled]
    rcases hmem n hn with hold | rfl
    · exact h.unsettled n hold
    · exact h.settled.trans_lt hnext
  · rcases hmem n hn with hold | rfl
    · obtain ⟨first, hmem', hle⟩ := h.started n hold
      refine ⟨first, ?_, hle⟩
      rw [hfirst]
      exact Option.or_eq_some_iff.2 (.inl hmem')
    · exact hfrom
  · rcases hmem n hn with hold | rfl
    · exact (h.bounded n hold).trans hnext.le
    · exact Nat.le_refl _
  · obtain ⟨other, hother, hle⟩ := hfrom
    cases Option.mem_unique hmem hother
    exact hle
  · rw [hsettled]
    exact h.settled.trans hnext.le

/-- Recording a page under the next sequence keeps what is known, and makes a
page with records known. -/
theorem record_numbered (h : Numbered limit p) (hnext : limit < sequence) (page : FilteredPage) (offsets : List Nat) :
    Numbered sequence (p.record sequence page offsets) ∧
      (p.record sequence page offsets).firstSequence = p.firstSequence.or (some sequence) ∧
      (∀ n, p.knows n = true → (p.record sequence page offsets).knows n = true) ∧
      (offsets ≠ [] → (p.record sequence page offsets).knows sequence = true) := by
  have hsequences := enqueue_sequences p.pages sequence (targetOf page) offsets.toFinset
  let q : PartitionProgress := { p with
    retryAt := none
    firstSequence := p.firstSequence.or (some sequence)
    start := page.nextStart p.original
    waitFrom := some (waitAfter page)
    blocked := blockedBy page
    pages := enqueue p.pages sequence (targetOf page) offsets.toFinset }
  have hsequences : q.sequences = p.sequences ++ [sequence] ∨ offsets.toFinset = ∅ ∧ q.sequences = p.sequences := hsequences
  have hq : Numbered sequence q := h.enqueue hnext rfl rfl (hsequences.imp_right And.right)
  have hkeeps : Keeps q (p.record sequence page offsets) := Keeps.settle q
  refine ⟨hkeeps.numbered _ hq, rfl, fun n hn => hkeeps.knows _ hq n ?_, fun hreturned => hkeeps.knows _ hq _ ?_⟩
  · rw [knows_iff] at hn ⊢
    rcases hn with hopen | ⟨first, hfirst, hle⟩
    · refine .inl ?_
      rcases hsequences with hnew | ⟨-, hsame⟩
      · rw [hnew]
        exact List.mem_append_left _ hopen
      · rw [hsame]
        exact hopen
    · exact .inr ⟨first, Option.or_eq_some_iff.2 (.inl hfirst), hle⟩
  · rcases hsequences with hnew | ⟨hempty, -⟩
    · rw [knows_iff, hnew]
      exact .inl (List.mem_append_right _ List.mem_cons_self)
    · exact absurd (by simpa using hempty) hreturned

end

/-! ## What a call does to the progresses -/

/-- A progress that recorded nothing. -/
def Fresh (p : PartitionProgress) : Prop := p.firstSequence = none ∧ Numbered 0 p

theorem Fresh.keeps {p p' : PartitionProgress} (h : Fresh p) (hkeeps : Keeps p p') : Fresh p' :=
  ⟨hkeeps.first.trans h.1, hkeeps.numbered 0 h.2⟩

/-- Every progress held after a call was held before it, with some completions
since, or was made by the call. -/
structure Follows (s s' : Reader) : Prop where
  sequence : s'.sequence = s.sequence
  created : s.created ≤ s'.created
  held : ∀ partitionId held', s'.partitions.lookup partitionId = some held' →
    (∃ held, s.partitions.lookup partitionId = some held ∧ held'.life = held.life ∧
      Keeps held.progress held'.progress ∧ s'.owner = s.owner) ∨
    s.created ≤ held'.life ∧ held'.life < s'.created ∧ Fresh held'.progress

namespace Follows

variable {s s' s'' : Reader}

/-- A call that holds no other progresses. -/
theorem less (hsequence : s'.sequence = s.sequence) (hcreated : s'.created = s.created)
    (hheld : ∀ partitionId held, s'.partitions.lookup partitionId = some held →
      s.partitions.lookup partitionId = some held ∧ s'.owner = s.owner) : Follows s s' where
  sequence := hsequence
  created := hcreated.ge
  held partitionId held h := by
    obtain ⟨hold, howner⟩ := hheld partitionId held h
    exact .inl ⟨held, hold, rfl, Keeps.refl _, howner⟩

theorem same (hsequence : s'.sequence = s.sequence) (hcreated : s'.created = s.created)
    (hpartitions : s'.partitions = s.partitions) (howner : s'.owner = s.owner) : Follows s s' :=
  less hsequence hcreated fun _ _ h => ⟨hpartitions ▸ h, howner⟩

theorem refl (s : Reader) : Follows s s := same rfl rfl rfl rfl

theorem trans (h : Follows s s') (h' : Follows s' s'') : Follows s s'' where
  sequence := h'.sequence.trans h.sequence
  created := h.created.trans h'.created
  held partitionId held'' hheld'' := by
    rcases h'.held partitionId held'' hheld'' with ⟨held', hheld', hlife', hkeeps', howner'⟩ | ⟨hnew, hmade, hfresh⟩
    · rcases h.held partitionId held' hheld' with ⟨held, hheld, hlife, hkeeps, howner⟩ | ⟨hnew, hmade, hfresh⟩
      · exact .inl ⟨held, hheld, hlife'.trans hlife, hkeeps.trans hkeeps', howner'.trans howner⟩
      · rw [← hlife'] at hnew hmade
        exact .inr ⟨hnew, hmade.trans_le h'.created, hfresh.keeps hkeeps'⟩
    · exact .inr ⟨h.created.trans hnew, hmade, hfresh⟩

theorem replace {partitionId : Nat} {held : Held} (hheld : s.partitions.lookup partitionId = some held)
    {progress : PartitionProgress} (hkeeps : Keeps held.progress progress) :
    Follows s (s.replace partitionId held progress) where
  sequence := rfl
  created := Nat.le_refl _
  held other held' h := by
    refine .inl ?_
    unfold Reader.replace at h
    dsimp only at h
    by_cases heq : other = partitionId
    · subst heq
      rw [Finmap.lookup_insert] at h
      cases h
      exact ⟨held, hheld, rfl, hkeeps, rfl⟩
    · rw [Finmap.lookup_insert_of_ne _ heq] at h
      exact ⟨held', h, rfl, Keeps.refl _, rfl⟩

theorem renew (s : Reader) (partitionId : Nat) (start : FilteredStart) : Follows s (s.renew partitionId start) where
  sequence := rfl
  created := Nat.le_succ _
  held other held' h := by
    unfold Reader.renew at h
    dsimp only at h
    by_cases heq : other = partitionId
    · subst heq
      rw [Finmap.lookup_insert] at h
      cases h
      exact .inr ⟨Nat.le_refl _, Nat.lt_succ_self _, rfl, Numbered.new 0 start⟩
    · rw [Finmap.lookup_insert_of_ne _ heq] at h
      exact .inl ⟨held', h, rfl, Keeps.refl _, rfl⟩

theorem retire (s : Reader) (partitionId : Nat) : Follows s (s.retire partitionId) := by
  unfold Reader.retire
  split
  · refine less rfl rfl fun other held h => ⟨?_, rfl⟩
    dsimp only at h
    by_cases heq : other = partitionId
    · subst heq
      rw [Finmap.lookup_erase] at h
      cases h
    · rwa [Finmap.lookup_erase_ne heq] at h
  · exact refl s

theorem rejoin (s : Reader) : Follows s s.rejoin :=
  less rfl rfl fun other held h => by
    unfold Reader.rejoin at h
    dsimp only at h
    rw [Finmap.lookup_empty] at h
    cases h

theorem restartAfter (s : Reader) (partitionId : Nat) (error : LaserError) : Follows s (s.restartAfter partitionId error) := by
  unfold Reader.restartAfter
  split
  · dsimp only
    split
    · exact (renew s partitionId .next).trans (same rfl rfl rfl rfl)
    · exact same rfl rfl rfl rfl
  · exact refl s

theorem flush (s : Reader) (partitionId : Nat) (answer : Option (Except LaserError Reader.AckReply)) :
    Follows s (s.flush partitionId answer).2 := by
  unfold Reader.flush Reader.progress
  cases hheld : s.partitions.lookup partitionId with
  | none => exact refl s
  | some held =>
    dsimp only
    split
    · exact retire s partitionId
    · split
      · exact refl s
      · split
        · exact (replace hheld (stored_keeps _ _)).trans (retire _ partitionId)
        · exact refl s
      · exact refl s
      · exact restartAfter s partitionId _

theorem store (s : Reader) (partitionId : Nat) (answers : List Reader.Answer) : Follows s (s.store partitionId answers).2 := by
  induction answers generalizing s with
  | nil => exact flush s partitionId none
  | cons answer rest ih =>
    have hflush := flush s partitionId (some answer.reply)
    unfold Reader.store
    split
    · rename_i hfailed
      rw [hfailed] at hflush
      split
      · exact hflush.trans (ih _)
      · exact hflush
    · exact hflush

theorem storeAll (answers : Nat → List Reader.Answer) (partitions : List Nat) (outcome : Outcome Unit) (s : Reader) :
    Follows s (Reader.storeAll answers partitions outcome s).2 := by
  induction partitions generalizing outcome s with
  | nil => exact refl s
  | cons partitionId rest ih =>
    have hstore := store s partitionId (answers partitionId)
    unfold Reader.storeAll
    split
    · rename_i hdropped
      rw [hdropped] at hstore
      exact hstore
    · rename_i hstored
      rw [hstored] at hstore
      exact hstore.trans (ih _ _)

theorem acknowledge (s : Reader) (owner partitionId sequence : Nat) {complete : PartitionProgress → Bool × PartitionProgress}
    (hcomplete : ∀ p, Keeps p (complete p).2) (answers : List Reader.Answer) :
    Follows s (s.acknowledge owner partitionId sequence complete answers).2 := by
  unfold Reader.acknowledge
  split
  · exact refl s
  · split
    · exact refl s
    · unfold Reader.progress
      cases hheld : s.partitions.lookup partitionId with
      | none => exact refl s
      | some held =>
        have hkeeps := hcomplete held.progress
        dsimp only
        split
        · rename_i hdone
          rw [hdone] at hkeeps
          exact (replace hheld hkeeps).trans (store _ partitionId answers)
        · rename_i hpast
          rw [hpast] at hkeeps
          exact replace hheld hkeeps

theorem handled (s : Reader) (delivery : RecordDelivery) : Follows s (s.handled delivery) := by
  unfold Reader.handled
  split
  · split
    · exact replace ‹_› (completeThrough_keeps _ _ _)
    · exact refl s
  · exact refl s

/-- A loop follows when each of its rounds does. -/
theorem foldl {step : Reader → Nat → Reader} (hstep : ∀ s n, Follows s (step s n)) (ns : List Nat) (s : Reader) :
    Follows s (ns.foldl step s) := by
  induction ns generalizing s with
  | nil => exact refl s
  | cons n ns ih => exact (hstep s n).trans (ih _)

theorem revoke (s : Reader) (partitionId : Nat) : Follows s (s.revoke partitionId) :=
  (same rfl rfl rfl rfl : Follows s { s with revoked := insert partitionId s.revoked }).trans (retire _ partitionId)

theorem assign (start : FilteredStart) (s : Reader) (partitionId : Nat) : Follows s (Reader.assign start s partitionId) := by
  unfold Reader.assign
  split
  · refine Follows.trans ?_ (renew _ partitionId start)
    exact same rfl rfl rfl rfl
  · exact refl s

theorem refreshMembership (s : Reader) (membership : List Nat) (rejoined : Bool) :
    Follows s (s.refreshMembership membership rejoined) := by
  unfold Reader.refreshMembership
  extract_lets assigned joined left followed start open'
  have hjoined : Follows s joined := by
    unfold joined
    split
    · exact rejoin s
    · exact refl s
  have hfollowed : Follows joined followed := foldl revoke left joined
  have hopen : Follows followed open' := same rfl rfl rfl rfl
  exact ((hjoined.trans hfollowed).trans hopen).trans (foldl (assign start) _ open')

end Follows

/-! ## Runs -/

/-- A page handed out, and the progress it was recorded in. -/
structure Handed where
  page : MatchedPage
  life : Option Nat

/-- The progress that recorded the page is the one held for its partition. -/
def Handed.Current (handed : Handed) (s : Reader) : Prop :=
  ∃ held, s.partitions.lookup handed.page.partitionId = some held ∧ handed.life = some held.life

/-- The page a read hands out. -/
def handedBy (result : Outcome Reader.Read × Reader) : List Handed :=
  match result.1 with
  | .ok (.page page) => [⟨page, (result.2.partitions.lookup page.partitionId).map (·.life)⟩]
  | _ => []

inductive Call where
  | read (partitionId : Nat) (input : Reader.ReadInput) (retryAt : Nat)
  /-- Keep the records of a page for `next_record`. -/
  | buffer (page : MatchedPage)
  | nextBuffered
  | ack (record : MatchedRecord) (answers : List Reader.Answer)
  | ackThrough (record : MatchedRecord) (answers : List Reader.Answer)
  | ackPage (page : MatchedPage) (answers : List Reader.Answer)
  | ackThroughDelivery (delivery : RecordDelivery) (answers : List Reader.Answer)
  | handled (delivery : RecordDelivery)
  | flushCompleted (answers : Nat → List Reader.Answer)
  | refreshMembership (membership : List Nat) (rejoined : Bool)

/-- A reader and all it handed out. -/
structure Traced where
  reader : Reader
  handed : List Handed

def Traced.call (t : Traced) : Call → Traced
  | .read partitionId input retryAt =>
    let result := t.reader.roundRead partitionId input retryAt
    { reader := result.2, handed := t.handed ++ handedBy result }
  | .buffer page => { t with reader := { t.reader with buffered := t.reader.buffered ++ page.records } }
  | .nextBuffered => { t with reader := { t.reader with buffered := t.reader.buffered.tail } }
  | .ack record answers => { t with reader := (t.reader.ack record answers).2 }
  | .ackThrough record answers => { t with reader := (t.reader.ackThrough record answers).2 }
  | .ackPage page answers => { t with reader := (t.reader.ackPage page answers).2 }
  | .ackThroughDelivery delivery answers => { t with reader := (t.reader.ackThroughDelivery delivery answers).2 }
  | .handled delivery => { t with reader := t.reader.handled delivery }
  | .flushCompleted answers => { t with reader := (t.reader.flushCompleted answers).2 }
  | .refreshMembership membership rejoined => { t with reader := t.reader.refreshMembership membership rejoined }

/-! ## The invariant -/

/-- What every call keeps. A page of the progress held for its partition is
known to it, and a page of an earlier one lies below its first sequence. -/
structure Tracks (s : Reader) (handed : List Handed) : Prop where
  numbered : ∀ partitionId held, s.partitions.lookup partitionId = some held →
    Numbered s.sequence held.progress ∧ held.life < s.created
  read : ∀ h ∈ handed, h.page.sequence ≤ s.sequence ∧ ∀ life ∈ h.life, life < s.created
  current : ∀ h ∈ handed, ∀ held, s.partitions.lookup h.page.partitionId = some held → h.life = some held.life →
    h.page.owner = s.owner ∧ held.progress.knows h.page.sequence = true
  earlier : ∀ h ∈ handed, ∀ held, s.partitions.lookup h.page.partitionId = some held → h.life ≠ some held.life →
    ∀ first ∈ held.progress.firstSequence, h.page.sequence < first
  records : ∀ h ∈ handed, ∀ record ∈ h.page.records,
    record.partitionId = h.page.partitionId ∧ record.sequence = h.page.sequence ∧ record.owner = h.page.owner

section

variable {s s' : Reader} {handed : List Handed}

theorem Tracks.follows (h : Tracks s handed) (hfollows : Follows s s') : Tracks s' handed where
  numbered partitionId held' hheld' := by
    rw [hfollows.sequence]
    rcases hfollows.held partitionId held' hheld' with ⟨held, hheld, hlife, hkeeps, -⟩ | ⟨-, hmade, hfresh⟩
    · obtain ⟨hnumbered, hcreated⟩ := h.numbered partitionId held hheld
      rw [hlife]
      exact ⟨hkeeps.numbered _ hnumbered, hcreated.trans_le hfollows.created⟩
    · exact ⟨hfresh.2.mono (Nat.zero_le _), hmade⟩
  read page hpage := by
    obtain ⟨hle, hcreated⟩ := h.read page hpage
    rw [hfollows.sequence]
    exact ⟨hle, fun life hlife => (hcreated life hlife).trans_le hfollows.created⟩
  current page hpage held' hheld' hsame := by
    rcases hfollows.held _ held' hheld' with ⟨held, hheld, hlife, hkeeps, howner⟩ | ⟨hnew, -⟩
    · rw [hlife] at hsame
      obtain ⟨hown, hknows⟩ := h.current page hpage held hheld hsame
      exact ⟨hown.trans howner.symm, hkeeps.knows _ (h.numbered _ held hheld).1 _ hknows⟩
    · exact absurd ((h.read page hpage).2 _ hsame) (Nat.not_lt_of_le hnew)
  earlier page hpage held' hheld' hother first hfirst := by
    rcases hfollows.held _ held' hheld' with ⟨held, hheld, hlife, hkeeps, -⟩ | ⟨-, -, hfresh⟩
    · rw [hlife] at hother
      rw [hkeeps.first] at hfirst
      exact h.earlier page hpage held hheld hother first hfirst
    · rw [hfresh.1] at hfirst
      cases hfirst
  records := h.records

/-- Taking the next sequence. -/
theorem Tracks.next (h : Tracks s handed) : Tracks { s with sequence := s.sequence + 1 } handed where
  numbered partitionId held hheld := by
    obtain ⟨hnumbered, hcreated⟩ := h.numbered partitionId held hheld
    exact ⟨hnumbered.mono (Nat.le_succ _), hcreated⟩
  read page hpage := by
    obtain ⟨hle, hcreated⟩ := h.read page hpage
    exact ⟨Nat.le_succ_of_le hle, hcreated⟩
  current := h.current
  earlier := h.earlier
  records := h.records

/-- Recording a page under the next sequence. -/
theorem Tracks.record (h : Tracks s handed) {partitionId : Nat} {held : Held}
    (hheld : s.partitions.lookup partitionId = some held) (page : FilteredPage) (offsets : List Nat)
    {progress : PartitionProgress} (hkeeps : Keeps (held.progress.record (s.sequence + 1) page offsets) progress) :
    Tracks (({ s with sequence := s.sequence + 1 } : Reader).replace partitionId held progress) handed := by
  have hnext := h.next
  obtain ⟨hnumbered, hcreated⟩ := h.numbered partitionId held hheld
  obtain ⟨hrecorded, hfirst, hknows, -⟩ := record_numbered hnumbered (Nat.lt_succ_self _) page offsets
  have hlookup : ∀ other held', (s.partitions.insert partitionId { held with progress := progress }).lookup other = some held' →
      (other = partitionId ∧ held' = { held with progress := progress }) ∨ s.partitions.lookup other = some held' := by
    intro other held' hheld'
    by_cases heq : other = partitionId
    · subst heq
      rw [Finmap.lookup_insert] at hheld'
      cases hheld'
      exact .inl ⟨rfl, rfl⟩
    · rw [Finmap.lookup_insert_of_ne _ heq] at hheld'
      exact .inr hheld'
  refine ⟨fun other held' hheld' => ?_, hnext.read, fun read hread held' hheld' hsame => ?_,
    fun read hread held' hheld' hother first hmem => ?_, h.records⟩
  · rcases hlookup other held' hheld' with ⟨rfl, rfl⟩ | hold
    · exact ⟨hkeeps.numbered _ hrecorded, hcreated⟩
    · exact hnext.numbered other held' hold
  · rcases hlookup _ held' hheld' with ⟨heq, rfl⟩ | hold
    · rw [← heq] at hheld
      obtain ⟨howner, hknown⟩ := h.current read hread held hheld hsame
      exact ⟨howner, hkeeps.knows _ hrecorded _ (hknows _ hknown)⟩
    · exact h.current read hread held' hold hsame
  · rcases hlookup _ held' hheld' with ⟨heq, rfl⟩ | hold
    · rw [← heq] at hheld
      rw [hkeeps.first, hfirst] at hmem
      rcases Option.or_eq_some_iff.1 hmem with hbefore | ⟨-, hnow⟩
      · exact h.earlier read hread held hheld hother first hbefore
      · cases hnow
        exact Nat.lt_succ_of_le (h.read read hread).1
    · exact h.earlier read hread held' hold hother first hmem

/-- Handing out a page that the progress of its partition knows. -/
theorem Tracks.hand (h : Tracks s handed) {page : MatchedPage} {held : Held}
    (hheld : s.partitions.lookup page.partitionId = some held) (hsequence : page.sequence ≤ s.sequence)
    (howner : page.owner = s.owner) (hknows : held.progress.knows page.sequence = true)
    (hrecords : ∀ record ∈ page.records,
      record.partitionId = page.partitionId ∧ record.sequence = page.sequence ∧ record.owner = page.owner) :
    Tracks s (handed ++ [⟨page, some held.life⟩]) where
  numbered := h.numbered
  read := by
    refine List.forall_mem_append.2 ⟨h.read, List.forall_mem_singleton.2 ⟨hsequence, fun life hlife => ?_⟩⟩
    cases hlife
    exact (h.numbered _ held hheld).2
  current := by
    refine List.forall_mem_append.2 ⟨h.current, List.forall_mem_singleton.2 fun held' hheld' _ => ?_⟩
    cases hheld.symm.trans hheld'
    exact ⟨howner, hknows⟩
  earlier := by
    refine List.forall_mem_append.2 ⟨h.earlier, List.forall_mem_singleton.2 fun held' hheld' hother => ?_⟩
    cases hheld.symm.trans hheld'
    exact absurd rfl hother
  records := List.forall_mem_append.2 ⟨h.records, List.forall_mem_singleton.2 hrecords⟩

/-- The invariant after a read, with the page that it hands out. -/
def TracksRead (handed : List Handed) (result : Outcome Reader.Read × Reader) : Prop :=
  Tracks result.2 (handed ++ handedBy result)

/-- A read that hands out nothing. -/
theorem Tracks.quiet (h : Tracks s handed) {result : Outcome Reader.Read × Reader} (hfollows : Follows s result.2)
    (hquiet : handedBy result = []) : TracksRead handed result := by
  rw [TracksRead, hquiet, List.append_nil]
  exact h.follows hfollows

theorem deliver_tracks (h : Tracks s handed) (partitionId : Nat) (page : FilteredPage) (polled : PolledMessages)
    (input : Reader.ReadInput) :
    TracksRead handed (s.deliver partitionId page polled input) := by
  unfold Reader.deliver Reader.progress
  extract_lets numbered
  cases hheld : numbered.partitions.lookup partitionId with
  | none => exact h.next.quiet (Follows.refl _) rfl
  | some held =>
    dsimp -zeta only
    have hheld : s.partitions.lookup partitionId = some held := hheld
    obtain ⟨hrecorded, -, -, hknown⟩ :=
      record_numbered (h.numbered partitionId held hheld).1 (Nat.lt_succ_self _) page polled.offsets
    extract_lets recorded progress s'
    have hkeeps : Keeps recorded progress := by
      unfold progress
      split
      · exact defer_keeps _ _
      · exact Keeps.refl _
    have htracks : Tracks s' handed := h.record hheld page polled.offsets hkeeps
    split
    · have hflush := Follows.flush s' partitionId input.flushed
      split
      · rename_i hdropped
        rw [hdropped] at hflush
        exact htracks.quiet hflush rfl
      · rename_i hflushed
        rw [hflushed] at hflush
        split
        · exact htracks.quiet hflush rfl
        · exact htracks.quiet hflush rfl
    · have hlookup : s'.partitions.lookup partitionId = some { held with progress := progress } := Finmap.lookup_insert _
      have hhanded : handedBy (.ok (.page (s'.matchedPage partitionId page polled)), s') =
          [⟨s'.matchedPage partitionId page polled, some held.life⟩] := by
        simp only [handedBy, Reader.matchedPage, hlookup, Option.map_some]
      rw [TracksRead, hhanded]
      refine @Tracks.hand s' handed htracks (s'.matchedPage partitionId page polled) { held with progress := progress }
        hlookup (Nat.le_refl _) rfl ?_ ?_
      · exact hkeeps.knows _ hrecorded _ (hknown ‹_›)
      · intro record hrecord
        obtain ⟨offset, -, rfl⟩ := List.mem_map.1 hrecord
        exact ⟨rfl, rfl, rfl⟩

theorem accept_tracks (h : Tracks s handed) (partitionId : Nat) (page : FilteredPage)
    (decoded : Except LaserError PolledMessages) (input : Reader.ReadInput) :
    TracksRead handed (s.accept partitionId page decoded input) := by
  unfold Reader.accept
  split
  · exact h.quiet (Follows.refl _) rfl
  · split
    · exact h.quiet (Follows.refl _) rfl
    · split
      · exact h.quiet (Follows.refl _) rfl
      · rename_i pinned hpinned
        have hsame : Follows s pinned := by
          unfold Reader.pinSource at hpinned
          repeat' split at hpinned
          all_goals first | cases hpinned; exact Follows.same rfl rfl rfl rfl | cases hpinned
        have hpin := h.follows hsame
        split
        · exact hpin.quiet (Follows.refl _) rfl
        · exact hpin.quiet (Follows.restartAfter _ _ _) rfl
        · exact deliver_tracks hpin partitionId page _ input

theorem pollFailed_follows (s : Reader) (partitionId : Nat) (error : LaserError) :
    Follows s (s.pollFailed partitionId error).2 ∧ handedBy (s.pollFailed partitionId error) = [] := by
  unfold Reader.pollFailed
  split
  · split
    · exact ⟨Follows.refl _, rfl⟩
    · exact ⟨Follows.same rfl rfl rfl rfl, rfl⟩
  · dsimp only
    split
    · exact ⟨Follows.restartAfter _ _ _, rfl⟩
    · exact ⟨Follows.restartAfter _ _ _, rfl⟩

theorem poll_tracks (h : Tracks s handed) (partitionId : Nat) (input : Reader.ReadInput) :
    TracksRead handed (s.poll partitionId input) := by
  unfold Reader.poll
  split
  · exact h.quiet (Follows.refl _) rfl
  · split
    · exact h.quiet (Follows.refl _) rfl
    · extract_lets _ asked
      have hasked : Tracks asked handed := h.follows (Follows.same rfl rfl rfl rfl)
      split
      · exact hasked.quiet (Follows.refl _) rfl
      · obtain ⟨hfollows, hquiet⟩ := pollFailed_follows asked partitionId ‹_›
        exact hasked.quiet hfollows hquiet
      · exact hasked.quiet (Follows.refl _) rfl
      · refine accept_tracks (hasked.follows ?_) partitionId _ _ input
        exact Follows.same rfl rfl rfl rfl

theorem read_tracks (h : Tracks s handed) (partitionId : Nat) (input : Reader.ReadInput) :
    TracksRead handed (s.read partitionId input) := by
  unfold Reader.read
  split
  · split
    · refine poll_tracks (h.follows ?_) partitionId input
      exact Follows.same rfl rfl rfl rfl
    · split
      · exact h.quiet (Follows.refl _) rfl
      · exact h.quiet (Follows.refl _) rfl
  · exact poll_tracks h partitionId input

theorem roundRead_tracks (h : Tracks s handed) (partitionId : Nat) (input : Reader.ReadInput) (retryAt : Nat) :
    TracksRead handed (s.roundRead partitionId input retryAt) := by
  have hread := read_tracks h partitionId input
  unfold Reader.roundRead
  split
  · rename_i hfailed
    rw [hfailed, TracksRead, handedBy, List.append_nil] at hread
    split
    · exact hread.quiet (Follows.replace ‹_› (defer_keeps _ _)) rfl
    · exact hread.quiet (Follows.refl _) rfl
  · exact hread

theorem call_tracks {t : Traced} (h : Tracks t.reader t.handed) (call : Call) : Tracks (t.call call).reader (t.call call).handed := by
  cases call with
  | read partitionId input retryAt => exact roundRead_tracks h partitionId input retryAt
  | buffer page => exact h.follows (Follows.same rfl rfl rfl rfl)
  | nextBuffered => exact h.follows (Follows.same rfl rfl rfl rfl)
  | ack record answers => exact h.follows (Follows.acknowledge _ _ _ _ (fun p => completeRecord_keeps p _ _) answers)
  | ackThrough record answers => exact h.follows (Follows.acknowledge _ _ _ _ (fun p => completeThrough_keeps p _ _) answers)
  | ackPage page answers => exact h.follows (Follows.acknowledge _ _ _ _ (fun p => completePage_keeps p _) answers)
  | ackThroughDelivery delivery answers =>
    exact h.follows (Follows.acknowledge _ _ _ _ (fun p => completeThrough_keeps p _ _) answers)
  | handled delivery => exact h.follows (Follows.handled _ delivery)
  | flushCompleted answers => exact h.follows (Follows.storeAll answers _ _ _)
  | refreshMembership membership rejoined => exact h.follows (Follows.refreshMembership _ membership rejoined)

/-- A page handed out is owned exactly while its progress is held. -/
theorem Tracks.owns_iff (h : Tracks s handed) {page : Handed} (hpage : page ∈ handed) :
    s.owns page.page = true ↔ page.Current s := by
  simp only [Reader.owns, Reader.knows, Bool.and_eq_true, beq_iff_eq, Option.any_eq_true]
  constructor
  · rintro ⟨-, held, hheld, hknows⟩
    refine ⟨held, hheld, ?_⟩
    by_contra hother
    have hbelow := h.earlier page hpage held hheld hother
    rw [knows_iff] at hknows
    rcases hknows with hopen | ⟨first, hfirst, hle, -⟩
    · obtain ⟨first, hfirst, hle⟩ := (h.numbered _ held hheld).1.started _ hopen
      exact absurd (hbelow first hfirst) (Nat.not_lt_of_le hle)
    · exact absurd (hbelow first hfirst) (Nat.not_lt_of_le hle)
  · rintro ⟨held, hheld, hlife⟩
    obtain ⟨howner, hknows⟩ := h.current page hpage held hheld hlife
    exact ⟨howner.symm, held, hheld, hknows⟩

end

/-- Nothing is made or held yet. -/
theorem build_tracks (request : FilteredPollRequest) (maxUnackedPages : Nat) (selectedPartitions : Finset Nat) (seed : Bool)
    (notHeld : Finset Nat) (pinnedSource : Option SourceIncarnation) (membership : List Nat) :
    Tracks (Reader.build request maxUnackedPages selectedPartitions seed notHeld pinnedSource membership) [] := by
  unfold Reader.build
  extract_lets s
  have hempty : Tracks s [] := by
    refine ⟨fun partitionId held hheld => ?_, by simp, by simp, by simp, by simp⟩
    rw [Finmap.lookup_empty] at hheld
    cases hheld
  exact hempty.follows (Follows.foldl (fun s partitionId => Follows.renew s partitionId request.start) _ s)

theorem run_tracks {t : Traced} (h : Tracks t.reader t.handed) (calls : List Call) :
    Tracks (calls.foldl Traced.call t).reader (calls.foldl Traced.call t).handed := by
  induction calls generalizing t with
  | nil => exact h
  | cons call calls ih => exact ih (call_tracks h call)

/-! ## Acknowledging a page -/

/-- The call is refused as stale and changes nothing. -/
def Refused (s : Reader) (result : Outcome Unit × Reader) : Prop :=
  (result.1 = .error .notOwned ∨ result.1 = .error .retiredRead) ∧ result.2 = s

/-- A call that fails does so past the page boundary, or at the server. -/
def Admitted (answers : List Reader.Answer) (result : Outcome Unit × Reader) : Prop :=
  ∀ error, result.1 = .error error →
    error = .pastBoundary ∨ error = .otherReceipt ∨ ∃ answer ∈ answers, answer.reply = .error error

section

variable {s : Reader} {owner partitionId sequence : Nat}

theorem acknowledge_refused (h : ¬(s.owner = owner ∧ s.knows partitionId sequence = true))
    (complete : PartitionProgress → Bool × PartitionProgress) (answers : List Reader.Answer) :
    Refused s (s.acknowledge owner partitionId sequence complete answers) := by
  unfold Reader.acknowledge Reader.requireOwner Reader.requireSequence
  by_cases howner : s.owner = owner
  · rw [if_pos howner, if_neg fun hknows => h ⟨howner, hknows⟩]
    exact ⟨.inr rfl, rfl⟩
  · rw [if_neg howner]
    exact ⟨.inl rfl, rfl⟩

/-- A failed flush leaves the partition held. -/
theorem flush_error (hheld : (s.partitions.lookup partitionId).isSome = true) {reply : Except LaserError Reader.AckReply}
    {error : LaserError} {s' : Reader} (h : s.flush partitionId (some reply) = (.error error, s')) :
    (error = .otherReceipt ∨ reply = .error error) ∧ (s'.partitions.lookup partitionId).isSome = true := by
  obtain ⟨held, hlookup⟩ := Option.isSome_iff_exists.1 hheld
  unfold Reader.flush Reader.progress at h
  rw [hlookup] at h
  dsimp only at h
  split at h
  · cases h
  · split at h
    · cases h
    · split at h
      · cases h
      · cases h
        exact ⟨.inl rfl, hheld⟩
    · cases h
      exact ⟨.inl rfl, hheld⟩
    · rename_i hreply
      cases h
      refine ⟨.inr (Option.some.inj hreply), ?_⟩
      unfold Reader.restartAfter
      split
      · simp [Reader.renew]
      · exact hheld

theorem store_admitted (hheld : (s.partitions.lookup partitionId).isSome = true) (answers : List Reader.Answer) :
    Admitted answers (s.store partitionId answers) := by
  induction answers generalizing s with
  | nil =>
    intro error herror
    obtain ⟨held, hlookup⟩ := Option.isSome_iff_exists.1 hheld
    unfold Reader.store Reader.flush Reader.progress at herror
    rw [hlookup] at herror
    dsimp only at herror
    split at herror
    · cases herror
    · cases herror
  | cons answer rest ih =>
    intro error herror
    unfold Reader.store at herror
    split at herror
    · rename_i failure s' hflush
      obtain ⟨hsource, hheld'⟩ := flush_error hheld hflush
      split at herror
      · rcases ih hheld' error herror with hpast | hreceipt | ⟨other, hother, hreply⟩
        · exact .inl hpast
        · exact .inr (.inl hreceipt)
        · exact .inr (.inr ⟨other, List.mem_cons_of_mem _ hother, hreply⟩)
      · cases herror
        rcases hsource with hreceipt | hreply
        · exact .inr (.inl hreceipt)
        · exact .inr (.inr ⟨answer, List.mem_cons_self, hreply⟩)
    · rename_i hstored
      exact (hstored error _ (Prod.ext herror rfl)).elim

theorem acknowledge_admitted (howner : s.owner = owner) (hknows : s.knows partitionId sequence = true)
    (complete : PartitionProgress → Bool × PartitionProgress) (answers : List Reader.Answer) :
    Admitted answers (s.acknowledge owner partitionId sequence complete answers) := by
  obtain ⟨held, hheld, -⟩ := (Option.any_eq_true _ _).1 hknows
  unfold Reader.acknowledge Reader.requireOwner Reader.requireSequence Reader.progress
  rw [if_pos howner, if_pos hknows, hheld]
  dsimp only
  split
  · refine store_admitted ?_ answers
    simp [Reader.replace]
  · intro error herror
    cases herror
    exact .inl rfl

/-- Completing through a page that no progress tracks changes nothing. -/
theorem handled_stale {delivery : RecordDelivery}
    (h : ¬(s.owner = delivery.owner ∧ s.knows delivery.partitionId delivery.sequence = true)) :
    s.handled delivery = s := by
  unfold Reader.handled
  split
  · rename_i howner
    split
    · rename_i held hheld
      have hunknown : ∀ page ∈ held.progress.pages, page.sequence ≠ delivery.sequence := by
        intro page hpage heq
        refine h ⟨howner, (Option.any_eq_true _ _).2 ⟨held, hheld, ?_⟩⟩
        rw [knows_iff, ← heq]
        exact .inl (List.mem_map_of_mem hpage)
      have hsame : (held.progress.completeThrough delivery.sequence delivery.offset).2 = held.progress := by
        have hnone : held.progress.pages.find? (·.sequence = delivery.sequence) = none := by simpa using hunknown
        simp only [completeThrough, hnone, Option.bind_none]
      rw [hsame]
      have hpartitions : s.partitions.insert delivery.partitionId held = s.partitions := by
        refine Finmap.ext_lookup fun other => ?_
        by_cases heq : other = delivery.partitionId
        · rw [heq, Finmap.lookup_insert, hheld]
        · rw [Finmap.lookup_insert_of_ne _ heq]
      unfold Reader.replace
      rw [hpartitions]
    · rfl
  · rfl

end

/-- At every moment of a run a page handed out is owned exactly when it was
recorded in the progress now held for its partition. If it was not, no
acknowledgment of it is admitted and none changes the reader. If it was, none
is refused as stale. -/
theorem owns_iff_current (request : FilteredPollRequest) (maxUnackedPages : Nat) (selectedPartitions : Finset Nat)
    (seed : Bool) (notHeld : Finset Nat) (pinnedSource : Option SourceIncarnation) (membership : List Nat)
    (calls : List Call) (t : Traced)
    (hrun : calls.foldl Traced.call
      ⟨.build request maxUnackedPages selectedPartitions seed notHeld pinnedSource membership, []⟩ = t) :
    ∀ handed ∈ t.handed, (t.reader.owns handed.page = true ↔ handed.Current t.reader) ∧
      (¬handed.Current t.reader → ∀ answers, Refused t.reader (t.reader.ackPage handed.page answers) ∧
        ∀ record ∈ handed.page.records, Refused t.reader (t.reader.ack record answers) ∧
          Refused t.reader (t.reader.ackThrough record answers) ∧
          Refused t.reader (t.reader.ackThroughDelivery record.delivery answers) ∧
          t.reader.handled record.delivery = t.reader) ∧
      (handed.Current t.reader → ∀ answers, Admitted answers (t.reader.ackPage handed.page answers) ∧
        ∀ record ∈ handed.page.records, Admitted answers (t.reader.ack record answers) ∧
          Admitted answers (t.reader.ackThrough record answers) ∧
          Admitted answers (t.reader.ackThroughDelivery record.delivery answers)) := by
  intro handed hhanded
  subst hrun
  have htracks := run_tracks (t := ⟨.build request maxUnackedPages selectedPartitions seed notHeld pinnedSource membership, []⟩)
    (build_tracks request maxUnackedPages selectedPartitions seed notHeld pinnedSource membership) calls
  have howns := htracks.owns_iff hhanded
  have hrecords := htracks.records handed hhanded
  refine ⟨howns, fun hstale answers => ?_, fun hcurrent answers => ?_⟩
  · rw [← howns, Reader.owns, Bool.and_eq_true, beq_iff_eq] at hstale
    refine ⟨acknowledge_refused hstale _ answers, fun record hrecord => ?_⟩
    obtain ⟨hpartition, hsequence, howner⟩ := hrecords record hrecord
    rw [← hpartition, ← hsequence, ← howner] at hstale
    exact ⟨acknowledge_refused hstale _ answers, acknowledge_refused hstale _ answers,
      acknowledge_refused hstale _ answers, handled_stale hstale⟩
  · rw [← howns, Reader.owns, Bool.and_eq_true, beq_iff_eq] at hcurrent
    refine ⟨acknowledge_admitted hcurrent.1 hcurrent.2 _ answers, fun record hrecord => ?_⟩
    obtain ⟨hpartition, hsequence, howner⟩ := hrecords record hrecord
    rw [← hpartition, ← hsequence, ← howner] at hcurrent
    exact ⟨acknowledge_admitted hcurrent.1 hcurrent.2 _ answers, acknowledge_admitted hcurrent.1 hcurrent.2 _ answers,
      acknowledge_admitted hcurrent.1 hcurrent.2 _ answers⟩

/-- A page is read, the store of its acknowledgment finds another source, and
the partition is read again. -/
def readAgain : List Call :=
  let input : Reader.ReadInput :=
    { seeding := .ok (), reply := some (.ok (.page (scannedPage 10 [3, 7]) (.ok ⟨0, 100, 30, 0, 0, [3, 7]⟩)))
      guarded := .passed, retryAt := 5, flushed := none }
  [.read 0 input 5,
    .ackThrough ⟨0, 7, 100, true, 1, 0⟩ [⟨.error (.filter .sourceChanged "the partition was recreated"), true⟩],
    .read 0 input 5]

theorem readAgain_owned : ∃ t, readAgain.foldl Traced.call
      ⟨.build ⟨0, .consumer "c", .revision 1 1, .first, none⟩ 1024 ∅ false ∅ none [0], []⟩ = t ∧
    t.handed.map (·.page.sequence) = [1, 2] ∧
    ∀ handed ∈ t.handed, handed.Current t.reader ↔ handed.page.sequence = 2 := by
  refine ⟨_, rfl, by decide +kernel, fun handed hhanded => ?_⟩
  rw [← (owns_iff_current _ _ _ _ _ _ _ _ _ rfl handed hhanded).1]
  revert handed
  decide +kernel

end LaserSdk.Filters

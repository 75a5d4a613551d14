import Mathlib.Data.Finset.Basic
import Mathlib.Data.List.MinMax
import LaserSdk.Lib.SortByKey
/-!
# Switches read in batches

A log of switches puts elements into a set and takes them out again. Only the
last switch of an element counts. So where a log is read in batches, each
sorted by a key for itself, the set is the one of the sorted log exactly when
the last batch with a switch of an element ends as the newest of its switches
does.
-/

namespace LaserSdk.Lib

variable {α κ ι : Type} [LinearOrder ι] {switch : α → Option (κ × Bool)} {key : α → ι}

def Turns (switch : α → Option (κ × Bool)) (k : κ) (a : α) : Prop := ∃ on, switch a = some (k, on)

/-- The newest switch of an element. -/
structure Newest (switch : α → Option (κ × Bool)) (key : α → ι) (k : κ) (l : List α) (a : α) (on : Bool) : Prop where
  mem : a ∈ l
  turns : switch a = some (k, on)
  newest : ∀ b ∈ l, Turns switch k b → key b ≤ key a

theorem exists_newest (key : α → ι) {k : κ} {l : List α} (h : ∃ a ∈ l, Turns switch k a) : ∃ a on, Newest switch key k l a on := by
  classical
  obtain ⟨a, ha, hturns⟩ := h
  have hmem : a ∈ l.filter (Turns switch k ·) := List.mem_filter.2 ⟨ha, decide_eq_true hturns⟩
  cases hmax : (l.filter (Turns switch k ·)).argmax key with
  | none =>
    rw [List.argmax_eq_none.1 hmax] at hmem
    cases hmem
  | some b =>
    obtain ⟨hb, hbturns⟩ := List.mem_filter.1 (List.argmax_mem hmax)
    obtain ⟨on, hswitch⟩ := of_decide_eq_true hbturns
    refine ⟨b, on, hb, hswitch, fun c hc hcturns => ?_⟩
    exact List.le_of_mem_argmax (List.mem_filter.2 ⟨hc, decide_eq_true hcturns⟩) hmax

/-- Of each element, the last batch with a switch of it ends as the newest
switch of all does. -/
def LastBatchAgrees (switch : α → Option (κ × Bool)) (key : α → ι) (all : List α) (batches : List (List α)) : Prop :=
  ∀ k earlier batch later, batches = earlier ++ batch :: later → (∀ l ∈ later, ∀ a ∈ l, ¬ Turns switch k a) →
    ∀ a on, Newest switch key k batch a on → ∀ b on', Newest switch key k all b on' → on = on'

theorem exists_last_batch {k : κ} {batches : List (List α)} (h : ∃ l ∈ batches, ∃ a ∈ l, Turns switch k a) :
    ∃ earlier batch later, batches = earlier ++ batch :: later ∧ (∃ a ∈ batch, Turns switch k a) ∧
      ∀ l ∈ later, ∀ a ∈ l, ¬ Turns switch k a := by
  induction batches with
  | nil =>
    obtain ⟨l, hl, -⟩ := h
    cases hl
  | cons batch rest ih =>
    by_cases hrest : ∃ l ∈ rest, ∃ a ∈ l, Turns switch k a
    · obtain ⟨earlier, found, later, rfl, hfound⟩ := ih hrest
      exact ⟨batch :: earlier, found, later, rfl, hfound⟩
    · obtain ⟨l, hl, hturns⟩ := h
      rcases List.mem_cons.1 hl with rfl | hl
      · exact ⟨[], l, rest, rfl, hturns, fun l hl a ha hturns => hrest ⟨l, hl, a, ha, hturns⟩⟩
      · exact absurd ⟨l, hl, hturns⟩ hrest

section

variable [DecidableEq κ]

def applySwitch (switch : α → Option (κ × Bool)) (s : Finset κ) (a : α) : Finset κ :=
  match switch a with
  | none => s
  | some (k, true) => insert k s
  | some (k, false) => s.erase k

theorem mem_applySwitch_turned {s : Finset κ} {a : α} {k : κ} {on : Bool} (h : switch a = some (k, on)) :
    k ∈ applySwitch switch s a ↔ on = true := by
  cases on <;> simp [applySwitch, h]

theorem mem_applySwitch_other {s : Finset κ} {a : α} {k : κ} (h : ¬ Turns switch k a) : k ∈ applySwitch switch s a ↔ k ∈ s := by
  unfold applySwitch
  split
  next => rfl
  next other hother =>
    have hne : k ≠ other := fun heq => h ⟨true, heq ▸ hother⟩
    simp [hne]
  next other hother =>
    have hne : k ≠ other := fun heq => h ⟨false, heq ▸ hother⟩
    simp [hne]

theorem mem_foldl_applySwitch_other {l : List α} {s : Finset κ} {k : κ} (h : ∀ a ∈ l, ¬ Turns switch k a) :
    k ∈ l.foldl (applySwitch switch) s ↔ k ∈ s := by
  induction l generalizing s with
  | nil => rfl
  | cons a rest ih =>
    rw [List.foldl_cons, ih fun b hb => h b (List.mem_cons_of_mem _ hb), mem_applySwitch_other (h a (List.mem_cons_self ..))]

/-- Switches that agree with the set change nothing. -/
theorem mem_foldl_applySwitch_agree {l : List α} {s : Finset κ} {k : κ} {on : Bool} (hs : k ∈ s ↔ on = true)
    (h : ∀ a ∈ l, ∀ on', switch a = some (k, on') → on' = on) : k ∈ l.foldl (applySwitch switch) s ↔ on = true := by
  induction l generalizing s with
  | nil => exact hs
  | cons a rest ih =>
    rw [List.foldl_cons]
    refine ih ?_ fun b hb => h b (List.mem_cons_of_mem _ hb)
    by_cases hturns : Turns switch k a
    · obtain ⟨on', hswitch⟩ := hturns
      rw [mem_applySwitch_turned hswitch, h a (List.mem_cons_self ..) on' hswitch]
    · rw [mem_applySwitch_other hturns, hs]

/-- In a sorted log the newest switch is the last. -/
theorem Newest.mem_foldl_iff {k : κ} {l : List α} {a : α} {on : Bool} (h : Newest switch key k l a on)
    (hkey : ∀ a ∈ l, ∀ b ∈ l, key a = key b → a = b) (hsorted : l.Pairwise fun a b => key a ≤ key b) (s : Finset κ) :
    k ∈ l.foldl (applySwitch switch) s ↔ on = true := by
  obtain ⟨before, after, rfl⟩ := List.append_of_mem h.mem
  obtain ⟨-, htail, -⟩ := List.pairwise_append.1 hsorted
  obtain ⟨hafter, -⟩ := List.pairwise_cons.1 htail
  rw [List.foldl_append, List.foldl_cons]
  refine mem_foldl_applySwitch_agree (mem_applySwitch_turned h.turns) fun b hb on' hswitch => ?_
  have hmem : b ∈ before ++ a :: after := List.mem_append_right _ (List.mem_cons_of_mem _ hb)
  have hsame : b = a := hkey b hmem a h.mem (le_antisymm (h.newest b hmem ⟨on', hswitch⟩) (hafter b hb))
  rw [hsame, h.turns] at hswitch
  cases hswitch
  rfl

/-- After sorted batches an element is in the set as the newest switch of the
last batch with one says. -/
theorem mem_foldl_batches {k : κ} {earlier later : List (List α)} {batch : List α} {a : α} {on : Bool}
    (hkey : ∀ a ∈ batch, ∀ b ∈ batch, key a = key b → a = b) (hsorted : batch.Pairwise fun a b => key a ≤ key b)
    (hlater : ∀ l ∈ later, ∀ a ∈ l, ¬ Turns switch k a) (h : Newest switch key k batch a on) (s : Finset κ) :
    k ∈ (earlier ++ batch :: later).flatten.foldl (applySwitch switch) s ↔ on = true := by
  rw [List.flatten_append, List.flatten_cons, List.foldl_append, List.foldl_append, mem_foldl_applySwitch_other,
    h.mem_foldl_iff hkey hsorted]
  intro b hb
  obtain ⟨l, hl, hbl⟩ := List.mem_flatten.1 hb
  exact hlater l hl b hbl

theorem foldl_batches_eq_iff {all : List α} {batches : List (List α)} (hperm : batches.flatten.Perm all)
    (hkey : ∀ a ∈ all, ∀ b ∈ all, key a = key b → a = b)
    (hsorted : ∀ batch ∈ batches, batch.Pairwise fun a b => key a ≤ key b) :
    batches.flatten.foldl (applySwitch switch) ∅ = (sortByKey key all).foldl (applySwitch switch) ∅ ↔
      LastBatchAgrees switch key all batches := by
  have hsub : ∀ batch ∈ batches, ∀ a ∈ batch, a ∈ all := by
    intro batch hbatch a ha
    exact hperm.mem_iff.1 (List.mem_flatten.2 ⟨batch, hbatch, ha⟩)
  have hread : ∀ {k earlier batch later a on}, batches = earlier ++ batch :: later →
      (∀ l ∈ later, ∀ a ∈ l, ¬ Turns switch k a) → Newest switch key k batch a on →
      (k ∈ batches.flatten.foldl (applySwitch switch) ∅ ↔ on = true) := by
    intro k earlier batch later a on hbatches hlater hnewest
    have hbatch : batch ∈ batches := by simp [hbatches]
    rw [hbatches]
    refine mem_foldl_batches (fun a ha b hb => ?_) (hsorted batch hbatch) hlater hnewest ∅
    exact hkey a (hsub batch hbatch a ha) b (hsub batch hbatch b hb)
  have hall : ∀ {k b on}, Newest switch key k all b on → (k ∈ (sortByKey key all).foldl (applySwitch switch) ∅ ↔ on = true) := by
    intro k b on hnewest
    have hnewest' : Newest switch key k (sortByKey key all) b on :=
      ⟨mem_sortByKey.2 hnewest.mem, hnewest.turns, fun c hc => hnewest.newest c (mem_sortByKey.1 hc)⟩
    refine hnewest'.mem_foldl_iff (fun a ha b hb => ?_) (sortByKey_pairwise all) ∅
    exact hkey a (mem_sortByKey.1 ha) b (mem_sortByKey.1 hb)
  constructor
  · intro heq k earlier batch later hbatches hlater a on ha b on' hb
    have hsame := hread hbatches hlater ha
    rw [heq, hall hb] at hsame
    exact Bool.eq_iff_iff.2 hsame.symm
  · intro hagrees
    ext k
    by_cases hturns : ∃ l ∈ batches, ∃ a ∈ l, Turns switch k a
    · obtain ⟨earlier, batch, later, hbatches, hbatch, hlater⟩ := exists_last_batch hturns
      obtain ⟨a, on, ha⟩ := exists_newest key hbatch
      obtain ⟨c, hc, hcturns⟩ := hbatch
      obtain ⟨b, on', hb⟩ := exists_newest key ⟨c, hsub batch (by simp [hbatches]) c hc, hcturns⟩
      rw [hread hbatches hlater ha, hall hb, hagrees k earlier batch later hbatches hlater a on ha b on' hb]
    · have hnone : ∀ a ∈ all, ¬ Turns switch k a := by
        intro a ha hturn
        obtain ⟨l, hl, hal⟩ := List.mem_flatten.1 (hperm.mem_iff.2 ha)
        exact hturns ⟨l, hl, a, hal, hturn⟩
      rw [mem_foldl_applySwitch_other fun a ha => hnone a (hperm.mem_iff.1 ha),
        mem_foldl_applySwitch_other fun a ha => hnone a (mem_sortByKey.1 ha)]

end

end LaserSdk.Lib

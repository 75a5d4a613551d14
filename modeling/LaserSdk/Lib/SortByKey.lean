import Mathlib.Data.List.Sort
/-!
# Sorting by a key

A list sorted by a key that tells its elements apart depends on the elements
alone. So a sorted list may be cut in two, each part sorted for itself,
exactly when nothing past the cut sorts before what lies below it.
-/

namespace LaserSdk.Lib

variable {α κ : Type} [LinearOrder κ] {key : α → κ}

def sortByKey (key : α → κ) (l : List α) : List α := l.insertionSort fun a b => key a ≤ key b

theorem sortByKey_perm (l : List α) : (sortByKey key l).Perm l := List.perm_insertionSort _ l

@[simp] theorem mem_sortByKey {l : List α} {a : α} : a ∈ sortByKey key l ↔ a ∈ l := (sortByKey_perm l).mem_iff

theorem sortByKey_pairwise (l : List α) : (sortByKey key l).Pairwise fun a b => key a ≤ key b := by
  have : Std.Total fun a b : α => key a ≤ key b := ⟨fun a b => le_total _ _⟩
  have : IsTrans α fun a b => key a ≤ key b := ⟨fun a b c => le_trans⟩
  exact List.pairwise_insertionSort _ l

/-- Sorted lists of the same elements are equal. -/
theorem eq_of_sorted {l r : List α} (hkey : ∀ a ∈ l, ∀ b ∈ l, key a = key b → a = b) (hl : l.Pairwise fun a b => key a ≤ key b)
    (hr : r.Pairwise fun a b => key a ≤ key b) (hperm : l.Perm r) : l = r := by
  refine hperm.eq_of_pairwise (fun a b ha hb hab hba => ?_) hl hr
  exact hkey a ha b (hperm.mem_iff.2 hb) (le_antisymm hab hba)

/-- The order the elements come in does not matter. -/
theorem sortByKey_congr {l r : List α} (hkey : ∀ a ∈ l, ∀ b ∈ l, key a = key b → a = b) (hperm : l.Perm r) :
    sortByKey key l = sortByKey key r := by
  refine eq_of_sorted ?_ (sortByKey_pairwise l) (sortByKey_pairwise r) ((sortByKey_perm l).trans (hperm.trans (sortByKey_perm r).symm))
  intro a ha b hb
  exact hkey a (mem_sortByKey.1 ha) b (mem_sortByKey.1 hb)

theorem sortByKey_append_iff {all below past : List α} (hkey : ∀ a ∈ all, ∀ b ∈ all, key a = key b → a = b)
    (hperm : all.Perm (below ++ past)) :
    sortByKey key below ++ sortByKey key past = sortByKey key all ↔ ∀ a ∈ below, ∀ b ∈ past, key a ≤ key b := by
  constructor
  · intro heq a ha b hb
    have hsorted := @sortByKey_pairwise _ _ _ key all
    rw [← heq, List.pairwise_append] at hsorted
    exact hsorted.2.2 a (mem_sortByKey.2 ha) b (mem_sortByKey.2 hb)
  · intro hcut
    have hparts : (sortByKey key below ++ sortByKey key past).Perm all :=
      ((sortByKey_perm below).append (sortByKey_perm past)).trans hperm.symm
    refine eq_of_sorted ?_ ?_ (sortByKey_pairwise all) (hparts.trans (sortByKey_perm all).symm)
    · intro a ha b hb
      exact hkey a (hparts.mem_iff.1 ha) b (hparts.mem_iff.1 hb)
    · refine List.pairwise_append.2 ⟨sortByKey_pairwise below, sortByKey_pairwise past, fun a ha b hb => ?_⟩
      exact hcut a (mem_sortByKey.1 ha) b (mem_sortByKey.1 hb)

end LaserSdk.Lib

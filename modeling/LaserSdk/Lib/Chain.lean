import Mathlib.Data.List.Basic
/-!
# Chains of digests

Items that each name the digest of the item before them. Where a digest
determines its item, a chain made of items of another one from the same start
is an initial part of it: the links leave no choice.
-/

namespace LaserSdk.Lib

variable {α D : Type} {link : α → Option D} {digest : α → D} {previous : Option D} {l l' : List α}

/-- Every item links to the digest before it, the first to `previous`. -/
def Chained (link : α → Option D) (digest : α → D) : Option D → List α → Prop
  | _, [] => True
  | previous, x :: xs => link x = previous ∧ Chained link digest (some (digest x)) xs

theorem Chained.link_mem (h : Chained link digest previous l) {x : α} (hx : x ∈ l) :
    link x = previous ∨ ∃ y ∈ l, link x = some (digest y) := by
  induction l generalizing previous with
  | nil => exact absurd hx List.not_mem_nil
  | cons y ys ih =>
    rcases List.mem_cons.1 hx with rfl | hx
    · exact .inl h.1
    · rcases ih h.2 hx with hfirst | ⟨z, hz, hlink⟩
      · exact .inr ⟨y, List.mem_cons_self, hfirst⟩
      · exact .inr ⟨z, List.mem_cons_of_mem _ hz, hlink⟩

theorem Chained.of_initial (h : Chained link digest previous l) (hinitial : l' <+: l) : Chained link digest previous l' := by
  induction l' generalizing previous l with
  | nil => exact trivial
  | cons x xs ih =>
    obtain ⟨rest, rfl⟩ := hinitial
    exact ⟨h.1, ih h.2 ⟨rest, rfl⟩⟩

/-- A chain through items of another one is an initial part of it. The start
must be the digest of none of them, or the items could run in a circle. -/
theorem Chained.initial_of_subset (h : Chained link digest previous l) (h' : Chained link digest previous l')
    (hsub : l' ⊆ l) (hinj : ∀ x ∈ l, ∀ y ∈ l, digest x = digest y → x = y)
    (hfresh : ∀ x ∈ l, previous ≠ some (digest x)) : l' <+: l := by
  induction l generalizing previous l' with
  | nil =>
    obtain rfl := List.eq_nil_of_subset_nil hsub
    exact List.nil_prefix
  | cons x xs ih =>
    -- An item whose link is the start has no item before it.
    have hfirst : ∀ y ∈ xs, link y ≠ previous := by
      intro y hy heq
      rcases h.2.link_mem hy with hlink | ⟨z, hz, hlink⟩
      · exact hfresh x List.mem_cons_self (heq.symm.trans hlink)
      · exact hfresh z (List.mem_cons_of_mem _ hz) (heq.symm.trans hlink)
    cases l' with
    | nil => exact List.nil_prefix
    | cons y ys =>
      rcases List.mem_cons.1 (hsub List.mem_cons_self) with rfl | hy
      · rw [List.cons_prefix_cons]
        refine ⟨rfl, ih h.2 h'.2 ?_ ?_ ?_⟩
        · intro z hz
          rcases List.mem_cons.1 (hsub (List.mem_cons_of_mem _ hz)) with rfl | hmem
          · -- The first item does not come again: its link is the start.
            rcases h'.2.link_mem hz with hlink | ⟨w, hw, hlink⟩
            · exact absurd (h'.1.symm.trans hlink) (hfresh z List.mem_cons_self)
            · exact absurd (h'.1.symm.trans hlink) (hfresh w (hsub (List.mem_cons_of_mem _ hw)))
          · exact hmem
        · intro z hz w hw
          exact hinj z (List.mem_cons_of_mem _ hz) w (List.mem_cons_of_mem _ hw)
        · intro z hz heq
          have := hinj y List.mem_cons_self z (List.mem_cons_of_mem _ hz) (Option.some.inj heq)
          exact hfirst z hz (this ▸ h.1)
      · exact absurd h'.1 (hfirst y hy)

end LaserSdk.Lib

import Mathlib.Data.List.Forall2
/-!
# Strong Kleene connectives

A connective over any number of values, one of which stands for unknown. One
value decides the connective whatever the others are, an unknown one is next,
and without either the result is the remaining value.
-/

namespace LaserSdk.Lib

variable {α : Type} {unknown decisive otherwise : α}

/-- The flat order: unknown is below everything. -/
def Below (unknown a b : α) : Prop := a = unknown ∨ a = b

theorem Below.eq_of_ne {a b : α} (h : Below unknown a b) (ha : a ≠ unknown) : a = b := h.resolve_left ha

theorem mem_of_below {l l' : List α} (h : List.Forall₂ (Below unknown) l l') {a : α} (ha : a ≠ unknown) (hl : a ∈ l) :
    a ∈ l' := by
  induction h with
  | nil => exact hl
  | cons hab _ ih =>
    rcases List.mem_cons.1 hl with rfl | hl
    · exact List.mem_cons.2 (.inl (hab.eq_of_ne ha))
    · exact List.mem_cons_of_mem _ (ih hl)

theorem eq_of_below {l l' : List α} (h : List.Forall₂ (Below unknown) l l') (hl : unknown ∉ l) : l = l' := by
  induction h with
  | nil => rfl
  | cons hab _ ih =>
    rw [List.mem_cons, not_or] at hl
    rw [hab.eq_of_ne (Ne.symm hl.1), ih hl.2]

variable [DecidableEq α]

def connective (unknown decisive otherwise : α) (values : List α) : α :=
  if decisive ∈ values then decisive else if unknown ∈ values then unknown else otherwise

/-- Only which values occur matters. -/
theorem connective_congr {l l' : List α} (h : ∀ a, a ∈ l ↔ a ∈ l') :
    connective unknown decisive otherwise l = connective unknown decisive otherwise l' := by
  simp only [connective, h]

/-- Values that are better known give a result that is. -/
theorem connective_mono (hd : decisive ≠ unknown) {l l' : List α} (h : List.Forall₂ (Below unknown) l l') :
    Below unknown (connective unknown decisive otherwise l) (connective unknown decisive otherwise l') := by
  unfold connective
  by_cases hdecisive : decisive ∈ l
  · right
    rw [if_pos hdecisive, if_pos (mem_of_below h hd hdecisive)]
  · rw [if_neg hdecisive]
    by_cases hunknown : unknown ∈ l
    · left
      rw [if_pos hunknown]
    · right
      rw [← eq_of_below h hunknown, if_neg hdecisive]

end LaserSdk.Lib

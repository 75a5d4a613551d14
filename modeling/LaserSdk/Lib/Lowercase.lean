import Mathlib.Data.List.Basic
import Mathlib.Tactic.Common
/-!
# Lowercasing in context

Full Unicode lowercasing maps a character to one or several others, whatever
stands around it, with one exception: a capital sigma becomes a final one at the
end of a word. So a piece of a text is lowercased as it is alone exactly when
each of its sigmas ends a word there as it does in the piece.
-/

namespace LaserSdk.Lib

/-- What lowercasing reads from the Unicode tables. -/
structure CaseTables where
  /-- The lowercase of every character but the capital sigma. -/
  lower : Char → List Char
  lower_ne_nil : ∀ c, lower c ≠ []
  cased : Char → Bool
  ignorable : Char → Bool

namespace CaseTables

variable (tables : CaseTables)

/-- Whether a cased character comes next, behind case-ignorable ones. -/
def casedNext : List Char → Bool
  | [] => false
  | c :: text => if tables.ignorable c then casedNext text else tables.cased c

/-- A capital sigma between these ends a word. -/
def finalSigma (before after : List Char) : Bool := tables.casedNext before.reverse && !tables.casedNext after

def lowerChar (before : List Char) (c : Char) (after : List Char) : List Char :=
  if c = 'Σ' then [if tables.finalSigma before after then 'ς' else 'σ'] else tables.lower c

/-- The lowercase of a text between two others. -/
def lowerIn (before : List Char) : (text after : List Char) → List Char
  | [], _ => []
  | c :: text, after => tables.lowerChar before c (text ++ after) ++ lowerIn (before ++ [c]) text after

def toLowercase (text : List Char) : List Char := tables.lowerIn [] text []

theorem lowerIn_append (before left right after : List Char) : tables.lowerIn before (left ++ right) after =
    tables.lowerIn before left (right ++ after) ++ tables.lowerIn (before ++ left) right after := by
  induction left generalizing before with
  | nil => simp [lowerIn]
  | cons c left ih => simp [lowerIn, ih]

/-- The lowercase of a text depends on its surroundings only through the sigmas
that end a word. -/
theorem lowerIn_congr {before before' text after after' : List Char} (h : ∀ left right, text = left ++ 'Σ' :: right →
    tables.finalSigma (before ++ left) (right ++ after) = tables.finalSigma (before' ++ left) (right ++ after')) :
    tables.lowerIn before text after = tables.lowerIn before' text after' := by
  induction text generalizing before before' with
  | nil => rfl
  | cons c text ih =>
    have hfirst : tables.lowerChar before c (text ++ after) = tables.lowerChar before' c (text ++ after') := by
      unfold lowerChar
      split
      · rename_i hsigma
        have hfinal := h [] text (by rw [hsigma]; rfl)
        rw [List.append_nil, List.append_nil] at hfinal
        rw [hfinal]
      · rfl
    have hrest : tables.lowerIn (before ++ [c]) text after = tables.lowerIn (before' ++ [c]) text after' := by
      refine ih fun left right hsplit => ?_
      simpa using h (c :: left) right (by rw [hsplit]; rfl)
    rw [lowerIn, lowerIn, hfirst, hrest]

theorem length_lowerChar (before before' after after' : List Char) (c : Char) :
    (tables.lowerChar before c after).length = (tables.lowerChar before' c after').length := by
  unfold lowerChar
  split <;> rfl

theorem length_lowerIn (before before' text after after' : List Char) :
    (tables.lowerIn before text after).length = (tables.lowerIn before' text after').length := by
  induction text generalizing before before' with
  | nil => rfl
  | cons c text ih =>
    rw [lowerIn, lowerIn, List.length_append, List.length_append, ih (before ++ [c]) (before' ++ [c]),
      tables.length_lowerChar before before' _ (text ++ after')]

/-! ## Pieces of a text -/

/-- Every sigma of a piece ends a word in its place exactly when it does in the
piece alone. -/
def SameSigmas (before text after : List Char) : Prop :=
  ∀ left right, text = left ++ 'Σ' :: right → tables.finalSigma (before ++ left) (right ++ after) = tables.finalSigma left right

/-- A piece is lowercased in its place as it is alone exactly when its sigmas
are. -/
theorem lowerIn_eq_iff {before text after : List Char} :
    tables.lowerIn before text after = tables.toLowercase text ↔ tables.SameSigmas before text after := by
  constructor
  · suffices h : ∀ before' after', tables.lowerIn before text after = tables.lowerIn before' text after' →
        ∀ left right, text = left ++ 'Σ' :: right →
          tables.finalSigma (before ++ left) (right ++ after) = tables.finalSigma (before' ++ left) (right ++ after') by
      intro heq left right hsplit
      simpa using h [] [] heq left right hsplit
    induction text generalizing before with
    | nil =>
      intro _ _ _ left right hsplit
      simp at hsplit
    | cons c text ih =>
      intro before' after' heq left right hsplit
      obtain ⟨hfirst, hrest⟩ := List.append_inj heq (tables.length_lowerChar _ _ _ _ _)
      cases left with
      | nil =>
        obtain ⟨rfl, rfl⟩ : c = 'Σ' ∧ text = right := by simpa using hsplit
        simp only [lowerChar, if_true, List.cons.injEq, and_true] at hfirst
        rw [List.append_nil, List.append_nil]
        cases hplace : tables.finalSigma before (text ++ after) <;>
          cases halone : tables.finalSigma before' (text ++ after') <;> simp [hplace, halone] at hfirst ⊢
      | cons d left =>
        obtain ⟨rfl, rfl⟩ : c = d ∧ text = left ++ 'Σ' :: right := by simpa using hsplit
        simpa using ih (before' ++ [c]) after' hrest left right rfl
  · intro h
    refine tables.lowerIn_congr fun left right hsplit => ?_
    simpa using h left right hsplit

/-- The lowercase of a whole text holds that of each piece in its place. -/
theorem toLowercase_append (before text after : List Char) : tables.toLowercase (before ++ text ++ after) =
    tables.lowerIn [] before (text ++ after) ++ tables.lowerIn before text after ++ tables.lowerIn (before ++ text) after [] := by
  rw [toLowercase, lowerIn_append, lowerIn_append]
  simp

theorem toLowercase_prefix_iff {text after : List Char} :
    tables.toLowercase text <+: tables.toLowercase (text ++ after) ↔ tables.SameSigmas [] text after := by
  have hwhole := tables.toLowercase_append [] text after
  rw [List.nil_append, lowerIn, List.nil_append] at hwhole
  rw [hwhole, ← lowerIn_eq_iff]
  constructor
  · rintro ⟨rest, hrest⟩
    exact (List.append_inj_left hrest (tables.length_lowerIn _ _ _ _ _)).symm
  · intro heq
    exact ⟨_, by rw [heq]⟩

theorem toLowercase_suffix_iff {before text : List Char} :
    tables.toLowercase text <:+ tables.toLowercase (before ++ text) ↔ tables.SameSigmas before text [] := by
  have hwhole := tables.toLowercase_append before text []
  rw [List.append_nil, lowerIn, List.append_nil] at hwhole
  rw [hwhole, ← lowerIn_eq_iff]
  constructor
  · rintro ⟨rest, hrest⟩
    exact (List.append_inj_right' hrest (tables.length_lowerIn _ _ _ _ _)).symm
  · intro heq
    exact ⟨_, by rw [heq]⟩

end CaseTables

end LaserSdk.Lib

import Mathlib.Data.List.Basic
/-!
# Cutting sequences at a separator

The string operations the code cuts names with, over lists of any type: a
Rust `str` is read as its list of characters, where prefixes, suffixes and
the first occurrence of a separator are the same as on its bytes. And the
characters no name may hold.
-/

namespace LaserSdk.Lib

/-- `char::is_control`, the general category Cc. -/
def isControl (c : Char) : Bool := decide (c.toNat < 0x20) || decide (0x7F ≤ c.toNat ∧ c.toNat ≤ 0x9F)

variable {α : Type} [DecidableEq α]

/-- The rest of `l` after the prefix `p` (`str::strip_prefix`). -/
def stripPrefix (p : List α) (l : List α) : Option (List α) := if p <+: l then some (l.drop p.length) else none

/-- `l` without a final `c` (`str::strip_suffix`). -/
def stripSuffix (c : α) (l : List α) : Option (List α) := if l.getLast? = some c then some l.dropLast else none

/-- The parts before and after the first `c` (`str::split_once`). -/
def splitOnce (c : α) : List α → Option (List α × List α)
  | [] => none
  | x :: xs => if x = c then some ([], xs) else (splitOnce c xs).map fun (a, b) => (x :: a, b)

theorem stripPrefix_eq_some {p l r : List α} : stripPrefix p l = some r ↔ l = p ++ r := by
  unfold stripPrefix
  split
  · rename_i h
    obtain ⟨t, rfl⟩ := h
    simp [eq_comm]
  · rename_i h
    simp only [reduceCtorEq, false_iff]
    rintro rfl
    exact h (List.prefix_append p r)

theorem stripSuffix_eq_some {c : α} {l r : List α} : stripSuffix c l = some r ↔ l = r ++ [c] := by
  unfold stripSuffix
  rcases List.eq_nil_or_concat l with rfl | ⟨xs, x, rfl⟩
  · simp
  · simp only [List.concat_eq_append, List.getLast?_append, List.getLast?_singleton, Option.some_or,
      Option.some.injEq, List.dropLast_concat, List.append_singleton_inj]
    split <;> simp_all

/-- The first part holds no separator. -/
theorem splitOnce_eq_some {c : α} {l a b : List α} : splitOnce c l = some (a, b) ↔ l = a ++ c :: b ∧ c ∉ a := by
  induction l generalizing a with
  | nil => simp [splitOnce]
  | cons x xs ih =>
    unfold splitOnce
    split
    · rename_i hx
      subst hx
      cases a with
      | nil => simp [eq_comm]
      | cons y ys => simp; intro h; simp [h]
    · rename_i hx
      cases a with
      | nil => simp [hx]
      | cons y ys =>
        simp only [Option.map_eq_some_iff, Prod.mk.injEq, List.cons.injEq, Prod.exists, List.cons_append,
          List.mem_cons, not_or]
        constructor
        · rintro ⟨a', b', h, ⟨rfl, rfl⟩, rfl⟩
          obtain ⟨h1, h2⟩ := ih.1 h
          exact ⟨⟨rfl, h1⟩, fun h => hx h.symm, h2⟩
        · rintro ⟨⟨rfl, h1⟩, -, h2⟩
          exact ⟨ys, b, ih.2 ⟨h1, h2⟩, ⟨rfl, rfl⟩, rfl⟩

/-- A sequence has one part before its first separator. -/
theorem split_unique {c : α} {a a' b b' : List α} (ha : c ∉ a) (ha' : c ∉ a') (h : a ++ c :: b = a' ++ c :: b') :
    a = a' := by
  have h1 : splitOnce c (a ++ c :: b) = some (a, b) := splitOnce_eq_some.2 ⟨rfl, ha⟩
  have h2 : splitOnce c (a ++ c :: b) = some (a', b') := splitOnce_eq_some.2 ⟨h, ha'⟩
  rw [h1] at h2
  simp only [Option.some.injEq, Prod.mk.injEq] at h2
  exact h2.1

end LaserSdk.Lib

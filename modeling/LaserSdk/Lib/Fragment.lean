import Mathlib.Logic.Relation
import Mathlib.Tactic.Common
/-!
# Fragments of a machine

A machine stands at a place of its program and at a position of its input. A
fragment runs from an entry to an exit, and what it does is a relation between
the positions there: every run that is accepted from the entry passes the exit
at a position the relation allows, and every such position will do. Fragments
compose like their relations.
-/

namespace LaserSdk.Lib

universe u v

variable {P : Type u} {X : Type v}

/-! ## Repeated relations -/

/-- The relation, followed as often as the number says. -/
def Iter (R : X → X → Prop) : Nat → X → X → Prop
  | 0 => Eq
  | n + 1 => Relation.Comp R (Iter R n)

/-- The relation, followed at most as often as the number says. -/
def UpTo (R : X → X → Prop) : Nat → X → X → Prop
  | 0 => Eq
  | n + 1 => fun x y => Relation.Comp R (UpTo R n) x y ∨ x = y

theorem iter_add {R : X → X → Prop} {m n : Nat} {x y z : X} (hxy : Iter R m x y) (hyz : Iter R n y z) :
    Iter R (m + n) x z := by
  induction m generalizing x with
  | zero =>
    cases hxy
    rwa [Nat.zero_add]
  | succ m ih =>
    obtain ⟨w, hxw, hwy⟩ := hxy
    rw [Nat.succ_add]
    exact ⟨w, hxw, ih hwy⟩

theorem iter_split {R : X → X → Prop} {m n : Nat} {x z : X} (h : Iter R (m + n) x z) :
    Relation.Comp (Iter R m) (Iter R n) x z := by
  induction m generalizing x with
  | zero => exact ⟨x, rfl, by rwa [Nat.zero_add] at h⟩
  | succ m ih =>
    rw [Nat.succ_add] at h
    obtain ⟨w, hxw, hwz⟩ := h
    obtain ⟨y, hwy, hyz⟩ := ih hwz
    exact ⟨y, ⟨w, hxw, hwy⟩, hyz⟩

theorem upTo_iff {R : X → X → Prop} {n : Nat} {x y : X} : UpTo R n x y ↔ ∃ k ≤ n, Iter R k x y := by
  induction n generalizing x with
  | zero =>
    constructor
    · intro h
      exact ⟨0, Nat.le_refl 0, h⟩
    · rintro ⟨k, hk, h⟩
      obtain rfl := Nat.le_zero.1 hk
      exact h
  | succ n ih =>
    constructor
    · rintro (⟨w, hxw, hwy⟩ | rfl)
      · obtain ⟨k, hk, h⟩ := ih.1 hwy
        exact ⟨k + 1, Nat.succ_le_succ hk, w, hxw, h⟩
      · exact ⟨0, Nat.zero_le _, rfl⟩
    · rintro ⟨k, hk, h⟩
      cases k with
      | zero => exact .inr h
      | succ k =>
        obtain ⟨w, hxw, hwy⟩ := h
        exact .inl ⟨w, hxw, ih.2 ⟨k, Nat.le_of_succ_le_succ hk, hwy⟩⟩

theorem reflTransGen_iff_iter {R : X → X → Prop} {x y : X} :
    Relation.ReflTransGen R x y ↔ ∃ k, Iter R k x y := by
  constructor
  · intro h
    induction h using Relation.ReflTransGen.head_induction_on with
    | refl => exact ⟨0, rfl⟩
    | head hxw _ ih =>
      obtain ⟨k, hk⟩ := ih
      exact ⟨k + 1, _, hxw, hk⟩
  · rintro ⟨k, hk⟩
    induction k generalizing x with
    | zero =>
      cases hk
      exact .refl
    | succ k ih =>
      obtain ⟨w, hxw, hwy⟩ := hk
      exact .head hxw (ih hwy)

/-- A relation that never moves is followed any number of times as once. -/
theorem iter_of_still {R : X → X → Prop} (hR : ∀ x y, R x y → x = y) {n : Nat} {x y : X} (h : Iter R (n + 1) x y) :
    R x y := by
  induction n generalizing x with
  | zero =>
    obtain ⟨w, hxw, rfl⟩ := h
    exact hxw
  | succ n ih =>
    obtain ⟨w, hxw, hwy⟩ := h
    obtain rfl := hR x w hxw
    exact ih hwy

theorem iter_still {R : X → X → Prop} {x : X} (h : R x x) (n : Nat) : Iter R n x x := by
  induction n with
  | zero => rfl
  | succ n ih => exact ⟨x, h, ih⟩

/-! ## Machines -/

/-- The steps of a machine and the places where it accepts. -/
structure Machine (P : Type u) (X : Type v) where
  step : P → X → P → X → Prop
  final : P → Prop

namespace Machine

/-- Accepted after so many steps. -/
inductive AcceptsIn (M : Machine P X) : Nat → P → X → Prop
  | final {p : P} {x : X} (h : M.final p) : AcceptsIn M 0 p x
  | step {n : Nat} {p q : P} {x y : X} (hstep : M.step p x q y) (h : AcceptsIn M n q y) : AcceptsIn M (n + 1) p x

def Accepts (M : Machine P X) (p : P) (x : X) : Prop := ∃ n, M.AcceptsIn n p x

/-- The fragment from the entry to the exit moves as the relation says. -/
structure Does (M : Machine P X) (entry exit : P) (R : X → X → Prop) : Prop where
  sound : ∀ n x, M.AcceptsIn n entry x → ∃ y, ∃ m ≤ n, R x y ∧ M.AcceptsIn m exit y
  complete : ∀ x y, R x y → M.Accepts exit y → M.Accepts entry x

variable {M : Machine P X} {entry middle exit : P} {R S : X → X → Prop}

theorem Accepts.step {p q : P} {x y : X} (hstep : M.step p x q y) (h : M.Accepts q y) : M.Accepts p x := by
  obtain ⟨n, hn⟩ := h
  exact ⟨n + 1, .step hstep hn⟩

theorem Does.accepts_iff (h : M.Does entry exit R) (x : X) :
    M.Accepts entry x ↔ ∃ y, R x y ∧ M.Accepts exit y := by
  constructor
  · rintro ⟨n, hn⟩
    obtain ⟨y, m, _, hR, hm⟩ := h.sound n x hn
    exact ⟨y, hR, m, hm⟩
  · rintro ⟨y, hR, hy⟩
    exact h.complete x y hR hy

theorem Does.congr (h : M.Does entry exit R) (hRS : ∀ x y, R x y ↔ S x y) : M.Does entry exit S := by
  have hEq : R = S := by
    funext x y
    exact propext (hRS x y)
  rwa [← hEq]

theorem Does.skip : M.Does entry entry Eq where
  sound n x h := ⟨x, n, Nat.le_refl n, rfl, h⟩
  complete x y hxy h := by rwa [hxy]

theorem Does.comp (hR : M.Does entry middle R) (hS : M.Does middle exit S) :
    M.Does entry exit (Relation.Comp R S) where
  sound n x h := by
    obtain ⟨y, m, hm, hxy, hy⟩ := hR.sound n x h
    obtain ⟨z, k, hk, hyz, hz⟩ := hS.sound m y hy
    exact ⟨z, k, Nat.le_trans hk hm, ⟨y, hxy, hyz⟩, hz⟩
  complete x z h hz := by
    obtain ⟨y, hxy, hyz⟩ := h
    exact hR.complete x y hxy (hS.complete y z hyz hz)

/-- A place whose steps all lead to one place does what its steps do. -/
theorem Does.single (hfinal : ¬ M.final entry)
    (hstep : ∀ x q y, M.step entry x q y ↔ q = exit ∧ R x y) : M.Does entry exit R where
  sound n x h := by
    cases h with
    | final h => exact absurd h hfinal
    | step hs h =>
      obtain ⟨rfl, hR⟩ := (hstep _ _ _).1 hs
      exact ⟨_, _, Nat.le_succ _, hR, h⟩
  complete x y hR h := .step ((hstep x exit y).2 ⟨rfl, hR⟩) h

/-- A place that branches without a move. -/
def Branches (M : Machine P X) (p left right : P) : Prop :=
  ¬ M.final p ∧ ∀ x q y, M.step p x q y ↔ (q = left ∨ q = right) ∧ x = y

theorem Does.branch {p left right : P} (hp : M.Branches p left right) (hR : M.Does left exit R)
    (hS : M.Does right exit S) : M.Does p exit fun x y => R x y ∨ S x y where
  sound n x h := by
    cases h with
    | final h => exact absurd h hp.1
    | step hs h =>
      rcases (hp.2 _ _ _).1 hs with ⟨rfl | rfl, rfl⟩
      · obtain ⟨y, m, hm, hxy, hy⟩ := hR.sound _ _ h
        exact ⟨y, m, Nat.le_succ_of_le hm, .inl hxy, hy⟩
      · obtain ⟨y, m, hm, hxy, hy⟩ := hS.sound _ _ h
        exact ⟨y, m, Nat.le_succ_of_le hm, .inr hxy, hy⟩
  complete x y hxy h := by
    rcases hxy with hxy | hxy
    · exact .step ((hp.2 x left x).2 ⟨.inl rfl, rfl⟩) (hR.complete x y hxy h)
    · exact .step ((hp.2 x right x).2 ⟨.inr rfl, rfl⟩) (hS.complete x y hxy h)

/-- A body that leads back to the branch before it is followed any number of
times. The run gets shorter with each time, so that a body that does not move
does no harm. -/
theorem Does.loop {p body : P} (hp : M.Branches p body exit) (hR : M.Does body p R) :
    M.Does p exit (Relation.ReflTransGen R) where
  sound n := by
    induction n using Nat.strongRecOn with
    | ind n ih =>
      intro x h
      cases h with
      | final h => exact absurd h hp.1
      | @step n _ _ _ _ hs h =>
        rcases (hp.2 _ _ _).1 hs with ⟨rfl | rfl, rfl⟩
        · obtain ⟨y, m, hm, hxy, hy⟩ := hR.sound _ _ h
          obtain ⟨z, k, hk, hyz, hz⟩ := ih m (Nat.lt_succ_of_le hm) y hy
          exact ⟨z, k, by omega, .head hxy hyz, hz⟩
        · exact ⟨x, n, Nat.le_succ n, .refl, h⟩
  complete x y hxy h := by
    induction hxy using Relation.ReflTransGen.head_induction_on with
    | refl => exact .step ((hp.2 y exit y).2 ⟨.inr rfl, rfl⟩) h
    | head hxw _ ih => exact .step ((hp.2 _ body _).2 ⟨.inl rfl, rfl⟩) (hR.complete _ _ hxw ih)

end Machine

end LaserSdk.Lib

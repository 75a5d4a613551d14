import LaserSdk.Lib.Fragment
import LaserSdk.Lib.Utf16
/-!
# Patterns of the TypeScript client

The TypeScript client ports the syntax of the regular expressions of Rust. We
give the trees of its parser with the measures that bound them, and what a tree
means: the spans of a text it matches, with every assertion read at the place
where it stands.
-/

namespace LaserSdk.Typescript.Regex

open LaserSdk.Lib

/-- What the code takes from the runtime. -/
structure RegexHost where
  /-- The test of the expression made of a class source, by code point, or
  nothing where the runtime refuses it. -/
  regExp : (source : JsString) → (caseInsensitive : Bool) → Option (Nat → Bool)
  /-- `WORD.test`. -/
  word : Nat → Bool
  /-- `WHITE_SPACE.test`. -/
  whiteSpace : Nat → Bool

/-- `finish` is the source's `end`. -/
inductive Look where
  | start
  | finish
  | word
  | notWord
  | wordStart
  | wordEnd
  | wordStartHalf
  | wordEndHalf
  deriving DecidableEq, Repr

/-- A literal is given by its code point. -/
structure Atom where
  source : JsString
  cost : Nat
  depth : Nat
  literal : Option Nat
  deriving DecidableEq, Repr

inductive Node where
  | empty
  | atom (atom : Atom)
  | look (look : Look)
  | concat (items : List Node)
  | alt (items : List Node)
  | group (child : Node)
  | repeat (min : Nat) (max : Option Nat) (child : Node)
  deriving Repr

/-! ## Measures -/

mutual

def zeroWidth : Node → Bool
  | .empty => true
  | .look _ => true
  | .atom _ => false
  | .concat items => zeroWidthAll items
  | .alt items => zeroWidthAll items
  | .group child => zeroWidth child
  | .repeat _ max child => max == some 0 || zeroWidth child

/-- `items.every(zeroWidth)`. -/
def zeroWidthAll : List Node → Bool
  | [] => true
  | item :: items => zeroWidth item && zeroWidthAll items

end

mutual

def depth : Node → Nat
  | .empty => 0
  | .look _ => 0
  | .atom atom => atom.depth
  | .concat items => 1 + depthMax items
  | .alt items => 1 + depthMax items
  | .group child => 1 + depth child
  | .repeat _ _ child => 1 + depth child

/-- `Math.max(0, ...items.map(depth))`. -/
def depthMax : List Node → Nat
  | [] => 0
  | item :: items => Nat.max (depth item) (depthMax items)

end

def repeatCost : Nat := 40

mutual

def cost : Node → Nat
  | .empty => 0
  | .look _ => 0
  | .atom atom => atom.cost
  | .concat items => costSum items
  | .alt items => costMax items
  | .group child => cost child
  | .repeat min max child =>
    if cost child = 0 ∨ max = some 0 then 0
    else
      match max with
      | none => if min > 0 then min * cost child else cost child + repeatCost
      | some max => min * cost child + (max - min) * (cost child + repeatCost)

def costSum : List Node → Nat
  | [] => 0
  | item :: items => cost item + costSum items

/-- Rust merges and factors alternatives, so only the largest is certain. -/
def costMax : List Node → Nat
  | [] => 0
  | item :: items => Nat.max (cost item) (costMax items)

end

/-! ## Trees of the parser -/

mutual

/-- Every choice has an alternative and every count a range. -/
def WellFormed : Node → Prop
  | .empty => True
  | .atom _ => True
  | .look _ => True
  | .concat items => WellFormedAll items
  | .alt items => items ≠ [] ∧ WellFormedAll items
  | .group child => WellFormed child
  | .repeat min max child => (∀ most, max = some most → min ≤ most) ∧ WellFormed child

def WellFormedAll : List Node → Prop
  | [] => True
  | item :: items => WellFormed item ∧ WellFormedAll items

end

/-! ## Meaning -/

section Meaning

variable (host : RegexHost) (caseInsensitive : Bool) (text : List Nat)

def isWord : Option Nat → Bool
  | none => false
  | some point => host.word point

def holds (look : Look) (i : Nat) : Bool :=
  let before := i > 0 && isWord host text[i - 1]?
  let after := i < text.length && isWord host text[i]?
  match look with
  | .start => i == 0
  | .finish => i == text.length
  | .word => before != after
  | .notWord => before == after
  | .wordStart => !before && after
  | .wordEnd => before && !after
  | .wordStartHalf => !before
  | .wordEndHalf => !after

/-- The characters an atom stands for. A literal is compared, a class is asked
of the runtime. -/
def Atom.holdsOf (atom : Atom) (point : Nat) : Prop :=
  match atom.literal with
  | some literal => point = literal
  | none => ∃ test, host.regExp atom.source caseInsensitive = some test ∧ test point = true

mutual

/-- The node matches the span of the text from one place to the other. -/
def Spans : Node → Nat → Nat → Prop
  | .empty => Eq
  | .atom atom => fun i j => j = i + 1 ∧ ∃ point, text[i]? = some point ∧ atom.holdsOf host caseInsensitive point
  | .look look => fun i j => holds host text look i = true ∧ i = j
  | .concat items => SpansAll items
  | .alt items => SpansAny items
  | .group child => Spans child
  | .repeat min max child => fun i j =>
    ∃ times, min ≤ times ∧ (∀ most, max = some most → times ≤ most) ∧ Iter (Spans child) times i j

/-- One item behind the other. -/
def SpansAll : List Node → Nat → Nat → Prop
  | [] => Eq
  | item :: items => Relation.Comp (Spans item) (SpansAll items)

/-- One of the items. -/
def SpansAny : List Node → Nat → Nat → Prop
  | [] => fun _ _ => False
  | item :: items => fun i j => Spans item i j ∨ SpansAny items i j

end

/-- The node matches somewhere in the text. -/
def IsMatch (node : Node) : Prop := ∃ i j, i ≤ j ∧ j ≤ text.length ∧ Spans host caseInsensitive text node i j

end Meaning

/-! ## Spans -/

variable {host : RegexHost} {caseInsensitive : Bool} {text : List Nat}

mutual

/-- A node without width stays where it is. -/
theorem spans_still : ∀ (node : Node), zeroWidth node = true →
    ∀ i j, Spans host caseInsensitive text node i j → i = j
  | .empty, _, i, j, h => h
  | .atom atom, hzero, _, _, _ => by cases hzero
  | .look look, _, i, j, h => h.2
  | .concat items, hzero, i, j, h => spansAll_still items hzero i j h
  | .alt items, hzero, i, j, h => spansAny_still items hzero i j h
  | .group child, hzero, i, j, h => spans_still child hzero i j h
  | .repeat min max child, hzero, i, j, h => by
    obtain ⟨times, _, hmax, hiter⟩ := h
    simp only [zeroWidth, Bool.or_eq_true, beq_iff_eq] at hzero
    cases times with
    | zero => exact hiter
    | succ times =>
      rcases hzero with hzero | hzero
      · exact absurd (hmax 0 hzero) (Nat.not_succ_le_zero times)
      · have hchild := spans_still child hzero
        exact hchild i j (iter_of_still hchild hiter)

theorem spansAll_still : ∀ (items : List Node), zeroWidthAll items = true →
    ∀ i j, SpansAll host caseInsensitive text items i j → i = j
  | [], _, i, j, h => h
  | item :: items, hzero, i, j, h => by
    simp only [zeroWidthAll, Bool.and_eq_true] at hzero
    obtain ⟨k, hitem, hitems⟩ := h
    have hfirst := spans_still item hzero.1 i k hitem
    exact hfirst.trans (spansAll_still items hzero.2 k j hitems)

theorem spansAny_still : ∀ (items : List Node), zeroWidthAll items = true →
    ∀ i j, SpansAny host caseInsensitive text items i j → i = j
  | [], _, i, j, h => h.elim
  | item :: items, hzero, i, j, h => by
    simp only [zeroWidthAll, Bool.and_eq_true] at hzero
    rcases h with hitem | hitems
    · exact spans_still item hzero.1 i j hitem
    · exact spansAny_still items hzero.2 i j hitems

end

/-- From one place in the text to a later one, or the same. -/
def Forward (text : List Nat) (R : Nat → Nat → Prop) : Prop :=
  ∀ i j, R i j → i ≤ j ∧ (i ≤ text.length → j ≤ text.length)

theorem forward_eq : Forward text Eq := by
  rintro i j rfl
  exact ⟨Nat.le_refl i, id⟩

theorem Forward.comp {R S : Nat → Nat → Prop} (hR : Forward text R) (hS : Forward text S) :
    Forward text (Relation.Comp R S) := by
  rintro i j ⟨k, hik, hkj⟩
  have h1 := hR i k hik
  have h2 := hS k j hkj
  exact ⟨Nat.le_trans h1.1 h2.1, fun hi => h2.2 (h1.2 hi)⟩

theorem Forward.iter {R : Nat → Nat → Prop} (hR : Forward text R) (n : Nat) : Forward text (Iter R n) := by
  induction n with
  | zero => exact forward_eq
  | succ n ih => exact hR.comp ih

mutual

theorem spans_forward : ∀ node : Node, Forward text (Spans host caseInsensitive text node)
  | .empty => forward_eq
  | .atom atom => by
    rintro i j ⟨rfl, point, hpoint, _⟩
    have hlt := (List.getElem?_eq_some_iff.1 hpoint).1
    exact ⟨Nat.le_succ i, fun _ => hlt⟩
  | .look look => fun i j h => forward_eq i j h.2
  | .concat items => spansAll_forward items
  | .alt items => spansAny_forward items
  | .group child => spans_forward child
  | .repeat min max child => by
    rintro i j ⟨times, _, _, hiter⟩
    exact (spans_forward child).iter times i j hiter

theorem spansAll_forward : ∀ items : List Node, Forward text (SpansAll host caseInsensitive text items)
  | [] => forward_eq
  | item :: items => (spans_forward item).comp (spansAll_forward items)

theorem spansAny_forward : ∀ items : List Node, Forward text (SpansAny host caseInsensitive text items)
  | [] => fun _ _ h => h.elim
  | item :: items => by
    rintro i j (hitem | hitems)
    · exact spans_forward item i j hitem
    · exact spansAny_forward items i j hitems

end

/-- A repeat of a child without width is one test of the child, or none where
none is asked for. -/
theorem spans_repeat_still {min : Nat} {max : Option Nat} {child : Node} (hzero : zeroWidth child = true)
    (hmin : 0 < min) (hrange : ∀ most, max = some most → min ≤ most) (i j : Nat) :
    Spans host caseInsensitive text (.repeat min max child) i j ↔ Spans host caseInsensitive text child i j := by
  have hstill : ∀ i j, Spans host caseInsensitive text child i j → i = j := spans_still child hzero
  constructor
  · rintro ⟨times, htimes, _, hiter⟩
    obtain ⟨less, rfl⟩ := Nat.exists_eq_succ_of_ne_zero (Nat.ne_of_gt (Nat.lt_of_lt_of_le hmin htimes))
    exact iter_of_still hstill hiter
  · intro h
    obtain rfl := hstill i j h
    exact ⟨min, Nat.le_refl min, hrange, iter_still h min⟩

theorem spans_repeat_none_still {max : Option Nat} {child : Node} (hzero : zeroWidth child = true) (i j : Nat) :
    Spans host caseInsensitive text (.repeat 0 max child) i j ↔ i = j := by
  have hstill : ∀ i j, Spans host caseInsensitive text child i j → i = j := spans_still child hzero
  constructor
  · rintro ⟨times, _, _, hiter⟩
    cases times with
    | zero => exact hiter
    | succ times => exact hstill i j (iter_of_still hstill hiter)
  · rintro rfl
    exact ⟨0, Nat.le_refl 0, fun most _ => Nat.zero_le most, rfl⟩

theorem spans_repeat_none {min : Nat} {child : Node} (hrange : min ≤ 0) (i j : Nat) :
    Spans host caseInsensitive text (.repeat min (some 0) child) i j ↔ i = j := by
  constructor
  · rintro ⟨times, _, hmax, hiter⟩
    obtain rfl := Nat.le_zero.1 (hmax 0 rfl)
    exact hiter
  · rintro rfl
    exact ⟨0, hrange, fun most _ => Nat.zero_le most, rfl⟩

/-- Without a bound, the counted copies are followed by any number of them. -/
theorem spans_repeat_unbounded {min : Nat} {child : Node} (i j : Nat) :
    Spans host caseInsensitive text (.repeat min none child) i j ↔
      Relation.Comp (Iter (Spans host caseInsensitive text child) min)
        (Relation.ReflTransGen (Spans host caseInsensitive text child)) i j := by
  constructor
  · rintro ⟨times, hmin, _, hiter⟩
    obtain ⟨more, rfl⟩ := Nat.exists_eq_add_of_le hmin
    obtain ⟨k, hik, hkj⟩ := iter_split hiter
    exact ⟨k, hik, reflTransGen_iff_iter.2 ⟨more, hkj⟩⟩
  · rintro ⟨k, hik, hkj⟩
    obtain ⟨more, hmore⟩ := reflTransGen_iff_iter.1 hkj
    refine ⟨min + more, Nat.le_add_right min more, ?_, iter_add hik hmore⟩
    intro most hmost
    cases hmost

/-- With a bound, they are followed by as many as it leaves. -/
theorem spans_repeat_bounded {min max : Nat} {child : Node} (hrange : min ≤ max) (i j : Nat) :
    Spans host caseInsensitive text (.repeat min (some max) child) i j ↔
      Relation.Comp (Iter (Spans host caseInsensitive text child) min)
        (UpTo (Spans host caseInsensitive text child) (max - min)) i j := by
  constructor
  · rintro ⟨times, hmin, hmax, hiter⟩
    have hle := hmax max rfl
    obtain ⟨more, rfl⟩ := Nat.exists_eq_add_of_le hmin
    obtain ⟨k, hik, hkj⟩ := iter_split hiter
    exact ⟨k, hik, upTo_iff.2 ⟨more, by omega, hkj⟩⟩
  · rintro ⟨k, hik, hkj⟩
    obtain ⟨more, hle, hmore⟩ := upTo_iff.1 hkj
    refine ⟨min + more, Nat.le_add_right min more, ?_, iter_add hik hmore⟩
    rintro most ⟨⟩
    omega

end LaserSdk.Typescript.Regex

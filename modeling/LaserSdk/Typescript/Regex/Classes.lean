import LaserSdk.Typescript.Path
/-!
# Character classes

A class is kept in the shape in which it is written. Where it lists plain
ranges only, its cost is read off the ranges: set operations are carried out on
them, by trying the edges of the ranges, and neighbours are merged.
-/

namespace LaserSdk.Typescript.Regex

open LaserSdk.Lib

abbrev Range := Nat × Nat

inductive SetOp where
  | intersection
  | difference
  | symmetricDifference
  deriving DecidableEq, Repr

mutual

inductive ClassItem where
  | empty
  | literal (value : Nat)
  | range (first last : Nat)
  | primitive (source : JsString) (ascii : Option (List Range))
  | bracketed (negated : Bool) (set : ClassSet)
  | union (items : List ClassItem)

inductive ClassSet where
  | item (item : ClassItem)
  | op (op : SetOp) (lhs rhs : ClassSet)

end

def SetOp.text : SetOp → JsString
  | .intersection => jsText "&&"
  | .difference => jsText "--"
  | .symmetricDifference => jsText "~~"

/-! ## Depth -/

mutual

def classDepth : ClassSet → Nat
  | .op _ lhs rhs => 1 + Nat.max (classDepth lhs) (classDepth rhs)
  | .item item => itemDepth item

def itemDepth : ClassItem → Nat
  | .bracketed _ set => 1 + classDepth set
  | .union items => 1 + itemDepthMax items
  | .empty => 0
  | .literal _ => 0
  | .range _ _ => 0
  | .primitive _ _ => 0

def itemDepthMax : List ClassItem → Nat
  | [] => 0
  | item :: items => Nat.max (itemDepth item) (itemDepthMax items)

end

/-! ## Sources -/

/-- Lower case, as `toString(16)`. -/
def hex (point : Nat) : JsString := jsText "\\u\x7b" ++ utf16 (Nat.toDigits 16 point) ++ jsText "\x7d"

def rangesSource (ranges : List Range) : JsString :=
  ranges.flatMap fun (first, last) => if first = last then hex first else hex first ++ jsText "-" ++ hex last

mutual

def setSource : ClassSet → JsString
  | .item item => itemSource item
  | .op op lhs rhs =>
    let lhs := jsText "[" ++ setSource lhs ++ jsText "]"
    let rhs := jsText "[" ++ setSource rhs ++ jsText "]"
    if op = .symmetricDifference then
      jsText "[" ++ lhs ++ jsText "--" ++ rhs ++ jsText "][" ++ rhs ++ jsText "--" ++ lhs ++ jsText "]"
    else lhs ++ op.text ++ rhs

def itemSource : ClassItem → JsString
  | .empty => jsText "[]"
  | .literal value => hex value
  | .range first last => hex first ++ jsText "-" ++ hex last
  | .primitive source _ => source
  | .bracketed negated set => jsText (if negated then "[^" else "[") ++ setSource set ++ jsText "]"
  | .union items => itemSources items

def itemSources : List ClassItem → JsString
  | [] => []
  | item :: items => itemSource item ++ itemSources items

end

/-! ## Ranges -/

/-- The test of the source: `some(([from, to]) => point >= from && point <= to)`. -/
def inRanges (ranges : List Range) (point : Nat) : Bool := ranges.any fun (first, last) => point ≥ first && point ≤ last

def SetOp.keep (op : SetOp) (inLhs inRhs : Bool) : Bool :=
  match op with
  | .intersection => inLhs && inRhs
  | .difference => inLhs && !inRhs
  | .symmetricDifference => inLhs != inRhs

/-- Where the membership can change, in order and once each. -/
def edges (ranges : List Range) : List Nat :=
  ((ranges.flatMap fun (first, last) => [first, last + 1]).eraseDups).mergeSort (· ≤ ·)

/-- The loop over the edges: each span is kept when its first point is. -/
def keptSpans (keep : Nat → Bool) : List Nat → List Range
  | [] => []
  | edge :: rest =>
    let last := (rest.head?.getD (edge + 1)) - 1
    if keep edge then (edge, last) :: keptSpans keep rest else keptSpans keep rest

mutual

/-- Nothing where the class holds a negation or a class of the runtime. -/
def plainRanges : ClassSet → Option (List Range)
  | .op op lhs rhs =>
    match plainRanges lhs, plainRanges rhs with
    | some lhs, some rhs => some (keptSpans (fun point => op.keep (inRanges lhs point) (inRanges rhs point)) (edges (lhs ++ rhs)))
    | _, _ => none
  | .item item => collect item

def collect : ClassItem → Option (List Range)
  | .empty => some []
  | .literal value => some [(value, value)]
  | .range first last => some [(first, last)]
  | .primitive _ ascii => ascii
  | .bracketed negated set => if negated then none else plainRanges set
  | .union items => collectAll items

def collectAll : List ClassItem → Option (List Range)
  | [] => some []
  | item :: items =>
    match collect item with
    | none => none
    | some found =>
      match collectAll items with
      | none => none
      | some ranges => some (found ++ ranges)

end

/-- One round of the loop of `mergeRanges`, with the last merged range in
front. -/
def mergeRange (merged : List Range) (range : Range) : List Range :=
  match merged with
  | [] => [range]
  | last :: before =>
    if range.1 ≤ last.2 + 1 then (last.1, Nat.max last.2 range.2) :: before else range :: last :: before

def mergeRanges (ranges : List Range) : List Range :=
  ((ranges.mergeSort fun left right => left.1 ≤ right.1).foldl mergeRange []).reverse

def asciiCaseVariants (ranges : List Range) : List Range :=
  ranges ++ ranges.flatMap fun (first, last) =>
    (List.range' (Nat.max first 0x41) (Nat.min last 0x7a + 1 - Nat.max first 0x41)).flatMap fun point =>
      if point ≤ 0x5a then [(point + 0x20, point + 0x20)]
      else if point ≥ 0x61 then [(point - 0x20, point - 0x20)]
      else []

/-! ## Costs -/

def literalByteCost : Nat := 32

def classCost : Nat := 64

def classRangeCost : Nat := 8

def utf8Length (point : Nat) : Nat := if point < 0x80 then 1 else if point < 0x800 then 2 else if point < 0x10000 then 3 else 4

def rangesCost (ranges : List Range) : Nat :=
  match mergeRanges ranges with
  | [] => 0
  | first :: rest =>
    if rest = [] ∧ first.1 = first.2 then literalByteCost * utf8Length first.1
    else if (first :: rest).any (·.2 ≥ 0x80) then classCost
    else classCost + classRangeCost * (first :: rest).length

def literalCost (point : Nat) (caseInsensitive : Bool) : Nat :=
  if caseInsensitive then rangesCost (asciiCaseVariants [(point, point)]) else literalByteCost * utf8Length point

end LaserSdk.Typescript.Regex

import Mathlib.Data.List.Basic
import Mathlib.Tactic.Common
/-!
# Regular expressions and their text

The expressions that need no alternatives, counts or classes: literals, any
character, sequences, repetition, groups and the anchors of the whole text. We
give the text of such an expression its meaning by parsing it. A search finds
an expression anywhere in a text, so only the anchors make it match all of it.
-/

namespace LaserSdk.Lib.RegexText

inductive Expr where
  | empty
  | char (c : Char)
  /-- Any character, a line break only in the mode where the dot matches it. -/
  | any
  /-- The start of the text. -/
  | start
  /-- The end of the text. -/
  | stop
  | seq (left right : Expr)
  | star (inner : Expr)
  deriving DecidableEq, Repr

def sequence : List Expr → Expr
  | [] => .empty
  | item :: rest => .seq item (sequence rest)

/-! ## Meaning -/

/-- An expression matches `span` where this stands between `before` and
`after`. -/
inductive Spans (newLine : Bool) : Expr → (before span after : List Char) → Prop
  | empty {before after : List Char} : Spans newLine .empty before [] after
  | char {c : Char} {before after : List Char} : Spans newLine (.char c) before [c] after
  | any {c : Char} {before after : List Char} (h : newLine = true ∨ c ≠ '\n') : Spans newLine .any before [c] after
  | start {after : List Char} : Spans newLine .start [] [] after
  | stop {before : List Char} : Spans newLine .stop before [] []
  | seq {left right : Expr} {before span more after : List Char} (hleft : Spans newLine left before span (more ++ after))
      (hright : Spans newLine right (before ++ span) more after) : Spans newLine (.seq left right) before (span ++ more) after
  | none {inner : Expr} {before after : List Char} : Spans newLine (.star inner) before [] after
  | more {inner : Expr} {before span more after : List Char} (hfirst : Spans newLine inner before span (more ++ after))
      (hrest : Spans newLine (.star inner) (before ++ span) more after) :
      Spans newLine (.star inner) before (span ++ more) after

/-- The expression matches somewhere in the text. -/
def IsMatch (newLine : Bool) (e : Expr) (text : List Char) : Prop :=
  ∃ before span after, text = before ++ span ++ after ∧ Spans newLine e before span after

@[simp] theorem spans_empty {newLine : Bool} {before span after : List Char} :
    Spans newLine .empty before span after ↔ span = [] := by
  constructor
  · rintro ⟨⟩
    rfl
  · rintro rfl
    exact .empty

@[simp] theorem spans_char {newLine : Bool} {c : Char} {before span after : List Char} :
    Spans newLine (.char c) before span after ↔ span = [c] := by
  constructor
  · rintro ⟨⟩
    rfl
  · rintro rfl
    exact .char

@[simp] theorem spans_any {before span after : List Char} :
    Spans true .any before span after ↔ ∃ c, span = [c] := by
  constructor
  · rintro ⟨⟩
    exact ⟨_, rfl⟩
  · rintro ⟨c, rfl⟩
    exact .any (.inl rfl)

@[simp] theorem spans_start {newLine : Bool} {before span after : List Char} :
    Spans newLine .start before span after ↔ before = [] ∧ span = [] := by
  constructor
  · rintro ⟨⟩
    exact ⟨rfl, rfl⟩
  · rintro ⟨rfl, rfl⟩
    exact .start

@[simp] theorem spans_stop {newLine : Bool} {before span after : List Char} :
    Spans newLine .stop before span after ↔ span = [] ∧ after = [] := by
  constructor
  · rintro ⟨⟩
    exact ⟨rfl, rfl⟩
  · rintro ⟨rfl, rfl⟩
    exact .stop

theorem spans_seq {newLine : Bool} {left right : Expr} {before span after : List Char} :
    Spans newLine (.seq left right) before span after ↔ ∃ first more, span = first ++ more ∧
      Spans newLine left before first (more ++ after) ∧ Spans newLine right (before ++ first) more after := by
  constructor
  · rintro ⟨⟩
    exact ⟨_, _, rfl, ‹_›, ‹_›⟩
  · rintro ⟨first, more, rfl, hleft, hright⟩
    exact .seq hleft hright

/-- Any characters, repeated, match every run of them. -/
theorem spans_star_any (before span after : List Char) : Spans true (.star .any) before span after := by
  induction span generalizing before with
  | nil => exact .none
  | cons c span ih =>
    have hfirst : Spans true .any before [c] (span ++ after) := .any (.inl rfl)
    exact .more hfirst (ih (before ++ [c]))

theorem spans_append {newLine : Bool} {left right : List Expr} {before span after : List Char} :
    Spans newLine (sequence (left ++ right)) before span after ↔ ∃ first more, span = first ++ more ∧
      Spans newLine (sequence left) before first (more ++ after) ∧
      Spans newLine (sequence right) (before ++ first) more after := by
  induction left generalizing before span with
  | nil => simp [sequence]
  | cons item left ih =>
    simp only [List.cons_append, sequence, spans_seq, ih]
    constructor
    · rintro ⟨first, _, rfl, hitem, middle, more, rfl, hleft, hright⟩
      refine ⟨first ++ middle, more, by simp, ⟨first, middle, rfl, ?_, hleft⟩, ?_⟩
      · simpa using hitem
      · simpa using hright
    · rintro ⟨_, more, rfl, ⟨first, middle, rfl, hitem, hleft⟩, hright⟩
      refine ⟨first, middle ++ more, by simp, ?_, middle, more, rfl, hleft, ?_⟩
      · simpa using hitem
      · simpa using hright

theorem spans_literal {newLine : Bool} {text before span after : List Char} :
    Spans newLine (sequence (text.map .char)) before span after ↔ span = text := by
  induction text generalizing before span with
  | nil => exact spans_empty
  | cons c text ih => simp [sequence, spans_seq, ih]

/-- Between both anchors an expression matches the whole text. -/
theorem isMatch_anchored {newLine : Bool} {e : Expr} {text : List Char} :
    IsMatch newLine (sequence [.start, e, .stop]) text ↔ Spans newLine e [] text [] := by
  simp only [IsMatch, sequence, spans_seq, spans_start, spans_stop, spans_empty]
  constructor
  · rintro ⟨before, span, after, rfl, first, more, rfl, ⟨rfl, rfl⟩, first', more', rfl, h, last, rest, rfl, ⟨rfl, hafter⟩, rfl⟩
    simp_all
  · intro h
    exact ⟨[], text, [], by simp, [], text, by simp, by simp, text, [], by simp, by simpa using h, [], [], by simp⟩

/-! ## Text -/

/-- The characters that `escape` puts a backslash before. -/
def isMeta (c : Char) : Bool :=
  c ∈ ['\\', '.', '+', '*', '?', '(', ')', '|', '[', ']', '{', '}', '^', '$', '#', '&', '-', '~']

/-- Those that stand for themselves only behind a backslash. -/
def isSpecial (c : Char) : Bool :=
  c ∈ ['\\', '.', '+', '*', '?', '(', ')', '|', '[', ']', '{', '}', '^', '$']

def escape (text : List Char) : List Char := text.flatMap fun c => if isMeta c then ['\\', c] else [c]

/-- What follows a backslash. -/
def escaped (c : Char) : Option Expr :=
  if c = 'A' then some .start
  else if c = 'z' then some .stop
  else if isMeta c then some (.char c)
  else none

/-- Parse the rest of a text inside the groups opened so far. The items of each
group stand in reverse. -/
def parseFrom (outer : List (List Expr)) (items : List Expr) : List Char → Option Expr
  | [] => if outer = [] then some (sequence items.reverse) else none
  | '\\' :: rest =>
    match rest with
    | [] => none
    | c :: rest => (escaped c).bind fun item => parseFrom outer (item :: items) rest
  | '(' :: rest =>
    match rest with
    | '?' :: ':' :: rest => parseFrom (items :: outer) [] rest
    | _ => none
  | ')' :: rest =>
    match outer with
    | [] => none
    | before :: outer => parseFrom outer (sequence items.reverse :: before) rest
  | '*' :: rest =>
    match items with
    | [] => none
    | last :: items => parseFrom outer (.star last :: items) rest
  | '.' :: rest => parseFrom outer (.any :: items) rest
  | c :: rest => if isSpecial c then none else parseFrom outer (.char c :: items) rest

def parse (text : List Char) : Option Expr := parseFrom [] [] text

theorem escaped_of_meta {c : Char} (h : isMeta c = true) : escaped c = some (.char c) := by
  have hA : c ≠ 'A' := by
    rintro rfl
    cases h
  have hz : c ≠ 'z' := by
    rintro rfl
    cases h
  simp [escaped, hA, hz, h]

theorem isSpecial_of_not_meta {c : Char} (h : isMeta c = false) : isSpecial c = false := by
  simp_all [isMeta, isSpecial]

/-- A character is read back from its escape. -/
theorem parseFrom_escapeChar (outer : List (List Expr)) (items : List Expr) (c : Char) (rest : List Char) :
    parseFrom outer items ((if isMeta c then ['\\', c] else [c]) ++ rest) = parseFrom outer (.char c :: items) rest := by
  by_cases h : isMeta c = true
  · rw [if_pos h]
    show parseFrom outer items ('\\' :: c :: rest) = _
    rw [parseFrom, escaped_of_meta h, Option.bind_some]
  · rw [Bool.not_eq_true] at h
    rw [h, if_neg Bool.false_ne_true]
    show parseFrom outer items (c :: rest) = _
    have hother : ∀ d, isMeta d = true → c ≠ d := by
      rintro d hd rfl
      exact absurd (hd.symm.trans h) (by decide)
    rw [parseFrom, isSpecial_of_not_meta h, if_neg Bool.false_ne_true]
    all_goals exact hother _ rfl

/-- An escaped text is read as its characters. -/
theorem parseFrom_escape (outer : List (List Expr)) (items : List Expr) (text rest : List Char) :
    parseFrom outer items (escape text ++ rest) = parseFrom outer ((text.map .char).reverse ++ items) rest := by
  induction text generalizing items with
  | nil => rfl
  | cons c text ih =>
    rw [escape, List.flatMap_cons, List.append_assoc, parseFrom_escapeChar]
    have htext := ih (.char c :: items)
    rw [escape] at htext
    rw [htext, List.map_cons, List.reverse_cons, List.append_assoc]
    rfl

end LaserSdk.Lib.RegexText

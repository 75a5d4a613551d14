import Mathlib.Data.List.TakeWhile
import LaserSdk.Lib.Checks
import LaserSdk.Typescript.Regex.Classes
import LaserSdk.Typescript.Regex.Compile
/-!
# The parser of patterns

The parser walks the code points of a pattern. It keeps the open groups on a
stack, so that the groups of a pattern may nest as deep as they like. We model
it over the code points that are left, prove that every part of it reads
something, and that the trees it builds are well formed.
-/

namespace LaserSdk.Typescript.Regex

open LaserSdk.Lib

inductive Escape where
  | literal (value : Nat)
  | primitive (item : ClassItem) (cost : Nat)
  | look (look : Look)

/-- The tables of the properties of Unicode, by normalized name. -/
structure UnicodeTables where
  names : JsString → Option JsString
  categories : JsString → Option JsString
  scripts : JsString → Option JsString
  binary : JsString → Bool

def maxScalar : Nat := 0x10ffff

def dotCost : Nat := 999

/-- The character as text. -/
def fromCodePoint (point : Nat) : JsString :=
  if point < 0x10000 then [UInt16.ofNat point]
  else [UInt16.ofNat (0xd800 + (point - 0x10000) / 0x400), UInt16.ofNat (0xdc00 + (point - 0x10000) % 0x400)]

def isDigitPoint (point : Nat) : Bool := '0'.toNat ≤ point && point ≤ '9'.toNat

def isLetterPoint (point : Nat) : Bool :=
  ('A'.toNat ≤ point && point ≤ 'Z'.toNat) || ('a'.toNat ≤ point && point ≤ 'z'.toNat)

def isHex (point : Nat) : Bool :=
  isDigitPoint point || ('A'.toNat ≤ point && point ≤ 'F'.toNat) || ('a'.toNat ≤ point && point ≤ 'f'.toNat)

/-- Any character of ASCII other than a letter, a digit, `<` or `>`. -/
def isEscapeable (point : Nat) : Bool :=
  point < 0x80 && !(isDigitPoint point || isLetterPoint point || point == '<'.toNat || point == '>'.toNat)

/-! ## Properties of Unicode -/

def normalizeName (name : JsString) : JsString :=
  let prefixed := name.length ≥ 2 && (name.take 2 == jsText "is" || name.take 2 == jsText "Is" ||
    name.take 2 == jsText "iS" || name.take 2 == jsText "IS")
  let normalized := (if prefixed then name.drop 2 else name).filterMap fun unit =>
    if unit = 32 ∨ unit = 95 ∨ unit = 45 then none
    else if 65 ≤ unit ∧ unit ≤ 90 then some (unit + 32)
    else if unit < 0x80 then some unit
    else none
  if prefixed && normalized == jsText "c" then jsText "isc" else normalized

section Properties

variable (tables : UnicodeTables)

def generalCategory (normalized : JsString) : Option JsString :=
  if normalized = jsText "any" then some (jsText "\\p\x7bAny\x7d")
  else if normalized = jsText "assigned" then some (jsText "\\p\x7bAssigned\x7d")
  else if normalized = jsText "ascii" then some (jsText "[\\u\x7b0\x7d-\\u\x7b7f\x7d]")
  else (tables.categories normalized).map fun canonical =>
    jsText "\\p\x7bGeneral_Category=" ++ canonical ++ jsText "\x7d"

/-- The error of `invalid`, for a reason that names what the pattern has. -/
def invalidName (reason : String) (name : JsString) : JsString := invalid reason ++ name

def unicodeProperty (name : JsString) (value : Option JsString) : Except JsString JsString :=
  match value with
  | none =>
    let normalized := normalizeName name
    let canonical :=
      if normalized ≠ jsText "cf" ∧ normalized ≠ jsText "sc" ∧ normalized ≠ jsText "lc" then tables.names normalized else none
    match canonical with
    | some canonical =>
      if tables.binary canonical then .ok (jsText "\\p\x7b" ++ canonical ++ jsText "\x7d")
      else .error (invalidName "Unicode property not found: " name)
    | none =>
      match generalCategory tables normalized with
      | some category => .ok category
      | none =>
        match tables.scripts normalized with
        | some script => .ok (jsText "\\p\x7bScript=" ++ script ++ jsText "\x7d")
        | none => .error (invalidName "Unicode property not found: " name)
  | some value =>
    let normalized := normalizeName value
    match tables.names (normalizeName name) with
    | none => .error (invalidName "Unicode property not found: " name)
    | some property =>
      if property = jsText "General_Category" then
        match generalCategory tables normalized with
        | some category => .ok category
        | none => .error (invalidName "Unicode property value not found: " value)
      else if property = jsText "Script" ∨ property = jsText "Script_Extensions" then
        match tables.scripts normalized with
        | some script => .ok (jsText "\\p\x7b" ++ property ++ jsText "=" ++ script ++ jsText "\x7d")
        | none => .error (invalidName "Unicode property value not found: " value)
      else if property = jsText "Age" ∨ property = jsText "Grapheme_Cluster_Break" ∨ property = jsText "Sentence_Break" ∨
          property = jsText "Word_Break" then
        .error (invalidName "the Unicode property " (property ++ jsText " is not supported in TypeScript"))
      else .error (invalidName "Unicode property value not found: " value)

end Properties

def wordSource : JsString := jsText "\\p\x7bAlphabetic\x7d\\p\x7bM\x7d\\p\x7bNd\x7d\\p\x7bPc\x7d\\p\x7bJoin_Control\x7d"

def negate (source : JsString) : JsString :=
  if (jsText "\\p\x7b").isPrefixOf source then jsText "\\P" ++ source.drop 2 else jsText "[^" ++ source ++ jsText "]"

/-- The class of `\d`, `\s` or `\w`, by the lower case letter. -/
def perlBase (letter : Char) : JsString :=
  if letter = 'd' then jsText "\\p\x7bNd\x7d"
  else if letter = 's' then jsText "\\p\x7bWhite_Space\x7d"
  else jsText "[" ++ wordSource ++ jsText "]"

/-- `PERL_COST` in the order of its entries, with the source of each class. -/
def perlClasses : List (Char × JsString × Nat) :=
  [('d', perlBase 'd', 5136), ('D', negate (perlBase 'd'), 13097), ('s', perlBase 's', 680),
    ('S', negate (perlBase 's'), 1926), ('w', perlBase 'w', 52388), ('W', negate (perlBase 'w'), 52388)]

def perlCostOf (source : JsString) : Nat :=
  match perlClasses.find? (·.2.1 == source) with
  | some entry => entry.2.2
  | none => classCost

/-! ## Escapes -/

/-- A text of the source, by code point. -/
def points (text : String) : List Nat := text.toList.map Char.toNat

def isBoundaryPoint (point : Nat) : Bool := isLetterPoint point || point == '-'.toNat

def boundaryOf (name : List Nat) : Except JsString Look :=
  if name = points "start" then .ok .wordStart
  else if name = points "end" then .ok .wordEnd
  else if name = points "start-half" then .ok .wordStartHalf
  else if name = points "end-half" then .ok .wordEndHalf
  else .error (invalid "unrecognized special word boundary")

/-- At the brace behind `\b`. What cannot be a boundary is left for the counted
repetition. -/
def specialWordBoundary (rest : List Nat) : Except JsString (Look × List Nat) :=
  match rest.tail with
  | [] => .error (invalid "unexpected end of a special word boundary or repetition")
  | point :: behind =>
    if !isBoundaryPoint point then .ok (.word, rest)
    else
      let name := (point :: behind).takeWhile isBoundaryPoint
      match behind.dropWhile isBoundaryPoint with
      | [] => .error (invalid "unclosed special word boundary")
      | close :: behind =>
        if close ≠ '}'.toNat then .error (invalid "unclosed special word boundary")
        else do
          let look ← boundaryOf name
          .ok (look, behind)

def hexValue (point : Nat) : Nat :=
  if isDigitPoint point then point - '0'.toNat
  else if point ≤ 'F'.toNat then point - 'A'.toNat + 10
  else point - 'a'.toNat + 10

/-- `Number.parseInt(text, 16)`. -/
def parseHexInt (text : List Nat) : Nat := text.foldl (fun value point => value * 16 + hexValue point) 0

/-- The loop over so many digits. -/
def hexDigits : Nat → List Nat → Except JsString (List Nat × List Nat)
  | 0, rest => .ok ([], rest)
  | _ + 1, [] => .error (invalid "incomplete escape sequence")
  | digits + 1, point :: rest =>
    if !isHex point then .error (invalid "hexadecimal literal is not a hexadecimal digit")
    else do
      let (text, rest) ← hexDigits digits rest
      .ok (point :: text, rest)

/-- The loop to the closing brace. -/
def hexBraced : List Nat → Except JsString (List Nat × List Nat)
  | [] => .error (invalid "incomplete escape sequence")
  | point :: rest =>
    if point = '}'.toNat then .ok ([], rest)
    else if !isHex point then .error (invalid "hexadecimal literal is not a hexadecimal digit")
    else do
      let (text, rest) ← hexBraced rest
      .ok (point :: text, rest)

/-- The value of the digits, which is a scalar value. -/
def hexLiteral (text : List Nat) : Except JsString Escape :=
  let trimmed := text.dropWhile (· == '0'.toNat)
  if trimmed.length > 8 ∨ parseHexInt text > maxScalar ∨ (0xd800 ≤ parseHexInt text ∧ parseHexInt text ≤ 0xdfff) then
    .error (invalid "hexadecimal literal does not correspond to a Unicode scalar value")
  else .ok (.literal (parseHexInt text))

/-- Behind the letter. -/
def parseHex (letter : Nat) (rest : List Nat) : Except JsString (Escape × List Nat) :=
  let digits := if letter = 'x'.toNat then 2 else if letter = 'u'.toNat then 4 else 8
  match rest with
  | [] => .error (invalid "incomplete escape sequence")
  | point :: behind =>
    if point = '{'.toNat then do
      let (text, behind) ← hexBraced behind
      if text = [] then .error (invalid "hexadecimal literal empty")
      else
        let escape ← hexLiteral text
        .ok (escape, behind)
    else do
      let (text, behind) ← hexDigits digits (point :: behind)
      let escape ← hexLiteral text
      .ok (escape, behind)

def indexOf (text needle : JsString) : Option Nat := text.tails.findIdx? (needle.isPrefixOf ·)

/-- The query between the braces: a name, or a name and a value. -/
def propertyQuery (tables : UnicodeTables) (negated : Bool) (name : JsString) : Except JsString (Bool × JsString) :=
  match indexOf name (jsText "!="), indexOf name (jsText ":"), indexOf name (jsText "=") with
  | some notEqual, _, _ => do
    let source ← unicodeProperty tables (name.take notEqual) (some (name.drop (notEqual + 2)))
    .ok (!negated, source)
  | none, some colon, _ => do
    let source ← unicodeProperty tables (name.take colon) (some (name.drop (colon + 1)))
    .ok (negated, source)
  | none, none, some equal => do
    let source ← unicodeProperty tables (name.take equal) (some (name.drop (equal + 1)))
    .ok (negated, source)
  | none, none, none => do
    let source ← unicodeProperty tables name none
    .ok (negated, source)

/-- Behind the letter. -/
def parseUnicodeClass (tables : UnicodeTables) (letter : Nat) (rest : List Nat) : Except JsString (Escape × List Nat) :=
  let negated := letter == 'P'.toNat
  match rest with
  | [] => .error (invalid "incomplete escape sequence")
  | point :: behind =>
    if point = '{'.toNat then
      match behind.dropWhile (· != '}'.toNat) with
      | [] => .error (invalid "incomplete escape sequence")
      | _ :: behind' => do
        let name := (behind.takeWhile (· != '}'.toNat)).flatMap fromCodePoint
        let (negated, source) ← propertyQuery tables negated name
        .ok (.primitive (.primitive (if negated then negate source else source) none) classCost, behind')
    else if point = '\\'.toNat then .error (invalid "invalid Unicode character class")
    else do
      let source ← unicodeProperty tables (fromCodePoint point) none
      .ok (.primitive (.primitive (if negated then negate source else source) none) classCost, behind)

/-- The escapes of one letter. -/
def letterEscape (point : Nat) : Except JsString Escape :=
  if point = 'a'.toNat then .ok (.literal 0x07)
  else if point = 'f'.toNat then .ok (.literal 0x0c)
  else if point = 't'.toNat then .ok (.literal 0x09)
  else if point = 'n'.toNat then .ok (.literal 0x0a)
  else if point = 'r'.toNat then .ok (.literal 0x0d)
  else if point = 'v'.toNat then .ok (.literal 0x0b)
  else if point = 'A'.toNat then .ok (.look .start)
  else if point = 'z'.toNat then .ok (.look .finish)
  else if point = 'B'.toNat then .ok (.look .notWord)
  else if point = '<'.toNat then .ok (.look .wordStart)
  else if point = '>'.toNat then .ok (.look .wordEnd)
  else .error (invalid "unrecognized escape sequence")

/-- Behind the backslash. -/
def parseEscape (tables : UnicodeTables) (rest : List Nat) : Except JsString (Escape × List Nat) :=
  match rest with
  | [] => .error (invalid "incomplete escape sequence")
  | point :: behind =>
    if isDigitPoint point then .error (invalid "backreferences are not supported")
    else if point = 'x'.toNat ∨ point = 'u'.toNat ∨ point = 'U'.toNat then parseHex point behind
    else if point = 'p'.toNat ∨ point = 'P'.toNat then parseUnicodeClass tables point behind
    else
      match perlClasses.find? (·.1.toNat == point) with
      | some (_, source, cost) => .ok (.primitive (.primitive source none) cost, behind)
      | none =>
        if isEscapeable point then .ok (.literal point, behind)
        else if point = 'b'.toNat then
          if behind.head? = some '{'.toNat then do
            let (look, behind) ← specialWordBoundary behind
            .ok (.look look, behind)
          else .ok (.look .word, behind)
        else do
          let escape ← letterEscape point
          .ok (escape, behind)

/-! ## Classes -/

def asciiClasses (name : List Nat) : Option (List Range) :=
  if name = points "alnum" then some [(0x30, 0x39), (0x41, 0x5a), (0x61, 0x7a)]
  else if name = points "alpha" then some [(0x41, 0x5a), (0x61, 0x7a)]
  else if name = points "ascii" then some [(0x00, 0x7f)]
  else if name = points "blank" then some [(0x09, 0x09), (0x20, 0x20)]
  else if name = points "cntrl" then some [(0x00, 0x1f), (0x7f, 0x7f)]
  else if name = points "digit" then some [(0x30, 0x39)]
  else if name = points "graph" then some [(0x21, 0x7e)]
  else if name = points "lower" then some [(0x61, 0x7a)]
  else if name = points "print" then some [(0x20, 0x7e)]
  else if name = points "punct" then some [(0x21, 0x2f), (0x3a, 0x40), (0x5b, 0x60), (0x7b, 0x7e)]
  else if name = points "space" then some [(0x09, 0x0d), (0x20, 0x20)]
  else if name = points "upper" then some [(0x41, 0x5a)]
  else if name = points "word" then some [(0x30, 0x39), (0x41, 0x5a), (0x5f, 0x5f), (0x61, 0x7a)]
  else if name = points "xdigit" then some [(0x30, 0x39), (0x41, 0x46), (0x61, 0x66)]
  else none

/-- What every object of JavaScript has. The table of the classes is an object,
so that a lookup by one of these names finds something that is no list. -/
def objectNames : List (List Nat) :=
  [points "constructor", points "__defineGetter__", points "__defineSetter__", points "hasOwnProperty",
    points "__lookupGetter__", points "__lookupSetter__", points "isPrototypeOf", points "propertyIsEnumerable",
    points "toString", points "valueOf", points "__proto__", points "toLocaleString"]

/-- The class of a name, nothing where there is none. -/
def namedClass (negated : Bool) (name : List Nat) : Except JsString (Option ClassItem) :=
  if name ∈ objectNames then .error (jsText "ranges.map is not a function")
  else
    .ok ((asciiClasses name).map fun ranges =>
      .primitive (jsText (if negated then "[^" else "[") ++ rangesSource ranges ++ jsText "]")
        (if negated then none else some ranges))

/-- At a bracket inside a class. Nothing where it opens a nested class. -/
def asciiClass (rest : List Nat) : Except JsString (Option (ClassItem × List Nat)) :=
  match rest.tail with
  | [] => .ok none
  | point :: behind =>
    if point ≠ ':'.toNat then .ok none
    else
      let negated := behind.head? == some '^'.toNat
      let named := if negated then behind.tail else behind
      match named.dropWhile (· != ':'.toNat) with
      | [] => .ok none
      | _ :: behind =>
        if behind.head? ≠ some ']'.toNat then .ok none
        else do
          let item ← namedClass negated (named.takeWhile (· != ':'.toNat))
          .ok (item.map (·, behind.tail))

def classItem : Escape → Except JsString ClassItem
  | .literal value => .ok (.literal value)
  | .primitive item _ => .ok item
  | .look _ => .error (invalid "escape sequence is not valid in a character class")

def classPrimitive (tables : UnicodeTables) (rest : List Nat) : Except JsString (Escape × List Nat) :=
  match rest with
  | [] => .ok (.literal 0, [])
  | point :: behind => if point = '\\'.toNat then parseEscape tables behind else .ok (.literal point, behind)

def unclosedClass : JsString := invalid "unclosed character class"

def classRange (tables : UnicodeTables) (rest : List Nat) : Except JsString (ClassItem × List Nat) := do
  let (first, rest) ← classPrimitive tables rest
  match rest with
  | [] => .error unclosedClass
  | point :: behind =>
    if point ≠ '-'.toNat ∨ behind.head? = some ']'.toNat ∨ behind.head? = some '-'.toNat then do
      let item ← classItem first
      .ok (item, point :: behind)
    else if behind = [] then .error unclosedClass
    else do
      let (second, rest) ← classPrimitive tables behind
      match first, second with
      | .literal first, .literal second =>
        if first > second then .error (invalid "invalid character class range") else .ok (.range first second, rest)
      | _, _ => .error (invalid "invalid range boundary, must be a literal")

def intoItem : List ClassItem → ClassItem
  | [] => .empty
  | [only] => only
  | union => .union union

/-- `close`: the operation so far, with the items behind it. -/
def closeSet (before : Option (ClassSet × SetOp)) (union : List ClassItem) : ClassSet :=
  match before with
  | none => .item (intoItem union)
  | some (lhs, op) => .op op lhs (.item (intoItem union))

/-- The dashes a class opens with, or a bracket that does not close it. -/
def classOpening (rest : List Nat) : Except JsString (List ClassItem × List Nat) :=
  let dashes := rest.takeWhile (· == '-'.toNat)
  match rest.dropWhile (· == '-'.toNat) with
  | [] => .error unclosedClass
  | point :: behind =>
    if dashes = [] ∧ point = ']'.toNat then
      if behind = [] then .error unclosedClass else .ok ([.literal 0x5d], behind)
    else .ok (dashes.map fun _ => .literal 0x2d, point :: behind)

def setOpAt (point : Nat) (behind : List Nat) : Option SetOp :=
  if behind.head? ≠ some point then none
  else if point = '&'.toNat then some .intersection
  else if point = '-'.toNat then some .difference
  else if point = '~'.toNat then some .symmetricDifference
  else none

/-! ## Every part reads something -/

/-- A part of the parser that leaves less than it was given. -/
def Reads {α : Type} (part : List Nat → Except JsString (α × List Nat)) : Prop :=
  ∀ rest value behind, part rest = .ok (value, behind) → behind.length < rest.length

theorem hexDigits_le (digits : Nat) (rest text behind : List Nat) (h : hexDigits digits rest = .ok (text, behind)) :
    behind.length ≤ rest.length := by
  fun_induction hexDigits digits rest generalizing text with
  | case1 rest =>
    cases h
    exact Nat.le_refl _
  | case2 => cases h
  | case3 => cases h
  | case4 digits point rest hhex ih =>
    simp only [bind_ok] at h
    obtain ⟨⟨text', behind'⟩, hrest, hresult⟩ := h
    cases hresult
    exact Nat.le_succ_of_le (ih _ hrest)

theorem hexBraced_le (rest text behind : List Nat) (h : hexBraced rest = .ok (text, behind)) :
    behind.length ≤ rest.length := by
  fun_induction hexBraced rest generalizing text with
  | case1 => cases h
  | case2 rest =>
    cases h
    exact Nat.le_succ _
  | case3 => cases h
  | case4 point rest hclose hhex ih =>
    simp only [bind_ok] at h
    obtain ⟨⟨text', behind'⟩, hrest, hresult⟩ := h
    cases hresult
    exact Nat.le_succ_of_le (ih _ hrest)

theorem parseHex_le {letter : Nat} {rest behind : List Nat} {escape : Escape}
    (h : parseHex letter rest = .ok (escape, behind)) : behind.length ≤ rest.length := by
  cases rest with
  | nil => cases h
  | cons point rest =>
    simp only [parseHex] at h
    split at h
    · simp only [bind_ok] at h
      obtain ⟨⟨text, behind'⟩, htext, hrest⟩ := h
      split at hrest
      · cases hrest
      · simp only [bind_ok] at hrest
        obtain ⟨_, _, hresult⟩ := hrest
        cases hresult
        exact Nat.le_succ_of_le (hexBraced_le _ _ _ htext)
    · simp only [bind_ok] at h
      obtain ⟨⟨text, behind'⟩, htext, _, _, hresult⟩ := h
      cases hresult
      exact hexDigits_le _ _ _ _ htext

theorem parseUnicodeClass_le {tables : UnicodeTables} {letter : Nat} {rest behind : List Nat} {escape : Escape}
    (h : parseUnicodeClass tables letter rest = .ok (escape, behind)) : behind.length ≤ rest.length := by
  cases rest with
  | nil => cases h
  | cons point rest =>
    simp only [parseUnicodeClass] at h
    split at h
    · split at h
      · cases h
      · rename_i close behind' hclose
        simp only [bind_ok] at h
        obtain ⟨_, _, hresult⟩ := h
        cases hresult
        have hle := List.length_dropWhile_le (· != '}'.toNat) rest
        rw [hclose] at hle
        simp only [List.length_cons] at hle ⊢
        omega
    · split at h
      · cases h
      · simp only [bind_ok] at h
        obtain ⟨_, _, hresult⟩ := h
        cases hresult
        exact Nat.le_succ _

theorem specialWordBoundary_le {rest behind : List Nat} {look : Look}
    (h : specialWordBoundary rest = .ok (look, behind)) : behind.length ≤ rest.length := by
  unfold specialWordBoundary at h
  split at h
  · cases h
  · rename_i point behind' htail
    have hlength : behind'.length + 1 ≤ rest.length := by
      have := congrArg List.length htail
      simp at this
      omega
    split at h
    · cases h
      exact Nat.le_refl _
    · split at h
      · cases h
      · rename_i close behind'' hclose
        have hle := List.length_dropWhile_le isBoundaryPoint behind'
        rw [hclose, List.length_cons] at hle
        split at h
        · cases h
        · simp only [bind_ok] at h
          obtain ⟨_, _, hresult⟩ := h
          cases hresult
          omega

theorem parseEscape_reads (tables : UnicodeTables) : Reads (parseEscape tables) := by
  intro rest escape behind h
  cases rest with
  | nil => cases h
  | cons point rest =>
    apply Nat.lt_succ_of_le
    simp only [parseEscape] at h
    split at h
    · cases h
    split at h
    · exact parseHex_le h
    split at h
    · exact parseUnicodeClass_le h
    split at h
    · cases h
      exact Nat.le_refl _
    split at h
    · cases h
      exact Nat.le_refl _
    split at h
    · split at h
      · simp only [bind_ok] at h
        obtain ⟨⟨look, behind'⟩, hlook, hresult⟩ := h
        cases hresult
        exact specialWordBoundary_le hlook
      · cases h
        exact Nat.le_refl _
    · simp only [bind_ok] at h
      obtain ⟨_, _, hresult⟩ := h
      cases hresult
      exact Nat.le_refl _

theorem classPrimitive_reads {tables : UnicodeTables} {point : Nat} {rest behind : List Nat} {escape : Escape}
    (h : classPrimitive tables (point :: rest) = .ok (escape, behind)) : behind.length ≤ rest.length := by
  simp only [classPrimitive] at h
  split at h
  · exact Nat.le_of_lt (parseEscape_reads tables _ _ _ h)
  · cases h
    exact Nat.le_refl _

theorem classRange_reads {tables : UnicodeTables} {point : Nat} {rest behind : List Nat} {item : ClassItem}
    (h : classRange tables (point :: rest) = .ok (item, behind)) : behind.length ≤ rest.length := by
  simp only [classRange, bind_ok] at h
  obtain ⟨⟨first, rest'⟩, hfirst, h⟩ := h
  have hle := classPrimitive_reads hfirst
  cases rest' with
  | nil => cases h
  | cons next rest' =>
    simp only at h
    split at h
    · simp only [bind_ok] at h
      obtain ⟨_, _, hresult⟩ := h
      cases hresult
      exact hle
    split at h
    · cases h
    simp only [bind_ok] at h
    obtain ⟨⟨second, rest''⟩, hsecond, h⟩ := h
    have hshort : rest''.length ≤ rest'.length := by
      cases rest' with
      | nil => contradiction
      | cons point rest' => exact Nat.le_succ_of_le (classPrimitive_reads hsecond)
    rw [List.length_cons] at hle
    split at h
    · split at h
      · cases h
      · cases h
        exact Nat.le_trans hshort (Nat.le_of_succ_le hle)
    · cases h

theorem asciiClass_reads {point : Nat} {rest behind : List Nat} {item : ClassItem}
    (h : asciiClass (point :: rest) = .ok (some (item, behind))) : behind.length ≤ rest.length := by
  simp only [asciiClass, List.tail_cons] at h
  split at h
  · cases h
  · rename_i next rest
    split at h
    · cases h
    · generalize hnamed : (if rest.head? == some '^'.toNat then rest.tail else rest) = named at h
      have hnamed : named.length ≤ rest.length := by
        rw [← hnamed]
        split
        · simp
        · exact Nat.le_refl _
      split at h
      · cases h
      · rename_i close behind' hclose
        have hle := List.length_dropWhile_le (· != ':'.toNat) named
        rw [hclose, List.length_cons] at hle
        have hshort : behind'.tail.length ≤ behind'.length := by simp
        split at h
        · cases h
        · simp only [bind_ok, Except.ok.injEq, Option.map_eq_some_iff] at h
          obtain ⟨_, _, _, _, hresult⟩ := h
          cases hresult
          rw [List.length_cons]
          omega

theorem classOpening_le {rest behind : List Nat} {union : List ClassItem}
    (h : classOpening rest = .ok (union, behind)) : behind.length ≤ rest.length := by
  have hle := List.length_dropWhile_le (· == '-'.toNat) rest
  simp only [classOpening] at h
  split at h
  · cases h
  · rename_i point behind' hdrop
    rw [hdrop, List.length_cons] at hle
    split at h
    · split at h
      · cases h
      · cases h
        omega
    · cases h
      exact hle

/-- What is left when something was read. -/
abbrev Behind (rest : List Nat) := { behind : List Nat // behind.length < rest.length }

mutual

/-- At an opening bracket, through the one that closes it. -/
def parseBracketed (tables : UnicodeTables) (rest : List Nat) : Except JsString ((Bool × ClassSet) × Behind rest) :=
  match rest with
  | [] => .error unclosedClass
  | point :: inner =>
    let negated := inner.head? == some '^'.toNat
    let opened := if negated then inner.tail else inner
    match h : classOpening opened with
    | .error e => .error e
    | .ok (union, items) =>
      have hitems : items.length < (point :: inner).length := by
        have hle := classOpening_le h
        have hopened : opened.length ≤ inner.length := by
          simp only [opened]
          split
          · simp
          · exact Nat.le_refl _
        exact Nat.lt_succ_of_le (Nat.le_trans hle hopened)
      match bracketedLoop tables negated none union items with
      | .error e => .error e
      | .ok (bracketed, behind) => .ok (bracketed, ⟨behind.1, Nat.lt_trans behind.2 hitems⟩)
  termination_by (rest.length, 0)

/-- The loop over the items of a class, with the operation before them. -/
def bracketedLoop (tables : UnicodeTables) (negated : Bool) (before : Option (ClassSet × SetOp)) (union : List ClassItem)
    (rest : List Nat) : Except JsString ((Bool × ClassSet) × Behind rest) :=
  match rest with
  | [] => .error unclosedClass
  | point :: behind =>
    if point = '['.toNat then
      match h : asciiClass (point :: behind) with
      | .error e => .error e
      | .ok (some (item, items)) =>
        have hitems : items.length < (point :: behind).length := Nat.lt_succ_of_le (asciiClass_reads h)
        match bracketedLoop tables negated before (union ++ [item]) items with
        | .error e => .error e
        | .ok (bracketed, behind) => .ok (bracketed, ⟨behind.1, Nat.lt_trans behind.2 hitems⟩)
      | .ok none =>
        match parseBracketed tables (point :: behind) with
        | .error e => .error e
        | .ok ((nested, set), ⟨items, hitems⟩) =>
          match bracketedLoop tables negated before (union ++ [.bracketed nested set]) items with
          | .error e => .error e
          | .ok (bracketed, behind) => .ok (bracketed, ⟨behind.1, Nat.lt_trans behind.2 hitems⟩)
    else if point = ']'.toNat then .ok ((negated, closeSet before union), ⟨behind, Nat.lt_succ_self _⟩)
    else
      match setOpAt point behind with
      | some op =>
        have hitems : behind.tail.length < (point :: behind).length := by
          simp only [List.length_tail, List.length_cons]
          omega
        match bracketedLoop tables negated (some (closeSet before union, op)) [] behind.tail with
        | .error e => .error e
        | .ok (bracketed, behind) => .ok (bracketed, ⟨behind.1, Nat.lt_trans behind.2 hitems⟩)
      | none =>
        match h : classRange tables (point :: behind) with
        | .error e => .error e
        | .ok (item, items) =>
          have hitems : items.length < (point :: behind).length := Nat.lt_succ_of_le (classRange_reads h)
          match bracketedLoop tables negated before (union ++ [item]) items with
          | .error e => .error e
          | .ok (bracketed, behind) => .ok (bracketed, ⟨behind.1, Nat.lt_trans behind.2 hitems⟩)
  termination_by (rest.length, 1)

end

/-! ## Nodes -/

def setSourceOf (bracketed : Bool × ClassSet) : JsString :=
  jsText (if bracketed.1 then "^" else "") ++ setSource bracketed.2

/-- The cost of a class. One that is opaque can still hold a single character,
the cheapest program. -/
def bracketedCost (caseInsensitive : Bool) (bracketed : Bool × ClassSet) : Nat :=
  match if bracketed.1 then none else plainRanges bracketed.2 with
  | some ranges => rangesCost (if caseInsensitive then asciiCaseVariants ranges else ranges)
  | none =>
    match bracketed with
    | (false, .item (.primitive source _)) => perlCostOf source
    | _ => literalByteCost

def parseClass (tables : UnicodeTables) (caseInsensitive : Bool) (rest : List Nat) : Except JsString (Node × Behind rest) := do
  let (bracketed, behind) ← parseBracketed tables rest
  .ok (.atom {
    source := setSourceOf bracketed
    cost := bracketedCost caseInsensitive bracketed
    depth := itemDepth (.bracketed bracketed.1 bracketed.2)
    literal := none
  }, behind)

def literal (caseInsensitive : Bool) (point : Nat) : Node :=
  .atom {
    source := hex point
    cost := literalCost point caseInsensitive
    depth := 0
    literal := if caseInsensitive then none else some point
  }

def escapeNode (caseInsensitive : Bool) : Escape → Node
  | .literal value => literal caseInsensitive value
  | .look look => .look look
  | .primitive item cost => .atom { source := itemSource item, cost := cost, depth := 0, literal := none }

/-- At a character that is no operator. -/
def parsePrimitive (tables : UnicodeTables) (caseInsensitive : Bool) (rest : List Nat) : Except JsString (Node × List Nat) :=
  match rest with
  | [] => .ok (literal caseInsensitive 0, [])
  | point :: behind =>
    if point = '\\'.toNat then do
      let (escape, behind) ← parseEscape tables behind
      .ok (escapeNode caseInsensitive escape, behind)
    else if point = '.'.toNat then
      .ok (.atom { source := jsText "^\\n", cost := dotCost, depth := 0, literal := none }, behind)
    else if point = '^'.toNat then .ok (.look .start, behind)
    else if point = '$'.toNat then .ok (.look .finish, behind)
    else .ok (literal caseInsensitive point, behind)

theorem parsePrimitive_reads {tables : UnicodeTables} {caseInsensitive : Bool} {point : Nat} {rest behind : List Nat}
    {node : Node} (h : parsePrimitive tables caseInsensitive (point :: rest) = .ok (node, behind)) :
    behind.length ≤ rest.length := by
  simp only [parsePrimitive] at h
  split at h
  · simp only [bind_ok] at h
    obtain ⟨⟨escape, behind'⟩, hescape, hresult⟩ := h
    cases hresult
    exact Nat.le_of_lt (parseEscape_reads tables _ _ _ hescape)
  split at h
  · cases h
    exact Nat.le_refl _
  split at h
  · cases h
    exact Nat.le_refl _
  split at h <;> cases h <;> exact Nat.le_refl _

/-! ## Repeats -/

/-- An optional question mark behind a repeat. -/
def skipLazy : List Nat → List Nat
  | [] => []
  | point :: behind => if point = '?'.toNat then behind else point :: behind

theorem skipLazy_le (rest : List Nat) : (skipLazy rest).length ≤ rest.length := by
  unfold skipLazy
  split
  · exact Nat.le_refl _
  · split
    · exact Nat.le_succ _
    · exact Nat.le_refl _

def missingExpression : JsString := invalid "repetition operator missing expression"

/-- The repeat of the last node, which takes its place. -/
def repeatLast (concat : List Node) (min : Nat) (max : Option Nat) : Except JsString (List Node) :=
  match concat.getLast? with
  | none => .error missingExpression
  | some child => .ok (concat.dropLast ++ [.repeat min max child])

section Counted

variable (host : RegexHost)

/-- Digits with white space around them, or what is wrong with them. -/
def decimal (rest : List Nat) : Except JsString Nat × List Nat :=
  let rest := rest.dropWhile host.whiteSpace
  let digits := rest.takeWhile isDigitPoint
  let behind := (rest.dropWhile isDigitPoint).dropWhile host.whiteSpace
  let value := digits.foldl (fun value point => value * 10 + (point - '0'.toNat)) 0
  (if digits = [] then .error (invalid "repetition quantifier expects a valid decimal")
    else if value > 0xffffffff then .error (invalid "decimal literal invalid")
    else .ok value, behind)

theorem decimal_le (rest : List Nat) : (decimal host rest).2.length ≤ rest.length := by
  have h1 := List.length_dropWhile_le host.whiteSpace rest
  have h2 := List.length_dropWhile_le isDigitPoint (rest.dropWhile host.whiteSpace)
  have h3 := List.length_dropWhile_le host.whiteSpace ((rest.dropWhile host.whiteSpace).dropWhile isDigitPoint)
  exact Nat.le_trans h3 (Nat.le_trans h2 h1)

def unclosedRepeat : JsString := invalid "unclosed counted repetition"

/-- Behind the brace: the bounds, and what is left at the closing brace. -/
def repeatBounds (rest : List Nat) : Except JsString ((Nat × Option Nat) × List Nat) :=
  if rest = [] then .error unclosedRepeat
  else
    let (start, rest) := decimal host rest
    match rest with
    | [] => .error unclosedRepeat
    | point :: behind =>
      if point = ','.toNat then
        if behind = [] then .error unclosedRepeat
        else if behind.head? ≠ some '}'.toNat then do
          let min ← start
          let (most, behind) := decimal host behind
          let max ← most
          .ok ((min, some max), behind)
        else do
          let min ← start
          .ok ((min, none), behind)
      else do
        let min ← start
        .ok ((min, some min), point :: behind)

theorem repeatBounds_le {rest behind : List Nat} {bounds : Nat × Option Nat}
    (h : repeatBounds host rest = .ok (bounds, behind)) : behind.length ≤ rest.length := by
  have hle := decimal_le host rest
  simp only [repeatBounds] at h
  split at h
  · cases h
  split at h
  · cases h
  · rename_i point behind' hbehind
    rw [hbehind, List.length_cons] at hle
    split at h
    · split at h
      · cases h
      split at h
      · simp only [bind_ok] at h
        obtain ⟨_, _, _, _, hresult⟩ := h
        cases hresult
        have := decimal_le host behind'
        omega
      · simp only [bind_ok] at h
        obtain ⟨_, _, hresult⟩ := h
        cases hresult
        omega
    · simp only [bind_ok] at h
      obtain ⟨_, _, hresult⟩ := h
      cases hresult
      exact hle

/-- Behind the brace. -/
def countedRepeat (concat : List Node) (rest : List Nat) : Except JsString (List Node × List Nat) :=
  if concat = [] then .error missingExpression
  else do
    let ((min, max), rest) ← repeatBounds host rest
    match rest with
    | [] => .error unclosedRepeat
    | point :: behind =>
      if point ≠ '}'.toNat then .error unclosedRepeat
      else if max.any (min > ·) then .error (invalid "invalid repetition count range")
      else do
        let concat ← repeatLast concat min max
        .ok (concat, skipLazy behind)

theorem countedRepeat_le {concat concat' : List Node} {rest behind : List Nat}
    (h : countedRepeat host concat rest = .ok (concat', behind)) : behind.length ≤ rest.length := by
  simp only [countedRepeat] at h
  split at h
  · cases h
  simp only [bind_ok] at h
  obtain ⟨⟨⟨min, max⟩, rest'⟩, hbounds, h⟩ := h
  have hle := repeatBounds_le host hbounds
  split at h
  · cases h
  · rename_i point behind' hrest
    simp only at hrest
    rw [hrest, List.length_cons] at hle
    split at h
    · cases h
    split at h
    · cases h
    simp only [bind_ok] at h
    obtain ⟨_, _, hresult⟩ := h
    cases hresult
    have := skipLazy_le behind'
    omega

end Counted

/-! ## Groups -/

def intoConcat : List Node → Node
  | [] => .empty
  | [only] => only
  | items => .concat items

def finish (concat : List Node) (alternates : Option (List Node)) : Node :=
  match alternates with
  | none => intoConcat concat
  | some alternates => .alt (alternates ++ [intoConcat concat])

/-- What stands before an open group. -/
structure Group where
  concat : List Node
  alternates : Option (List Node)

/-- Behind an opening bracket. -/
def groupStart : List Nat → Except JsString (List Nat)
  | [] => .ok []
  | point :: behind =>
    if point ≠ '?'.toNat then .ok (point :: behind)
    else if behind.head? ≠ some ':'.toNat then
      .error (invalid "groups starting with (? other than (?: are not supported")
    else .ok behind.tail

theorem groupStart_le {rest behind : List Nat} (h : groupStart rest = .ok behind) : behind.length ≤ rest.length := by
  unfold groupStart at h
  split at h
  · cases h
    exact Nat.le_refl _
  split at h
  · cases h
    exact Nat.le_refl _
  split at h
  · cases h
  cases h
  simp only [List.length_tail, List.length_cons]
  omega

/-- The bounds of the operators of one character. -/
def repeatOperator (point : Nat) : Option (Nat × Option Nat) :=
  if point = '?'.toNat then some (0, some 1)
  else if point = '*'.toNat then some (0, none)
  else if point = '+'.toNat then some (1, none)
  else none

section Parser

variable (host : RegexHost) (tables : UnicodeTables) (caseInsensitive : Bool)

/-- The loop of `parse`. -/
def parseLoop (groups : List Group) (concat : List Node) (alternates : Option (List Node)) (rest : List Nat) :
    Except JsString Node :=
  match rest with
  | [] => if groups.length > 0 then .error (invalid "unclosed group") else .ok (finish concat alternates)
  | point :: behind =>
    if point = '('.toNat then
      match h : groupStart behind with
      | .error e => .error e
      | .ok inner =>
        have := groupStart_le h
        parseLoop (⟨concat, alternates⟩ :: groups) [] none inner
    else if point = ')'.toNat then
      match groups with
      | [] => .error (invalid "unopened group")
      | group :: groups =>
        parseLoop groups (group.concat ++ [.group (finish concat alternates)]) group.alternates behind
    else if point = '|'.toNat then
      parseLoop groups [] (some (alternates.getD [] ++ [intoConcat concat])) behind
    else if point = '['.toNat then
      match parseClass tables caseInsensitive (point :: behind) with
      | .error e => .error e
      | .ok (node, ⟨rest, _hrest⟩) => parseLoop groups (concat ++ [node]) alternates rest
    else if point = '{'.toNat then
      match h : countedRepeat host concat behind with
      | .error e => .error e
      | .ok (concat, rest) =>
        have := countedRepeat_le host h
        parseLoop groups concat alternates rest
    else
      match repeatOperator point with
      | some (min, max) =>
        match repeatLast concat min max with
        | .error e => .error e
        | .ok concat =>
          have := skipLazy_le behind
          parseLoop groups concat alternates (skipLazy behind)
      | none =>
        match h : parsePrimitive tables caseInsensitive (point :: behind) with
        | .error e => .error e
        | .ok (node, rest) =>
          have := parsePrimitive_reads h
          parseLoop groups (concat ++ [node]) alternates rest
  termination_by rest.length
  decreasing_by all_goals simp only [List.length_cons] at *; omega

def parse (pattern : JsString) : Except JsString Node :=
  parseLoop host tables caseInsensitive [] [] none (codePoints pattern)

end Parser

/-! ## The trees of the parser -/

theorem wellFormedAll_iff (items : List Node) : WellFormedAll items ↔ ∀ item ∈ items, WellFormed item := by
  induction items with
  | nil => simp [WellFormedAll]
  | cons item items ih => simp [WellFormedAll, ih]

theorem wellFormed_intoConcat {concat : List Node} (h : ∀ item ∈ concat, WellFormed item) :
    WellFormed (intoConcat concat) := by
  unfold intoConcat
  split
  · trivial
  · exact h _ (List.mem_singleton_self _)
  · exact (wellFormedAll_iff _).2 h

theorem wellFormed_finish {concat : List Node} {alternates : Option (List Node)} (h : ∀ item ∈ concat, WellFormed item)
    (halternates : ∀ items, alternates = some items → ∀ item ∈ items, WellFormed item) :
    WellFormed (finish concat alternates) := by
  cases alternates with
  | none => exact wellFormed_intoConcat h
  | some items =>
    refine ⟨by simp, (wellFormedAll_iff _).2 ?_⟩
    intro item hitem
    rcases List.mem_append.1 hitem with hitem | hitem
    · exact halternates items rfl item hitem
    · obtain rfl := List.mem_singleton.1 hitem
      exact wellFormed_intoConcat h

theorem wellFormed_repeatLast {concat concat' : List Node} {min : Nat} {max : Option Nat}
    (hrange : ∀ most, max = some most → min ≤ most) (hconcat : ∀ item ∈ concat, WellFormed item)
    (h : repeatLast concat min max = .ok concat') : ∀ item ∈ concat', WellFormed item := by
  unfold repeatLast at h
  split at h
  · cases h
  · rename_i child hchild
    cases h
    intro item hitem
    rcases List.mem_append.1 hitem with hitem | hitem
    · exact hconcat item (List.mem_of_mem_dropLast hitem)
    · obtain rfl := List.mem_singleton.1 hitem
      exact ⟨hrange, hconcat child (List.mem_of_getLast? hchild)⟩

theorem wellFormed_countedRepeat {host : RegexHost} {concat concat' : List Node} {rest behind : List Nat}
    (hconcat : ∀ item ∈ concat, WellFormed item) (h : countedRepeat host concat rest = .ok (concat', behind)) :
    ∀ item ∈ concat', WellFormed item := by
  simp only [countedRepeat] at h
  split at h
  · cases h
  simp only [bind_ok] at h
  obtain ⟨⟨⟨min, max⟩, rest'⟩, _, h⟩ := h
  split at h
  · cases h
  split at h
  · cases h
  split at h
  · cases h
  · rename_i hrange
    simp only [bind_ok] at h
    obtain ⟨_, hlast, hresult⟩ := h
    cases hresult
    apply wellFormed_repeatLast _ hconcat hlast
    rintro most rfl
    simpa using hrange

theorem wellFormed_operator {point min : Nat} {max : Option Nat} (h : repeatOperator point = some (min, max)) :
    ∀ most, max = some most → min ≤ most := by
  unfold repeatOperator at h
  split_ifs at h <;> cases h <;> rintro most ⟨⟩
  exact Nat.zero_le 1

theorem wellFormed_primitive {tables : UnicodeTables} {caseInsensitive : Bool} {rest behind : List Nat} {node : Node}
    (h : parsePrimitive tables caseInsensitive rest = .ok (node, behind)) : WellFormed node := by
  have hescape : ∀ escape, WellFormed (escapeNode caseInsensitive escape) := by
    rintro (value | ⟨item, cost⟩ | look) <;> trivial
  unfold parsePrimitive at h
  split at h
  · cases h
    trivial
  split at h
  · simp only [bind_ok] at h
    obtain ⟨⟨escape, _⟩, _, hresult⟩ := h
    cases hresult
    exact hescape escape
  split_ifs at h <;> cases h <;> trivial

theorem wellFormed_class {tables : UnicodeTables} {caseInsensitive : Bool} {rest : List Nat} {behind : Behind rest}
    {node : Node} (h : parseClass tables caseInsensitive rest = .ok (node, behind)) : WellFormed node := by
  simp only [parseClass, bind_ok] at h
  obtain ⟨⟨bracketed, _⟩, _, hresult⟩ := h
  cases hresult
  trivial

/-- All that the parser holds is well formed. -/
def WellFormedParts (concat : List Node) (alternates : Option (List Node)) : Prop :=
  (∀ item ∈ concat, WellFormed item) ∧ ∀ items, alternates = some items → ∀ item ∈ items, WellFormed item

theorem WellFormedParts.push {concat : List Node} {alternates : Option (List Node)} (h : WellFormedParts concat alternates)
    {node : Node} (hnode : WellFormed node) : WellFormedParts (concat ++ [node]) alternates := by
  refine ⟨?_, h.2⟩
  intro item hitem
  rcases List.mem_append.1 hitem with hitem | hitem
  · exact h.1 item hitem
  · obtain rfl := List.mem_singleton.1 hitem
    exact hnode

theorem WellFormedParts.next {concat : List Node} {alternates : Option (List Node)}
    (h : WellFormedParts concat alternates) :
    WellFormedParts [] (some (alternates.getD [] ++ [intoConcat concat])) := by
  refine ⟨fun _ hitem => absurd hitem List.not_mem_nil, ?_⟩
  rintro items ⟨⟩ item hitem
  rcases List.mem_append.1 hitem with hitem | hitem
  · cases alternates with
    | none => cases hitem
    | some items => exact h.2 items rfl item hitem
  · obtain rfl := List.mem_singleton.1 hitem
    exact wellFormed_intoConcat h.1

theorem wellFormed_parseLoop {host : RegexHost} {tables : UnicodeTables} {caseInsensitive : Bool} {groups : List Group}
    {concat : List Node} {alternates : Option (List Node)} {rest : List Nat} {root : Node}
    (hgroups : ∀ group ∈ groups, WellFormedParts group.concat group.alternates)
    (hparts : WellFormedParts concat alternates)
    (h : parseLoop host tables caseInsensitive groups concat alternates rest = .ok root) : WellFormed root := by
  fun_induction parseLoop host tables caseInsensitive groups concat alternates rest with
  | case1 => cases h
  | case2 groups concat alternates =>
    cases h
    exact wellFormed_finish hparts.1 hparts.2
  | case3 => cases h
  | case4 groups concat alternates behind inner hstart hle ih =>
    refine ih ?_ ⟨fun _ hitem => absurd hitem List.not_mem_nil, fun _ hitems => absurd hitems (by simp)⟩ h
    intro group hgroup
    rcases List.mem_cons.1 hgroup with rfl | hgroup
    · exact hparts
    · exact hgroups group hgroup
  | case5 => cases h
  | case6 concat alternates behind group groups hpoint ih =>
    have hgroup : WellFormed (.group (finish concat alternates)) := wellFormed_finish hparts.1 hparts.2
    have hrest : ∀ group ∈ groups, WellFormedParts group.concat group.alternates :=
      fun other hother => hgroups other (List.mem_cons_of_mem group hother)
    exact ih hrest ((hgroups group List.mem_cons_self).push hgroup) h
  | case7 groups concat alternates behind _ _ ih => exact ih hgroups hparts.next h
  | case8 => cases h
  | case9 groups concat alternates behind node rest _ _ _ _ hclass ih =>
    exact ih hgroups (hparts.push (wellFormed_class hclass)) h
  | case10 => cases h
  | case11 groups concat alternates behind concat' rest hcounted hle _ _ _ _ ih =>
    exact ih hgroups ⟨wellFormed_countedRepeat hparts.1 hcounted, hparts.2⟩ h
  | case12 => cases h
  | case13 groups concat alternates point behind _ _ _ _ _ min max hoperator concat' hlast hle ih =>
    exact ih hgroups ⟨wellFormed_repeatLast (wellFormed_operator hoperator) hparts.1 hlast, hparts.2⟩ h
  | case14 => cases h
  | case15 groups concat alternates point behind _ _ _ _ _ hoperator node rest hprimitive hle ih =>
    exact ih hgroups (hparts.push (wellFormed_primitive hprimitive)) h

/-- Every tree the parser builds is well formed. -/
theorem wellFormed_parse {host : RegexHost} {tables : UnicodeTables} {caseInsensitive : Bool} {pattern : JsString}
    {root : Node} (h : parse host tables caseInsensitive pattern = .ok root) : WellFormed root := by
  have hparts : WellFormedParts [] none :=
    ⟨fun _ hitem => absurd hitem List.not_mem_nil, fun _ hitems => absurd hitems (by simp)⟩
  exact wellFormed_parseLoop (fun _ hgroup => absurd hgroup List.not_mem_nil) hparts h

end LaserSdk.Typescript.Regex

import LaserSdk.Lib.Checks
import LaserSdk.Filter.Path
import LaserSdk.Filter.Value
/-!
# Text predicates

A text predicate compiles to a plain comparison or to a regular expression.
The regex engine, Unicode lowercasing and the decimal text of a double belong
to the host: the code only builds expressions and asks them.
-/

namespace LaserSdk.Filter

open LaserSdk.Lib

structure Regex where
  expression : String
  caseInsensitive : Bool
  dotMatchesNewLine : Bool
  deriving DecidableEq, Repr

/-- What the code takes from its libraries. -/
structure Host where
  toLowercase : String → String
  /-- Building an expression under the size and nesting limits, with the
  engine's error. -/
  build : Regex → Except String Unit
  isMatch : Regex → String → Bool
  /-- `regex::escape`. -/
  escape : String → String
  /-- The shortest text that reads back as the double. -/
  doubleText : F64 → String
  /-- The text of a literal in an error. -/
  diagnosticText : TypedValue → String

def maxRegexPredicates : Nat := 4

def maxFilterStringBytes : Nat := 1024

inductive TextMatch where
  | equals | prefixed | suffix | contains | glob | regex
  deriving DecidableEq, Repr

structure TextPredicate where
  field : String
  kind : TextMatch
  pattern : String
  caseInsensitive : Bool
  deriving DecidableEq, Repr

inductive Program where
  | plain (pattern : String)
  | compiled (regex : Regex)
  deriving DecidableEq, Repr

structure TextMatcher where
  kind : TextMatch
  source : String
  caseInsensitive : Bool
  program : Program
  deriving DecidableEq, Repr

/-! ## Globs -/

inductive GlobToken where
  | anyRun
  | anyOne
  | literal (character : Char)
  deriving DecidableEq, Repr

def globTokens : List Char → Option (List GlobToken)
  | [] => some []
  | '\\' :: rest =>
    match rest with
    | [] => none
    | character :: rest => (globTokens rest).map (.literal character :: ·)
  | '*' :: rest => (globTokens rest).map (.anyRun :: ·)
  | '?' :: rest => (globTokens rest).map (.anyOne :: ·)
  | character :: rest => (globTokens rest).map (.literal character :: ·)

section

variable (host : Host)

def globExpression (caseInsensitive : Bool) (tokens : List GlobToken) : String :=
  let token : GlobToken → String
    | .anyRun => ".*"
    | .anyOne => "."
    | .literal character =>
      let literal := String.singleton character
      host.escape (if caseInsensitive then host.toLowercase literal else literal)
  "\\A(?:" ++ String.join (tokens.map token) ++ ")\\z"

def compileGlob (pattern : String) (caseInsensitive : Bool) : Except InvalidError Regex :=
  match globTokens pattern.toList with
  | none => .error "a glob pattern cannot end with an unescaped backslash"
  | some tokens =>
    let regex : Regex := ⟨globExpression host caseInsensitive tokens, false, true⟩
    match host.build regex with
    | .ok () => .ok regex
    | .error error => .error s!"invalid glob: {error}"

/-! ## Regular expressions -/

/-- The construct of a pattern that the engines do not share, if it has one. -/
def unportableRegexConstruct (inClass : Bool) : List Char → Option String
  | [] => none
  | '\\' :: rest =>
    match rest with
    | [] => none
    | escaped :: rest =>
      if '1' ≤ escaped ∧ escaped ≤ '9' then some "backreferences"
      else if escaped = 'k' then some "named backreferences"
      else unportableRegexConstruct inClass rest
  | '[' :: rest => unportableRegexConstruct true rest
  | ']' :: rest => unportableRegexConstruct false rest
  | '(' :: rest =>
    match rest with
    | '?' :: rest =>
      if inClass then unportableRegexConstruct inClass ('?' :: rest)
      else if rest.head? = some ':' then unportableRegexConstruct inClass rest
      else some "groups starting with (? other than (?:"
    | rest => unportableRegexConstruct inClass rest
  | _ :: rest => unportableRegexConstruct inClass rest

def compileRegex (pattern : String) (caseInsensitive : Bool) : Except InvalidError Regex :=
  match unportableRegexConstruct false pattern.toList with
  | some construct => .error s!"regex {construct} is not supported, write the pattern without it"
  | none =>
    let regex : Regex := ⟨pattern, caseInsensitive, false⟩
    match host.build regex with
    | .ok () => .ok regex
    | .error error => .error s!"invalid regex: {error}"

/-! ## Matching -/

def TextMatcher.compile (predicate : TextPredicate) : Except InvalidError TextMatcher := do
  refuseIf (predicate.pattern.utf8ByteSize > maxFilterStringBytes)
    s!"a text pattern exceeds {maxFilterStringBytes}B"
  let program ←
    match predicate.kind with
    | .regex => (compileRegex host predicate.pattern predicate.caseInsensitive).map Program.compiled
    | .glob => (compileGlob host predicate.pattern predicate.caseInsensitive).map Program.compiled
    | _ => .ok (.plain (if predicate.caseInsensitive then host.toLowercase predicate.pattern else predicate.pattern))
  return ⟨predicate.kind, predicate.pattern, predicate.caseInsensitive, program⟩

/-- Whether `needle` occurs in `text`. -/
def containsText (text needle : String) : Bool := text.toList.tails.any (needle.toList.isPrefixOf ·)

def TextMatcher.matches (matcher : TextMatcher) (value : String) : Bool :=
  match matcher.program with
  | .compiled regex =>
    if matcher.kind = .glob ∧ matcher.caseInsensitive then host.isMatch regex (host.toLowercase value)
    else host.isMatch regex value
  | .plain pattern =>
    let value := if matcher.caseInsensitive then host.toLowercase value else value
    match matcher.kind with
    | .equals => value == pattern
    | .prefixed => pattern.toList.isPrefixOf value.toList
    | .suffix => pattern.toList.isSuffixOf value.toList
    | .contains => containsText value pattern
    | .glob | .regex => false

end

end LaserSdk.Filter

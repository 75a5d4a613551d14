import LaserSdk.Lib.RegexText
import LaserSdk.Filter.Text
/-!
# Globs as regular expressions

A glob is translated token by token to an anchored regular expression. We prove
that the expression means what the glob does, for every pattern that compiles
and every text.
-/

namespace LaserSdk.Filter

open Lib

/-- What the documentation of the regex engine says of the expressions built
here: `escape` puts a backslash before every meta character, and a search finds
what the parsed expression means. -/
structure StandardRegex (host : Host) : Prop where
  escape : ∀ text, host.escape text = String.ofList (RegexText.escape text.toList)
  isMatch : ∀ regex e, regex.caseInsensitive = false → RegexText.parse regex.expression.toList = some e →
    ∀ text, host.isMatch regex text = true ↔ RegexText.IsMatch regex.dotMatchesNewLine e text.toList

/-! ## What a glob means -/

/-- The texts of a glob: `*` is any run of characters, `?` is one character,
`\` escapes the next character, and every other character is itself. -/
inductive Globs : (pattern text : List Char) → Prop
  | nil : Globs [] []
  | anyRun {pattern text : List Char} (run : List Char) (h : Globs pattern text) : Globs ('*' :: pattern) (run ++ text)
  | anyOne {pattern text : List Char} (c : Char) (h : Globs pattern text) : Globs ('?' :: pattern) (c :: text)
  | escaped {pattern text : List Char} (c : Char) (h : Globs pattern text) : Globs ('\\' :: c :: pattern) (c :: text)
  | literal {pattern text : List Char} (c : Char) (hc : c ≠ '*' ∧ c ≠ '?' ∧ c ≠ '\\') (h : Globs pattern text) :
      Globs (c :: pattern) (c :: text)

/-- The texts of some tokens, with the spelling of each literal. -/
def TokensMatch (spell : Char → List Char) : List GlobToken → List Char → Prop
  | [], text => text = []
  | .anyRun :: tokens, text => ∃ run rest, text = run ++ rest ∧ TokensMatch spell tokens rest
  | .anyOne :: tokens, text => ∃ c rest, text = c :: rest ∧ TokensMatch spell tokens rest
  | .literal c :: tokens, text => ∃ rest, text = spell c ++ rest ∧ TokensMatch spell tokens rest

/-- A pattern means what its tokens mean. -/
theorem globs_iff_tokens {pattern : List Char} {tokens : List GlobToken} (h : globTokens pattern = some tokens)
    (text : List Char) : Globs pattern text ↔ TokensMatch (fun c => [c]) tokens text := by
  induction pattern using globTokens.induct generalizing tokens text with
  | case1 =>
    cases h
    constructor
    · rintro ⟨⟩
      rfl
    · rintro rfl
      exact .nil
  | case2 => cases h
  | case3 c pattern ih =>
    obtain ⟨rest, hrest, rfl⟩ := Option.map_eq_some_iff.1 h
    constructor
    · intro hmeans
      cases hmeans with
      | escaped _ h => exact ⟨_, rfl, (ih hrest _).1 h⟩
      | literal _ hc _ => exact absurd rfl hc.2.2
    · rintro ⟨text, rfl, h⟩
      exact .escaped c ((ih hrest _).2 h)
  | case4 pattern ih =>
    obtain ⟨rest, hrest, rfl⟩ := Option.map_eq_some_iff.1 h
    constructor
    · intro hmeans
      cases hmeans with
      | anyRun run h => exact ⟨run, _, rfl, (ih hrest _).1 h⟩
      | literal _ hc _ => exact absurd rfl hc.1
    · rintro ⟨run, text, rfl, h⟩
      exact .anyRun run ((ih hrest _).2 h)
  | case5 pattern ih =>
    obtain ⟨rest, hrest, rfl⟩ := Option.map_eq_some_iff.1 h
    constructor
    · intro hmeans
      cases hmeans with
      | anyOne c h => exact ⟨c, _, rfl, (ih hrest _).1 h⟩
      | literal _ hc _ => exact absurd rfl hc.2.1
    · rintro ⟨c, text, rfl, h⟩
      exact .anyOne c ((ih hrest _).2 h)
  | case6 c pattern hescape hrun hone ih =>
    rw [globTokens] at h
    · obtain ⟨rest, hrest, rfl⟩ := Option.map_eq_some_iff.1 h
      constructor
      · intro hmeans
        cases hmeans with
        | literal _ _ h => exact ⟨_, rfl, (ih hrest _).1 h⟩
        | anyRun _ _ => exact (hrun rfl).elim
        | anyOne _ _ => exact (hone rfl).elim
        | escaped _ _ => exact (hescape rfl).elim
      · rintro ⟨text, rfl, h⟩
        exact .literal c ⟨hrun, hone, hescape⟩ ((ih hrest _).2 h)
    · exact hescape
    · exact hrun
    · exact hone

/-! ## The expression of a glob -/

section

variable {host : Host}

/-- The text that a literal of a glob is searched as. -/
def literalText (host : Host) (caseInsensitive : Bool) (c : Char) : List Char :=
  if caseInsensitive then (host.toLowercase (String.singleton c)).toList else [c]

/-- The items a token is translated to. -/
def tokenItems (spell : Char → List Char) : GlobToken → List RegexText.Expr
  | .anyRun => [.star .any]
  | .anyOne => [.any]
  | .literal c => (spell c).map .char

/-- The text of a token, as `globExpression` writes it. -/
def tokenText (spell : Char → List Char) : GlobToken → List Char
  | .anyRun => ['.', '*']
  | .anyOne => ['.']
  | .literal c => RegexText.escape (spell c)

theorem globExpression_toList (hregex : StandardRegex host) (caseInsensitive : Bool) (tokens : List GlobToken) :
    (globExpression host caseInsensitive tokens).toList =
      '\\' :: 'A' :: '(' :: '?' :: ':' ::
        (tokens.flatMap (tokenText (literalText host caseInsensitive)) ++ [')', '\\', 'z']) := by
  simp only [globExpression, String.toList_append, String.toList_join, List.flatMap_map]
  show _ = ['\\', 'A', '(', '?', ':'] ++ (tokens.flatMap _ ++ [')', '\\', 'z'])
  rw [List.append_assoc]
  congr 2
  refine List.flatMap_congr fun token _ => ?_
  cases token with
  | anyRun => simp [tokenText]
  | anyOne => simp [tokenText]
  | literal c =>
    show (host.escape _).toList = _
    rw [hregex.escape, String.toList_ofList]
    cases caseInsensitive <;> simp [tokenText, literalText]

/-- Inside its group each token is read as its items. -/
theorem parseFrom_tokens (spell : Char → List Char) (outer : List (List RegexText.Expr)) (items : List RegexText.Expr)
    (tokens : List GlobToken) (rest : List Char) :
    RegexText.parseFrom outer items (tokens.flatMap (tokenText spell) ++ rest) =
      RegexText.parseFrom outer ((tokens.flatMap (tokenItems spell)).reverse ++ items) rest := by
  induction tokens generalizing items with
  | nil => rfl
  | cons token tokens ih =>
    rw [List.flatMap_cons, List.flatMap_cons, List.append_assoc, List.reverse_append, List.append_assoc, ← ih]
    cases token with
    | anyRun => rfl
    | anyOne => rfl
    | literal c => exact RegexText.parseFrom_escape outer items (spell c) _

theorem parse_globExpression (hregex : StandardRegex host) (caseInsensitive : Bool) (tokens : List GlobToken) :
    RegexText.parse (globExpression host caseInsensitive tokens).toList =
      some (RegexText.sequence [.start, RegexText.sequence (tokens.flatMap (tokenItems (literalText host caseInsensitive))),
        .stop]) := by
  rw [globExpression_toList hregex, RegexText.parse]
  show RegexText.parseFrom [[.start]] [] _ = _
  rw [parseFrom_tokens, List.append_nil]
  show some (RegexText.sequence [.start, RegexText.sequence (List.reverse (List.reverse _)), .stop]) = _
  rw [List.reverse_reverse]

/-! ## Its meaning -/

/-- The items of the tokens match where the tokens do. -/
theorem spans_tokens {spell : Char → List Char} {tokens : List GlobToken} {before span after : List Char} :
    RegexText.Spans true (RegexText.sequence (tokens.flatMap (tokenItems spell))) before span after ↔
      TokensMatch spell tokens span := by
  induction tokens generalizing before span with
  | nil => exact RegexText.spans_empty
  | cons token tokens ih =>
    rw [List.flatMap_cons, RegexText.spans_append]
    simp only [ih]
    cases token with
    | anyRun => simp [tokenItems, RegexText.sequence, RegexText.spans_seq, RegexText.spans_star_any, TokensMatch]
    | anyOne =>
      simp only [tokenItems, RegexText.sequence, RegexText.spans_seq, RegexText.spans_any, RegexText.spans_empty, TokensMatch]
      constructor
      · rintro ⟨_, rest, rfl, ⟨_, _, rfl, ⟨c, rfl⟩, rfl⟩, h⟩
        exact ⟨c, rest, rfl, h⟩
      · rintro ⟨c, rest, rfl, h⟩
        exact ⟨[c], rest, rfl, ⟨[c], [], rfl, ⟨c, rfl⟩, rfl⟩, h⟩
    | literal c => simp [tokenItems, RegexText.spans_literal, TokensMatch]

/-- The expression of a glob matches where its tokens match the whole text. -/
theorem isMatch_glob (hregex : StandardRegex host) {caseInsensitive : Bool} {tokens : List GlobToken} {text : String} :
    host.isMatch ⟨globExpression host caseInsensitive tokens, false, true⟩ text = true ↔
      TokensMatch (literalText host caseInsensitive) tokens text.toList := by
  have hsearch := hregex.isMatch ⟨globExpression host caseInsensitive tokens, false, true⟩ _ rfl
    (parse_globExpression hregex caseInsensitive tokens) text
  rw [hsearch, RegexText.isMatch_anchored, spans_tokens]

theorem compileGlob_ok {pattern : String} {caseInsensitive : Bool} {regex : Regex}
    (h : compileGlob host pattern caseInsensitive = .ok regex) : ∃ tokens, globTokens pattern.toList = some tokens ∧
      regex = ⟨globExpression host caseInsensitive tokens, false, true⟩ := by
  unfold compileGlob at h
  split at h
  · cases h
  · rename_i tokens htokens
    refine ⟨tokens, htokens, ?_⟩
    dsimp only at h
    split at h
    · cases h
      rfl
    · cases h

theorem compile_glob_parts {field pattern : String} {caseInsensitive : Bool} {matcher : TextMatcher}
    (h : TextMatcher.compile host ⟨field, .glob, pattern, caseInsensitive⟩ = .ok matcher) :
    ∃ tokens, globTokens pattern.toList = some tokens ∧
      matcher = ⟨.glob, pattern, caseInsensitive, .compiled ⟨globExpression host caseInsensitive tokens, false, true⟩⟩ := by
  simp only [TextMatcher.compile, bind_ok, pure_ok, map_ok] at h
  obtain ⟨-, -, program, ⟨regex, hglob, rfl⟩, rfl⟩ := h
  obtain ⟨tokens, htokens, rfl⟩ := compileGlob_ok hglob
  exact ⟨tokens, htokens, rfl⟩

/-- The matcher of a glob accepts exactly the texts of the glob. -/
theorem glob_matches_iff (hregex : StandardRegex host) {field pattern : String} {matcher : TextMatcher}
    (hcompile : TextMatcher.compile host ⟨field, .glob, pattern, false⟩ = .ok matcher) (text : String) :
    matcher.matches host text = true ↔ Globs pattern.toList text.toList := by
  obtain ⟨tokens, htokens, rfl⟩ := compile_glob_parts hcompile
  rw [globs_iff_tokens htokens]
  exact isMatch_glob hregex

end

/-- A host whose engine is the standard meaning itself. -/
noncomputable def standardHost (toLowercase : String → String) : Host where
  toLowercase := toLowercase
  build _ := .ok ()
  isMatch regex text := open Classical in
    decide (∃ e, RegexText.parse regex.expression.toList = some e ∧
      RegexText.IsMatch regex.dotMatchesNewLine e text.toList)
  escape text := String.ofList (RegexText.escape text.toList)
  doubleText _ := ""
  diagnosticText _ := ""

theorem standardRegex_standardHost (toLowercase : String → String) : StandardRegex (standardHost toLowercase) where
  escape _ := rfl
  isMatch regex e _ hparse text := by
    simp [standardHost, hparse]

theorem compile_glob {toLowercase : String → String} {field pattern : String} {caseInsensitive : Bool}
    {tokens : List GlobToken} (hsize : pattern.utf8ByteSize ≤ maxFilterStringBytes)
    (htokens : globTokens pattern.toList = some tokens) :
    TextMatcher.compile (standardHost toLowercase) ⟨field, .glob, pattern, caseInsensitive⟩ =
      .ok ⟨.glob, pattern, caseInsensitive,
        .compiled ⟨globExpression (standardHost toLowercase) caseInsensitive tokens, false, true⟩⟩ := by
  simp only [TextMatcher.compile, bind_ok, refuseIf_ok, pure_ok, map_ok, compileGlob, htokens]
  exact ⟨(), Nat.not_lt.2 hsize, _, ⟨_, rfl, rfl⟩, rfl⟩

theorem glob_matches_linefeed : ∃ matcher,
    TextMatcher.compile (standardHost id) ⟨"type", .glob, "(a*\\?", false⟩ = .ok matcher ∧
      matcher.matches (standardHost id) "(a\n.?" = true := by
  have hcompile := @compile_glob id "type" "(a*\\?" false _ (by decide) rfl
  refine ⟨_, hcompile, (glob_matches_iff (standardRegex_standardHost id) hcompile _).2 ?_⟩
  exact .literal '(' (by decide) (.literal 'a' (by decide) (.anyRun ['\n', '.'] (.escaped '?' .nil)))

end LaserSdk.Filter

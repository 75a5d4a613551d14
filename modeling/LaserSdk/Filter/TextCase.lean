import Mathlib.Data.List.Infix
import LaserSdk.Lib.Lowercase
import LaserSdk.Filter.Glob
/-!
# Text matches that ignore case

Ignoring case lowercases the pattern and the text apart from each other, and a
glob one literal at a time. What matches with its case then need not match
without: a capital sigma is lowercased by its place in the word, and a capital
I with a dot becomes two characters where a `?` takes one. We prove that a match
without either is kept.
-/

namespace LaserSdk.Filter

open Lib

/-- Wildcards with a run among them come next. -/
def runAhead : List GlobToken → Bool
  | .anyRun :: _ => true
  | .anyOne :: tokens => runAhead tokens
  | _ => false

/-- The tokens match the text behind `before` in a way that lowercasing keeps:
no literal sigma ends a word in its place, and what a `?` takes stays one
character unless a run stands among the same wildcards. `run` says that one came
before. -/
def TokensFold (tables : CaseTables) (run : Bool) (before : List Char) : List GlobToken → List Char → Prop
  | [], text => text = []
  | .anyRun :: tokens, text => ∃ part rest, text = part ++ rest ∧ TokensFold tables true (before ++ part) tokens rest
  | .anyOne :: tokens, text => ∃ c rest, text = c :: rest ∧
      (run = true ∨ runAhead tokens = true ∨ c = 'Σ' ∨ (tables.lower c).length = 1) ∧
      TokensFold tables run (before ++ [c]) tokens rest
  | .literal c :: tokens, text => ∃ rest, text = c :: rest ∧ (c = 'Σ' → tables.finalSigma before rest = false) ∧
      TokensFold tables false (before ++ [c]) tokens rest

/-- A pattern that occurs in the text occurs where lowercasing the two apart
keeps the match. -/
def FoldsApart (tables : CaseTables) (kind : TextMatch) (pattern text : List Char) : Prop :=
  match kind with
  | .equals => True
  | .prefixed => ∀ after, text = pattern ++ after → tables.SameSigmas [] pattern after
  | .suffix => ∀ before, text = before ++ pattern → tables.SameSigmas before pattern []
  | .contains => (∃ before after, text = before ++ pattern ++ after) →
      ∃ before after, text = before ++ pattern ++ after ∧ tables.SameSigmas before pattern after
  | .glob => ∀ tokens, globTokens pattern = some tokens → TokensMatch (fun c => [c]) tokens text →
      TokensFold tables false [] tokens text
  | .regex => False

section

variable {tables : CaseTables}

theorem lowerChar_one {before after : List Char} {c : Char} (h : c = 'Σ' ∨ (tables.lower c).length = 1) :
    ∃ d, tables.lowerChar before c after = [d] := by
  unfold CaseTables.lowerChar
  split
  · exact ⟨_, rfl⟩
  · exact List.length_eq_one_iff.1 (h.resolve_left ‹_›)

theorem lowerChar_cons (before after : List Char) (c : Char) : ∃ d more, tables.lowerChar before c after = d :: more := by
  unfold CaseTables.lowerChar
  split
  · exact ⟨_, _, rfl⟩
  · exact List.exists_cons_of_ne_nil (tables.lower_ne_nil c)

/-- A literal is lowercased in the text as it is alone, unless it is a sigma
that ends a word there. -/
theorem lowerChar_literal {before after : List Char} {c : Char} (h : c = 'Σ' → tables.finalSigma before after = false) :
    tables.lowerChar before c after = tables.toLowercase [c] := by
  by_cases hc : c = 'Σ'
  · subst hc
    have halone : tables.finalSigma [] [] = false := rfl
    simp [CaseTables.toLowercase, CaseTables.lowerIn, CaseTables.lowerChar, h rfl, halone]
  · simp [CaseTables.toLowercase, CaseTables.lowerIn, CaseTables.lowerChar, hc]

/-! A run takes in whatever stands before its text. -/

theorem TokensMatch.run_append {spell : Char → List Char} {tokens : List GlobToken} {text : List Char}
    (h : TokensMatch spell (.anyRun :: tokens) text) (more : List Char) : TokensMatch spell (.anyRun :: tokens) (more ++ text) := by
  obtain ⟨run, rest, rfl, hrest⟩ := h
  exact ⟨more ++ run, rest, (List.append_assoc _ _ _).symm, hrest⟩

theorem TokensMatch.ahead_append {spell : Char → List Char} {tokens : List GlobToken} {text : List Char}
    (hahead : runAhead tokens = true) (h : TokensMatch spell tokens text) (more : List Char) :
    TokensMatch spell tokens (more ++ text) := by
  induction tokens generalizing text more with
  | nil => cases hahead
  | cons token tokens ih =>
    cases token with
    | anyRun => exact h.run_append more
    | literal c => cases hahead
    | anyOne =>
      obtain ⟨c, rest, rfl, hrest⟩ := h
      cases more with
      | nil => exact ⟨c, rest, rfl, hrest⟩
      | cons d more =>
        refine ⟨d, more ++ c :: rest, rfl, ?_⟩
        rw [← List.singleton_append, ← List.append_assoc]
        exact ih hahead hrest (more ++ [c])

/-- Of some more text, a run takes all but the character of the `?` behind it. -/
theorem TokensMatch.run_one {spell : Char → List Char} {tokens : List GlobToken} {text : List Char}
    (h : TokensMatch spell (.anyRun :: tokens) text) (d : Char) (more : List Char) :
    TokensMatch spell (.anyRun :: .anyOne :: tokens) (d :: more ++ text) := by
  obtain ⟨run, rest, rfl, hrest⟩ := h
  obtain ⟨first, last, hlast⟩ : ∃ first last, d :: more ++ run = first ++ [last] :=
    ⟨_, _, (List.dropLast_append_getLast (by simp)).symm⟩
  refine ⟨first, last :: rest, ?_, last, rest, rfl, hrest⟩
  rw [← List.append_assoc, hlast, List.append_assoc, List.singleton_append]

/-- Tokens that match a text so match its lowercase with their literals
lowercased, behind the run that came before them. -/
theorem TokensFold.lower {tokens : List GlobToken} {run : Bool} {before text : List Char}
    (h : TokensFold tables run before tokens text) :
    TokensMatch (fun c => tables.toLowercase [c]) (if run then .anyRun :: tokens else tokens) (tables.lowerIn before text []) := by
  -- A run may be empty.
  have hskip : ∀ {run : Bool} {tokens text}, TokensMatch (fun c => tables.toLowercase [c]) tokens text →
      TokensMatch (fun c => tables.toLowercase [c]) (if run then .anyRun :: tokens else tokens) text := by
    intro run tokens text hmatch
    cases run with
    | false => exact hmatch
    | true => exact ⟨[], text, rfl, hmatch⟩
  induction tokens generalizing run before text with
  | nil =>
    cases h
    exact hskip rfl
  | cons token tokens ih =>
    cases token with
    | anyRun =>
      obtain ⟨part, rest, rfl, hrest⟩ := h
      rw [tables.lowerIn_append]
      exact hskip ((ih hrest).run_append _)
    | literal c =>
      obtain ⟨rest, rfl, hsigma, hrest⟩ := h
      rw [CaseTables.lowerIn, lowerChar_literal (by simpa using hsigma)]
      exact hskip ⟨_, rfl, ih hrest⟩
    | anyOne =>
      obtain ⟨c, rest, rfl, htaken, hrest⟩ := h
      have hmatch := ih hrest
      rw [CaseTables.lowerIn]
      cases run with
      | true =>
        obtain ⟨d, more, hlower⟩ := @lowerChar_cons tables before (rest ++ []) c
        rw [hlower]
        exact hmatch.run_one d more
      | false =>
        rcases htaken.resolve_left (by simp) with hahead | hone
        · obtain ⟨d, more, hlower⟩ := @lowerChar_cons tables before (rest ++ []) c
          rw [hlower]
          exact ⟨d, _, rfl, hmatch.ahead_append hahead more⟩
        · obtain ⟨d, hlower⟩ := @lowerChar_one tables before (rest ++ []) c hone
          rw [hlower]
          exact ⟨d, _, rfl, hmatch⟩

end

section

variable {tables : CaseTables} {host : Host} {field pattern : String}

theorem compile_plain {kind : TextMatch} {caseInsensitive : Bool} {matcher : TextMatcher} (hglob : kind ≠ .glob)
    (hregex : kind ≠ .regex) (h : TextMatcher.compile host ⟨field, kind, pattern, caseInsensitive⟩ = .ok matcher) :
    matcher = ⟨kind, pattern, caseInsensitive, .plain (if caseInsensitive then host.toLowercase pattern else pattern)⟩ := by
  simp only [TextMatcher.compile, bind_ok, pure_ok] at h
  obtain ⟨-, -, program, hprogram, rfl⟩ := h
  cases kind with
  | glob => exact absurd rfl hglob
  | regex => exact absurd rfl hregex
  | equals | prefixed | suffix | contains =>
    cases hprogram
    rfl

theorem containsText_iff {text needle : String} :
    containsText text needle = true ↔ ∃ before after, text.toList = before ++ needle.toList ++ after := by
  simp only [containsText, List.any_eq_true, List.mem_tails, List.isPrefixOf_iff_prefix]
  constructor
  · rintro ⟨tail, ⟨before, hbefore⟩, after, rfl⟩
    exact ⟨before, after, by rw [← hbefore, List.append_assoc]⟩
  · rintro ⟨before, after, htext⟩
    exact ⟨needle.toList ++ after, ⟨before, by rw [htext, List.append_assoc]⟩, after, rfl⟩

theorem toList_lowered (hlower : ∀ text, host.toLowercase text = String.ofList (tables.toLowercase text.toList)) (text : String) :
    (host.toLowercase text).toList = tables.toLowercase text.toList := by
  rw [hlower, String.toList_ofList]

/-- A plain match with the case is one without it. -/
theorem plain_folds (hlower : ∀ text, host.toLowercase text = String.ofList (tables.toLowercase text.toList))
    {kind : TextMatch} {text : String} (hkind : kind ≠ .glob)
    (hmatch : TextMatcher.matches host ⟨kind, pattern, false, .plain pattern⟩ text = true)
    (hfolds : FoldsApart tables kind pattern.toList text.toList) :
    TextMatcher.matches host ⟨kind, pattern, true, .plain (host.toLowercase pattern)⟩ text = true := by
  have hpattern := toList_lowered hlower pattern
  have htext := toList_lowered hlower text
  cases kind with
  | glob => exact absurd rfl hkind
  | regex => exact hfolds.elim
  | equals =>
    simp only [TextMatcher.matches, Bool.false_eq_true, if_false, if_true, beq_iff_eq] at hmatch ⊢
    rw [hmatch]
  | prefixed =>
    simp only [TextMatcher.matches, Bool.false_eq_true, if_false, if_true, List.isPrefixOf_iff_prefix] at hmatch ⊢
    obtain ⟨after, hafter⟩ := hmatch
    rw [hpattern, htext, ← hafter, tables.toLowercase_prefix_iff]
    exact hfolds after hafter.symm
  | suffix =>
    simp only [TextMatcher.matches, Bool.false_eq_true, if_false, if_true, List.isSuffixOf_iff_suffix] at hmatch ⊢
    obtain ⟨before, hbefore⟩ := hmatch
    rw [hpattern, htext, ← hbefore, tables.toLowercase_suffix_iff]
    exact hfolds before hbefore.symm
  | contains =>
    simp only [TextMatcher.matches, Bool.false_eq_true, if_false, if_true, containsText_iff] at hmatch ⊢
    obtain ⟨before, after, hsplit, hsame⟩ := hfolds hmatch
    rw [hpattern, htext, hsplit, tables.toLowercase_append, tables.lowerIn_eq_iff.2 hsame]
    exact ⟨_, _, rfl⟩

/-- Of a prefix or a suffix only such a match is kept. -/
theorem affix_folds (hlower : ∀ text, host.toLowercase text = String.ofList (tables.toLowercase text.toList))
    {kind : TextMatch} {text : String} (hkind : kind = .prefixed ∨ kind = .suffix)
    (hmatch : TextMatcher.matches host ⟨kind, pattern, true, .plain (host.toLowercase pattern)⟩ text = true) :
    FoldsApart tables kind pattern.toList text.toList := by
  have hpattern := toList_lowered hlower pattern
  have htext := toList_lowered hlower text
  rcases hkind with rfl | rfl
  · simp only [TextMatcher.matches, if_true, List.isPrefixOf_iff_prefix, hpattern, htext] at hmatch
    intro after hafter
    rwa [hafter, tables.toLowercase_prefix_iff] at hmatch
  · simp only [TextMatcher.matches, if_true, List.isSuffixOf_iff_suffix, hpattern, htext] at hmatch
    intro before hbefore
    rwa [hbefore, tables.toLowercase_suffix_iff] at hmatch

/-- A glob that ignores case matches the lowercased text token by token. -/
theorem glob_insensitive_iff (hregex : StandardRegex host)
    (hlower : ∀ text, host.toLowercase text = String.ofList (tables.toLowercase text.toList)) {tokens : List GlobToken}
    {text : String} :
    host.isMatch ⟨globExpression host true tokens, false, true⟩ (host.toLowercase text) = true ↔
      TokensMatch (fun c => tables.toLowercase [c]) tokens (tables.toLowercase text.toList) := by
  have hspell : literalText host true = fun c => tables.toLowercase [c] := by
    funext c
    rw [literalText, if_pos rfl, toList_lowered hlower, String.toList_singleton]
  rw [isMatch_glob hregex, hspell, toList_lowered hlower]

/-- What a matcher finds with its case it finds without, for every plain
pattern or glob that occurs where its lowercase is that of its place. A prefix
or a suffix is found nowhere else. -/
theorem case_kept_without {kind : TextMatch} {sensitive insensitive : TextMatcher} {text : String}
    (hregex : StandardRegex host) (hlower : ∀ text, host.toLowercase text = String.ofList (tables.toLowercase text.toList))
    (hsensitive : TextMatcher.compile host ⟨field, kind, pattern, false⟩ = .ok sensitive)
    (hinsensitive : TextMatcher.compile host ⟨field, kind, pattern, true⟩ = .ok insensitive)
    (hmatch : sensitive.matches host text = true) :
    (FoldsApart tables kind pattern.toList text.toList → insensitive.matches host text = true) ∧
      (kind = .prefixed ∨ kind = .suffix → insensitive.matches host text = true →
        FoldsApart tables kind pattern.toList text.toList) := by
  constructor
  · intro hfolds
    by_cases hkind : kind = .glob
    · subst hkind
      obtain ⟨tokens, htokens, rfl⟩ := compile_glob_parts hsensitive
      obtain ⟨_, hsame, rfl⟩ := compile_glob_parts hinsensitive
      cases htokens.symm.trans hsame
      have hmatched : TokensMatch (fun c => [c]) tokens text.toList := (isMatch_glob hregex).1 hmatch
      exact (glob_insensitive_iff hregex hlower).2 (hfolds tokens htokens hmatched).lower
    · have hplain : kind ≠ .regex := by
        rintro rfl
        exact hfolds
      cases compile_plain hkind hplain hsensitive
      cases compile_plain hkind hplain hinsensitive
      exact plain_folds hlower hkind hmatch hfolds
  · intro hkind hfound
    have hplain : kind ≠ .glob ∧ kind ≠ .regex := by rcases hkind with rfl | rfl <;> simp
    cases compile_plain hplain.1 hplain.2 hinsensitive
    exact affix_folds hlower hkind hfound

end

/-! Greek words, and a letter that becomes two. -/

/-- The entries of the tables for these letters. -/
def letterTables : CaseTables where
  lower c :=
    if c = 'İ' then ['i', Char.ofNat 0x307]
    else if 'Α' ≤ c ∧ c ≤ 'Ω' then [Char.ofNat (c.toNat + 32)]
    else [c.toLower]
  lower_ne_nil c := by
    split
    · simp
    · split <;> simp
  cased c := c.isAlpha || ('Α' ≤ c && c ≤ 'ω') || c = 'İ'
  ignorable c := c = Char.ofNat 0x307

noncomputable def letterHost : Host := standardHost fun text => String.ofList (letterTables.toLowercase text.toList)

theorem letterHost_lower (text : String) :
    letterHost.toLowercase text = String.ofList (letterTables.toLowercase text.toList) := rfl

theorem letterHost_regex : StandardRegex letterHost := standardRegex_standardHost _

/-- A glob from the shared cases. The dotted letter is a literal. -/
theorem case_kept_without_dotted : ∃ insensitive,
    TextMatcher.compile letterHost ⟨"word", .glob, "İ?", true⟩ = .ok insensitive ∧
      insensitive.matches letterHost "İx" = true := by
  have htokens : globTokens "İ?".toList = some [.literal 'İ', .anyOne] := by decide
  have hcompile := fun caseInsensitive => @compile_glob (fun text => String.ofList (letterTables.toLowercase text.toList))
    "word" "İ?" caseInsensitive _ (by decide) htokens
  have hfolds : FoldsApart letterTables .glob "İ?".toList "İx".toList := by
    intro tokens hsame _
    cases htokens.symm.trans hsame
    exact ⟨['x'], rfl, by decide, 'x', [], rfl, by decide, rfl⟩
  refine ⟨_, hcompile true, (case_kept_without letterHost_regex letterHost_lower (hcompile false) (hcompile true) ?_).1 hfolds⟩
  exact (isMatch_glob letterHost_regex).2 ⟨['x'], rfl, 'x', [], rfl, rfl⟩

/-- A predicate matches with its case and not without. -/
def LosesMatch (host : Host) (kind : TextMatch) (pattern text : String) : Prop := ∃ sensitive insensitive,
  TextMatcher.compile host ⟨"word", kind, pattern, false⟩ = .ok sensitive ∧
    TextMatcher.compile host ⟨"word", kind, pattern, true⟩ = .ok insensitive ∧
    sensitive.matches host text = true ∧ insensitive.matches host text = false

theorem glob_loses {pattern text : String} {tokens : List GlobToken} (hsize : pattern.utf8ByteSize ≤ maxFilterStringBytes)
    (htokens : globTokens pattern.toList = some tokens) (hmatch : TokensMatch (fun c => [c]) tokens text.toList)
    (hlost : ¬ TokensMatch (fun c => letterTables.toLowercase [c]) tokens (letterTables.toLowercase text.toList)) :
    LosesMatch letterHost .glob pattern text := by
  refine ⟨_, _, compile_glob hsize htokens, compile_glob hsize htokens, (isMatch_glob letterHost_regex).2 hmatch, ?_⟩
  exact Bool.eq_false_iff.2 fun h => hlost ((glob_insensitive_iff letterHost_regex letterHost_lower).1 h)

/-- Every kind but equality loses some match. -/
theorem case_lost_without : LosesMatch letterHost .prefixed "ΑΣ" "ΑΣΑ" ∧ LosesMatch letterHost .suffix "Σ" "ΑΣ" ∧
    LosesMatch letterHost .contains "ΑΣ" "ΑΣΑ" ∧ LosesMatch letterHost .glob "ΑΣ" "ΑΣ" ∧
    LosesMatch letterHost .glob "?" "İ" := by
  refine ⟨⟨_, _, rfl, rfl, rfl, rfl⟩, ⟨_, _, rfl, rfl, rfl, rfl⟩, ⟨_, _, rfl, rfl, rfl, rfl⟩, ?_, ?_⟩
  · refine @glob_loses "ΑΣ" "ΑΣ" [.literal 'Α', .literal 'Σ'] (by decide) (by decide) ⟨_, rfl, _, rfl, rfl⟩ ?_
    have htext : letterTables.toLowercase ['Α', 'Σ'] = ['α', 'ς'] := by decide
    have halpha : letterTables.toLowercase ['Α'] = ['α'] := by decide
    have hsigma : letterTables.toLowercase ['Σ'] = ['σ'] := by decide
    simp [TokensMatch, htext, halpha, hsigma]
  · refine @glob_loses "?" "İ" [.anyOne] (by decide) (by decide) ⟨_, _, rfl, rfl⟩ ?_
    have htext : letterTables.toLowercase ['İ'] = ['i', Char.ofNat 0x307] := by decide
    simp [TokensMatch, htext]

end LaserSdk.Filter

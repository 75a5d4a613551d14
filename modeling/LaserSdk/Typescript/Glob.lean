import Mathlib.Data.Nat.Bitwise
import LaserSdk.Lib.Utf16
/-!
# Globs in the TypeScript client

The TypeScript client matches a glob without a regex engine. The positions
between the tokens that the text read so far can reach are the bits of one
integer. A character moves them all at once. A run keeps its own position and
also opens the next one, in a single step, since adjacent runs were collapsed
when the program was built.
-/

namespace LaserSdk.Typescript

open LaserSdk.Lib

/-- A literal is one code point. -/
inductive GlobToken where
  | run
  | one
  | literal (value : Nat)
  deriving DecidableEq, Repr

/-! ## The tokens of a pattern -/

/-- The loop of `globTokens` over the characters of the pattern. -/
def globTokensFrom : List Nat → Option (List GlobToken)
  | [] => some []
  | character :: rest =>
    if character = '*'.toNat then (globTokensFrom rest).map (.run :: ·)
    else if character = '?'.toNat then (globTokensFrom rest).map (.one :: ·)
    else if character = '\\'.toNat then
      match rest with
      | [] => none
      | escaped :: rest => (globTokensFrom rest).map (.literal escaped :: ·)
    else (globTokensFrom rest).map (.literal character :: ·)

def globTokens (pattern : JsString) : Option (List GlobToken) := globTokensFrom (codePoints pattern)

/-! ## The program -/

structure GlobProgram where
  runs : Nat
  ones : Nat
  /-- The map of the literals, zero where it has no entry. -/
  literals : Nat → Nat
  accept : Nat

/-- The constructor halfway through its tokens. -/
structure Building where
  runs : Nat
  ones : Nat
  literals : Nat → Nat
  count : Nat
  previousRun : Bool

namespace GlobProgram

def add (b : Building) (token : GlobToken) : Building :=
  if token = .run ∧ b.previousRun = true then b
  else
    let state := 1 <<< b.count
    match token with
    | .run => { b with runs := b.runs ||| state, count := b.count + 1, previousRun := true }
    | .one => { b with ones := b.ones ||| state, count := b.count + 1, previousRun := false }
    | .literal value =>
      { b with
        literals := fun other => if other = value then b.literals value ||| state else b.literals other
        count := b.count + 1
        previousRun := false }

def ofTokens (tokens : List GlobToken) : GlobProgram :=
  let b := tokens.foldl add ⟨0, 0, fun _ => 0, 0, false⟩
  ⟨b.runs, b.ones, b.literals, 1 <<< b.count⟩

variable (program : GlobProgram)

/-- One character, before the runs open the next position. -/
def advance (active character : Nat) : Nat :=
  ((active &&& (program.ones ||| program.literals character)) <<< 1) ||| (active &&& program.runs)

/-- The runs open the next position. -/
def closed (active : Nat) : Nat := active ||| ((active &&& program.runs) <<< 1)

/-- The loop of `matches`, which leaves as soon as nothing is active. -/
def matchesFrom (active : Nat) : List Nat → Bool
  | [] => (active &&& program.accept) != 0
  | character :: rest =>
    let active := program.closed (program.advance active character)
    if active = 0 then false else matchesFrom active rest

end GlobProgram

def GlobProgram.matches (program : GlobProgram) (value : JsString) : Bool :=
  program.matchesFrom (1 ||| ((1 &&& program.runs) <<< 1)) (codePoints value)

/-! ## What the tokens mean -/

/-- The texts of some tokens: a run is any number of characters, a one is a
single character and a literal is itself. -/
def GlobMatches : List GlobToken → List Nat → Prop
  | [], text => text = []
  | .run :: tokens, text => ∃ skipped rest, text = skipped ++ rest ∧ GlobMatches tokens rest
  | .one :: tokens, text => ∃ character rest, text = character :: rest ∧ GlobMatches tokens rest
  | .literal value :: tokens, text => ∃ rest, text = value :: rest ∧ GlobMatches tokens rest

/-- Whether a token reads this one character. -/
def GlobToken.reads (character : Nat) : GlobToken → Prop
  | .run => False
  | .one => True
  | .literal value => value = character

theorem globMatches_run_nil {tokens : List GlobToken} : GlobMatches (.run :: tokens) [] ↔ GlobMatches tokens [] := by
  constructor
  · rintro ⟨skipped, rest, htext, h⟩
    obtain ⟨-, rfl⟩ := List.append_eq_nil_iff.1 htext.symm
    exact h
  · intro h
    exact ⟨[], [], rfl, h⟩

/-- A run leaves the first character to the others or takes it. -/
theorem globMatches_run_cons {tokens : List GlobToken} {character : Nat} {text : List Nat} :
    GlobMatches (.run :: tokens) (character :: text) ↔
      GlobMatches tokens (character :: text) ∨ GlobMatches (.run :: tokens) text := by
  constructor
  · rintro ⟨skipped, rest, htext, h⟩
    cases skipped with
    | nil => exact .inl (htext ▸ h)
    | cons first skipped =>
      obtain ⟨-, rfl⟩ := List.cons_eq_cons.1 htext
      exact .inr ⟨skipped, rest, rfl, h⟩
  · rintro (h | ⟨skipped, rest, rfl, h⟩)
    · exact ⟨[], _, rfl, h⟩
    · exact ⟨character :: skipped, rest, rfl, h⟩

/-- Every other token reads the first character. -/
theorem globMatches_cons {token : GlobToken} (hrun : token ≠ .run) {tokens : List GlobToken} {character : Nat}
    {text : List Nat} :
    GlobMatches (token :: tokens) (character :: text) ↔ token.reads character ∧ GlobMatches tokens text := by
  cases token with
  | run => exact (hrun rfl).elim
  | one =>
    constructor
    · rintro ⟨_, _, heq, h⟩
      obtain ⟨-, rfl⟩ := List.cons_eq_cons.1 heq
      exact ⟨trivial, h⟩
    · rintro ⟨-, h⟩
      exact ⟨_, _, rfl, h⟩
  | literal value =>
    constructor
    · rintro ⟨_, heq, h⟩
      obtain ⟨rfl, rfl⟩ := List.cons_eq_cons.1 heq
      exact ⟨rfl, h⟩
    · rintro ⟨rfl, h⟩
      exact ⟨_, rfl, h⟩

theorem not_globMatches_nil {token : GlobToken} (hrun : token ≠ .run) {tokens : List GlobToken} :
    ¬ GlobMatches (token :: tokens) [] := by
  cases token with
  | run => exact (hrun rfl).elim
  | one => simp [GlobMatches]
  | literal value => simp [GlobMatches]

theorem globMatches_nil_cons {character : Nat} {text : List Nat} : ¬ GlobMatches [] (character :: text) := by
  simp [GlobMatches]

/-! ## Collapsed runs -/

/-- The tokens without a run behind a run. -/
def collapse (previousRun : Bool) : List GlobToken → List GlobToken
  | [] => []
  | token :: tokens =>
    if token = .run ∧ previousRun = true then collapse previousRun tokens
    else token :: collapse (token == .run) tokens

theorem globMatches_run_run {tokens : List GlobToken} {text : List Nat} :
    GlobMatches (.run :: .run :: tokens) text ↔ GlobMatches (.run :: tokens) text := by
  constructor
  · rintro ⟨skipped, _, rfl, more, rest, rfl, h⟩
    exact ⟨skipped ++ more, rest, (List.append_assoc _ _ _).symm, h⟩
  · rintro ⟨skipped, rest, rfl, h⟩
    exact ⟨skipped, _, rfl, [], rest, rfl, h⟩

/-- The run in front, if there is one. -/
def behindRun (previousRun : Bool) (tokens : List GlobToken) : List GlobToken :=
  if previousRun then .run :: tokens else tokens

theorem globMatches_cons_congr (token : GlobToken) {tokens others : List GlobToken}
    (h : ∀ text, GlobMatches tokens text ↔ GlobMatches others text) (text : List Nat) :
    GlobMatches (token :: tokens) text ↔ GlobMatches (token :: others) text := by
  cases token <;> simp only [GlobMatches, h]

theorem globMatches_collapse (previousRun : Bool) (tokens : List GlobToken) (text : List Nat) :
    GlobMatches (behindRun previousRun (collapse previousRun tokens)) text ↔
      GlobMatches (behindRun previousRun tokens) text := by
  induction tokens generalizing previousRun text with
  | nil => rfl
  | cons token tokens ih =>
    by_cases hrun : token = .run
    · subst hrun
      cases previousRun with
      | true =>
        rw [collapse, if_pos ⟨rfl, rfl⟩, ih true text]
        exact globMatches_run_run.symm
      | false =>
        rw [collapse, if_neg (by simp)]
        exact ih true text
    · have hcollapse : collapse previousRun (token :: tokens) = token :: collapse false tokens := by
        rw [collapse, if_neg (fun h => hrun h.1), beq_false_of_ne hrun]
      have htoken := globMatches_cons_congr token (ih false)
      rw [hcollapse]
      cases previousRun with
      | true => exact globMatches_cons_congr .run htoken text
      | false => exact htoken text

/-- No run is followed by a run. -/
def Collapsed (tokens : List GlobToken) : Prop := tokens.IsChain fun token next => token = .run → next ≠ .run

theorem collapsed_collapse (previousRun : Bool) (tokens : List GlobToken) :
    Collapsed (behindRun previousRun (collapse previousRun tokens)) := by
  induction tokens generalizing previousRun with
  | nil => cases previousRun <;> simp [collapse, behindRun, Collapsed]
  | cons token tokens ih =>
    by_cases hrun : token = .run
    · subst hrun
      cases previousRun with
      | true =>
        rw [collapse, if_pos ⟨rfl, rfl⟩]
        exact ih true
      | false =>
        rw [collapse, if_neg (by simp)]
        exact ih true
    · have hcollapse : collapse previousRun (token :: tokens) = token :: collapse false tokens := by
        rw [collapse, if_neg (fun h => hrun h.1), beq_false_of_ne hrun]
      have htoken : Collapsed (token :: collapse false tokens) := by
        cases hrest : collapse false tokens with
        | nil => exact .singleton token
        | cons next rest => exact .cons_cons (fun h => (hrun h).elim) (hrest ▸ ih false)
      rw [hcollapse]
      cases previousRun with
      | true => exact List.isChain_cons_cons.2 ⟨fun _ => hrun, htoken⟩
      | false => exact htoken

theorem Collapsed.next {tokens : List GlobToken} (h : Collapsed tokens) {i : Nat} (hrun : tokens[i]? = some .run) :
    tokens[i + 1]? ≠ some .run := by
  intro hnext
  obtain ⟨hi, hnext⟩ := List.getElem?_eq_some_iff.1 hnext
  obtain ⟨hj, hrun⟩ := List.getElem?_eq_some_iff.1 hrun
  exact List.isChain_iff_getElem.1 h i hi hrun hnext

/-! ## The program of the tokens -/

/-- Each mask has the positions of its tokens. -/
structure Encodes (runs ones : Nat) (literals : Nat → Nat) (tokens : List GlobToken) : Prop where
  runs : ∀ i, runs.testBit i = true ↔ tokens[i]? = some .run
  ones : ∀ i, ones.testBit i = true ↔ tokens[i]? = some .one
  literals : ∀ value i, (literals value).testBit i = true ↔ tokens[i]? = some (.literal value)

theorem testBit_or_state (mask count i : Nat) : (mask ||| 1 <<< count).testBit i = true ↔ mask.testBit i = true ∨ i = count := by
  rw [Nat.testBit_or, Nat.one_shiftLeft, Nat.testBit_two_pow, Bool.or_eq_true, decide_eq_true_eq]
  exact or_congr_right eq_comm

theorem getElem?_snoc {tokens : List GlobToken} {token other : GlobToken} {i : Nat} :
    (tokens ++ [token])[i]? = some other ↔ tokens[i]? = some other ∨ (i = tokens.length ∧ token = other) := by
  rcases Nat.lt_trichotomy i tokens.length with h | rfl | h
  · simp [List.getElem?_append_left h, Nat.ne_of_lt h]
  · simp
  · rw [List.getElem?_eq_none (by simp; omega), List.getElem?_eq_none (by omega)]
    simp [Nat.ne_of_gt h]

/-- The constructor has encoded these tokens. -/
def Building.Holds (b : Building) (tokens : List GlobToken) : Prop :=
  b.count = tokens.length ∧ Encodes b.runs b.ones b.literals tokens

theorem Building.Holds.add {b : Building} {tokens : List GlobToken} (h : b.Holds tokens) {token : GlobToken}
    (hkept : ¬ (token = .run ∧ b.previousRun = true)) :
    (GlobProgram.add b token).Holds (tokens ++ [token]) ∧ (GlobProgram.add b token).previousRun = (token == .run) := by
  obtain ⟨hcount, hencodes⟩ := h
  rw [GlobProgram.add, if_neg hkept]
  cases token with
  | run =>
    refine ⟨⟨by simp [hcount], fun i => ?_, fun i => ?_, fun value i => ?_⟩, rfl⟩
    · rw [testBit_or_state, getElem?_snoc, hencodes.runs, hcount]
      simp
    · rw [getElem?_snoc, ← hencodes.ones]
      simp
    · rw [getElem?_snoc, ← hencodes.literals]
      simp
  | one =>
    refine ⟨⟨by simp [hcount], fun i => ?_, fun i => ?_, fun value i => ?_⟩, rfl⟩
    · rw [getElem?_snoc, ← hencodes.runs]
      simp
    · rw [testBit_or_state, getElem?_snoc, hencodes.ones, hcount]
      simp
    · rw [getElem?_snoc, ← hencodes.literals]
      simp
  | literal character =>
    refine ⟨⟨by simp [hcount], fun i => ?_, fun i => ?_, fun value i => ?_⟩, rfl⟩
    · rw [getElem?_snoc, ← hencodes.runs]
      simp
    · rw [getElem?_snoc, ← hencodes.ones]
      simp
    · rw [getElem?_snoc, ← hencodes.literals]
      dsimp only
      split
      · rename_i heq
        rw [testBit_or_state, hcount, heq]
        simp
      · rename_i hne
        simp [Ne.symm hne]

theorem foldl_add_holds {b : Building} {done : List GlobToken} (h : b.Holds done) (tokens : List GlobToken) :
    (tokens.foldl GlobProgram.add b).Holds (done ++ collapse b.previousRun tokens) := by
  induction tokens generalizing b done with
  | nil => simpa [collapse] using h
  | cons token tokens ih =>
    rw [List.foldl_cons, collapse]
    split
    · rename_i hskip
      have hadd : GlobProgram.add b token = b := by rw [GlobProgram.add, if_pos hskip]
      rw [hadd]
      exact ih h
    · rename_i hkept
      obtain ⟨hholds, hprevious⟩ := h.add hkept
      rw [← hprevious, List.append_cons]
      exact ih hholds

theorem ofTokens_encodes (tokens : List GlobToken) :
    Encodes (GlobProgram.ofTokens tokens).runs (GlobProgram.ofTokens tokens).ones (GlobProgram.ofTokens tokens).literals
        (collapse false tokens) ∧
      (GlobProgram.ofTokens tokens).accept = 1 <<< (collapse false tokens).length := by
  have hstart : Building.Holds ⟨0, 0, fun _ => 0, 0, false⟩ [] := ⟨rfl, by constructor <;> simp⟩
  obtain ⟨hcount, hencodes⟩ := foldl_add_holds hstart tokens
  exact ⟨hencodes, congrArg (1 <<< ·) hcount⟩

/-! ## The active positions -/

section

variable {program : GlobProgram} {tokens : List GlobToken}

/-- Some active position leads through the rest of the text. -/
def Leads (tokens : List GlobToken) (active : Nat) (text : List Nat) : Prop :=
  ∃ i, active.testBit i = true ∧ i ≤ tokens.length ∧ GlobMatches (tokens.drop i) text

/-- The position behind an active run is active. -/
def RunsOpen (tokens : List GlobToken) (active : Nat) : Prop :=
  ∀ i, active.testBit i = true → tokens[i]? = some .run → active.testBit (i + 1) = true

theorem testBit_shift_one {mask i : Nat} : (mask <<< 1).testBit i = true ↔ ∃ j, i = j + 1 ∧ mask.testBit j = true := by
  rw [Nat.testBit_shiftLeft]
  cases i with
  | zero => simp
  | succ i => simp

theorem testBit_advance (h : Encodes program.runs program.ones program.literals tokens) {active character i : Nat} :
    (program.advance active character).testBit i = true ↔
      (∃ j token, i = j + 1 ∧ active.testBit j = true ∧ tokens[j]? = some token ∧ token.reads character) ∨
        (active.testBit i = true ∧ tokens[i]? = some .run) := by
  rw [GlobProgram.advance, Nat.testBit_or, Bool.or_eq_true, testBit_shift_one]
  simp only [Nat.testBit_and, Nat.testBit_or, Bool.and_eq_true, Bool.or_eq_true, h.runs, h.ones, h.literals]
  refine or_congr_left ⟨?_, ?_⟩
  · rintro ⟨j, rfl, hactive, hone | hliteral⟩
    · exact ⟨j, _, rfl, hactive, hone, trivial⟩
    · exact ⟨j, _, rfl, hactive, hliteral, rfl⟩
  · rintro ⟨j, token, rfl, hactive, htoken, hreads⟩
    refine ⟨j, rfl, hactive, ?_⟩
    cases token with
    | run => exact hreads.elim
    | one => exact .inl htoken
    | literal value => exact .inr (hreads ▸ htoken)

theorem testBit_closed (h : Encodes program.runs program.ones program.literals tokens) {active i : Nat} :
    (program.closed active).testBit i = true ↔
      active.testBit i = true ∨ ∃ j, i = j + 1 ∧ active.testBit j = true ∧ tokens[j]? = some .run := by
  rw [GlobProgram.closed, Nat.testBit_or, Bool.or_eq_true, testBit_shift_one]
  simp only [Nat.testBit_and, Bool.and_eq_true, h.runs]

/-- One step is enough, since no run opens another. -/
theorem runsOpen_closed (h : Encodes program.runs program.ones program.literals tokens) (hcollapsed : Collapsed tokens)
    (active : Nat) : RunsOpen tokens (program.closed active) := by
  intro i hactive hrun
  rcases (testBit_closed h).1 hactive with hactive | ⟨j, rfl, -, hbefore⟩
  · exact (testBit_closed h).2 (.inr ⟨i, rfl, hactive, hrun⟩)
  · exact (hcollapsed.next hbefore hrun).elim

theorem drop_of_getElem? {i : Nat} {token : GlobToken} (h : tokens[i]? = some token) :
    tokens.drop i = token :: tokens.drop (i + 1) := by
  obtain ⟨hi, rfl⟩ := List.getElem?_eq_some_iff.1 h
  exact List.drop_eq_getElem_cons hi

theorem leads_closed (h : Encodes program.runs program.ones program.literals tokens) {active : Nat} {text : List Nat} :
    Leads tokens (program.closed active) text ↔ Leads tokens active text := by
  constructor
  · rintro ⟨i, hactive, hi, hmatches⟩
    rcases (testBit_closed h).1 hactive with hactive | ⟨j, rfl, hactive, hrun⟩
    · exact ⟨i, hactive, hi, hmatches⟩
    · refine ⟨j, hactive, by omega, ?_⟩
      rw [drop_of_getElem? hrun]
      exact ⟨[], text, rfl, hmatches⟩
  · rintro ⟨i, hactive, hmatches⟩
    exact ⟨i, (testBit_closed h).2 (.inl hactive), hmatches⟩

theorem GlobToken.reads_ne_run {character : Nat} {token : GlobToken} (h : token.reads character) : token ≠ .run := by
  rintro rfl
  exact h

theorem leads_advance (h : Encodes program.runs program.ones program.literals tokens) (hcollapsed : Collapsed tokens)
    {active : Nat} (hopen : RunsOpen tokens active) {character : Nat} {text : List Nat} :
    Leads tokens active (character :: text) ↔ Leads tokens (program.advance active character) text := by
  -- a token that is no run reads the character, and the position behind it is reached
  have hread (i : Nat) (token : GlobToken) (hactive : active.testBit i = true) (htoken : tokens[i]? = some token)
      (hrun : token ≠ .run) (hmatches : GlobMatches (tokens.drop i) (character :: text)) :
      Leads tokens (program.advance active character) text := by
    rw [drop_of_getElem? htoken, globMatches_cons hrun] at hmatches
    have hi := (List.getElem?_eq_some_iff.1 htoken).1
    exact ⟨i + 1, (testBit_advance h).2 (.inl ⟨i, token, rfl, hactive, htoken, hmatches.1⟩), hi, hmatches.2⟩
  constructor
  · rintro ⟨i, hactive, hi, hmatches⟩
    cases htoken : tokens[i]? with
    | none =>
      rw [List.drop_eq_nil_of_le (List.getElem?_eq_none_iff.1 htoken)] at hmatches
      exact (globMatches_nil_cons hmatches).elim
    | some token =>
      by_cases hrun : token = .run
      · subst hrun
        rw [drop_of_getElem? htoken, globMatches_run_cons, ← drop_of_getElem? htoken] at hmatches
        rcases hmatches with hskip | hstay
        · have hnext := hopen i hactive htoken
          cases hafter : tokens[i + 1]? with
          | none =>
            rw [List.drop_eq_nil_of_le (List.getElem?_eq_none_iff.1 hafter)] at hskip
            exact (globMatches_nil_cons hskip).elim
          | some after =>
            refine hread (i + 1) after hnext hafter ?_ hskip
            rintro rfl
            exact hcollapsed.next htoken hafter
        · exact ⟨i, (testBit_advance h).2 (.inr ⟨hactive, htoken⟩), hi, hstay⟩
      · exact hread i token hactive htoken hrun hmatches
  · rintro ⟨i, hactive, hi, hmatches⟩
    rcases (testBit_advance h).1 hactive with ⟨j, token, rfl, hactive, htoken, hreads⟩ | ⟨hactive, hrun⟩
    · refine ⟨j, hactive, by omega, ?_⟩
      rw [drop_of_getElem? htoken, globMatches_cons (GlobToken.reads_ne_run hreads)]
      exact ⟨hreads, hmatches⟩
    · refine ⟨i, hactive, hi, ?_⟩
      rw [drop_of_getElem? hrun] at hmatches ⊢
      exact globMatches_run_cons.2 (.inr hmatches)

/-- At the end of the text only runs may be left, and they are all open. -/
theorem leads_nil {active : Nat} (hopen : RunsOpen tokens active) :
    Leads tokens active [] ↔ active.testBit tokens.length = true := by
  constructor
  · rintro ⟨i, hactive, hi, hmatches⟩
    induction hleft : tokens.length - i generalizing i with
    | zero =>
      obtain rfl : i = tokens.length := by omega
      exact hactive
    | succ left ih =>
      obtain ⟨token, htoken⟩ : ∃ token, tokens[i]? = some token := ⟨_, List.getElem?_eq_getElem (by omega)⟩
      rw [drop_of_getElem? htoken] at hmatches
      by_cases hrun : token = .run
      · subst hrun
        exact ih (i + 1) (hopen i hactive htoken) (by omega) (globMatches_run_nil.1 hmatches) (by omega)
      · exact (not_globMatches_nil hrun hmatches).elim
  · intro hactive
    exact ⟨tokens.length, hactive, Nat.le_refl _, by simp [GlobMatches]⟩

theorem not_leads_zero {text : List Nat} : ¬ Leads tokens 0 text := by
  rintro ⟨i, hactive, -⟩
  simp at hactive

/-- The loop keeps what the active positions lead to. -/
theorem matchesFrom_iff (h : Encodes program.runs program.ones program.literals tokens)
    (haccept : program.accept = 1 <<< tokens.length) (hcollapsed : Collapsed tokens) {active : Nat}
    (hopen : RunsOpen tokens active) (text : List Nat) :
    program.matchesFrom active text = true ↔ Leads tokens active text := by
  induction text generalizing active with
  | nil =>
    rw [leads_nil hopen, GlobProgram.matchesFrom, haccept, Nat.one_shiftLeft, Nat.and_two_pow]
    cases active.testBit tokens.length <;> simp
  | cons character text ih =>
    rw [leads_advance h hcollapsed hopen, ← leads_closed h, GlobProgram.matchesFrom]
    split
    · rename_i hzero
      rw [hzero]
      exact iff_of_false Bool.false_ne_true not_leads_zero
    · exact ih (runsOpen_closed h hcollapsed _)

/-- From the first position every token is ahead. -/
theorem leads_one {text : List Nat} : Leads tokens 1 text ↔ GlobMatches tokens text := by
  constructor
  · rintro ⟨i, hactive, -, hmatches⟩
    obtain rfl : i = 0 := Nat.testBit_one_eq_true_iff_self_eq_zero.1 hactive
    exact hmatches
  · intro hmatches
    exact ⟨0, rfl, Nat.zero_le _, hmatches⟩

end

/-- The run of a program over some code points. -/
theorem matchesFrom_ofTokens (tokens : List GlobToken) (text : List Nat) :
    (GlobProgram.ofTokens tokens).matchesFrom (1 ||| ((1 &&& (GlobProgram.ofTokens tokens).runs) <<< 1)) text = true ↔
      GlobMatches tokens text := by
  obtain ⟨hencodes, haccept⟩ := ofTokens_encodes tokens
  have hcollapsed : Collapsed (collapse false tokens) := collapsed_collapse false tokens
  have hstart := matchesFrom_iff hencodes haccept hcollapsed (runsOpen_closed hencodes hcollapsed 1) text
  refine hstart.trans ?_
  rw [leads_closed hencodes, leads_one]
  exact globMatches_collapse false tokens text

/-- The program of any tokens accepts exactly the texts whose code points the
tokens match. -/
theorem globProgram_matches_iff (tokens : List GlobToken) (text : JsString) :
    (GlobProgram.ofTokens tokens).matches text = true ↔ GlobMatches tokens (codePoints text) := by
  rw [GlobProgram.matches]
  exact matchesFrom_ofTokens tokens (codePoints text)

example : (globTokens (utf16 "a**?".toList)).map (fun tokens => (GlobProgram.ofTokens tokens).matches (utf16 "a\n𝄞".toList)) =
    some true := by
  decide

end LaserSdk.Typescript

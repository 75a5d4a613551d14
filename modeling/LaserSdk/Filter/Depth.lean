import LaserSdk.Lib.JsonText
import LaserSdk.Filter.Json
/-!
# What the depth scan sees

On a well-formed text the scan counts what the grammar nests. On other bytes it
follows the grammar as far as the bytes do, so a parser that reads on until the
first error never has more containers open than the scan has let pass.
-/

namespace LaserSdk.Filter

open Lib JsonText

variable {maxDepth depth : Nat}

/-! ## One token -/

theorem depthWithin_plain {bytes : List UInt8} (hplain : ∀ byte ∈ bytes, ¬ Structural byte) (rest : List UInt8) :
    depthWithin maxDepth depth (bytes ++ rest) = depthWithin maxDepth depth rest := by
  induction bytes with
  | nil => rfl
  | cons byte bytes ih =>
    have hbyte := hplain byte (List.mem_cons_self ..)
    simp only [Structural, not_or] at hbyte
    rw [List.cons_append, depthWithin, if_neg hbyte.1, if_neg (not_or.2 ⟨hbyte.2.1, hbyte.2.2.1⟩),
      if_neg (not_or.2 ⟨hbyte.2.2.2.1, hbyte.2.2.2.2⟩)]
    exact ih fun other hother => hplain other (List.mem_cons_of_mem _ hother)

/-- The scan passes over bytes of a string that are neither a quote nor a
backslash. -/
theorem stringWithin_plain {bytes : List UInt8} (hplain : ∀ byte ∈ bytes, byte ≠ 34 ∧ byte ≠ 92) (rest : List UInt8) :
    stringWithin maxDepth depth (bytes ++ rest) = stringWithin maxDepth depth rest := by
  induction bytes with
  | nil => rfl
  | cons byte bytes ih =>
    have hbyte := hplain byte (List.mem_cons_self ..)
    rw [List.cons_append, stringWithin.eq_def]
    simp only [if_neg hbyte.1, if_neg hbyte.2]
    exact ih fun other hother => hplain other (List.mem_cons_of_mem _ hother)

/-- A backslash takes the next byte with it. -/
theorem stringWithin_escaped (byte : UInt8) (rest : List UInt8) :
    stringWithin maxDepth depth (92 :: byte :: rest) = stringWithin maxDepth depth rest := by
  simp [stringWithin]

theorem stringWithin_piece (piece : Piece) (rest : List UInt8) :
    stringWithin maxDepth depth (piece.bytes ++ rest) = stringWithin maxDepth depth rest := by
  cases piece with
  | char plain => exact stringWithin_plain (fun byte => plain.byte_ne) rest
  | escape kind => exact stringWithin_escaped kind.byte rest
  | unicode first second third fourth =>
    have hdigits : ∀ byte ∈ [first.byte, second.byte, third.byte, fourth.byte], byte ≠ 34 ∧ byte ≠ 92 := by
      simp [first.byte_ne, second.byte_ne, third.byte_ne, fourth.byte_ne]
    exact (stringWithin_escaped 117 _).trans (stringWithin_plain hdigits rest)

theorem stringWithin_pieces (pieces : List Piece) (rest : List UInt8) :
    stringWithin maxDepth depth (pieces.flatMap Piece.bytes ++ 34 :: rest) = depthWithin maxDepth depth rest := by
  induction pieces with
  | nil => simp [stringWithin.eq_def]
  | cons piece pieces ih =>
    rw [List.flatMap_cons, List.append_assoc, stringWithin_piece]
    exact ih

theorem depthWithin_quoted (pieces : List Piece) (rest : List UInt8) :
    depthWithin maxDepth depth (quoted pieces ++ rest) = depthWithin maxDepth depth rest := by
  have hbody := @stringWithin_pieces maxDepth depth pieces rest
  simpa [quoted, depthWithin] using hbody

theorem depthWithin_atom (atom : Atom) (rest : List UInt8) :
    depthWithin maxDepth depth (atom.bytes ++ rest) = depthWithin maxDepth depth rest := by
  cases atom with
  | null => exact depthWithin_plain (by simp [Atom.bytes, Structural]) rest
  | bool value =>
    cases value with
    | true => exact depthWithin_plain (by simp [Atom.bytes, Structural]) rest
    | false => exact depthWithin_plain (by simp [Atom.bytes, Structural]) rest
  | number value => exact depthWithin_plain value.plain rest
  | string pieces => exact depthWithin_quoted pieces rest

/-- Whether the scan passes a token. -/
def fits (maxDepth depth : Nat) : Token → Bool
  | .opening _ => depth + 1 ≤ maxDepth
  | _ => true

theorem depthWithin_token (token : Token) (rest : List UInt8) :
    depthWithin maxDepth depth (token.bytes ++ rest) =
      (fits maxDepth depth token && depthWithin maxDepth (token.after depth) rest) := by
  cases token with
  | atom value => exact depthWithin_atom value rest
  | comma => exact depthWithin_plain (by simp [Token.bytes, Structural]) rest
  | colon => exact depthWithin_plain (by simp [Token.bytes, Structural]) rest
  | opening container =>
    by_cases hdepth : depth + 1 ≤ maxDepth
    · cases container <;> simp [Token.bytes, Token.after, fits, depthWithin, hdepth, Nat.not_lt.2 hdepth]
    · cases container <;> simp [Token.bytes, fits, depthWithin, hdepth, Nat.not_le.1 hdepth]
  | closing container => cases container <;> simp [Token.bytes, Token.after, fits, depthWithin]

/-! ## A text -/

/-- The scan over tokens. -/
def tokensWithin (maxDepth depth : Nat) : List Token → Bool
  | [] => true
  | token :: rest => fits maxDepth depth token && tokensWithin maxDepth (token.after depth) rest

theorem depthWithin_render (spaces : Nat → List Space) (i : Nat) (tokens : List Token) :
    depthWithin maxDepth depth (render spaces i tokens) = tokensWithin maxDepth depth tokens := by
  induction tokens generalizing i depth with
  | nil =>
    have hspaces := @depthWithin_plain maxDepth depth _ (Space.plain (spaces i)) []
    rw [List.append_nil] at hspaces
    rw [render, hspaces, tokensWithin, depthWithin]
  | cons token rest ih => rw [render, depthWithin_plain (Space.plain (spaces i)), depthWithin_token, tokensWithin, ih]

theorem within_max {first second : Nat} {more : Bool} :
    (decide (depth + first ≤ maxDepth) && (decide (depth + second ≤ maxDepth) && more)) =
      (decide (depth + max first second ≤ maxDepth) && more) := by
  rw [← Bool.and_assoc, ← Bool.decide_and]
  congr 1
  apply decide_eq_decide.2
  omega

/-- A bracketed part fits if what it holds fits one deeper. -/
theorem tokensWithin_bracketed {container : Container} {body rest : List Token} {nesting : Nat}
    (hbody : depth + 1 ≤ maxDepth → tokensWithin maxDepth (depth + 1) (body ++ .closing container :: rest) =
      (decide (depth + 1 + nesting ≤ maxDepth) && tokensWithin maxDepth (depth + 1) (.closing container :: rest))) :
    tokensWithin maxDepth depth (.opening container :: body ++ [.closing container] ++ rest) =
      (decide (depth + (nesting + 1) ≤ maxDepth) && tokensWithin maxDepth depth rest) := by
  have hsame : depth + (nesting + 1) = depth + 1 + nesting := by omega
  rw [List.append_assoc, List.singleton_append, List.cons_append, tokensWithin, hsame]
  by_cases hopen : depth + 1 ≤ maxDepth
  · simp only [fits, Token.after, hopen, decide_true, Bool.true_and, hbody hopen]
    simp [tokensWithin, fits, Token.after]
  · have htoo : ¬ depth + 1 + nesting ≤ maxDepth := by omega
    simp [fits, hopen, htoo]

mutual

/-- The scan comes out of a tree as deep as it went in, if the tree fits. -/
theorem tokensWithin_tree {depth : Nat} (h : depth ≤ maxDepth) (rest : List Token) : (tree : Tree) →
    tokensWithin maxDepth depth (tree.tokens ++ rest) =
      (decide (depth + tree.nesting ≤ maxDepth) && tokensWithin maxDepth depth rest)
  | .atom value => by simp [Tree.tokens, Tree.nesting, tokensWithin, fits, Token.after, h]
  | .array items => by
    rw [Tree.tokens, Tree.nesting]
    exact tokensWithin_bracketed fun hopen => tokensWithin_items hopen _ items
  | .object members => by
    rw [Tree.tokens, Tree.nesting]
    exact tokensWithin_bracketed fun hopen => tokensWithin_members hopen _ members

theorem tokensWithin_items {depth : Nat} (h : depth ≤ maxDepth) (rest : List Token) : (items : List Tree) →
    tokensWithin maxDepth depth (itemTokens items ++ rest) =
      (decide (depth + nestingItems items ≤ maxDepth) && tokensWithin maxDepth depth rest)
  | [] => by simp [itemTokens, nestingItems, h]
  | item :: items => by
    rw [itemTokens, List.append_assoc, tokensWithin_tree h _ item, tokensWithin_moreItems h rest items, within_max,
      nestingItems]

theorem tokensWithin_moreItems {depth : Nat} (h : depth ≤ maxDepth) (rest : List Token) : (items : List Tree) →
    tokensWithin maxDepth depth (moreItems items ++ rest) =
      (decide (depth + nestingItems items ≤ maxDepth) && tokensWithin maxDepth depth rest)
  | [] => by simp [moreItems, nestingItems, h]
  | item :: items => by
    rw [moreItems]
    show tokensWithin maxDepth depth (item.tokens ++ moreItems items ++ rest) = _
    rw [List.append_assoc, tokensWithin_tree h _ item, tokensWithin_moreItems h rest items, within_max, nestingItems]

theorem tokensWithin_members {depth : Nat} (h : depth ≤ maxDepth) (rest : List Token) : (members : List (List Piece × Tree)) →
    tokensWithin maxDepth depth (memberTokens members ++ rest) =
      (decide (depth + nestingMembers members ≤ maxDepth) && tokensWithin maxDepth depth rest)
  | [] => by simp [memberTokens, nestingMembers, h]
  | (key, value) :: members => by
    rw [memberTokens]
    show tokensWithin maxDepth depth (value.tokens ++ moreMembers members ++ rest) = _
    rw [List.append_assoc, tokensWithin_tree h _ value, tokensWithin_moreMembers h rest members, within_max, nestingMembers]

theorem tokensWithin_moreMembers {depth : Nat} (h : depth ≤ maxDepth) (rest : List Token) :
    (members : List (List Piece × Tree)) →
    tokensWithin maxDepth depth (moreMembers members ++ rest) =
      (decide (depth + nestingMembers members ≤ maxDepth) && tokensWithin maxDepth depth rest)
  | [] => by simp [moreMembers, nestingMembers, h]
  | (key, value) :: members => by
    rw [moreMembers]
    show tokensWithin maxDepth depth (value.tokens ++ moreMembers members ++ rest) = _
    rw [List.append_assoc, tokensWithin_tree h _ value, tokensWithin_moreMembers h rest members, within_max, nestingMembers]

end

/-- On a text the scan compares its nesting with the limit. -/
theorem jsonDepthWithin_text (text : Text) :
    jsonDepthWithin text.bytes maxDepth = true ↔ text.tree.nesting ≤ maxDepth := by
  have htree := @tokensWithin_tree maxDepth 0 (Nat.zero_le _) [] text.tree
  rw [List.append_nil] at htree
  rw [jsonDepthWithin, Text.bytes, depthWithin_render, htree]
  simp [tokensWithin]

/-! ## A part of a text -/

/-- Bytes that start as a part of a list do start with what the part starts with. -/
theorem eq_append_of_take {α : Type} {first rest payload : List α} {size : Nat} (hsize : first.length ≤ size)
    (hsame : payload.take size = (first ++ rest).take size) : payload = first ++ payload.drop first.length ∧
      (payload.drop first.length).take (size - first.length) = rest.take (size - first.length) := by
  rw [List.take_append, List.take_of_length_le hsize] at hsame
  have hfirst : payload.take first.length = first := by
    have hcut := congrArg (List.take first.length) hsame
    rwa [List.take_take, Nat.min_eq_left hsize, List.take_left] at hcut
  constructor
  · conv_lhs => rw [← List.take_append_drop first.length payload, hfirst]
  · have hcut := congrArg (List.drop first.length) hsame
    rwa [List.drop_take, List.drop_left] at hcut

/-- Bytes that start as tokens do have no more of them open than the scan of
the bytes lets pass. -/
theorem openFrom_le (spaces : Nat → List Space) {i : Nat} {tokens : List Token} {payload : List UInt8} {size : Nat}
    (hdepth : depth ≤ maxDepth) (hscan : depthWithin maxDepth depth payload = true)
    (hsame : payload.take size = (render spaces i tokens).take size) :
    openFrom spaces i depth tokens size ≤ maxDepth := by
  induction tokens generalizing i depth payload size with
  | nil => exact hdepth
  | cons token rest ih =>
    rw [openFrom]
    split
    · next hwhole =>
      -- The token lies in the part, so the scan has passed it.
      have hsize : ((spaces i).map Space.byte ++ token.bytes).length = (spaces i).length + token.bytes.length := by simp
      rw [render, ← List.append_assoc] at hsame
      obtain ⟨hpayload, hrest⟩ := eq_append_of_take (by rwa [hsize]) hsame
      rw [hpayload, List.append_assoc, depthWithin_plain (Space.plain (spaces i)), depthWithin_token,
        Bool.and_eq_true] at hscan
      rw [hsize] at hrest hscan
      refine ih ?_ hscan.2 hrest
      cases token with
      | opening container => exact of_decide_eq_true hscan.1
      | closing container => exact Nat.le_trans (Nat.sub_le ..) hdepth
      | _ => exact hdepth
    · exact hdepth

/-- The scan is exact on well-formed texts. On bytes it passes, no part that
starts a well-formed text has more containers open than the limit. -/
theorem depth_scan_correct (maxDepth : Nat) :
    (∀ text : Text, jsonDepthWithin text.bytes maxDepth = true ↔ text.tree.nesting ≤ maxDepth) ∧
    ∀ payload, jsonDepthWithin payload maxDepth = true → ∀ part, part <+: payload → ∀ text : Text, part <+: text.bytes →
      text.openAfter part.length ≤ maxDepth := by
  refine ⟨jsonDepthWithin_text, fun payload hscan part hpayload text htext => ?_⟩
  refine openFrom_le text.spaces (Nat.zero_le _) hscan ?_
  rw [← List.prefix_iff_eq_take.1 hpayload]
  exact List.prefix_iff_eq_take.1 htext

/-- A bracket in a string, one level down. -/
def bracketInString : Text where
  tree := .array [.atom (.string [.char ⟨'[', by decide, by decide, by decide⟩, .escape .quote]), .array []]
  spaces i := if i = 2 then [.space] else []

/-- The text, and the text cut off after its inner bracket. -/
theorem bracket_in_string_within : jsonDepthWithin bracketInString.bytes 2 = true ∧
    jsonDepthWithin [91, 34, 91, 92, 34, 34, 32, 44, 91] 2 = true ∧ bracketInString.openAfter 9 ≤ 2 := by
  have hcut : jsonDepthWithin [91, 34, 91, 92, 34, 34, 32, 44, 91] 2 = true := by decide
  refine ⟨((depth_scan_correct 2).1 bracketInString).2 (by decide), hcut, ?_⟩
  exact (depth_scan_correct 2).2 _ hcut _ List.prefix_rfl bracketInString (by decide)

end LaserSdk.Filter

import Mathlib.Data.List.Basic
import Mathlib.Tactic.Common
import LaserSdk.Lib.Utf8
/-!
# JSON texts

The grammar of JSON as trees that are written out: a tree gives its tokens, and
a text is a tree with white space around the tokens. A prefix of a text has
open the containers whose bracket it holds and whose closing bracket it does
not.
-/

namespace LaserSdk.Lib.JsonText

/-! ## Tokens -/

inductive Space where
  | space | tab | newline | carriageReturn
  deriving DecidableEq, Repr

def Space.byte : Space → UInt8
  | .space => 32
  | .tab => 9
  | .newline => 10
  | .carriageReturn => 13

/-- A character that stands for itself in a string. -/
structure Unescaped where
  char : Char
  visible : 32 ≤ char.toNat
  not_quote : char.toNat ≠ 34
  not_backslash : char.toNat ≠ 92
  deriving DecidableEq, Repr

inductive Escape where
  | quote | backslash | slash | backspace | formFeed | newline | carriageReturn | tab
  deriving DecidableEq, Repr

def Escape.byte : Escape → UInt8
  | .quote => 34
  | .backslash => 92
  | .slash => 47
  | .backspace => 98
  | .formFeed => 102
  | .newline => 110
  | .carriageReturn => 114
  | .tab => 116

structure HexDigit where
  value : Fin 16
  upper : Bool
  deriving DecidableEq, Repr

def HexDigit.byte (digit : HexDigit) : UInt8 :=
  if digit.value.val < 10 then .ofNat (48 + digit.value.val)
  else .ofNat ((if digit.upper then 55 else 87) + digit.value.val)

/-- A part of a string. -/
inductive Piece where
  | char (plain : Unescaped)
  | escape (kind : Escape)
  | unicode (first second third fourth : HexDigit)
  deriving DecidableEq, Repr

def Piece.bytes : Piece → List UInt8
  | .char plain => String.utf8EncodeChar plain.char
  | .escape kind => [92, kind.byte]
  | .unicode first second third fourth => [92, 117, first.byte, second.byte, third.byte, fourth.byte]

def quoted (pieces : List Piece) : List UInt8 := 34 :: pieces.flatMap Piece.bytes ++ [34]

def digit (value : Fin 10) : UInt8 := .ofNat (48 + value.val)

/-- Digits, at least one. -/
structure Digits where
  first : Fin 10
  rest : List (Fin 10)
  deriving DecidableEq, Repr

def Digits.bytes (digits : Digits) : List UInt8 := digit digits.first :: digits.rest.map digit

structure Exponent where
  upper : Bool
  /-- A plus or a minus. -/
  sign : Option Bool
  digits : Digits
  deriving DecidableEq, Repr

def Exponent.bytes (exponent : Exponent) : List UInt8 :=
  (if exponent.upper then 69 else 101) ::
    (exponent.sign.elim [] fun plus => [if plus then 43 else 45]) ++ exponent.digits.bytes

structure Number where
  negative : Bool
  whole : Digits
  fraction : Option Digits
  exponent : Option Exponent
  /-- No leading zeros. -/
  whole_canonical : whole.first = 0 → whole.rest = []
  deriving DecidableEq, Repr

def Number.bytes (number : Number) : List UInt8 :=
  (if number.negative then [45] else []) ++ number.whole.bytes ++
    (number.fraction.elim [] fun fraction => 46 :: fraction.bytes) ++ number.exponent.elim [] Exponent.bytes

inductive Atom where
  | null
  | bool (value : Bool)
  | number (value : Number)
  | string (pieces : List Piece)
  deriving DecidableEq, Repr

def Atom.bytes : Atom → List UInt8
  | .null => [110, 117, 108, 108]
  | .bool true => [116, 114, 117, 101]
  | .bool false => [102, 97, 108, 115, 101]
  | .number value => value.bytes
  | .string pieces => quoted pieces

inductive Container where
  | array | object
  deriving DecidableEq, Repr

inductive Token where
  | atom (value : Atom)
  | comma
  | colon
  | opening (container : Container)
  | closing (container : Container)
  deriving DecidableEq, Repr

def Token.bytes : Token → List UInt8
  | .atom value => value.bytes
  | .comma => [44]
  | .colon => [58]
  | .opening .array => [91]
  | .opening .object => [123]
  | .closing .array => [93]
  | .closing .object => [125]

/-! ## Trees -/

inductive Tree where
  | atom (value : Atom)
  | array (items : List Tree)
  | object (members : List (List Piece × Tree))
  deriving Repr

mutual

def Tree.tokens : Tree → List Token
  | .atom value => [.atom value]
  | .array items => .opening .array :: itemTokens items ++ [.closing .array]
  | .object members => .opening .object :: memberTokens members ++ [.closing .object]

def itemTokens : List Tree → List Token
  | [] => []
  | item :: rest => item.tokens ++ moreItems rest

def moreItems : List Tree → List Token
  | [] => []
  | item :: rest => .comma :: item.tokens ++ moreItems rest

def memberTokens : List (List Piece × Tree) → List Token
  | [] => []
  | (key, value) :: rest => .atom (.string key) :: .colon :: value.tokens ++ moreMembers rest

def moreMembers : List (List Piece × Tree) → List Token
  | [] => []
  | (key, value) :: rest => .comma :: .atom (.string key) :: .colon :: value.tokens ++ moreMembers rest

end

mutual

/-- How deep containers are nested. -/
def Tree.nesting : Tree → Nat
  | .atom _ => 0
  | .array items => nestingItems items + 1
  | .object members => nestingMembers members + 1

def nestingItems : List Tree → Nat
  | [] => 0
  | item :: rest => max item.nesting (nestingItems rest)

def nestingMembers : List (List Piece × Tree) → Nat
  | [] => 0
  | (_, value) :: rest => max value.nesting (nestingMembers rest)

end

/-! ## Texts -/

/-- Write tokens out, from token `i` on, with white space before each and at
the end. -/
def render (spaces : Nat → List Space) (i : Nat) : List Token → List UInt8
  | [] => (spaces i).map Space.byte
  | token :: rest => (spaces i).map Space.byte ++ (token.bytes ++ render spaces (i + 1) rest)

/-- A well-formed text. -/
structure Text where
  tree : Tree
  /-- The white space before each token, and at the end. -/
  spaces : Nat → List Space

def Text.bytes (text : Text) : List UInt8 := render text.spaces 0 text.tree.tokens

/-- The containers open after a token. -/
def Token.after (depth : Nat) : Token → Nat
  | .opening _ => depth + 1
  | .closing _ => depth - 1
  | _ => depth

/-- The containers open after so many bytes. -/
def openFrom (spaces : Nat → List Space) (i depth : Nat) : List Token → (size : Nat) → Nat
  | [], _ => depth
  | token :: rest, size =>
    if (spaces i).length + token.bytes.length ≤ size then
      openFrom spaces (i + 1) (token.after depth) rest (size - ((spaces i).length + token.bytes.length))
    else depth

def Text.openAfter (text : Text) (size : Nat) : Nat := openFrom text.spaces 0 0 text.tree.tokens size

/-! ## Bytes -/

/-- A byte a scan for structure stops at: a quote or a bracket. -/
def Structural (byte : UInt8) : Prop := byte = 34 ∨ byte = 91 ∨ byte = 123 ∨ byte = 93 ∨ byte = 125

instance : DecidablePred Structural := fun byte =>
  inferInstanceAs (Decidable (byte = 34 ∨ byte = 91 ∨ byte = 123 ∨ byte = 93 ∨ byte = 125))

theorem Unescaped.byte_ne (char : Unescaped) {byte : UInt8} (h : byte ∈ String.utf8EncodeChar char.char) :
    byte ≠ 34 ∧ byte ≠ 92 := by
  have hquote := char.not_quote
  have hbackslash := char.not_backslash
  have hbyte := utf8_byte h
  constructor
  · rintro rfl
    have : (34 : UInt8).toNat = 34 := rfl
    omega
  · rintro rfl
    have : (92 : UInt8).toNat = 92 := rfl
    omega

theorem HexDigit.byte_ne (digit : HexDigit) : digit.byte ≠ 34 ∧ digit.byte ≠ 92 := by
  obtain ⟨value, upper⟩ := digit
  revert value upper
  decide

theorem digit_plain (value : Fin 10) : ¬ Structural (digit value) := by
  revert value
  decide

theorem Digits.plain (digits : Digits) : ∀ byte ∈ digits.bytes, ¬ Structural byte := by
  intro byte hmem
  rcases List.mem_cons.1 hmem with rfl | hmem
  · exact digit_plain _
  · obtain ⟨value, -, rfl⟩ := List.mem_map.1 hmem
    exact digit_plain value

theorem Exponent.plain (exponent : Exponent) : ∀ byte ∈ exponent.bytes, ¬ Structural byte := by
  obtain ⟨upper, sign, digits⟩ := exponent
  intro byte hmem
  simp only [Exponent.bytes, List.cons_append, List.mem_cons, List.mem_append] at hmem
  rcases hmem with rfl | hmem | hmem
  · cases upper <;> simp [Structural]
  · cases sign with
    | none => cases hmem
    | some plus =>
      obtain rfl := List.mem_singleton.1 hmem
      cases plus <;> decide
  · exact digits.plain byte hmem

theorem Number.plain (number : Number) : ∀ byte ∈ number.bytes, ¬ Structural byte := by
  obtain ⟨negative, whole, fraction, exponent, -⟩ := number
  intro byte hmem
  simp only [Number.bytes, List.mem_append] at hmem
  rcases hmem with ((hmem | hmem) | hmem) | hmem
  · cases negative with
    | false => cases hmem
    | true =>
      obtain rfl := List.mem_singleton.1 hmem
      decide
  · exact whole.plain byte hmem
  · cases fraction with
    | none => cases hmem
    | some digits =>
      rcases List.mem_cons.1 hmem with rfl | hmem
      · decide
      · exact digits.plain byte hmem
  · cases exponent with
    | none => cases hmem
    | some exponent => exact exponent.plain byte hmem

theorem Space.plain (spaces : List Space) : ∀ byte ∈ spaces.map Space.byte, ¬ Structural byte := by
  intro byte hmem
  obtain ⟨kind, -, rfl⟩ := List.mem_map.1 hmem
  cases kind <;> decide

end LaserSdk.Lib.JsonText

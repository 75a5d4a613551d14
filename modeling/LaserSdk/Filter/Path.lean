import Mathlib
import LaserSdk.Lib.Checks
/-!
# Field paths

The location of a value inside a decoded payload and its one text form: keys
separated by dots, array elements in brackets, and a backslash before a dot,
bracket or backslash inside a key. The parser reads characters and counts
bytes, because its errors name a byte.
-/

namespace LaserSdk.Filter

open LaserSdk.Lib

abbrev InvalidError := String

def maxFilterPathBytes : Nat := 256

def maxFilterPathSegments : Nat := 16

inductive PathSegment where
  | key (key : String)
  | index (index : UInt32)
  deriving DecidableEq, Repr

structure FieldPath where
  segments : List PathSegment
  deriving DecidableEq, Repr

def pathError (text : String) (position : Nat) (reason : String) : InvalidError :=
  s!"field path `{text}` is invalid at byte {position}: {reason}"

def isPathSpecial (character : Char) : Bool :=
  character == '.' || character == '[' || character == ']' || character == '\\'

/-- The digits between the brackets, as the parsed index. -/
def indexSegment (text : String) (position : Nat) (digits : List Char) : Except InvalidError PathSegment := do
  refuseIf (digits = [] ∨ digits.length > 1 ∧ digits.head? = some '0')
    (pathError text position "an index must be a canonical decimal number")
  let number := digits.foldl (fun n digit => 10 * n + (digit.toNat - '0'.toNat)) 0
  refuseIf (number ≥ 2 ^ 32) (pathError text position "an index must fit in 32 bits")
  return .index (UInt32.ofNat number)

mutual

/-- Inside a key, with the characters read so far. -/
def parseKey (text : String) (segments : List PathSegment) (key : List Char) (position : Nat) :
    List Char → Except InvalidError (List PathSegment)
  | [] => do
    refuseIf (key = []) (pathError text position "empty key")
    return segments ++ [.key (String.ofList key)]
  | '\\' :: rest =>
    match rest with
    | escaped :: rest =>
      if isPathSpecial escaped then parseKey text segments (key ++ [escaped]) (position + 2) rest
      else .error (pathError text (position + 1) "`\\` must escape `.`, `[`, `]`, or `\\`")
    | [] => .error (pathError text (position + 1) "`\\` must escape `.`, `[`, `]`, or `\\`")
  | '.' :: rest => do
    refuseIf (key = []) (pathError text position "empty key")
    parseKey text (segments ++ [.key (String.ofList key)]) [] (position + 1) rest
  | '[' :: rest => do
    refuseIf (key = []) (pathError text position "empty key")
    parseIndex text (segments ++ [.key (String.ofList key)]) [] (position + 1) rest
  | ']' :: _ => .error (pathError text position "unescaped `]` inside a key")
  | character :: rest => parseKey text segments (key ++ [character]) (position + character.utf8Size) rest

/-- Inside brackets, with the digits read so far. -/
def parseIndex (text : String) (segments : List PathSegment) (digits : List Char) (position : Nat) :
    List Char → Except InvalidError (List PathSegment)
  | ']' :: rest => do
    let segment ← indexSegment text (position + 1) digits
    parseNext text (segments ++ [segment]) (position + 1) rest
  | character :: rest =>
    if character.isDigit then parseIndex text segments (digits ++ [character]) (position + 1) rest
    else .error (pathError text position "an index must be digits closed by `]`")
  | [] => .error (pathError text position "an index must be digits closed by `]`")

/-- After an index. -/
def parseNext (text : String) (segments : List PathSegment) (position : Nat) :
    List Char → Except InvalidError (List PathSegment)
  | [] => .ok segments
  | '.' :: rest => parseKey text segments [] (position + 1) rest
  | '[' :: rest => parseIndex text segments [] (position + 1) rest
  | _ :: _ => .error (pathError text position "expected `.` or `[` after a segment")

end

def parseSegments (text : String) : Except InvalidError (List PathSegment) :=
  match text.toList with
  | '[' :: rest => parseIndex text [] [] 1 rest
  | characters => parseKey text [] [] 0 characters

def FieldPath.parse (text : String) : Except InvalidError FieldPath := do
  refuseIf (text = "") "field path must not be empty"
  refuseIf (text.utf8ByteSize > maxFilterPathBytes)
    s!"field path is {text.utf8ByteSize}B, exceeds cap {maxFilterPathBytes}B"
  let segments ← parseSegments text
  refuseIf (segments.length > maxFilterPathSegments)
    s!"field path `{text}` has {segments.length} segments, exceeds cap {maxFilterPathSegments}"
  return ⟨segments⟩

end LaserSdk.Filter

import Mathlib.Data.List.Basic
/-!
# JSON Pointers

`parsePointer` reads a pointer as RFC 6901 has it, one escape at a time. The
TypeScript client tests each part for a bad escape, replaces the two escapes
in turn and refuses the tokens that name an object's internals.
-/

namespace LaserSdk.Patch

/-! ## RFC 6901 -/

/-- The parts of a text between slashes. -/
def segments : List Char → List (List Char)
  | [] => [[]]
  | c :: rest =>
    if c = '/' then [] :: segments rest
    else match segments rest with
      | part :: parts => (c :: part) :: parts
      | [] => [[c]]

def unescape : List Char → Option (List Char)
  | [] => some []
  | c :: rest =>
    if c = '~' then
      match rest with
      | '0' :: rest => (unescape rest).map ('~' :: ·)
      | '1' :: rest => (unescape rest).map ('/' :: ·)
      | _ => none
    else (unescape rest).map (c :: ·)

def parseSegments : List (List Char) → Option (List String)
  | [] => some []
  | segment :: rest =>
    match unescape segment, parseSegments rest with
    | some token, some tokens => some (String.ofList token :: tokens)
    | _, _ => none

/-- The reference tokens of a pointer. -/
def parsePointer (path : String) : Option (List String) :=
  match path.toList with
  | [] => some []
  | c :: rest => if c = '/' then parseSegments (segments rest) else none

def escape : List Char → List Char
  | [] => []
  | c :: rest => if c = '~' then '~' :: '0' :: escape rest else if c = '/' then '~' :: '1' :: escape rest else c :: escape rest

/-- A pointer as text. -/
def printPointer (tokens : List String) : String := String.ofList (tokens.flatMap fun token => '/' :: escape token.toList)

/-! ## The TypeScript client -/

namespace Typescript

def forbiddenTokens : List String := ["__proto__", "constructor", "prototype"]

/-- A tilde that neither escape follows. -/
def badEscape : List Char → Bool
  | [] => false
  | c :: rest => (c = '~' && (rest.head?.all fun next => next ≠ '0' && next ≠ '1')) || badEscape rest

/-- Every tilde followed by `digit` gives way to one character. -/
def replaceAll (digit replacement : Char) : List Char → List Char
  | [] => []
  | c :: rest =>
    if c = '~' then
      match rest with
      | next :: rest =>
        if next = digit then replacement :: replaceAll digit replacement rest
        else c :: replaceAll digit replacement (next :: rest)
      | [] => [c]
    else c :: replaceAll digit replacement rest

def decodePart (path : String) (part : List Char) : Except String String :=
  if badEscape part then throw ("invalid JSON Pointer `" ++ path ++ "`")
  else
    let token := String.ofList (replaceAll '0' '~' (replaceAll '1' '/' part))
    if token ∈ forbiddenTokens then throw ("JSON Patch path `" ++ path ++ "` addresses a reserved property")
    else pure token

def decodeParts (path : String) : List (List Char) → Except String (List String)
  | [] => pure []
  | part :: rest => do
    let token ← decodePart path part
    let tokens ← decodeParts path rest
    pure (token :: tokens)

def decodePointer (path : String) : Except String (List String) :=
  match path.toList with
  | [] => pure []
  | c :: rest => if c = '/' then decodeParts path (segments rest) else throw ("invalid JSON Pointer `" ++ path ++ "`")

end Typescript

/-! ## Texts and tokens -/

/-- The text whose parts these are. -/
def join : List (List Char) → List Char
  | [] => []
  | [part] => part
  | part :: next :: parts => part ++ '/' :: join (next :: parts)

theorem unescape_cons {c : Char} (hc : c ≠ '~') (rest : List Char) :
    unescape (c :: rest) = (unescape rest).map (c :: ·) := by
  rw [unescape.eq_def]
  exact if_neg hc

namespace Typescript

/-- The tokens the client accepts. -/
def unreserved (tokens : List String) : Bool := tokens.all fun token => decide (token ∉ forbiddenTokens)

end Typescript

end LaserSdk.Patch

import LaserSdk.Lib.ShortestDecimal
import LaserSdk.Filter.Path
import LaserSdk.Typescript.Decimal
/-!
# Field paths in the TypeScript client

The TypeScript client walks the units of a path, where the Rust client walks
its characters. A surrogate pair is one step of a key. We prove that every path
the Rust client reads is read alike.
-/

namespace LaserSdk.Typescript

open LaserSdk.Lib

inductive PathSegment where
  | key (key : JsString)
  | index (index : Nat)
  deriving DecidableEq, Repr

structure FieldPath where
  segments : List PathSegment
  deriving DecidableEq, Repr

def maxFilterPathBytes : Nat := 256

def maxFilterPathSegments : Nat := 16

/-- A text of the source. -/
def jsText (text : String) : JsString := utf16 text.toList

/-! ## The parser -/

/-- `UTF8.encode(text).byteLength`. A surrogate without its pair is encoded as
the replacement character, which has three bytes as well. -/
def byteLength (text : JsString) : Nat :=
  ((codePoints text).map fun code => if code < 0x80 then 1 else if code < 0x800 then 2 else if code < 0x10000 then 3 else 4).sum

def isPathSpecial (unit : UInt16) : Bool := unit == 46 || unit == 91 || unit == 93 || unit == 92

namespace PathParser

/-- The error at a position, given by the units that are left there. -/
def invalid (text rest : JsString) (reason : String) : JsString :=
  let byte := byteLength (text.take (text.length - rest.length))
  jsText "field path `" ++ text ++ jsText s!"` is invalid at byte {byte}: {reason}"

mutual

/-- The loop of `key`, with the units read so far. -/
def key (text : JsString) (segments : List PathSegment) (read : JsString) : JsString → Except JsString (List PathSegment)
  | [] => if read.length = 0 then .error (invalid text [] "empty key") else .ok (segments ++ [.key read])
  | unit :: rest =>
    if unit = 46 then
      if read.length = 0 then .error (invalid text (unit :: rest) "empty key")
      else key text (segments ++ [.key read]) [] rest
    else if unit = 91 then
      if read.length = 0 then .error (invalid text (unit :: rest) "empty key")
      else index text (segments ++ [.key read]) [] rest
    else if unit = 93 then .error (invalid text (unit :: rest) "unescaped `]` inside a key")
    else if unit = 92 then
      match rest with
      | escaped :: behind =>
        if isPathSpecial escaped then key text segments (read ++ [escaped]) behind
        else .error (invalid text rest "`\\` must escape `.`, `[`, `]`, or `\\`")
      | [] => .error (invalid text rest "`\\` must escape `.`, `[`, `]`, or `\\`")
    else
      match rest with
      | low :: behind =>
        if isHighSurrogate unit && isLowSurrogate low then key text segments (read ++ [unit, low]) behind
        else key text segments (read ++ [unit]) (low :: behind)
      | [] => key text segments (read ++ [unit]) []

/-- The loop of `index` behind the bracket, with the digits read so far. -/
def index (text : JsString) (segments : List PathSegment) (digits : JsString) :
    JsString → Except JsString (List PathSegment)
  | [] => .error (invalid text [] "an index must be digits closed by `]`")
  | unit :: rest =>
    if isDigit unit then index text segments (digits ++ [unit]) rest
    else if unit = 93 then
      if digits.length = 0 ∨ (digits.length > 1 ∧ digits.head? = some 48) then
        .error (invalid text rest "an index must be a canonical decimal number")
      else
        let index := nearestDouble (digitsNumber digits)
        if index > 2 ^ 53 - 1 ∨ index > 0xffffffff then .error (invalid text rest "an index must fit in 32 bits")
        else next text (segments ++ [.index index]) rest
    else .error (invalid text (unit :: rest) "an index must be digits closed by `]`")

/-- The loop of `segments`, behind an index. -/
def next (text : JsString) (segments : List PathSegment) : JsString → Except JsString (List PathSegment)
  | [] => .ok segments
  | unit :: rest =>
    if unit = 46 then key text segments [] rest
    else if unit = 91 then index text segments [] rest
    else .error (invalid text (unit :: rest) "expected `.` or `[` after a segment")

end

def segments (text : JsString) : Except JsString (List PathSegment) :=
  match text with
  | 91 :: rest => index text [] [] rest
  | _ => key text [] [] text

end PathParser

def FieldPath.parse (text : JsString) : Except JsString FieldPath :=
  if text.length = 0 then .error (jsText "field path must not be empty")
  else
    let bytes := byteLength text
    if bytes > maxFilterPathBytes then .error (jsText s!"field path is {bytes}B, exceeds cap {maxFilterPathBytes}B")
    else do
      let segments ← PathParser.segments text
      if segments.length > maxFilterPathSegments then
        .error (jsText "field path `" ++ text ++
          jsText s!"` has {segments.length} segments, exceeds cap {maxFilterPathSegments}")
      else return ⟨segments⟩

/-! ## Reading paths alike -/

def PathSegment.ofRust : Filter.PathSegment → PathSegment
  | .key name => .key (jsText name)
  | .index place => .index place.toNat

def FieldPath.ofRust (path : Filter.FieldPath) : FieldPath := ⟨path.segments.map .ofRust⟩

theorem byteLength_jsText (text : String) : byteLength (jsText text) = text.utf8ByteSize := by
  have hsize : text.utf8ByteSize = text.toUTF8.toList.length := by
    rw [toList_eq_data]
    rfl
  rw [hsize, utf8_toList, byteLength, jsText, codePoints_utf16]
  induction text.toList with
  | nil => rfl
  | cons c chars ih =>
    rw [List.map_cons, List.map_cons, List.sum_cons, ih, List.flatMap_cons, List.length_append,
      String.length_utf8EncodeChar]
    congr 1
    unfold Char.utf8Size
    simp only [UInt32.le_iff_toNat_le]
    show (if c.val.toNat < _ then _ else _) = _
    split_ifs <;> simp_all <;> omega

section

variable (text : JsString)

/-- A character that is not special is read as a whole. -/
theorem key_plain (segments : List PathSegment) (read rest : JsString) {c : Char} (hc : Filter.isPathSpecial c = false) :
    PathParser.key text segments read (utf16Char c ++ rest) = PathParser.key text segments (read ++ utf16Char c) rest := by
  have hplain (unit : UInt16) (hunit : unit.toNat = c.toNat ∨ isHighSurrogate unit = true) :
      unit ≠ 46 ∧ unit ≠ 91 ∧ unit ≠ 93 ∧ unit ≠ 92 := by
    simp only [Filter.isPathSpecial, Bool.or_eq_false_iff, beq_eq_false_iff_ne] at hc
    obtain ⟨⟨⟨hdot, hopen⟩, hclose⟩, hslash⟩ := hc
    have hmark {mark : Char} (hne : c ≠ mark) {code : UInt16} (hcode : code.toNat = mark.toNat)
        (hlow : isHighSurrogate code = false) : unit ≠ code := by
      rintro rfl
      rcases hunit with hsame | hhigh
      · exact hne (Char.toNat_inj.1 (hsame.symm.trans hcode))
      · exact nomatch hhigh.symm.trans hlow
    exact ⟨hmark hdot rfl rfl, hmark hopen rfl rfl, hmark hclose rfl rfl, hmark hslash rfl rfl⟩
  rcases utf16Char_cases c with ⟨unit, hunits, hcode, hhigh, -⟩ | ⟨high, low, hunits, hhigh, hlow, -⟩
  · obtain ⟨hdot, hopen, hclose, hslash⟩ := hplain unit (.inl hcode)
    rw [hunits, List.singleton_append, PathParser.key.eq_def]
    cases rest with
    | nil => simp [hdot, hopen, hclose, hslash]
    | cons low rest => simp [hdot, hopen, hclose, hslash, hhigh]
  · obtain ⟨hdot, hopen, hclose, hslash⟩ := hplain high (.inr hhigh)
    rw [hunits]
    show PathParser.key text segments read (high :: low :: rest) = _
    rw [PathParser.key.eq_def]
    simp [hdot, hopen, hclose, hslash, hhigh, hlow]

/-- A special character is one unit. -/
theorem utf16Char_special {c : Char} (hc : Filter.isPathSpecial c = true) :
    ∃ unit, utf16Char c = [unit] ∧ isPathSpecial unit = true := by
  simp only [Filter.isPathSpecial, Bool.or_eq_true, beq_iff_eq] at hc
  rcases hc with ((rfl | rfl) | rfl) | rfl
  · exact ⟨46, rfl, rfl⟩
  · exact ⟨91, rfl, rfl⟩
  · exact ⟨93, rfl, rfl⟩
  · exact ⟨92, rfl, rfl⟩

end

theorem utf16Char_digit {c : Char} (hc : c.isDigit = true) :
    ∃ unit, utf16Char c = [unit] ∧ isDigit unit = true ∧ unit.toNat = c.toNat := by
  simp only [Char.isDigit, ge_iff_le, Bool.and_eq_true, decide_eq_true_eq, UInt32.le_iff_toNat_le] at hc
  have hlow : 48 ≤ c.toNat := hc.1
  have hhigh : c.toNat ≤ 57 := hc.2
  refine ⟨UInt16.ofNat c.toNat, if_pos (by omega), ?_, ?_⟩
  · simp only [isDigit, Bool.and_eq_true, decide_eq_true_eq, UInt16.le_iff_toNat_le, UInt16.toNat_ofNat']
    show 48 ≤ _ ∧ _ ≤ 57
    omega
  · rw [UInt16.toNat_ofNat', Nat.mod_eq_of_lt (by omega)]

theorem utf16_digits {digits : List Char} (h : ∀ c ∈ digits, c.isDigit = true) :
    (utf16 digits).length = digits.length ∧ digitsNumber (utf16 digits) = digits.foldl (fun n c => 10 * n + (c.toNat - 48)) 0 ∧
      ((utf16 digits).head? = some 48 → digits.head? = some '0') := by
  have hread : ∀ n, (utf16 digits).length = digits.length ∧
      (utf16 digits).foldl (fun n unit => 10 * n + (unit.toNat - 48)) n =
        digits.foldl (fun n c => 10 * n + (c.toNat - 48)) n := by
    induction digits with
    | nil => exact fun n => ⟨rfl, rfl⟩
    | cons c digits ih =>
      intro n
      obtain ⟨unit, hunits, -, hcode⟩ := utf16Char_digit (h c (by simp))
      obtain ⟨hlength, hfold⟩ := ih (fun d hd => h d (by simp [hd])) (10 * n + (unit.toNat - 48))
      rw [utf16_cons, hunits]
      refine ⟨congrArg (· + 1) hlength, ?_⟩
      rw [List.foldl_cons, ← hcode]
      exact hfold
  refine ⟨(hread 0).1, (hread 0).2, ?_⟩
  cases digits with
  | nil => exact fun hhead => nomatch hhead
  | cons c digits =>
    obtain ⟨unit, hunits, -, hcode⟩ := utf16Char_digit (h c (by simp))
    rw [utf16_cons, hunits]
    intro hhead
    cases hhead
    exact congrArg some (Char.toNat_inj.1 hcode.symm)

/-- An index that the Rust client takes passes the checks here. -/
theorem index_checks {text : String} {position : Nat} {digits : List Char} {segment : Filter.PathSegment}
    (hdigits : ∀ c ∈ digits, c.isDigit = true) (h : Filter.indexSegment text position digits = .ok segment) :
    ¬ ((utf16 digits).length = 0 ∨ ((utf16 digits).length > 1 ∧ (utf16 digits).head? = some 48)) ∧
      nearestDouble (digitsNumber (utf16 digits)) ≤ 0xffffffff ∧
      PathSegment.index (nearestDouble (digitsNumber (utf16 digits))) = .ofRust segment := by
  obtain ⟨hlength, hnumber, hzero⟩ := utf16_digits hdigits
  unfold Filter.indexSegment at h
  simp only [bind_ok, refuseIf_ok, pure_ok, not_or, not_and, not_le] at h
  obtain ⟨_, ⟨hne, hhead⟩, _, hfits, rfl⟩ := h
  rw [show '0'.toNat = 48 from rfl, ← hnumber] at hfits
  have hexact : nearestDouble (digitsNumber (utf16 digits)) = digitsNumber (utf16 digits) :=
    nearestDouble_of_lt (by omega)
  rw [hlength, hexact]
  refine ⟨?_, by omega, ?_⟩
  · rintro (hempty | ⟨hlong, hfirst⟩)
    · exact hne (List.length_eq_zero_iff.1 hempty)
    · exact hhead hlong (hzero hfirst)
  · rw [PathSegment.ofRust, show '0'.toNat = 48 from rfl, ← hnumber, UInt32.toNat_ofNat', Nat.mod_eq_of_lt hfits]

/-- Each of the three parsers reads what its counterpart reads. -/
theorem parsers_alike (text : String) (units : JsString) :
    (∀ segments key position rest, ∀ out, Filter.parseKey text segments key position rest = .ok out →
      PathParser.key units (segments.map .ofRust) (utf16 key) (utf16 rest) = .ok (out.map .ofRust)) ∧
    (∀ segments digits position rest, (∀ c ∈ digits, c.isDigit = true) →
      ∀ out, Filter.parseIndex text segments digits position rest = .ok out →
        PathParser.index units (segments.map .ofRust) (utf16 digits) (utf16 rest) = .ok (out.map .ofRust)) ∧
    (∀ segments position rest, ∀ out, Filter.parseNext text segments position rest = .ok out →
      PathParser.next units (segments.map .ofRust) (utf16 rest) = .ok (out.map .ofRust)) := by
  have hread {key : List Char} (hne : ¬ key = []) : ¬ (utf16 key).length = 0 := fun h =>
    hne (utf16_inj.1 (List.length_eq_zero_iff.1 h))
  have hsnoc (segments : List Filter.PathSegment) (key : List Char) :
      segments.map PathSegment.ofRust ++ [.key (utf16 key)] =
        (segments ++ [Filter.PathSegment.key (String.ofList key)]).map .ofRust := by
    simp [PathSegment.ofRust, jsText]
  apply Filter.parseKey.mutual_induct
  -- The key: the end, an escape, the two ends of a key, and a plain character.
  · intro segments key position out h
    simp only [Filter.parseKey, bind_ok, refuseIf_ok, pure_ok] at h
    obtain ⟨_, hne, rfl⟩ := h
    rw [utf16_nil, PathParser.key, if_neg (hread hne), hsnoc]
  · intro segments key position escaped rest hspecial ih out h
    simp only [Filter.parseKey, hspecial, if_true] at h
    obtain ⟨unit, hunits, hunit⟩ := utf16Char_special hspecial
    have hescaped := ih out h
    rw [utf16_append, utf16_cons, utf16_nil, List.append_nil, hunits] at hescaped
    rw [utf16_cons, utf16_cons, hunits]
    show PathParser.key _ _ _ (92 :: unit :: utf16 rest) = _
    rw [PathParser.key.eq_def]
    simpa [hunit] using hescaped
  · intro segments key position escaped rest hspecial out h
    simp [Filter.parseKey, hspecial] at h
  · intro segments key position out h
    simp [Filter.parseKey] at h
  · intro segments key position rest ih out h
    simp only [Filter.parseKey, bind_ok, refuseIf_ok] at h
    obtain ⟨_, hne, h⟩ := h
    show PathParser.key _ _ _ (46 :: utf16 rest) = _
    rw [PathParser.key.eq_def]
    simp only [if_true, if_neg (hread hne), hsnoc]
    exact ih out h
  · intro segments key position rest ih out h
    simp only [Filter.parseKey, bind_ok, refuseIf_ok] at h
    obtain ⟨_, hne, h⟩ := h
    show PathParser.key _ _ _ (91 :: utf16 rest) = _
    rw [PathParser.key.eq_def]
    simp only [show (91 : UInt16) ≠ 46 by decide, if_false, if_true, if_neg (hread hne), hsnoc]
    exact ih (by simp) out h
  · intro segments key position rest out h
    simp [Filter.parseKey] at h
  · intro segments key position c rest hslash hdot hopen hclose ih out h
    rw [Filter.parseKey] at h
    · have hplain : Filter.isPathSpecial c = false := by
        simpa [Filter.isPathSpecial] using ⟨⟨⟨hdot, hopen⟩, hclose⟩, hslash⟩
      have hkey := ih out h
      rw [utf16_append, utf16_cons, utf16_nil, List.append_nil] at hkey
      rw [utf16_cons, key_plain units _ _ _ hplain, hkey]
    all_goals assumption
  -- The index.
  · intro segments digits position rest ih hdigits out h
    simp only [Filter.parseIndex, bind_ok] at h
    obtain ⟨segment, hsegment, h⟩ := h
    obtain ⟨hcanonical, hfits, hindex⟩ := index_checks hdigits hsegment
    show PathParser.index _ _ _ (93 :: utf16 rest) = _
    rw [PathParser.index, if_neg (by decide), if_pos rfl, if_neg hcanonical]
    dsimp only
    rw [if_neg (by omega), hindex]
    simpa using ih segment out h
  · intro segments digits position c rest hclose hdigit ih hdigits out h
    rw [Filter.parseIndex, if_pos hdigit] at h
    · obtain ⟨unit, hunits, hunit, -⟩ := utf16Char_digit hdigit
      have hmore : ∀ d ∈ digits ++ [c], d.isDigit = true := by
        intro d hd
        rcases List.mem_append.1 hd with hd | hd
        · exact hdigits d hd
        · rw [List.mem_singleton.1 hd]
          exact hdigit
      have hindex := ih hmore out h
      rw [utf16_append, utf16_cons, utf16_nil, List.append_nil, hunits] at hindex
      rw [utf16_cons, hunits, List.singleton_append, PathParser.index, if_pos hunit, hindex]
    · exact hclose
  · intro segments digits position c rest hclose hdigit _ out h
    rw [Filter.parseIndex, if_neg hdigit] at h
    · cases h
    · exact hclose
  · intro segments digits position _ out h
    simp [Filter.parseIndex] at h
  -- After an index.
  · intro segments position out h
    simp only [Filter.parseNext, Except.ok.injEq] at h
    rw [h]
    rfl
  · intro segments position rest ih out h
    simp only [Filter.parseNext] at h
    exact ih out h
  · intro segments position rest ih out h
    simp only [Filter.parseNext] at h
    exact ih (by simp) out h
  · intro segments position c rest hdot hopen out h
    rw [Filter.parseNext] at h
    · cases h
    all_goals assumption

theorem segments_of_ne {units : JsString} (h : units.head? ≠ some 91) :
    PathParser.segments units = PathParser.key units [] [] units := by
  unfold PathParser.segments
  split
  · exact absurd rfl h
  · rfl

theorem segments_alike {text : String} {segments : List Filter.PathSegment} (h : Filter.parseSegments text = .ok segments) :
    PathParser.segments (jsText text) = .ok (segments.map .ofRust) := by
  obtain ⟨hkey, hindex, -⟩ := parsers_alike text (jsText text)
  unfold Filter.parseSegments at h
  split at h
  · rename_i rest htext
    have hunits : jsText text = 91 :: utf16 rest := by
      rw [jsText, htext]
      rfl
    have hread := hindex [] [] 1 rest (by simp) segments h
    rw [hunits] at hread ⊢
    exact hread
  · rename_i hopen
    have hhead : (jsText text).head? ≠ some 91 := by
      rw [jsText]
      cases htext : text.toList with
      | nil => simp
      | cons c rest =>
        rcases utf16Char_cases c with ⟨unit, hunits, hcode, -⟩ | ⟨high, low, hunits, hhigh, -⟩
        · rw [utf16_cons, hunits]
          intro heq
          cases heq
          have hc : c = '[' := Char.toNat_inj.1 hcode.symm
          exact hopen rest (by rw [htext, hc])
        · rw [utf16_cons, hunits]
          intro heq
          cases heq
          exact nomatch hhigh
    rw [segments_of_ne hhead]
    exact hkey [] [] 0 text.toList segments h

/-- Every path of the Rust client is read alike. -/
theorem parse_path_alike {text : String} {path : Filter.FieldPath} (h : Filter.FieldPath.parse text = .ok path) :
    FieldPath.parse (jsText text) = .ok (.ofRust path) := by
  simp only [Filter.FieldPath.parse, bind_ok, refuseIf_ok, pure_ok] at h
  obtain ⟨_, hne, _, hbytes, segments, hsegments, _, hcount, rfl⟩ := h
  have hlength : ¬ (jsText text).length = 0 := by
    intro hempty
    have hnil : text.toList = [] := utf16_inj.1 (List.length_eq_zero_iff.1 hempty)
    exact hne (String.toList_eq_nil_iff.1 hnil)
  have hcap : ¬ text.utf8ByteSize > maxFilterPathBytes := hbytes
  have hlimit : ¬ segments.length > maxFilterPathSegments := hcount
  unfold FieldPath.parse
  rw [if_neg hlength]
  dsimp only
  rw [byteLength_jsText, if_neg hcap, segments_alike hsegments, ok_bind, List.length_map, if_neg hlimit]
  rfl

end LaserSdk.Typescript

import LaserSdk.Filter.Path
import LaserSdk.Lib.Decimal
/-!
# The text form of a path

A path is displayed with a dot before every key but a leading one and with its
indexes in brackets, and the display is the path's only text form: the parser
accepts no other and reads it back to the same segments. The digest of a
filter rests on that.
-/

namespace LaserSdk.Filter

open LaserSdk.Lib

/-- The characters of a key, a backslash before each special one. -/
def escapeKey (key : List Char) : List Char :=
  key.flatMap fun character => if isPathSpecial character then ['\\', character] else [character]

def displaySegment (position : Nat) : PathSegment → List Char
  | .key key => (if position > 0 then ['.'] else []) ++ escapeKey key.toList
  | .index index => '[' :: Nat.toDigits 10 index.toNat ++ [']']

def displaySegments (segments : List PathSegment) : List Char :=
  segments.zipIdx.flatMap fun (segment, position) => displaySegment position segment

def FieldPath.display (path : FieldPath) : String := String.ofList (displaySegments path.segments)

theorem displaySegments_snoc (segments : List PathSegment) (segment : PathSegment) :
    displaySegments (segments ++ [segment]) = displaySegments segments ++ displaySegment segments.length segment := by
  simp [displaySegments, List.zipIdx_append]

theorem escapeKey_append (key rest : List Char) : escapeKey (key ++ rest) = escapeKey key ++ escapeKey rest :=
  List.flatMap_append

/-! ## An accepted text is the display of what it parses to -/

/-- What separates the segments so far from the key being read. -/
def keyMark (segments : List PathSegment) : List Char := if segments.length > 0 then ['.'] else []

theorem displaySegments_key (segments : List PathSegment) (key : List Char) :
    displaySegments (segments ++ [.key (String.ofList key)]) =
      displaySegments segments ++ keyMark segments ++ escapeKey key := by
  rw [displaySegments_snoc]
  simp [displaySegment, keyMark]

theorem keyMark_of_ne_nil {segments : List PathSegment} (h : segments ≠ []) : keyMark segments = ['.'] :=
  if_pos (List.length_pos_iff.2 h)

theorem indexSegment_ok {text : String} {position : Nat} {digits : List Char} {segment : PathSegment}
    (hdigits : ∀ c ∈ digits, c.isDigit) (h : indexSegment text position digits = .ok segment) (place : Nat) :
    displaySegment place segment = '[' :: digits ++ [']'] := by
  unfold indexSegment at h
  simp only [bind_ok, refuseIf_ok, pure_ok, foldl_charDigit, not_or, not_and, not_le] at h
  obtain ⟨_, ⟨hne, hhead⟩, _, hfits, rfl⟩ := h
  have hcanonical : Canonical (digits.map charDigit) := by
    refine ⟨by simpa using hne, ?_⟩
    intro hlength hzero
    rw [List.length_map] at hlength
    cases digits with
    | nil => exact hne rfl
    | cons digit digits =>
      have hdigit : digit.isDigit := hdigits digit (by simp)
      refine hhead hlength ?_
      have hsame : charDigit digit = charDigit '0' := by simpa [charDigit] using hzero
      rw [List.head?_cons, charDigit_inj hdigit (by decide) hsame]
  have hvalue : (UInt32.ofNat (decimalValue (digits.map charDigit))).toNat = decimalValue (digits.map charDigit) := by
    simpa using Nat.mod_eq_of_lt hfits
  simp only [displaySegment, hvalue]
  rw [toDigits_decimalValue hdigits hcanonical]

/-- What each of the three parsers accepts, after the segments it was given. -/
theorem parsers_display (text : String) :
    (∀ segments key position rest, ∀ out, parseKey text segments key position rest = .ok out →
      displaySegments out = displaySegments segments ++ keyMark segments ++ escapeKey key ++ rest) ∧
    (∀ segments digits position rest, (∀ c ∈ digits, c.isDigit) →
      ∀ out, parseIndex text segments digits position rest = .ok out →
        displaySegments out = displaySegments segments ++ '[' :: digits ++ rest) ∧
    (∀ segments position rest, segments ≠ [] → ∀ out, parseNext text segments position rest = .ok out →
      displaySegments out = displaySegments segments ++ rest) := by
  apply parseKey.mutual_induct
  -- The key parser: the end, an escape, the two ends of a key, and a plain character.
  · intro segments key position out h
    simp only [parseKey, bind_ok, pure_ok] at h
    obtain ⟨_, -, rfl⟩ := h
    rw [displaySegments_key, List.append_nil]
  · intro segments key position escaped rest hspecial ih out h
    simp only [parseKey, hspecial, if_true] at h
    rw [ih out h, escapeKey_append]
    simp [escapeKey, hspecial]
  · intro segments key position escaped rest hspecial out h
    simp [parseKey, hspecial] at h
  · intro segments key position out h
    simp [parseKey] at h
  · intro segments key position rest ih out h
    simp only [parseKey, bind_ok] at h
    obtain ⟨_, -, h⟩ := h
    have hne : segments ++ [.key (String.ofList key)] ≠ [] := by simp
    rw [ih out h, displaySegments_key, keyMark_of_ne_nil hne]
    simp [escapeKey]
  · intro segments key position rest ih out h
    simp only [parseKey, bind_ok] at h
    obtain ⟨_, -, h⟩ := h
    rw [ih (by simp) out h, displaySegments_key]
    simp
  · intro segments key position rest out h
    simp [parseKey] at h
  · intro segments key position character rest hslash hdot hopen hclose ih out h
    rw [parseKey] at h
    · have hplain : isPathSpecial character = false := by
        simpa [isPathSpecial] using ⟨⟨⟨hdot, hopen⟩, hclose⟩, hslash⟩
      rw [ih out h, escapeKey_append]
      simp [escapeKey, hplain]
    all_goals assumption
  -- The index parser.
  · intro segments digits position rest ih hdigits out h
    simp only [parseIndex, bind_ok] at h
    obtain ⟨segment, hsegment, h⟩ := h
    rw [ih segment (by simp) out h, displaySegments_snoc, indexSegment_ok hdigits hsegment]
    simp
  · intro segments digits position character rest hclose hdigit ih hdigits out h
    rw [parseIndex, if_pos hdigit] at h
    · rw [ih ?_ out h]
      · simp
      · intro c hc
        rcases List.mem_append.1 hc with hc | hc
        · exact hdigits c hc
        · rw [List.mem_singleton.1 hc]
          exact hdigit
    · exact hclose
  · intro segments digits position character rest hclose hdigit _ out h
    rw [parseIndex, if_neg hdigit] at h
    · cases h
    · exact hclose
  · intro segments digits position _ out h
    simp [parseIndex] at h
  -- After an index.
  · intro segments position _ out h
    simp only [parseNext, Except.ok.injEq] at h
    rw [h, List.append_nil]
  · intro segments position rest ih hne out h
    simp only [parseNext] at h
    rw [ih out h, keyMark_of_ne_nil hne]
    simp [escapeKey]
  · intro segments position rest ih _ out h
    simp only [parseNext] at h
    rw [ih (by simp) out h]
    simp
  · intro segments position character rest hdot hopen _ out h
    rw [parseNext] at h
    · cases h
    all_goals assumption

theorem parseSegments_display {text : String} {segments : List PathSegment} (h : parseSegments text = .ok segments) :
    displaySegments segments = text.toList := by
  obtain ⟨hkey, hindex, -⟩ := parsers_display text
  unfold parseSegments at h
  split at h
  · rename_i rest htext
    rw [hindex [] [] 1 rest (by simp) segments h, htext]
    rfl
  · rw [hkey [] [] 0 text.toList segments h]
    rfl

/-! ## The display of a path parses to it -/

theorem parseKey_escapeKey (text : String) (segments : List PathSegment) (key rest : List Char) :
    ∀ before position, ∃ position',
      parseKey text segments before position (escapeKey key ++ rest) =
        parseKey text segments (before ++ key) position' rest := by
  induction key with
  | nil => exact fun before position => ⟨position, by simp [escapeKey]⟩
  | cons character key ih =>
    intro before position
    have hsplit : escapeKey (character :: key) ++ rest =
        (if isPathSpecial character then ['\\', character] else [character]) ++ (escapeKey key ++ rest) := by
      rw [← List.singleton_append, escapeKey_append, List.append_assoc]
      simp [escapeKey]
    rw [hsplit, List.append_cons before character key]
    by_cases hspecial : isPathSpecial character
    · obtain ⟨position', hrest⟩ := ih (before ++ [character]) (position + 2)
      refine ⟨position', ?_⟩
      rw [if_pos hspecial, ← hrest]
      simp [parseKey, hspecial]
    · obtain ⟨position', hrest⟩ := ih (before ++ [character]) (position + character.utf8Size)
      refine ⟨position', ?_⟩
      rw [if_neg hspecial, ← hrest, List.singleton_append]
      simp only [isPathSpecial, Bool.or_eq_true, beq_iff_eq, not_or] at hspecial
      rw [parseKey]
      all_goals tauto

theorem parseIndex_digits (text : String) (segments : List PathSegment) {digits : List Char} (rest : List Char)
    (hdigits : ∀ c ∈ digits, c.isDigit) :
    ∀ before position, ∃ position',
      parseIndex text segments before position (digits ++ rest) =
        parseIndex text segments (before ++ digits) position' rest := by
  induction digits with
  | nil => exact fun before position => ⟨position, by simp⟩
  | cons digit digits ih =>
    intro before position
    have hdigit : digit.isDigit := hdigits digit (by simp)
    obtain ⟨position', hrest⟩ := ih (fun c hc => hdigits c (by simp [hc])) (before ++ [digit]) (position + 1)
    refine ⟨position', ?_⟩
    rw [List.cons_append, parseIndex, if_pos hdigit, hrest]
    · simp
    · rintro rfl
      revert hdigit
      decide

theorem indexSegment_toDigits (text : String) (position : Nat) (index : UInt32) :
    indexSegment text position (Nat.toDigits 10 index.toNat) = .ok (.index index) := by
  obtain ⟨hne, hhead⟩ := canonical_toDigits index.toNat
  unfold indexSegment
  simp only [bind_ok, refuseIf_ok, pure_ok, foldl_charDigit, decimalValue_toDigits, not_or, not_and, not_le]
  refine ⟨(), ⟨by simp, ?_⟩, (), index.toNat_lt, by simp⟩
  intro hlength hzero
  refine hhead (by simpa using hlength) ?_
  rw [List.head?_map, hzero]
  rfl

/-- The segments after the first, as they are displayed. -/
def displayRest (segments : List PathSegment) : List Char := segments.flatMap (displaySegment 1)

theorem displaySegments_cons (segment : PathSegment) (segments : List PathSegment) :
    displaySegments (segment :: segments) = displaySegment 0 segment ++ displayRest segments := by
  have hlater (start : Nat) (hstart : 0 < start) :
      (segments.zipIdx start).flatMap (fun (segment, position) => displaySegment position segment) =
        displayRest segments := by
    induction segments generalizing start with
    | nil => rfl
    | cons first segments ih =>
      have hfirst : displaySegment start first = displaySegment 1 first := by
        cases first with
        | key key => simp [displaySegment, hstart]
        | index index => rfl
      rw [List.zipIdx_cons, List.flatMap_cons, ih (start + 1) (by omega)]
      dsimp only
      rw [hfirst]
      rfl
  simp only [displaySegments, List.zipIdx_cons, List.flatMap_cons]
  rw [hlater (0 + 1) (by omega)]

theorem parseIndex_display (text : String) (segments : List PathSegment) (index : UInt32) (position : Nat)
    (rest : List Char) : ∃ position',
      parseIndex text segments [] position (Nat.toDigits 10 index.toNat ++ [']'] ++ rest) =
        parseNext text (segments ++ [.index index]) position' rest := by
  obtain ⟨position', hrest⟩ :=
    parseIndex_digits text segments (']' :: rest) (isDigit_toDigits index.toNat) [] position
  refine ⟨position' + 1, ?_⟩
  rw [List.append_assoc, List.singleton_append, hrest, List.nil_append, parseIndex, indexSegment_toDigits]
  rfl

/-- The rest of a path parses after an index and after a key alike. -/
theorem parse_displayRest (text : String) (later : List PathSegment)
    (hkeys : ∀ key, PathSegment.key key ∈ later → key ≠ "") :
    ∀ segments position,
      parseNext text segments position (displayRest later) = .ok (segments ++ later) ∧
      ∀ key, key ≠ [] → parseKey text segments key position (displayRest later) =
        .ok (segments ++ .key (String.ofList key) :: later) := by
  induction later with
  | nil =>
    intro segments position
    refine ⟨by simp [displayRest, parseNext], ?_⟩
    intro key hkey
    simp [displayRest, parseKey, hkey, refuseIf]
  | cons segment later ih =>
    intro segments position
    have ih := ih fun key hmem => hkeys key (by simp [hmem])
    cases segment with
    | key name =>
      have hname : name.toList ≠ [] := by simpa using hkeys name (by simp)
      have hshape : displayRest (.key name :: later) = '.' :: (escapeKey name.toList ++ displayRest later) := by
        simp [displayRest, displaySegment]
      have hread (before : List PathSegment) (position : Nat) :
          parseKey text before [] position (escapeKey name.toList ++ displayRest later) =
            .ok (before ++ .key name :: later) := by
        obtain ⟨position', hrest⟩ := parseKey_escapeKey text before name.toList (displayRest later) [] position
        rw [hrest, (ih before position').2 _ (by simpa using hname)]
        simp
      rw [hshape]
      refine ⟨by rw [parseNext, hread], ?_⟩
      intro key hkey
      simp [parseKey, hkey, refuseIf, hread]
    | index index =>
      have hshape : displayRest (.index index :: later) =
          '[' :: (Nat.toDigits 10 index.toNat ++ [']'] ++ displayRest later) := by
        simp [displayRest, displaySegment]
      have hread (before : List PathSegment) (position : Nat) :
          parseIndex text before [] position (Nat.toDigits 10 index.toNat ++ [']'] ++ displayRest later) =
            .ok (before ++ .index index :: later) := by
        obtain ⟨position', hrest⟩ := parseIndex_display text before index position (displayRest later)
        rw [hrest, (ih _ _).1]
        simp
      rw [hshape]
      refine ⟨by rw [parseNext, hread], ?_⟩
      intro key hkey
      rw [parseKey, hread]
      simp [hkey, refuseIf]

theorem parseSegments_displaySegments {segments : List PathSegment} (hne : segments ≠ [])
    (hkeys : ∀ key, PathSegment.key key ∈ segments → key ≠ "") :
    parseSegments (String.ofList (displaySegments segments)) = .ok segments := by
  obtain ⟨segment, later, rfl⟩ := List.exists_cons_of_ne_nil hne
  generalize htext : String.ofList (displaySegments (segment :: later)) = text
  have hchars : text.toList = displaySegment 0 segment ++ displayRest later := by
    rw [← htext, String.toList_ofList, displaySegments_cons]
  have hlater := parse_displayRest text later fun key hmem => hkeys key (by simp [hmem])
  unfold parseSegments
  rw [hchars]
  cases segment with
  | index index =>
    obtain ⟨position, hindex⟩ := parseIndex_display text [] index 1 (displayRest later)
    simp only [displaySegment, List.cons_append]
    rw [hindex, (hlater _ _).1]
    rfl
  | key key =>
    have hkey : key.toList ≠ [] := by simpa using hkeys key (by simp)
    have hshape : displaySegment 0 (.key key) = escapeKey key.toList := rfl
    rw [hshape]
    split
    · -- A displayed key never opens with a bare bracket.
      rename_i rest hopen
      obtain ⟨first, more, hfirst⟩ := List.exists_cons_of_ne_nil hkey
      rw [hfirst] at hopen
      by_cases hspecial : isPathSpecial first
      · simp [escapeKey, hspecial] at hopen
      · simp [escapeKey, hspecial] at hopen
        rw [hopen.1] at hspecial
        exact absurd rfl hspecial
    · obtain ⟨position, hread⟩ := parseKey_escapeKey text [] key.toList (displayRest later) [] 0
      rw [hread, (hlater _ _).2 _ (by simpa using hkey)]
      simp

/-- A path has one text form: an accepted text is the display of its path, and
the display of any path within the caps parses to that path. -/
theorem parse_display_inverse :
    (∀ text path, FieldPath.parse text = .ok path → path.display = text) ∧
    ∀ segments : List PathSegment, (∀ key, .key key ∈ segments → key ≠ "") →
      segments.length ≤ maxFilterPathSegments → FieldPath.display ⟨segments⟩ ≠ "" →
      (FieldPath.display ⟨segments⟩).utf8ByteSize ≤ maxFilterPathBytes →
      FieldPath.parse (FieldPath.display ⟨segments⟩) = .ok ⟨segments⟩ := by
  constructor
  · intro text path h
    unfold FieldPath.parse at h
    simp only [bind_ok, refuseIf_ok, pure_ok] at h
    obtain ⟨_, -, _, -, segments, hsegments, _, -, rfl⟩ := h
    unfold FieldPath.display
    rw [parseSegments_display hsegments, String.ofList_toList]
  · intro segments hkeys hcap hdisplay hbytes
    have hne : segments ≠ [] := by
      rintro rfl
      exact hdisplay rfl
    unfold FieldPath.parse
    simp only [bind_ok, refuseIf_ok, pure_ok]
    refine ⟨(), hdisplay, (), by omega, segments, ?_, (), by omega, rfl⟩
    exact parseSegments_displaySegments hne hkeys

example : (FieldPath.display ⟨[.key "a.b", .index 0, .key "200"]⟩, FieldPath.display ⟨[.index 7, .key "]"]⟩) =
    ("a\\.b[0].200", "[7].\\]") := by decide +kernel

end LaserSdk.Filter

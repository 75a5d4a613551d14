import Mathlib.Data.List.Basic
import Mathlib.Tactic.Common
import LaserSdk.Lib.Utf8
/-!
# Strings of UTF-16 units

A JavaScript string is a list of 16 bit units. Its code points are read from
the front: a high surrogate with a low one behind it is one code point, and
every other unit is a code point of its own, also a surrogate without its pair.
A text of Unicode characters is spelled with one unit or two for each, and its
code points are its characters.
-/

namespace LaserSdk.Lib

abbrev JsString := List UInt16

def isHighSurrogate (unit : UInt16) : Bool := decide (0xD800 ≤ unit.toNat) && decide (unit.toNat < 0xDC00)

def isLowSurrogate (unit : UInt16) : Bool := decide (0xDC00 ≤ unit.toNat) && decide (unit.toNat < 0xE000)

/-- The code point of a surrogate pair. -/
def pairCode (high low : UInt16) : Nat := 0x10000 + (high.toNat - 0xD800) * 0x400 + (low.toNat - 0xDC00)

def codePoints : JsString → List Nat
  | [] => []
  | [unit] => [unit.toNat]
  | high :: low :: rest =>
    if isHighSurrogate high && isLowSurrogate low then pairCode high low :: codePoints rest
    else high.toNat :: codePoints (low :: rest)

def utf16Char (c : Char) : JsString :=
  if c.toNat < 0x10000 then [UInt16.ofNat c.toNat]
  else [UInt16.ofNat (0xD800 + (c.toNat - 0x10000) / 0x400), UInt16.ofNat (0xDC00 + (c.toNat - 0x10000) % 0x400)]

/-- The units of a text. -/
def utf16 (text : List Char) : JsString := text.flatMap utf16Char

@[simp] theorem utf16_nil : utf16 [] = [] := rfl

theorem utf16_cons (c : Char) (text : List Char) : utf16 (c :: text) = utf16Char c ++ utf16 text := rfl

theorem utf16_append (text rest : List Char) : utf16 (text ++ rest) = utf16 text ++ utf16 rest :=
  List.flatMap_append

/-- A character is no surrogate. -/
theorem char_code (c : Char) : c.toNat < 0xD800 ∨ (0xE000 ≤ c.toNat ∧ c.toNat < 0x110000) := by
  rcases c.valid with h | ⟨h, h'⟩
  · exact .inl h
  · exact .inr ⟨h, h'⟩

/-- The two spellings of a character. -/
theorem utf16Char_cases (c : Char) :
    (∃ unit, utf16Char c = [unit] ∧ unit.toNat = c.toNat ∧ isHighSurrogate unit = false ∧ isLowSurrogate unit = false) ∨
      ∃ high low, utf16Char c = [high, low] ∧ isHighSurrogate high = true ∧ isLowSurrogate low = true ∧
        pairCode high low = c.toNat := by
  have hcode := char_code c
  unfold utf16Char
  split
  · rename_i hshort
    left
    have hnat : (UInt16.ofNat c.toNat).toNat = c.toNat := by
      rw [UInt16.toNat_ofNat', Nat.mod_eq_of_lt hshort]
    refine ⟨_, rfl, hnat, ?_, ?_⟩
    · simp only [isHighSurrogate, hnat, Bool.and_eq_false_iff, decide_eq_false_iff_not]
      omega
    · simp only [isLowSurrogate, hnat, Bool.and_eq_false_iff, decide_eq_false_iff_not]
      omega
  · rename_i hlong
    right
    have hhigh : (UInt16.ofNat (0xD800 + (c.toNat - 0x10000) / 0x400)).toNat = 0xD800 + (c.toNat - 0x10000) / 0x400 := by
      rw [UInt16.toNat_ofNat', Nat.mod_eq_of_lt (by omega)]
    have hlow : (UInt16.ofNat (0xDC00 + (c.toNat - 0x10000) % 0x400)).toNat = 0xDC00 + (c.toNat - 0x10000) % 0x400 := by
      rw [UInt16.toNat_ofNat', Nat.mod_eq_of_lt (by omega)]
    refine ⟨_, _, rfl, ?_, ?_, ?_⟩
    · simp only [isHighSurrogate, hhigh, Bool.and_eq_true, decide_eq_true_eq]
      omega
    · simp only [isLowSurrogate, hlow, Bool.and_eq_true, decide_eq_true_eq]
      omega
    · unfold pairCode
      simp only [hhigh, hlow]
      omega

theorem codePoints_cons_unit {unit : UInt16} (h : isHighSurrogate unit = false) (rest : JsString) :
    codePoints (unit :: rest) = unit.toNat :: codePoints rest := by
  cases rest with
  | nil => rfl
  | cons next rest => rw [codePoints, h, Bool.false_and, if_neg Bool.false_ne_true]

theorem codePoints_cons_pair {high low : UInt16} (hhigh : isHighSurrogate high = true) (hlow : isLowSurrogate low = true)
    (rest : JsString) : codePoints (high :: low :: rest) = pairCode high low :: codePoints rest := by
  rw [codePoints, hhigh, hlow, Bool.and_true, if_pos rfl]

/-- The code points of a text are its characters. -/
theorem codePoints_utf16 (text : List Char) : codePoints (utf16 text) = text.map Char.toNat := by
  induction text with
  | nil => rfl
  | cons c text ih =>
    rw [utf16_cons, List.map_cons, ← ih]
    rcases utf16Char_cases c with ⟨unit, hunits, hcode, hhigh, -⟩ | ⟨high, low, hunits, hhigh, hlow, hcode⟩
    · rw [hunits, List.singleton_append, codePoints_cons_unit hhigh, hcode]
    · rw [hunits, List.cons_append, List.singleton_append, codePoints_cons_pair hhigh hlow, hcode]

/-! ## Texts inside texts

No spelling of a character starts inside another, so that a text is found among
the units exactly where it is found among the characters. -/

theorem utf16Char_append_inj {c d : Char} {units others : JsString} (h : utf16Char c ++ units = utf16Char d ++ others) :
    c = d ∧ units = others := by
  rcases utf16Char_cases c with ⟨unit, hc, hcode, hhigh, -⟩ | ⟨high, low, hc, hhigh, -, hcode⟩ <;>
    rcases utf16Char_cases d with ⟨unit', hd, hcode', hhigh', -⟩ | ⟨high', low', hd, hhigh', -, hcode'⟩ <;>
    rw [hc, hd] at h
  · obtain ⟨rfl, rfl⟩ := List.cons_eq_cons.1 h
    exact ⟨Char.toNat_inj.1 (hcode.symm.trans hcode'), rfl⟩
  · obtain ⟨rfl, -⟩ := List.cons_eq_cons.1 h
    exact nomatch hhigh.symm.trans hhigh'
  · obtain ⟨rfl, -⟩ := List.cons_eq_cons.1 h
    exact nomatch hhigh.symm.trans hhigh'
  · obtain ⟨rfl, htail⟩ := List.cons_eq_cons.1 h
    obtain ⟨rfl, rfl⟩ := List.cons_eq_cons.1 htail
    exact ⟨Char.toNat_inj.1 (hcode.symm.trans hcode'), rfl⟩

theorem utf16Char_ne_nil (c : Char) : utf16Char c ≠ [] := by
  rcases utf16Char_cases c with ⟨unit, hc, -⟩ | ⟨high, low, hc, -⟩ <;> simp [hc]

theorem utf16_prefix_split {needle text : List Char} {units : JsString} (h : utf16 text = utf16 needle ++ units) :
    ∃ after, text = needle ++ after ∧ units = utf16 after := by
  induction needle generalizing text with
  | nil => exact ⟨text, rfl, h.symm⟩
  | cons c needle ih =>
    rw [utf16_cons, List.append_assoc] at h
    cases text with
    | nil =>
      have hempty := (List.append_eq_nil_iff.1 h.symm).1
      exact absurd hempty (utf16Char_ne_nil c)
    | cons d text =>
      rw [utf16_cons] at h
      obtain ⟨rfl, hrest⟩ := utf16Char_append_inj h
      obtain ⟨after, rfl, hunits⟩ := ih hrest
      exact ⟨after, rfl, hunits⟩

theorem utf16_inj {text other : List Char} : utf16 text = utf16 other ↔ text = other := by
  constructor
  · intro h
    obtain ⟨after, rfl, hafter⟩ := @utf16_prefix_split other text [] (by simpa using h)
    cases after with
    | nil => exact List.append_nil other
    | cons c after => exact absurd (List.append_eq_nil_iff.1 hafter.symm).1 (utf16Char_ne_nil c)
  · rintro rfl
    rfl

theorem isLowSurrogate_of_high {unit : UInt16} (h : isHighSurrogate unit = true) : isLowSurrogate unit = false := by
  simp only [isHighSurrogate, isLowSurrogate, Bool.and_eq_true, decide_eq_true_eq, Bool.and_eq_false_iff,
    decide_eq_false_iff_not] at *
  omega

/-- No character starts with a low surrogate. -/
theorem head_utf16Char (c : Char) : ∃ unit units, utf16Char c = unit :: units ∧ isLowSurrogate unit = false := by
  rcases utf16Char_cases c with ⟨unit, hc, -, -, hlow⟩ | ⟨high, low, hc, hhigh, -, -⟩
  · exact ⟨unit, [], hc, hlow⟩
  · exact ⟨high, [low], hc, isLowSurrogate_of_high hhigh⟩

theorem utf16_split {needle text : List Char} {before after : JsString} (hneedle : needle ≠ [])
    (h : utf16 text = before ++ utf16 needle ++ after) :
    ∃ front back, text = front ++ needle ++ back ∧ before = utf16 front ∧ after = utf16 back := by
  induction text generalizing before with
  | nil =>
    obtain ⟨c, needle, rfl⟩ := List.exists_cons_of_ne_nil hneedle
    have hempty := (List.append_eq_nil_iff.1 h.symm).1
    have hnone := (List.append_eq_nil_iff.1 hempty).2
    exact absurd (List.append_eq_nil_iff.1 hnone).1 (utf16Char_ne_nil c)
  | cons d text ih =>
    -- the units in front end before the first character or behind it
    have hbehind {units : JsString} (hbefore : before = utf16Char d ++ units) :
        ∃ front back, d :: text = front ++ needle ++ back ∧ before = utf16 front ∧ after = utf16 back := by
      subst hbefore
      rw [utf16_cons, List.append_assoc, List.append_assoc, List.append_cancel_left_eq, ← List.append_assoc] at h
      obtain ⟨front, back, rfl, rfl, hback⟩ := ih h
      exact ⟨d :: front, back, rfl, rfl, hback⟩
    cases before with
    | nil =>
      obtain ⟨back, hback, hafter⟩ := utf16_prefix_split (by simpa using h)
      exact ⟨[], back, hback, rfl, hafter⟩
    | cons unit before =>
      rcases utf16Char_cases d with ⟨unit', hd, -⟩ | ⟨high, low, hd, -, hlow, -⟩
      · rw [utf16_cons, hd] at h
        obtain ⟨rfl, -⟩ := List.cons_eq_cons.1 h
        exact @hbehind before (by rw [hd]; rfl)
      · rw [utf16_cons, hd] at h
        obtain ⟨rfl, htail⟩ := List.cons_eq_cons.1 h
        cases before with
        | nil =>
          obtain ⟨c, needle, rfl⟩ := List.exists_cons_of_ne_nil hneedle
          obtain ⟨first, units, hc, hfirst⟩ := head_utf16Char c
          have hunits : low :: utf16 text = first :: (units ++ utf16 needle ++ after) := by
            rw [← List.cons_append, ← List.cons_append, ← hc, ← utf16_cons]
            exact htail
          obtain ⟨rfl, -⟩ := List.cons_eq_cons.1 hunits
          exact nomatch hlow.symm.trans hfirst
        | cons unit' before =>
          obtain ⟨rfl, -⟩ := List.cons_eq_cons.1 htail
          exact @hbehind before (by rw [hd]; rfl)

theorem prefix_utf16 {needle text : List Char} : utf16 needle <+: utf16 text ↔ needle <+: text := by
  constructor
  · rintro ⟨units, h⟩
    obtain ⟨after, rfl, -⟩ := utf16_prefix_split h.symm
    exact List.prefix_append needle after
  · rintro ⟨after, rfl⟩
    rw [utf16_append]
    exact List.prefix_append _ _

theorem suffix_utf16 {needle text : List Char} : utf16 needle <:+ utf16 text ↔ needle <:+ text := by
  constructor
  · rintro ⟨units, h⟩
    by_cases hneedle : needle = []
    · rw [hneedle]
      exact List.nil_suffix
    · obtain ⟨front, back, rfl, -, hback⟩ := @utf16_split needle text units [] hneedle (by simpa using h.symm)
      obtain rfl : back = [] := utf16_inj.1 hback.symm
      rw [List.append_nil]
      exact List.suffix_append front needle
  · rintro ⟨front, rfl⟩
    rw [utf16_append]
    exact List.suffix_append _ _

theorem infix_utf16 {needle text : List Char} : utf16 needle <:+: utf16 text ↔ needle <:+: text := by
  constructor
  · rintro ⟨before, after, h⟩
    by_cases hneedle : needle = []
    · rw [hneedle]
      exact List.nil_infix
    · obtain ⟨front, back, rfl, -⟩ := utf16_split hneedle h.symm
      exact ⟨front, back, rfl⟩
  · rintro ⟨front, back, rfl⟩
    rw [utf16_append, utf16_append]
    exact ⟨_, _, rfl⟩

/-! ## ASCII

Texts of ASCII are spelled alike in UTF-8 and UTF-16, one unit for each byte. -/

/-- Bytes as units. -/
def widen (bytes : List UInt8) : JsString := bytes.map UInt8.toUInt16

theorem utf16Char_widen {c : Char} (h : c.toNat < 128) : utf16Char c = widen (String.utf8EncodeChar c) := by
  have hval : c.toNat = c.val.toNat := rfl
  have hbytes : String.utf8EncodeChar c = [UInt8.ofNat c.val.toNat] := by
    unfold String.utf8EncodeChar
    exact if_pos (by omega)
  rw [hbytes, utf16Char, if_pos (by omega)]
  simp only [widen, List.map_cons, List.map_nil, List.cons.injEq, and_true]
  apply UInt16.toNat_inj.1
  rw [UInt8.toNat_toUInt16, UInt16.toNat_ofNat', UInt8.toNat_ofNat']
  omega

theorem utf16_widen {text : List Char} (h : ∀ c ∈ text, c.toNat < 128) :
    utf16 text = widen (text.flatMap String.utf8EncodeChar) := by
  induction text with
  | nil => rfl
  | cons c text ih =>
    rw [utf16_cons, List.flatMap_cons, widen, List.map_append, utf16Char_widen (h c (by simp)),
      ih fun d hd => h d (by simp [hd])]
    rfl

theorem ascii_of_bytes {text : List Char} (h : ∀ byte ∈ text.flatMap String.utf8EncodeChar, byte.toNat < 128) :
    ∀ c ∈ text, c.toNat < 128 := by
  intro c hc
  obtain ⟨byte, rest, hlead, -⟩ := utf8_lead c
  have hmem : byte ∈ String.utf8EncodeChar c := by simp [hlead]
  have hbyte := h byte (List.mem_flatMap.2 ⟨c, hc, hmem⟩)
  rcases utf8_byte hmem with hcode | hbeyond <;> omega

theorem ascii_of_units {text : List Char} (h : ∀ unit ∈ utf16 text, unit.toNat < 128) : ∀ c ∈ text, c.toNat < 128 := by
  intro c hc
  have hunits : ∀ unit ∈ utf16Char c, unit.toNat < 128 := fun unit hunit => h unit (List.mem_flatMap.2 ⟨c, hc, hunit⟩)
  rcases utf16Char_cases c with ⟨unit, hone, hcode, -, -⟩ | ⟨high, low, htwo, hhigh, -, -⟩
  · rw [← hcode]
    exact hunits unit (by simp [hone])
  · have hsmall := hunits high (by simp [htwo])
    simp only [isHighSurrogate, Bool.and_eq_true, decide_eq_true_eq] at hhigh
    omega

theorem utf8_toList (text : String) : text.toUTF8.toList = text.toList.flatMap String.utf8EncodeChar := by
  rw [← utf8_ofList, String.ofList_toList]

/-- Two readers of a text that take only ASCII, and read ASCII alike, read every
text alike. -/
theorem read_ascii_alike {α : Type} {f : JsString → Option α} {g : String → Option α}
    (hf : ∀ units a, f units = some a → ∀ unit ∈ units, unit.toNat < 128)
    (hg : ∀ text a, g text = some a → ∀ byte ∈ text.toUTF8.toList, byte.toNat < 128)
    (hsame : ∀ text, f (widen text.toUTF8.toList) = g text) (text : String) : f (utf16 text.toList) = g text := by
  by_cases hascii : ∀ c ∈ text.toList, c.toNat < 128
  · rw [utf16_widen hascii, ← utf8_toList, hsame]
  · have hleft : f (utf16 text.toList) = none := by
      rw [Option.eq_none_iff_forall_not_mem]
      intro a ha
      exact hascii (ascii_of_units (hf _ a ha))
    have hright : g text = none := by
      rw [Option.eq_none_iff_forall_not_mem]
      intro a ha
      have hbytes := hg text a ha
      rw [utf8_toList] at hbytes
      exact hascii (ascii_of_bytes hbytes)
    rw [hleft, hright]

/-! ## The two orders

Texts are ordered by their code points, strings by their units. The orders
differ where a character of the last 8192 of the basic plane meets one beyond
it, whose surrogates are smaller. -/

/-- Two texts that differ first in such a pair. -/
def Swapped (left right : List Char) : Prop :=
  ∃ same c d rest rest', left = same ++ c :: rest ∧ right = same ++ d :: rest' ∧ 0xE000 ≤ c.toNat ∧
    c.toNat < 0x10000 ∧ 0x10000 ≤ d.toNat

theorem swapped_cons {c : Char} {left right : List Char} : Swapped (c :: left) (c :: right) ↔ Swapped left right := by
  constructor
  · rintro ⟨same, d, e, rest, rest', hleft, hright, hd⟩
    cases same with
    | nil =>
      cases hleft
      cases hright
      omega
    | cons first same =>
      cases hleft
      cases hright
      exact ⟨same, d, e, rest, rest', rfl, rfl, hd⟩
  · rintro ⟨same, d, e, rest, rest', rfl, rfl, hd⟩
    exact ⟨c :: same, d, e, rest, rest', rfl, rfl, hd⟩

theorem swapped_cons_of_ne {c d : Char} {left right : List Char} (h : c ≠ d) :
    Swapped (c :: left) (d :: right) ↔ 0xE000 ≤ c.toNat ∧ c.toNat < 0x10000 ∧ 0x10000 ≤ d.toNat := by
  constructor
  · rintro ⟨same, e, f, rest, rest', hleft, hright, he⟩
    cases same with
    | nil =>
      cases hleft
      cases hright
      exact he
    | cons first same =>
      cases hleft
      cases hright
      exact absurd rfl h
  · intro hc
    exact ⟨[], c, d, left, right, rfl, rfl, hc⟩

/-- Swapped texts are in the order of their characters. -/
theorem Swapped.lt {left right : List Char} (h : Swapped left right) : left < right := by
  obtain ⟨same, c, d, rest, rest', rfl, rfl, -, hc, hd⟩ := h
  induction same with
  | nil => exact List.cons_lt_cons_iff.2 (.inl (show c.toNat < d.toNat by omega))
  | cons first same ih => exact List.cons_lt_cons_iff.2 (.inr ⟨rfl, ih⟩)

theorem append_lt_append_left {units left right : JsString} : units ++ left < units ++ right ↔ left < right := by
  induction units with
  | nil => rfl
  | cons unit units ih => simp [ih]

/-- Of two characters the one with the smaller code has the smaller units, but
for the pairs in question. -/
theorem utf16Char_lt {c d : Char} (h : c.toNat < d.toNat) (left right : JsString) :
    utf16Char c ++ left < utf16Char d ++ right ↔ ¬ (0xE000 ≤ c.toNat ∧ c.toNat < 0x10000 ∧ 0x10000 ≤ d.toNat) := by
  have hc := char_code c
  have hd := char_code d
  have hunit {n : Nat} (hn : n < 0x10000) : (UInt16.ofNat n).toNat = n := by
    rw [UInt16.toNat_ofNat', Nat.mod_eq_of_lt hn]
  unfold utf16Char
  split_ifs with hshort hshort' hshort'
  · simp only [List.singleton_append, List.cons_lt_cons_iff, UInt16.lt_iff_toNat_lt, hunit hshort, hunit hshort']
    simp [h]
    omega
  · simp only [List.cons_append, List.cons_lt_cons_iff, UInt16.lt_iff_toNat_lt, ← UInt16.toNat_inj, hunit hshort,
      hunit (show 0xD800 + (d.toNat - 0x10000) / 0x400 < 0x10000 by omega)]
    omega
  · omega
  · simp only [List.cons_append, List.cons_lt_cons_iff, UInt16.lt_iff_toNat_lt, ← UInt16.toNat_inj,
      hunit (show 0xD800 + (c.toNat - 0x10000) / 0x400 < 0x10000 by omega),
      hunit (show 0xD800 + (d.toNat - 0x10000) / 0x400 < 0x10000 by omega),
      hunit (show 0xDC00 + (c.toNat - 0x10000) % 0x400 < 0x10000 by omega),
      hunit (show 0xDC00 + (d.toNat - 0x10000) % 0x400 < 0x10000 by omega)]
    omega

/-- The units of two texts in order are in order too, unless they are swapped. -/
theorem utf16_lt_iff {left right : List Char} (h : left < right) : utf16 left < utf16 right ↔ ¬ Swapped left right := by
  induction left generalizing right with
  | nil =>
    cases right with
    | nil => cases h
    | cons d right =>
      have hempty : ¬ Swapped [] (d :: right) := by
        rintro ⟨same, c, e, rest, rest', hleft, -⟩
        cases same <;> cases hleft
      rcases utf16Char_cases d with ⟨unit, hunits, -⟩ | ⟨high, low, hunits, -⟩ <;>
        simp [utf16_cons, hunits, hempty]
  | cons c left ih =>
    cases right with
    | nil => cases h
    | cons d right =>
      rw [utf16_cons, utf16_cons]
      by_cases heq : c = d
      · subst heq
        rw [append_lt_append_left, swapped_cons]
        apply ih
        simpa [List.cons_lt_cons_iff] using h
      · rw [swapped_cons_of_ne heq]
        apply utf16Char_lt
        rcases List.cons_lt_cons_iff.1 h with hlt | ⟨hsame, -⟩
        · exact hlt
        · exact absurd hsame heq

end LaserSdk.Lib

import LaserSdk.Filter.Decimal
import LaserSdk.Lib.ShortestDecimal
import LaserSdk.Lib.Utf16
import LaserSdk.Sign.Card
/-!
# When a card's text is canonical

The canonical form of JSON in RFC 8785 sorts the keys of an object by their
UTF-16 units and writes a number as ECMAScript writes the double of its value.
The card text has the keys in the order of their characters and every integer
with all its digits. We say exactly for which values the two are the same.
-/

namespace LaserSdk.Sign

open LaserSdk.Lib

/-! ## The canonical form -/

/-- A character of a string. -/
def canonicalChar (c : Char) : Bytes :=
  if c.toNat = 8 then [92, 98]
  else if c.toNat = 9 then [92, 116]
  else if c.toNat = 10 then [92, 110]
  else if c.toNat = 12 then [92, 102]
  else if c.toNat = 13 then [92, 114]
  else if c.toNat < 32 then [92, 117, 48, 48, hexByte (c.toNat / 16), hexByte (c.toNat % 16)]
  else if c.toNat = 34 then [92, 34]
  else if c.toNat = 92 then [92, 92]
  else String.utf8EncodeChar c

def canonicalString (text : String) : Bytes := 34 :: text.toList.flatMap canonicalChar ++ [34]

def decimal (n : Nat) : Bytes := Filter.utf8Bytes (toString n)

def signText (n : Int) : Bytes := if n < 0 then [45] else []

/-- The canonical texts of a value. -/
inductive Rfc8785 : JsonValue → Bytes → Prop
  | null : Rfc8785 .null [110, 117, 108, 108]
  | bool (value : Bool) : Rfc8785 (.bool value) (boolText value)
  | integer {number : Number} {n : Int} {m : Nat} : number.integer? = some n → Shortest (nearestDouble n.natAbs) m →
      Rfc8785 (.number number) (signText n ++ decimal m)
  | string (text : String) : Rfc8785 (.string text) (canonicalString text)
  | array {items : List JsonValue} {texts : List Bytes} : List.Forall₂ Rfc8785 items texts →
      Rfc8785 (.array items) (91 :: joined texts ++ [93])
  | object {members : List (String × JsonValue)} {texts : List Bytes} {sorted : List (String × Bytes)} :
      List.Forall₂ Rfc8785 (members.map (·.2)) texts → sorted.Perm ((members.map (·.1)).zip texts) →
      sorted.Pairwise (fun a b => utf16 a.1.toList < utf16 b.1.toList) →
      Rfc8785 (.object members) (123 :: joined (sorted.map fun part => canonicalString part.1 ++ 58 :: part.2) ++ [125])

theorem texts_unique {items : List JsonValue} {texts texts' : List Bytes}
    (hunique : ∀ item ∈ items, ∀ text text', Rfc8785 item text → Rfc8785 item text' → text = text')
    (h : List.Forall₂ Rfc8785 items texts) (h' : List.Forall₂ Rfc8785 items texts') : texts = texts' := by
  induction h generalizing texts' with
  | nil =>
    cases h'
    rfl
  | cons htext htexts ih =>
    cases h' with
    | cons htext' htexts' =>
      rw [hunique _ (by simp) _ _ htext htext', ih (fun item hitem => hunique item (by simp [hitem])) htexts']

/-- A value has one canonical text. -/
theorem Rfc8785.unique {value : JsonValue} {text text' : Bytes} (h : Rfc8785 value text) (h' : Rfc8785 value text') :
    text = text' := by
  induction value using JsonValue.induction generalizing text text' with
  | null =>
    cases h
    cases h'
    rfl
  | bool value =>
    cases h
    cases h'
    rfl
  | string value =>
    cases h
    cases h'
    rfl
  | number number =>
    cases h with
    | integer hinteger hshortest =>
      cases h' with
      | integer hinteger' hshortest' =>
        rw [hinteger] at hinteger'
        cases hinteger'
        rw [hshortest.unique hshortest']
  | array items ih =>
    cases h with
    | array htexts =>
      cases h' with
      | array htexts' => rw [texts_unique (fun item hitem text text' => ih item hitem) htexts htexts']
  | object members ih =>
    cases h with
    | @object _ texts sorted htexts hperm hsorted =>
      cases h' with
      | @object _ texts' sorted' htexts' hperm' hsorted' =>
        have hvalues : ∀ value ∈ members.map (·.2), ∀ text text', Rfc8785 value text → Rfc8785 value text' → text = text' := by
          intro value hvalue text text'
          obtain ⟨member, hmember, rfl⟩ := List.mem_map.1 hvalue
          exact ih member hmember
        obtain rfl := texts_unique hvalues htexts htexts'
        have hsame : sorted = sorted' := by
          refine (hperm.trans hperm'.symm).eq_of_pairwise (fun a b _ _ hab hba => ?_) hsorted hsorted'
          exact absurd hba (List.lt_asymm hab)
        rw [hsame]

/-! ## The card text -/

mutual

/-- What the serializer writes for a value without floats. -/
def compactText : JsonValue → Bytes
  | .null => [110, 117, 108, 108]
  | .bool value => boolText value
  | .number number => number.integer?.elim [] fun n => signText n ++ decimal n.natAbs
  | .string text => canonicalString text
  | .array items => 91 :: joined (compactItems items) ++ [93]
  | .object members => 123 :: joined (compactMembers members) ++ [125]

def compactItems : List JsonValue → List Bytes
  | [] => []
  | item :: rest => compactText item :: compactItems rest

def compactMembers : List (String × JsonValue) → List Bytes
  | [] => []
  | (key, value) :: rest => (canonicalString key ++ 58 :: compactText value) :: compactMembers rest

end

theorem compactItems_eq (items : List JsonValue) : compactItems items = items.map compactText := by
  induction items with
  | nil => rfl
  | cons item rest ih => rw [compactItems, ih, List.map_cons]

theorem compactMembers_eq (members : List (String × JsonValue)) :
    compactMembers members = members.map fun member => canonicalString member.1 ++ 58 :: compactText member.2 := by
  induction members with
  | nil => rfl
  | cons member rest ih => rw [compactMembers, ih, List.map_cons]

theorem intText (n : Int) : (toString n).toUTF8.toList = signText n ++ decimal n.natAbs := by
  cases n with
  | ofNat n => rfl
  | negSucc n =>
    have hsign : signText (Int.negSucc n) = [45] := if_pos (Int.negSucc_lt_zero n)
    rw [hsign]
    exact Filter.utf8Bytes_neg (n + 1)

theorem escapeByte_of_beyond {byte : UInt8} (h : 128 ≤ byte.toNat) : escapeByte byte = [byte] := by
  have hne {n : UInt8} (hn : n.toNat < 128) : byte ≠ n := by
    rintro rfl
    omega
  have hlarge : ¬ byte < 32 := by
    rw [UInt8.lt_iff_toNat_lt]
    have : (32 : UInt8).toNat = 32 := rfl
    omega
  unfold escapeByte
  rw [if_neg (hne (by decide)), if_neg (hne (by decide)), if_neg (hne (by decide)), if_neg (hne (by decide)),
    if_neg (hne (by decide)), if_neg hlarge, if_neg (hne (by decide)), if_neg (hne (by decide))]

theorem flatMap_escapeByte_of_beyond {bytes : Bytes} (h : ∀ byte ∈ bytes, 128 ≤ byte.toNat) :
    bytes.flatMap escapeByte = bytes := by
  induction bytes with
  | nil => rfl
  | cons byte rest ih =>
    rw [List.flatMap_cons, escapeByte_of_beyond (h byte (by simp)), ih fun b hb => h b (by simp [hb])]
    rfl

/-- Both tables of escapes write the same strings. -/
theorem escape_char (c : Char) : (String.utf8EncodeChar c).flatMap escapeByte = canonicalChar c := by
  by_cases hascii : c.toNat < 128
  · have hval : c.toNat = c.val.toNat := rfl
    have hbytes : String.utf8EncodeChar c = [UInt8.ofNat c.toNat] := by
      unfold String.utf8EncodeChar
      exact if_pos (by omega)
    have hnat : (UInt8.ofNat c.toNat).toNat = c.toNat := by
      rw [UInt8.toNat_ofNat', Nat.mod_eq_of_lt (by omega)]
    have heq {n : UInt8} : UInt8.ofNat c.toNat = n ↔ c.toNat = n.toNat := by
      rw [← UInt8.toNat_inj, hnat]
    have hlt : UInt8.ofNat c.toNat < 32 ↔ c.toNat < 32 := by
      rw [UInt8.lt_iff_toNat_lt, hnat]
      rfl
    unfold canonicalChar
    rw [hbytes]
    simp only [List.flatMap_cons, List.flatMap_nil, List.append_nil, escapeByte, heq, hlt, hnat]
    rfl
  · have hbeyond : ∀ byte ∈ String.utf8EncodeChar c, 128 ≤ byte.toNat := by
      intro byte hbyte
      rcases utf8_byte hbyte with hcode | hbyte <;> omega
    rw [flatMap_escapeByte_of_beyond hbeyond]
    unfold canonicalChar
    repeat rw [if_neg (by omega)]

theorem quoted_eq (text : String) : quoted text = canonicalString text := by
  unfold quoted canonicalString
  rw [utf8_toList, List.flatMap_assoc]
  congr 3
  funext c
  exact escape_char c

theorem assertItems_ok {items : List JsonValue} :
    assertItems items = .ok () ↔ ∀ item ∈ items, assertNoFloats item = .ok () := by
  induction items with
  | nil => simp [assertItems]
  | cons item rest ih =>
    rw [assertItems, List.forall_mem_cons, ← ih]
    cases assertNoFloats item <;> simp [bind, Except.bind]

theorem assertMembers_ok {members : List (String × JsonValue)} :
    assertMembers members = .ok () ↔ ∀ member ∈ members, assertNoFloats member.2 = .ok () := by
  induction members with
  | nil => simp [assertMembers]
  | cons member rest ih =>
    rw [assertMembers, List.forall_mem_cons, ← ih]
    cases assertNoFloats member.2 <;> simp [bind, Except.bind]

/-- The numbers that pass are the integers. -/
theorem assertNoFloats_number {number : Number} :
    assertNoFloats (.number number) = .ok () ↔ ∃ n, number.integer? = some n := by
  cases number <;> simp [assertNoFloats, Number.isI64, Number.isU64, Number.integer?]

theorem forall₂_map {α β : Type} {relation : α → β → Prop} {f : α → β} {l : List α} (h : ∀ a ∈ l, relation a (f a)) :
    List.Forall₂ relation l (l.map f) := by
  induction l with
  | nil => exact .nil
  | cons a l ih => exact .cons (h a (by simp)) (ih fun b hb => h b (by simp [hb]))

/-- The serializer writes the card text of every value that passes. -/
theorem toVec_eq {toVec : JsonValue → Except String Bytes} (hcompact : Compact toVec) {value : JsonValue}
    (h : assertNoFloats value = .ok ()) : toVec value = .ok (compactText value) := by
  induction value using JsonValue.induction with
  | null => exact hcompact.null
  | bool value => exact hcompact.bool value
  | number number =>
    obtain ⟨n, hn⟩ := assertNoFloats_number.1 h
    rw [hcompact.integer number n hn, intText, compactText, hn]
    rfl
  | string text => rw [hcompact.string, quoted_eq, compactText]
  | array items ih =>
    have hitems := assertItems_ok.1 h
    rw [hcompact.array items _ (forall₂_map fun item hitem => ih item hitem (hitems item hitem)), compactText,
      compactItems_eq]
  | object members ih =>
    have hmembers := assertMembers_ok.1 h
    have hfields : List.zipWith (fun member text => quoted member.1 ++ 58 :: text) members
        (members.map fun member => compactText member.2) = compactMembers members := by
      rw [compactMembers_eq, List.zipWith_map_right, List.zipWith_self]
      simp only [quoted_eq]
    rw [hcompact.object members _ (forall₂_map fun member hmember => ih member hmember (hmembers member hmember)),
      compactText, hfields]

theorem jcsBytes_eq {toVec : JsonValue → Except String Bytes} (hcompact : Compact toVec) {value : JsonValue} {bytes : Bytes}
    (h : jcsBytes toVec value = .ok bytes) : assertNoFloats value = .ok () ∧ bytes = compactText value := by
  unfold jcsBytes at h
  cases hpass : assertNoFloats value with
  | error error =>
    rw [hpass] at h
    cases h
  | ok _ =>
    rw [hpass, toVec_eq hcompact hpass] at h
    cases h
    exact ⟨rfl, rfl⟩

/-! ## Where a text ends -/

def hexValue (byte : UInt8) : Nat := if byte.toNat < 97 then byte.toNat - 48 else byte.toNat - 87

/-- The byte behind a backslash. -/
def readEscape : Bytes → Option (UInt8 × Bytes)
  | 98 :: rest => some (8, rest)
  | 116 :: rest => some (9, rest)
  | 110 :: rest => some (10, rest)
  | 102 :: rest => some (12, rest)
  | 114 :: rest => some (13, rest)
  | 117 :: _ :: _ :: high :: low :: rest => some (.ofNat (hexValue high * 16 + hexValue low), rest)
  | byte :: rest => some (byte, rest)
  | [] => none

def readByte : Bytes → Option (UInt8 × Bytes)
  | [] => none
  | first :: rest => if first = 92 then readEscape rest else some (first, rest)

theorem hexValue_hexByte : ∀ digit < 16, hexValue (hexByte digit) = digit := by decide

/-- An escaped byte can be read again. -/
theorem readByte_escapeByte (byte : UInt8) (rest : Bytes) : readByte (escapeByte byte ++ rest) = some (byte, rest) := by
  unfold escapeByte
  split_ifs with h8 h9 h10 h12 h13 hcontrol hquote hbackslash
  · rw [h8]
    rfl
  · rw [h9]
    rfl
  · rw [h10]
    rfl
  · rw [h12]
    rfl
  · rw [h13]
    rfl
  · have hsmall : byte.toNat < 32 := UInt8.lt_iff_toNat_lt.1 hcontrol
    have hvalue : UInt8.ofNat (hexValue (hexByte (byte.toNat / 16)) * 16 + hexValue (hexByte (byte.toNat % 16))) = byte := by
      rw [hexValue_hexByte _ (by omega), hexValue_hexByte _ (by omega), Nat.div_add_mod', UInt8.ofNat_toNat]
    simp [readByte, readEscape, hvalue]
  · rw [hquote]
    rfl
  · rw [hbackslash]
    rfl
  · simp [readByte, hbackslash]

theorem escapeByte_head (byte : UInt8) : ∃ first rest, escapeByte byte = first :: rest ∧ first ≠ 34 := by
  unfold escapeByte
  split_ifs with h8 h9 h10 h12 h13 hcontrol hquote hbackslash <;> refine ⟨_, _, rfl, ?_⟩
  all_goals first | decide | exact hquote

/-- A string ends at the first quote that is not escaped. -/
theorem escaped_inj {bytes bytes' rest rest' : Bytes}
    (h : bytes.flatMap escapeByte ++ 34 :: rest = bytes'.flatMap escapeByte ++ 34 :: rest') :
    bytes = bytes' ∧ rest = rest' := by
  induction bytes generalizing bytes' with
  | nil =>
    cases bytes' with
    | nil => exact ⟨rfl, (List.cons.inj h).2⟩
    | cons byte bytes' =>
      obtain ⟨first, tail, hhead, hne⟩ := escapeByte_head byte
      rw [List.flatMap_cons, hhead] at h
      exact absurd (List.cons.inj h).1.symm hne
  | cons byte bytes ih =>
    cases bytes' with
    | nil =>
      obtain ⟨first, tail, hhead, hne⟩ := escapeByte_head byte
      rw [List.flatMap_cons, hhead] at h
      exact absurd (List.cons.inj h).1 hne
    | cons byte' bytes' =>
      rw [List.flatMap_cons, List.flatMap_cons, List.append_assoc, List.append_assoc] at h
      have hread := congrArg readByte h
      rw [readByte_escapeByte, readByte_escapeByte, Option.some.injEq, Prod.mk.injEq] at hread
      obtain ⟨rfl, htail⟩ := hread
      obtain ⟨rfl, hrest⟩ := ih htail
      exact ⟨rfl, hrest⟩

theorem canonicalString_inj {key key' : String} {rest rest' : Bytes}
    (h : canonicalString key ++ rest = canonicalString key' ++ rest') : key = key' ∧ rest = rest' := by
  rw [← quoted_eq, ← quoted_eq] at h
  simp only [quoted, List.cons_append, List.append_assoc, List.nil_append] at h
  obtain ⟨hbytes, hrest⟩ := escaped_inj (List.cons.inj h).2
  exact ⟨ext_utf8 hbytes, hrest⟩

/-- What may follow a value: nothing, a comma or a closing bracket. -/
def Delimited (rest : Bytes) : Prop := ∀ byte, rest.head? = some byte → byte = 44 ∨ byte = 93 ∨ byte = 125

theorem Delimited.not_digit {rest : Bytes} (h : Delimited rest) : rest.takeWhile Filter.isAsciiDigit = [] := by
  cases rest with
  | nil => rfl
  | cons byte rest =>
    rw [List.takeWhile_cons_of_neg]
    rcases h byte rfl with rfl | rfl | rfl <;> decide

theorem decimal_inj {m n : Nat} (h : decimal m = decimal n) : m = n := by
  have htext : toString m = toString n := ext_utf8 h
  rw [Nat.toString_eq_ofList_toDigits, Nat.toString_eq_ofList_toDigits, String.ofList_inj] at htext
  rw [← decimalValue_toDigits m, htext, decimalValue_toDigits]

theorem decimal_takeWhile {rest : Bytes} (h : Delimited rest) (n : Nat) :
    (decimal n ++ rest).takeWhile Filter.isAsciiDigit = decimal n := by
  have hdigits : ∀ byte ∈ decimal n, Filter.isAsciiDigit byte := Filter.asciiDigits_utf8Bytes_nat n
  rw [List.takeWhile_append_of_pos hdigits, h.not_digit, List.append_nil]

theorem decimal_ends {m n : Nat} {rest rest' : Bytes} (hrest : Delimited rest) (hrest' : Delimited rest')
    (h : decimal m ++ rest = decimal n ++ rest') : m = n := by
  have htake := congrArg (List.takeWhile Filter.isAsciiDigit) h
  rw [decimal_takeWhile hrest, decimal_takeWhile hrest'] at htake
  exact decimal_inj htake

/-! ## Canonical texts of the same value -/

/-- A canonical text that starts like the card text of its value is the card text. -/
def Settled (value : JsonValue) : Prop :=
  ∀ text rest rest', Rfc8785 value text → Delimited rest → Delimited rest' →
    text ++ rest = compactText value ++ rest' → text = compactText value

theorem delimited_cons {byte : UInt8} (h : byte = 44 ∨ byte = 93 ∨ byte = 125) (rest : Bytes) :
    Delimited (byte :: rest) := by
  intro first hfirst
  cases hfirst
  exact h

/-- The texts behind commas up to the closing bracket. -/
theorem delimited_tail {close : UInt8} (hclose : close = 93 ∨ close = 125) (texts : List Bytes) (rest : Bytes) :
    Delimited (texts.flatMap (44 :: ·) ++ close :: rest) := by
  cases texts with
  | nil => exact delimited_cons (.inr hclose) rest
  | cons text texts => exact delimited_cons (.inl rfl) _

theorem settled_items {items : List JsonValue} {texts : List Bytes} {rest rest' : Bytes}
    (hsettled : ∀ item ∈ items, Settled item) (htexts : List.Forall₂ Rfc8785 items texts)
    (h : texts.flatMap (44 :: ·) ++ 93 :: rest = (items.map compactText).flatMap (44 :: ·) ++ 93 :: rest') :
    texts = items.map compactText := by
  induction htexts with
  | nil => rfl
  | @cons item text items texts htext htexts ih =>
    simp only [List.flatMap_cons, List.map_cons, List.cons_append, List.cons.injEq, true_and, List.append_assoc] at h
    have hfirst := hsettled item (by simp) text _ _ htext (delimited_tail (.inl rfl) texts rest)
      (delimited_tail (.inl rfl) (items.map compactText) rest') h
    rw [hfirst, List.append_cancel_left_eq] at h
    rw [hfirst, ih (fun other hother => hsettled other (by simp [hother])) h, List.map_cons]

/-- A member as it is written. -/
def field (part : String × Bytes) : Bytes := canonicalString part.1 ++ 58 :: part.2

def compactPart (member : String × JsonValue) : String × Bytes := (member.1, compactText member.2)

theorem settled_members {members suffix : List (String × JsonValue)} {sorted : List (String × Bytes)} {rest rest' : Bytes}
    (hsettled : ∀ member ∈ members, Settled member.2) (hkeys : SortedKeys members)
    (hsorted : ∀ part ∈ sorted, ∃ value, (part.1, value) ∈ members ∧ Rfc8785 value part.2)
    (hsuffix : ∀ member ∈ suffix, member ∈ members)
    (h : (sorted.map field).flatMap (44 :: ·) ++ 125 :: rest =
      ((suffix.map compactPart).map field).flatMap (44 :: ·) ++ 125 :: rest') : sorted = suffix.map compactPart := by
  induction sorted generalizing suffix with
  | nil =>
    cases suffix with
    | nil => rfl
    | cons member suffix => simp at h
  | cons part sorted ih =>
    cases suffix with
    | nil => simp at h
    | cons member suffix =>
      simp only [List.map_cons, List.flatMap_cons, List.cons_append, List.cons.injEq, true_and, List.append_assoc, field,
        compactPart] at h
      obtain ⟨hkey, h⟩ := canonicalString_inj h
      rw [List.cons.injEq] at h
      obtain ⟨value, hvalue, htext⟩ := hsorted part (by simp)
      have hsame : value = member.2 := by
        rw [hkey] at hvalue
        have hlookup := SortedKeys.lookup_of_mem hkeys hvalue
        rw [SortedKeys.lookup_of_mem hkeys (hsuffix member (by simp))] at hlookup
        exact (Option.some.inj hlookup).symm
      subst hsame
      have hfirst := hsettled member (hsuffix member (by simp)) part.2 _ _ htext
        (delimited_tail (.inr rfl) (sorted.map field) rest)
        (delimited_tail (.inr rfl) ((suffix.map compactPart).map field) rest') h.2
      have htail := h.2
      rw [hfirst, List.append_cancel_left_eq] at htail
      have hpart : part = compactPart member := Prod.ext hkey hfirst
      rw [List.map_cons, ← hpart, ih (fun other hother => hsorted other (by simp [hother]))
        (fun other hother => hsuffix other (by simp [hother])) htail]

/-- Lists of as many texts, with commas between them or before each. -/
theorem tails_of_joined {texts texts' : List Bytes} {rest rest' : Bytes} (hlength : texts.length = texts'.length)
    (h : joined texts ++ rest = joined texts' ++ rest') :
    texts.flatMap (44 :: ·) ++ rest = texts'.flatMap (44 :: ·) ++ rest' := by
  cases texts with
  | nil =>
    cases texts' with
    | nil => exact h
    | cons => simp at hlength
  | cons text texts =>
    cases texts' with
    | nil => simp at hlength
    | cons text' texts' =>
      simp only [List.flatMap_cons, List.cons_append, List.append_assoc] at h ⊢
      simp only [joined, List.append_assoc] at h
      rw [h]

theorem sortedItems_iff {items : List JsonValue} : SortedItems items ↔ ∀ item ∈ items, item.Sorted := by
  induction items with
  | nil => simp [SortedItems]
  | cons item rest ih => simp [SortedItems, ih]

theorem sortedMembers_iff {members : List (String × JsonValue)} :
    SortedMembers members ↔ ∀ member ∈ members, member.2.Sorted := by
  induction members with
  | nil => simp [SortedMembers]
  | cons member rest ih => simp [SortedMembers, ih]

/-- The canonical texts of the items of an array whose text is the card text. -/
theorem array_texts {items : List JsonValue} {text rest rest' : Bytes} (hsettled : ∀ item ∈ items, Settled item)
    (htext : Rfc8785 (.array items) text) (h : text ++ rest = compactText (.array items) ++ rest') :
    List.Forall₂ Rfc8785 items (items.map compactText) ∧ text = compactText (.array items) := by
  cases htext with
  | @array _ texts htexts =>
    rw [compactText, compactItems_eq] at h ⊢
    simp only [List.cons_append, List.cons.injEq, true_and, List.append_assoc, List.nil_append] at h
    have hlength : texts.length = (items.map compactText).length := by
      rw [List.length_map, htexts.length_eq]
    have hsame := settled_items hsettled htexts (tails_of_joined hlength h)
    rw [hsame] at htexts
    exact ⟨htexts, by rw [hsame]⟩

theorem mem_zip_of_forall₂ {members : List (String × JsonValue)} {texts : List Bytes} {part : String × Bytes}
    (h : List.Forall₂ Rfc8785 (members.map (·.2)) texts) (hpart : part ∈ (members.map (·.1)).zip texts) :
    ∃ value, (part.1, value) ∈ members ∧ Rfc8785 value part.2 := by
  induction members generalizing texts with
  | nil => simp at hpart
  | cons member members ih =>
    cases h with
    | cons htext htexts =>
      rcases List.mem_cons.1 hpart with rfl | hpart
      · exact ⟨member.2, by simp, htext⟩
      · obtain ⟨value, hvalue, hcanonical⟩ := ih htexts hpart
        exact ⟨value, List.mem_cons_of_mem _ hvalue, hcanonical⟩

/-- The members of an object whose text is the card text come in the order of
their units, with their card texts. -/
theorem object_texts {members : List (String × JsonValue)} {text rest rest' : Bytes}
    (hsettled : ∀ member ∈ members, Settled member.2) (hkeys : SortedKeys members)
    (htext : Rfc8785 (.object members) text) (h : text ++ rest = compactText (.object members) ++ rest') :
    (∀ member ∈ members, Rfc8785 member.2 (compactText member.2)) ∧
      members.Pairwise (fun a b => utf16 a.1.toList < utf16 b.1.toList) ∧ text = compactText (.object members) := by
  cases htext with
  | @object _ texts sorted htexts hperm hsorted =>
    have hcode : compactMembers members = (members.map compactPart).map field := by
      rw [compactMembers_eq, List.map_map]
      rfl
    rw [compactText, hcode] at h ⊢
    simp only [List.cons_append, List.cons.injEq, true_and, List.append_assoc, List.nil_append] at h
    have hlength : (sorted.map field).length = ((members.map compactPart).map field).length := by
      have := htexts.length_eq
      simp [hperm.length_eq] at this ⊢
      omega
    have hparts : ∀ part ∈ sorted, ∃ value, (part.1, value) ∈ members ∧ Rfc8785 value part.2 :=
      fun part hpart => mem_zip_of_forall₂ htexts (hperm.mem_iff.1 hpart)
    have hsame : sorted = members.map compactPart :=
      settled_members hsettled hkeys hparts (fun member hmember => hmember) (tails_of_joined hlength h)
    refine ⟨?_, ?_, by rw [hsame]; rfl⟩
    · intro member hmember
      obtain ⟨value, hvalue, hcanonical⟩ := hparts (compactPart member) (hsame ▸ List.mem_map_of_mem hmember)
      have hlookup := SortedKeys.lookup_of_mem hkeys hvalue
      rw [compactPart, SortedKeys.lookup_of_mem hkeys hmember] at hlookup
      cases hlookup
      exact hcanonical
    · rw [hsame, List.pairwise_map] at hsorted
      exact hsorted

theorem settled {value : JsonValue} (h : value.Sorted) : Settled value := by
  induction value using JsonValue.induction with
  | null =>
    rintro text rest rest' ⟨⟩ - - -
    rfl
  | bool value =>
    rintro text rest rest' ⟨⟩ - - -
    rfl
  | number number =>
    intro text rest rest' htext hrest hrest' heq
    cases htext with
    | integer hinteger hshortest =>
      rw [compactText, hinteger] at heq ⊢
      simp only [Option.elim_some, List.append_assoc, List.append_cancel_left_eq] at heq ⊢
      rw [decimal_ends hrest hrest' heq]
  | string text =>
    rintro text rest rest' ⟨⟩ - - -
    rfl
  | array items ih =>
    rintro text rest rest' htext - - heq
    have hitems := sortedItems_iff.1 h
    exact (array_texts (fun item hitem => ih item hitem (hitems item hitem)) htext heq).2
  | object members ih =>
    rintro text rest rest' htext - - heq
    have hmembers := sortedMembers_iff.1 h.2
    exact (object_texts (fun member hmember => ih member hmember (hmembers member hmember)) h.1 htext heq).2.2

/-! ## Plain values -/

mutual

/-- No two keys of an object are swapped, and ECMAScript writes every integer
with all its digits. -/
def JsonValue.Plain : JsonValue → Prop
  | .number number => ∀ n, number.integer? = some n → Shortest (nearestDouble n.natAbs) n.natAbs
  | .array items => PlainItems items
  | .object members => (∀ a ∈ members, ∀ b ∈ members, ¬ Swapped a.1.toList b.1.toList) ∧ PlainMembers members
  | _ => True

def PlainItems : List JsonValue → Prop
  | [] => True
  | item :: rest => item.Plain ∧ PlainItems rest

def PlainMembers : List (String × JsonValue) → Prop
  | [] => True
  | (_, value) :: rest => value.Plain ∧ PlainMembers rest

end

theorem plainItems_iff {items : List JsonValue} : PlainItems items ↔ ∀ item ∈ items, item.Plain := by
  induction items with
  | nil => simp [PlainItems]
  | cons item rest ih => simp [PlainItems, ih]

theorem plainMembers_iff {members : List (String × JsonValue)} :
    PlainMembers members ↔ ∀ member ∈ members, member.2.Plain := by
  induction members with
  | nil => simp [PlainMembers]
  | cons member rest ih => simp [PlainMembers, ih]

/-- The keys of a map are in the order of their units unless two are swapped. -/
theorem units_sorted_iff {members : List (String × JsonValue)} (h : SortedKeys members) :
    members.Pairwise (fun a b => utf16 a.1.toList < utf16 b.1.toList) ↔
      ∀ a ∈ members, ∀ b ∈ members, ¬ Swapped a.1.toList b.1.toList := by
  have horder {a b : String × JsonValue} (hlt : a.1 < b.1) :
      utf16 a.1.toList < utf16 b.1.toList ↔ ¬ Swapped a.1.toList b.1.toList := utf16_lt_iff (String.lt_iff_toList_lt.1 hlt)
  constructor
  · intro hunits
    have hahead : members.Pairwise fun a b => ¬ Swapped a.1.toList b.1.toList := by
      refine (hunits.and h).imp ?_
      rintro a b ⟨hunit, hlt⟩
      exact (horder hlt).1 hunit
    have hbehind : members.Pairwise fun a b => ¬ Swapped b.1.toList a.1.toList := by
      refine h.imp ?_
      intro a b hlt hswapped
      exact lt_asymm (String.lt_iff_toList_lt.1 hlt) hswapped.lt
    intro a ha b hb
    exact hahead.forall_of_forall_of_flip (fun c _ hswapped => lt_irrefl _ hswapped.lt) hbehind ha hb
  · intro hnone
    refine List.Pairwise.imp_of_mem ?_ h
    intro a b ha hb hlt
    exact (horder hlt).2 (hnone a ha b hb)

/-- The card text is canonical exactly for the plain values. -/
theorem compactText_canonical_iff {value : JsonValue} (hsorted : value.Sorted) (hpass : assertNoFloats value = .ok ()) :
    Rfc8785 value (compactText value) ↔ value.Plain := by
  induction value using JsonValue.induction with
  | null => exact ⟨fun _ => trivial, fun _ => .null⟩
  | bool value => exact ⟨fun _ => trivial, fun _ => .bool value⟩
  | string text => exact ⟨fun _ => trivial, fun _ => .string text⟩
  | number number =>
    obtain ⟨n, hn⟩ := assertNoFloats_number.1 hpass
    have htext : compactText (.number number) = signText n ++ decimal n.natAbs := by
      rw [compactText, hn]
      rfl
    rw [htext, JsonValue.Plain]
    constructor
    · intro h k hk
      rw [hn] at hk
      cases hk
      generalize htexts : signText n ++ decimal n.natAbs = text at h
      cases h with
      | integer hinteger hshortest =>
        rw [hn] at hinteger
        cases hinteger
        rw [List.append_cancel_left_eq] at htexts
        rwa [← decimal_inj htexts] at hshortest
    · intro h
      exact .integer hn (h n hn)
  | array items ih =>
    have hitems := sortedItems_iff.1 hsorted
    have hpassed := assertItems_ok.1 hpass
    rw [JsonValue.Plain, plainItems_iff]
    constructor
    · intro h item hitem
      have htexts := (array_texts (fun item hitem => settled (hitems item hitem)) h (by rw [List.append_nil])).1
      rw [List.forall₂_map_right_iff, List.forall₂_same] at htexts
      exact (ih item hitem (hitems item hitem) (hpassed item hitem)).1 (htexts item hitem)
    · intro h
      rw [compactText, compactItems_eq]
      exact .array (forall₂_map fun item hitem => (ih item hitem (hitems item hitem) (hpassed item hitem)).2 (h item hitem))
  | object members ih =>
    obtain ⟨hkeys, hsortedMembers⟩ := hsorted
    have hmembers := sortedMembers_iff.1 hsortedMembers
    have hpassed := assertMembers_ok.1 hpass
    rw [JsonValue.Plain, plainMembers_iff, ← units_sorted_iff hkeys]
    constructor
    · intro h
      obtain ⟨htexts, hunits, -⟩ :=
        object_texts (fun member hmember => settled (hmembers member hmember)) hkeys h (by rw [List.append_nil])
      refine ⟨hunits, ?_⟩
      intro member hmember
      exact (ih member hmember (hmembers member hmember) (hpassed member hmember)).1 (htexts member hmember)
    · rintro ⟨hunits, h⟩
      have hcode : compactMembers members = (members.map compactPart).map field := by
        rw [compactMembers_eq, List.map_map]
        rfl
      have hzip : members.map compactPart = (members.map (·.1)).zip ((members.map (·.2)).map compactText) := by
        rw [List.map_map, List.zip_map']
        rfl
      rw [compactText, hcode]
      refine @Rfc8785.object members _ (members.map compactPart) (forall₂_map ?_) (List.Perm.of_eq hzip) ?_
      · intro value hvalue
        obtain ⟨member, hmember, rfl⟩ := List.mem_map.1 hvalue
        exact (ih member hmember (hmembers member hmember) (hpassed member hmember)).2 (h member hmember)
      · rw [List.pairwise_map]
        exact hunits

/-! ## Signatures over the canonical text -/

theorem valueOf_base64Digit (index place : Nat) : valueOf (base64Digit index place) = .ok (index / 64 ^ place % 64) := by
  have hall : ∀ i < 64, valueOf (base64Alphabet.getD i 0) = .ok i := by decide
  exact hall _ (Nat.mod_lt _ (by decide))

theorem ofNat_of_mod {byte : UInt8} {n : Nat} (h : n % 256 = byte.toNat) : UInt8.ofNat n = byte := by
  apply UInt8.toNat_inj.1
  rw [UInt8.toNat_ofNat']
  exact h

theorem base64urlDecode_base64url (bytes : Bytes) : base64urlDecode (base64url bytes) = .ok bytes := by
  induction bytes using base64url.induct with
  | case1 => rfl
  | case2 a =>
    have ha : a.toNat < 256 := a.toNat_lt
    simp only [base64url, base64urlDecode, valueOf_base64Digit, bind, Except.bind, pure, Except.pure, Except.ok.injEq,
      List.cons.injEq, and_true]
    refine ofNat_of_mod ?_
    omega
  | case3 a b =>
    have ha : a.toNat < 256 := a.toNat_lt
    have hb : b.toNat < 256 := b.toNat_lt
    simp only [base64url, base64urlDecode, valueOf_base64Digit, bind, Except.bind, pure, Except.pure, Except.ok.injEq,
      List.cons.injEq, and_true]
    refine ⟨ofNat_of_mod ?_, ofNat_of_mod ?_⟩ <;> omega
  | case4 a b c rest ih =>
    have ha : a.toNat < 256 := a.toNat_lt
    have hb : b.toNat < 256 := b.toNat_lt
    have hc : c.toNat < 256 := c.toNat_lt
    simp only [base64url, base64urlDecode, valueOf_base64Digit, ih, bind, Except.bind, pure, Except.pure, Except.ok.injEq,
      List.cons.injEq, and_true]
    refine ⟨ofNat_of_mod ?_, ofNat_of_mod ?_, ofNat_of_mod ?_⟩ <;> omega

/-- A signature of a card over a payload, from whoever holds the key. -/
def SignedOver (crypto : Crypto) (verifying payload : Bytes) (signature : AgentCardSignature) : Prop :=
  ∃ raw : Bytes, raw.length = signatureBytes ∧
    crypto.verify verifying (jwsSigningInputOf signature.protectedHeader payload) raw = true ∧
    signature.signature = base64url raw

theorem verifyCard_ok {crypto : Crypto} {toVec : JsonValue → Except String Bytes} {card : JsonValue}
    {signature : AgentCardSignature} {verifying payload : Bytes} (hpayload : jcsBytes toVec (withoutSignatures card) = .ok payload)
    (hsigned : SignedOver crypto verifying payload signature) : verifyCard crypto toVec card signature verifying = .ok () := by
  obtain ⟨raw, hlength, hverify, htext⟩ := hsigned
  unfold verifyCard
  simp only [hpayload, htext, base64urlDecode_base64url, bind, Except.bind]
  rw [if_neg (not_not.2 hlength), if_pos hverify]

/-- The bytes of a value are its canonical form, and signatures over that form
verify, exactly when the value is plain. -/
theorem card_canonical_iff (crypto : Crypto) (toVec : JsonValue → Except String Bytes) (hcompact : Compact toVec)
    (value : JsonValue) (hsorted : value.Sorted) (bytes : Bytes) (haccepted : jcsBytes toVec value = .ok bytes) :
    (Rfc8785 value bytes ∧ ∀ card text verifying signature, withoutSignatures card = value → Rfc8785 value text →
      SignedOver crypto verifying text signature → verifyCard crypto toVec card signature verifying = .ok ()) ↔
      value.Plain := by
  obtain ⟨hpass, hbytes⟩ := jcsBytes_eq hcompact haccepted
  have hcanonical : Rfc8785 value bytes ↔ value.Plain := by
    rw [hbytes]
    exact compactText_canonical_iff hsorted hpass
  constructor
  · rintro ⟨hbytes', -⟩
    exact hcanonical.1 hbytes'
  · intro hplain
    have hrfc := hcanonical.2 hplain
    refine ⟨hrfc, ?_⟩
    intro card text verifying signature hcard htext hsigned
    rw [htext.unique hrfc] at hsigned
    refine verifyCard_ok ?_ hsigned
    rw [hcard]
    exact haccepted

/-! ## Two cards -/

theorem compactText_compact : Compact fun value => .ok (compactText value) where
  null := rfl
  bool _ := rfl
  integer number n hn := by
    rw [intText, compactText, hn]
    rfl
  string text := by rw [quoted_eq, compactText]
  array items texts htexts := by
    have hsame : texts = items.map compactText := by
      induction htexts with
      | nil => rfl
      | cons htext _ ih => rw [ih, List.map_cons, Except.ok.inj htext]
    rw [compactText, compactItems_eq, hsame]
  object members texts htexts := by
    have hsame : List.zipWith (fun member text => quoted member.1 ++ 58 :: text) members texts = compactMembers members := by
      induction htexts with
      | nil => rfl
      | cons htext _ ih => rw [List.zipWith_cons_cons, ih, ← Except.ok.inj htext, quoted_eq, compactMembers]
    rw [compactText, hsame]

/-- `{"id":1,"name":"planner"}`. -/
def plannerCard : JsonValue :=
  .object [(String.ofList ['i', 'd'], .number (.posInt 1)), (String.ofList ['n', 'a', 'm', 'e'], .string "planner")]

theorem plannerCard_sorted : plannerCard.Sorted := by
  refine ⟨List.pairwise_pair.2 (String.lt_iff_toList_lt.2 ?_), trivial, trivial, trivial⟩
  rw [String.toList_ofList, String.toList_ofList]
  decide

theorem plannerCard_plain : plannerCard.Plain := by
  refine ⟨?_, ?_, trivial, trivial⟩
  · -- Its keys are ASCII.
    rintro a ha b - ⟨same, c, d, rest, rest', hkey, -, hc, -⟩
    have hascii : ∀ c ∈ ['i', 'd'] ++ ['n', 'a', 'm', 'e'], c.toNat < 128 := by simp
    have hmem : c ∈ a.1.toList := by simp [hkey]
    simp only [List.mem_cons, List.not_mem_nil, or_false] at ha
    rcases ha with rfl | rfl
    · rw [String.toList_ofList] at hmem
      have := hascii c (List.mem_append_left _ hmem)
      omega
    · rw [String.toList_ofList] at hmem
      have := hascii c (List.mem_append_right _ hmem)
      omega
  · intro n hn
    cases hn
    exact shortest_of_lt (by decide)

/-- The planner's signature of the header and the card. -/
def plannerCardSignature : Bytes :=
  [216, 13, 90, 179, 128, 107, 133, 25, 111, 27, 61, 164, 30, 10, 240, 28, 12, 224, 148, 122, 218, 138, 247, 250, 36, 134, 76,
    163, 244, 212, 110, 41, 63, 96, 56, 51, 146, 205, 124, 154, 235, 54, 163, 114, 19, 233, 194, 226, 107, 97, 201, 232, 177,
    149, 121, 232, 68, 139, 253, 197, 233, 22, 5, 5]

/-- Ed25519 at that signature. -/
def cardCrypto : Crypto where
  sha256 := KeyRegistry.plannerCrypto.sha256
  verify key input signature :=
    key == KeyRegistry.plannerKey && input == jwsSigningInput
      [123, 34, 105, 100, 34, 58, 49, 44, 34, 110, 97, 109, 101, 34, 58, 34, 112, 108, 97, 110, 110, 101, 114, 34, 125] &&
      signature == plannerCardSignature

/-- The card as it is published. -/
def signedCard : JsonValue :=
  .object [(String.ofList ['i', 'd'], .number (.posInt 1)), (String.ofList ['n', 'a', 'm', 'e'], .string "planner"),
    ("signatures", .array [.object [("protected", .string "eyJhbGciOiJFZERTQSJ9"),
      ("signature", .string "2A1as4BrhRlvGz2kHgrwHAzglHraivf6JIZMo_TUbik_YDgzks18mus2o3IT6cLia2HJ6LGVeehEi_3F6RYFBQ")]])]

/-- The planner signs its card, and the published card verifies. -/
theorem plannerCard_verifies :
    Rfc8785 plannerCard (compactText plannerCard) ∧
      SignedOver cardCrypto KeyRegistry.plannerKey (compactText plannerCard)
        ⟨base64url cardHeader, base64url plannerCardSignature⟩ ∧
      verifyCard cardCrypto (fun value => .ok (compactText value)) signedCard
        ⟨base64url cardHeader, base64url plannerCardSignature⟩ KeyRegistry.plannerKey = .ok () := by
  have hsigned : SignedOver cardCrypto KeyRegistry.plannerKey (compactText plannerCard)
      ⟨base64url cardHeader, base64url plannerCardSignature⟩ := ⟨plannerCardSignature, rfl, by decide +kernel, rfl⟩
  have hcard : withoutSignatures signedCard = plannerCard := by
    have hid : String.ofList ['i', 'd'] ≠ "signatures" := by decide +kernel
    have hname : String.ofList ['n', 'a', 'm', 'e'] ≠ "signatures" := by decide +kernel
    simp [withoutSignatures, signedCard, plannerCard, eraseKey, hid, hname]
  obtain ⟨hcanonical, hverifies⟩ :=
    (card_canonical_iff cardCrypto _ compactText_compact plannerCard plannerCard_sorted _ rfl).2 plannerCard_plain
  exact ⟨hcanonical, hsigned, hverifies signedCard _ _ _ hcard hcanonical hsigned⟩

/-- An object with the keys U+E000 and U+10000, in the order of its map. -/
def privateKeys : JsonValue :=
  .object [(String.ofList [Char.ofNat 0xE000], .number (.posInt 1)), (String.ofList [Char.ofNat 0x10000], .number (.posInt 2))]

theorem privateKeys_not_canonical :
    privateKeys.Sorted ∧ jcsBytes (fun value => .ok (compactText value)) privateKeys = .ok (compactText privateKeys) ∧
      ¬ Rfc8785 privateKeys (compactText privateKeys) := by
  have hsorted : privateKeys.Sorted := by
    refine ⟨List.pairwise_pair.2 (String.lt_iff_toList_lt.2 ?_), trivial, trivial, trivial⟩
    rw [String.toList_ofList, String.toList_ofList]
    decide
  refine ⟨hsorted, rfl, ?_⟩
  rw [compactText_canonical_iff hsorted rfl]
  rintro ⟨hkeys, -⟩
  refine hkeys _ List.mem_cons_self _ (List.mem_cons_of_mem _ List.mem_cons_self) ?_
  exact ⟨[], Char.ofNat 0xE000, Char.ofNat 0x10000, [], [], String.toList_ofList, String.toList_ofList, by decide⟩

end LaserSdk.Sign

import Mathlib.Data.UInt
import LaserSdk.Lib.Checks
import LaserSdk.Lib.Place
import LaserSdk.Lib.Utf8
/-!
# The text form of an id

Every 128-bit id is shown as 26 characters of Crockford's base 32. We prove
that showing and reading an id are inverse up to the case of letters, that no
text past 128 bits is read, and that the texts are in the order of the ids.
-/

namespace LaserSdk.Ids

open Lib

/-- Why an id is not read. -/
inductive IdParseError where
  | length (got : Nat)
  | char (character : Char)
  | overflow
  deriving DecidableEq, Repr

def crockford : List UInt8 := "0123456789ABCDEFGHJKMNPQRSTVWXYZ".toUTF8.toList

/-- The slots of the output from the last to the first. -/
def encodeSlots : Nat → BitVec 128 → List UInt8 → List UInt8
  | 0, _, out => out
  | slots + 1, v, out => encodeSlots slots (v >>> 5) (crockford.getD (v &&& 0x1f).toNat 0 :: out)

def crockfordEncode (value : BitVec 128) : List UInt8 := encodeSlots 26 value []

def toAsciiUppercase (byte : UInt8) : UInt8 := if 97 ≤ byte ∧ byte ≤ 122 then byte - 32 else byte

/-- The loop over the bytes from place `i` on. -/
def decodeFrom (i : Nat) (value : BitVec 128) : List UInt8 → Except IdParseError (BitVec 128)
  | [] => .ok value
  | byte :: rest =>
    match crockford.findIdx? (· = toAsciiUppercase byte) with
    | none => .error (.char (Char.ofNat byte.toNat))
    | some digit =>
      -- The first of 26 digits has room for three bits only.
      if i = 0 ∧ digit > 7 then .error .overflow
      else decodeFrom (i + 1) ((value <<< 5) ||| BitVec.ofNat 128 digit) rest

def crockfordDecode (s : String) : Except IdParseError (BitVec 128) :=
  let bytes := s.toUTF8.toList
  if bytes.length ≠ 26 then .error (.length bytes.length) else decodeFrom 0 0 bytes

/-- How an id is shown. Its bytes are ASCII. -/
def display (value : BitVec 128) : String := String.ofList ((crockfordEncode value).map fun byte => Char.ofNat byte.toNat)

/-! ## Digits and letters -/

/-- The letter of a digit. -/
def letter (digit : Nat) : UInt8 := crockford.getD digit 0

theorem length_crockford : crockford.length = 32 := by decide +kernel

theorem letter_lt_iff : ∀ d < 32, ∀ e < 32, (letter d < letter e ↔ d < e) := by decide +kernel

theorem letter_upper : ∀ d < 32, toAsciiUppercase (letter d) = letter d := by decide +kernel

theorem letter_ascii : ∀ d < 32, (letter d).toNat < 128 := by decide +kernel

theorem letter_injective : ∀ d < 32, ∀ e < 32, letter d = letter e → d = e := by decide +kernel

theorem letter_eq_getElem {digit : Nat} (h : digit < crockford.length) : letter digit = crockford[digit] := by
  simp [letter, h]

theorem findIdx_crockford {byte : UInt8} {digit : Nat} :
    crockford.findIdx? (· = byte) = some digit ↔ digit < 32 ∧ letter digit = byte := by
  rw [List.findIdx?_eq_some_iff_getElem]
  constructor
  · rintro ⟨hlt, hletter, -⟩
    refine ⟨length_crockford ▸ hlt, ?_⟩
    rw [letter_eq_getElem hlt]
    simpa using hletter
  · rintro ⟨hdigit, rfl⟩
    have hlt : digit < crockford.length := length_crockford ▸ hdigit
    refine ⟨hlt, by simp [letter_eq_getElem hlt], fun j hj hsame => ?_⟩
    have hletter : letter j = letter digit := by
      rw [letter_eq_getElem (hj.trans hlt)]
      simpa using hsame
    exact absurd (letter_injective j (hj.trans hdigit) digit hdigit hletter) (Nat.ne_of_lt hj)

/-- The slots are the digits of the value. -/
theorem encodeSlots_eq (slots : Nat) (v : BitVec 128) (out : List UInt8) :
    encodeSlots slots v out = (placeDigits 32 slots v.toNat).map letter ++ out := by
  induction slots generalizing v out with
  | zero => rfl
  | succ slots ih =>
    have hlow : (v &&& 0x1f).toNat = v.toNat % 32 := by
      rw [BitVec.toNat_and]
      exact Nat.and_two_pow_sub_one_eq_mod v.toNat 5
    have hhigh : (v >>> 5).toNat = v.toNat / 32 := by
      rw [BitVec.toNat_ushiftRight, Nat.shiftRight_eq_div_pow]
    rw [encodeSlots, ih, hhigh, hlow, placeDigits, List.map_append, List.append_assoc]
    rfl

theorem crockfordEncode_eq (v : BitVec 128) : crockfordEncode v = (placeDigits 32 26 v.toNat).map letter := by
  rw [crockfordEncode, encodeSlots_eq, List.append_nil]

/-! ## Reading -/

/-- The number that 26 digits of either case write, of any size. -/
def Denotes (s : String) (n : Nat) : Prop :=
  ∃ digits : List Nat, digits.length = 26 ∧ (∀ digit ∈ digits, digit < 32) ∧
    s.toUTF8.toList.map toAsciiUppercase = digits.map letter ∧ placeValue 32 digits = n

/-- One more digit of the loop. -/
def shiftIn (value : BitVec 128) (digit : Nat) : BitVec 128 := (value <<< 5) ||| BitVec.ofNat 128 digit

theorem decodeFrom_ok {i : Nat} {value v : BitVec 128} {bytes : List UInt8} :
    decodeFrom i value bytes = .ok v ↔ ∃ digits : List Nat, (∀ digit ∈ digits, digit < 32) ∧
      bytes.map toAsciiUppercase = digits.map letter ∧ (i = 0 → ∀ digit ∈ digits.head?, digit ≤ 7) ∧
      digits.foldl shiftIn value = v := by
  induction bytes generalizing i value with
  | nil =>
    constructor
    · intro h
      cases h
      exact ⟨[], by simp, rfl, by simp, rfl⟩
    · rintro ⟨digits, -, hbytes, -, rfl⟩
      rw [List.map_eq_nil_iff.1 hbytes.symm]
      rfl
  | cons byte bytes ih =>
    rw [decodeFrom]
    constructor
    · intro h
      split at h
      · cases h
      · rename_i digit hdigit
        split at h
        · cases h
        · rename_i hroom
          obtain ⟨digits, hdigits, hbytes, -, hvalue⟩ := ih.1 h
          obtain ⟨hlt, hletter⟩ := findIdx_crockford.1 hdigit
          refine ⟨digit :: digits, List.forall_mem_cons.2 ⟨hlt, hdigits⟩, ?_, ?_, hvalue⟩
          · rw [List.map_cons, List.map_cons, hletter, hbytes]
          · intro hi first hfirst
            cases hfirst
            omega
    · rintro ⟨digits, hdigits, hbytes, hroom, hvalue⟩
      cases digits with
      | nil => cases hbytes
      | cons digit digits =>
        obtain ⟨hletter, hrest⟩ := List.cons.inj hbytes
        obtain ⟨hlt, hlts⟩ := List.forall_mem_cons.1 hdigits
        rw [findIdx_crockford.2 ⟨hlt, hletter.symm⟩]
        dsimp only
        rw [if_neg, ih]
        · exact ⟨digits, hlts, hrest, by simp, hvalue⟩
        · rintro ⟨hi, hbig⟩
          have := hroom hi digit rfl
          omega

/-- Nothing is shifted out while the digits fit. -/
theorem toNat_foldl_shiftIn {digits : List Nat} (h : ∀ digit ∈ digits, digit < 32) {value : BitVec 128}
    (hroom : (value.toNat + 1) * 32 ^ digits.length ≤ 2 ^ 128) :
    (digits.foldl shiftIn value).toNat = digits.foldl (fun n digit => 32 * n + digit) value.toNat := by
  induction digits generalizing value with
  | nil => rfl
  | cons digit digits ih =>
    obtain ⟨hlt, hlts⟩ := List.forall_mem_cons.1 h
    rw [List.length_cons, Nat.pow_succ', ← Nat.mul_assoc] at hroom
    have hfits : (value.toNat + 1) * 32 ≤ 2 ^ 128 :=
      Nat.le_trans (Nat.le_mul_of_pos_right _ (Nat.pow_pos (by decide))) hroom
    have hstep : (shiftIn value digit).toNat = 32 * value.toNat + digit := by
      rw [shiftIn, BitVec.toNat_or, BitVec.toNat_shiftLeft, BitVec.toNat_ofNat, Nat.shiftLeft_eq,
        Nat.mod_eq_of_lt (by omega), Nat.mod_eq_of_lt (by omega), ← Nat.shiftLeft_eq,
        ← Nat.shiftLeft_add_eq_or_of_lt (show digit < 2 ^ 5 from hlt), Nat.shiftLeft_eq, Nat.mul_comm]
    rw [List.foldl_cons, List.foldl_cons, ih hlts, hstep]
    rw [hstep]
    exact Nat.le_trans (Nat.mul_le_mul_right _ (by omega)) hroom

/-- The bound on the first digit is the bound on the number. -/
theorem placeValue_lt_iff {digits : List Nat} (hlength : digits.length = 26) (h : ∀ digit ∈ digits, digit < 32) :
    placeValue 32 digits < 2 ^ 128 ↔ ∀ digit ∈ digits.head?, digit ≤ 7 := by
  cases digits with
  | nil => cases hlength
  | cons first digits =>
    have hrest := placeValue_lt fun digit hdigit => h digit (List.mem_cons_of_mem _ hdigit)
    have hwidth : digits.length = 25 := Nat.succ.inj hlength
    rw [hwidth] at hrest
    rw [placeValue_cons, hwidth, List.head?_cons]
    simp only [Option.mem_def, Option.some.injEq, forall_eq']
    omega

theorem crockfordDecode_ok {s : String} {id : BitVec 128} : crockfordDecode s = .ok id ↔ Denotes s id.toNat := by
  have hvalue : ∀ digits : List Nat, digits.length = 26 → (∀ digit ∈ digits, digit < 32) →
      (∀ digit ∈ digits.head?, digit ≤ 7) → (digits.foldl shiftIn 0).toNat = placeValue 32 digits := by
    intro digits hlength hdigits hroom
    cases digits with
    | nil => cases hlength
    | cons first digits =>
      -- The first digit leaves room for the other 25.
      have hfirst := hroom first rfl
      obtain ⟨hlt, hlts⟩ := List.forall_mem_cons.1 hdigits
      have hstart : (shiftIn 0 first).toNat = first := by
        have := @toNat_foldl_shiftIn [first] (by simpa using hlt) 0 (by simp)
        simpa using this
      rw [List.foldl_cons, toNat_foldl_shiftIn hlts, hstart]
      · simp [placeValue]
      · rw [hstart, show digits.length = 25 from Nat.succ.inj hlength]
        omega
  unfold crockfordDecode
  dsimp only
  constructor
  · intro h
    split at h
    · cases h
    · rename_i hlength
      obtain ⟨digits, hdigits, hbytes, hroom, rfl⟩ := decodeFrom_ok.1 h
      have hwidth : digits.length = 26 := by
        have := congrArg List.length hbytes
        simp only [List.length_map] at this
        omega
      exact ⟨digits, hwidth, hdigits, hbytes, (hvalue digits hwidth hdigits (hroom rfl)).symm⟩
  · rintro ⟨digits, hwidth, hdigits, hbytes, hnumber⟩
    have hroom := (placeValue_lt_iff hwidth hdigits).1 (hnumber ▸ id.isLt)
    have hlength : s.toUTF8.toList.length = 26 := by
      have := congrArg List.length hbytes
      simp only [List.length_map] at this
      omega
    rw [if_neg (by omega), decodeFrom_ok]
    refine ⟨digits, hdigits, hbytes, fun _ => hroom, BitVec.eq_of_toNat_eq ?_⟩
    rw [hvalue digits hwidth hdigits hroom, hnumber]

/-- A number past 128 bits is refused for its size. -/
theorem crockfordDecode_overflow {s : String} {n : Nat} (h : Denotes s n) (hbig : 2 ^ 128 ≤ n) :
    crockfordDecode s = .error .overflow := by
  obtain ⟨digits, hwidth, hdigits, hbytes, rfl⟩ := h
  have hfirst := (placeValue_lt_iff hwidth hdigits).not.1 (Nat.not_lt.2 hbig)
  cases digits with
  | nil => cases hwidth
  | cons first digits =>
    unfold crockfordDecode
    dsimp only
    cases hread : s.toUTF8.toList with
    | nil =>
      rw [hread] at hbytes
      cases hbytes
    | cons byte bytes =>
      rw [hread] at hbytes
      obtain ⟨hletter, hrest⟩ := List.cons.inj hbytes
      have hlength := congrArg List.length hrest
      simp only [List.length_map, List.length_cons] at hlength hwidth
      have hlarge : first > 7 := by
        by_contra hsmall
        refine hfirst fun digit hdigit => ?_
        cases hdigit
        omega
      rw [if_neg (by simp only [List.length_cons]; omega), decodeFrom,
        findIdx_crockford.2 ⟨hdigits first List.mem_cons_self, hletter.symm⟩]
      exact if_pos ⟨rfl, hlarge⟩

/-! ## Showing -/

theorem utf8EncodeChar_ofNat : ∀ n < 128, String.utf8EncodeChar (Char.ofNat n) = [UInt8.ofNat n] := by decide +kernel

theorem toUpper_ofNat : ∀ n < 128, String.utf8EncodeChar (Char.ofNat n).toUpper = [toAsciiUppercase (UInt8.ofNat n)] := by
  decide +kernel

theorem toUpper_of_not_ascii {c : Char} (h : 128 ≤ c.toNat) : c.toUpper = c := by
  unfold Char.toUpper
  rw [dif_neg]
  rintro ⟨-, hle⟩
  have hz : c.toNat ≤ 122 := UInt32.le_iff_toNat_le.1 hle
  omega

/-- Only ASCII letters have a case here. -/
theorem utf8EncodeChar_toUpper (c : Char) :
    String.utf8EncodeChar c.toUpper = (String.utf8EncodeChar c).map toAsciiUppercase := by
  rcases Nat.lt_or_ge c.toNat 128 with hascii | hlarge
  · rw [← Char.ofNat_toNat c, toUpper_ofNat _ hascii, utf8EncodeChar_ofNat _ hascii]
    rfl
  · rw [toUpper_of_not_ascii hlarge]
    have hsame : ∀ byte ∈ String.utf8EncodeChar c, toAsciiUppercase byte = id byte := by
      intro byte hbyte
      have hbeyond : 128 ≤ byte.toNat := by
        rcases utf8_byte hbyte with heq | hle <;> omega
      refine if_neg fun ⟨_, hle⟩ => ?_
      have hz : byte.toNat ≤ 122 := UInt8.le_iff_toNat_le.1 hle
      omega
    rw [List.map_congr_left hsame, List.map_id]

theorem display_utf8 (id : BitVec 128) : (display id).toUTF8.toList = crockfordEncode id := by
  rw [display, utf8_ofList, List.flatMap_map, crockfordEncode_eq, List.flatMap_map, List.map_eq_flatMap]
  refine List.flatMap_congr fun digit hdigit => ?_
  rw [utf8EncodeChar_ofNat _ (letter_ascii digit (placeDigits_lt (by decide) _ _ digit hdigit)), UInt8.ofNat_toNat]

theorem toUpper_utf8 (s : String) : s.toUpper.toUTF8.toList = s.toUTF8.toList.map toAsciiUppercase := by
  have hmap : s.toUpper = String.ofList (s.toList.map Char.toUpper) := by
    rw [← String.toList_inj, String.toList_ofList]
    exact String.toList_map
  rw [hmap, utf8_ofList, List.flatMap_map]
  conv_rhs => rw [← @String.ofList_toList s, utf8_ofList, List.map_flatMap]
  exact List.flatMap_congr fun c _ => utf8EncodeChar_toUpper c

theorem placeValue_toNat (id : BitVec 128) : placeValue 32 (placeDigits 32 26 id.toNat) = id.toNat := by
  rw [placeValue_placeDigits, Nat.mod_eq_of_lt]
  exact Nat.lt_of_lt_of_le id.isLt (by decide)

/-- What is shown denotes the id. -/
theorem denotes_display (id : BitVec 128) : Denotes (display id) id.toNat := by
  refine ⟨placeDigits 32 26 id.toNat, length_placeDigits _ _, placeDigits_lt (by decide) _ _, ?_, placeValue_toNat id⟩
  rw [display_utf8, crockfordEncode_eq, List.map_map]
  refine List.map_congr_left fun digit hdigit => ?_
  exact letter_upper digit (placeDigits_lt (by decide) _ _ digit hdigit)

/-- A text that denotes an id is its display in some case. -/
theorem display_of_denotes {s : String} {id : BitVec 128} (h : Denotes s id.toNat) : display id = s.toUpper := by
  obtain ⟨digits, hwidth, hdigits, hbytes, hnumber⟩ := h
  apply ext_utf8
  rw [display_utf8, toUpper_utf8, hbytes, crockfordEncode_eq, ← hnumber, ← hwidth, placeDigits_placeValue hdigits]

theorem crockfordEncode_lt_iff {a b : BitVec 128} : crockfordEncode a < crockfordEncode b ↔ a < b := by
  have hdigits := fun n : Nat => placeDigits_lt (show 0 < 32 by decide) 26 n
  rw [crockfordEncode_eq, crockfordEncode_eq, map_lt_map_iff letter_lt_iff (hdigits _) (hdigits _),
    lt_iff_placeValue_lt (hdigits _) (hdigits _) (by simp), placeValue_toNat, placeValue_toNat]
  rfl

/-- Showing and reading ids are inverse up to the case of letters, nothing past
128 bits is read, and texts are in the order of the ids. -/
theorem crockford_inverse :
    (∀ id, crockfordDecode (display id) = .ok id) ∧
    (∀ s id, crockfordDecode s = .ok id → display id = s.toUpper) ∧
    (∀ s t id, crockfordDecode s = .ok id → crockfordDecode t = .ok id → s.toUpper = t.toUpper) ∧
    (∀ s n, Denotes s n → crockfordDecode s = if n < 2 ^ 128 then .ok (BitVec.ofNat 128 n) else .error .overflow) ∧
    (∀ s id, crockfordDecode s = .ok id → Denotes s id.toNat) ∧
    ∀ a b, crockfordEncode a < crockfordEncode b ↔ a < b := by
  refine ⟨?_, ?_, ?_, ?_, ?_, fun a b => crockfordEncode_lt_iff⟩
  · exact fun id => crockfordDecode_ok.2 (denotes_display id)
  · exact fun s id h => display_of_denotes (crockfordDecode_ok.1 h)
  · intro s t id hs ht
    exact (display_of_denotes (crockfordDecode_ok.1 hs)).symm.trans (display_of_denotes (crockfordDecode_ok.1 ht))
  · intro s n h
    split
    · rename_i hlt
      rw [crockfordDecode_ok, BitVec.toNat_ofNat, Nat.mod_eq_of_lt hlt]
      exact h
    · rename_i hge
      exact crockfordDecode_overflow h (Nat.not_lt.1 hge)
  · exact fun s id => crockfordDecode_ok.1

example : display 0x4d = "0000000000000000000000002D" := by decide +kernel

end LaserSdk.Ids

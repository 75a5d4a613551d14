import Mathlib.Data.List.Basic
import Mathlib.Tactic.Common
/-!
# The bytes of a text

A text is the encodings of its characters one after another. An ASCII byte is a
character of its own, so a character starts right behind it.
-/

namespace LaserSdk.Lib

theorem toList_loop_eq (bytes : ByteArray) (i : Nat) (read : List UInt8) :
    ByteArray.toList.loop bytes i read = read.reverse ++ bytes.data.toList.drop i := by
  fun_induction ByteArray.toList.loop bytes i read with
  | case1 i read hlt ih =>
    have hlt' : i < bytes.data.toList.length := by simpa using hlt
    have hbyte : bytes.get! i = bytes.data.toList[i] := getElem!_pos bytes.data i hlt
    rw [ih, List.reverse_cons, List.append_assoc, List.singleton_append, List.drop_eq_getElem_cons hlt', hbyte]
  | case2 i read hge =>
    have hge' : bytes.data.toList.length ≤ i := by simpa using hge
    rw [List.drop_eq_nil_of_le hge', List.append_nil]

theorem toList_eq_data (bytes : ByteArray) : bytes.toList = bytes.data.toList := by
  unfold ByteArray.toList
  rw [toList_loop_eq]
  rfl

theorem utf8_ofList (text : List Char) : (String.ofList text).toUTF8.toList = text.flatMap String.utf8EncodeChar := by
  rw [toList_eq_data]
  simp [String.toUTF8, List.utf8Encode]

/-- A text is its bytes. -/
theorem ext_utf8 {s t : String} (h : s.toUTF8.toList = t.toUTF8.toList) : s = t := by
  rw [toList_eq_data, toList_eq_data] at h
  exact String.toByteArray_inj.1 (ByteArray.ext (Array.toList_inj.1 h))

/-- A byte of a character is the character or lies beyond ASCII. -/
theorem utf8_byte {c : Char} {byte : UInt8} (h : byte ∈ String.utf8EncodeChar c) :
    byte.toNat = c.toNat ∨ 128 ≤ byte.toNat := by
  unfold String.utf8EncodeChar at h
  simp only at h
  split at h
  · left
    obtain rfl := List.mem_singleton.1 h
    have hval : c.toNat = c.val.toNat := rfl
    simp only [UInt8.toNat_ofNat']
    omega
  · right
    split at h
    · simp only [List.mem_cons, List.not_mem_nil, or_false] at h
      rcases h with rfl | rfl <;> simp only [UInt8.toNat_ofNat'] <;> omega
    · split at h
      · simp only [List.mem_cons, List.not_mem_nil, or_false] at h
        rcases h with rfl | rfl | rfl <;> simp only [UInt8.toNat_ofNat'] <;> omega
      · simp only [List.mem_cons, List.not_mem_nil, or_false] at h
        rcases h with rfl | rfl | rfl | rfl <;> simp only [UInt8.toNat_ofNat'] <;> omega

/-- A byte that goes on with a character. -/
def isContinuation (byte : UInt8) : Bool := byte.toNat / 64 = 2

/-- A character starts with a byte that does not go on with another. -/
theorem utf8_lead (c : Char) : ∃ byte rest, String.utf8EncodeChar c = byte :: rest ∧ isContinuation byte = false := by
  unfold String.utf8EncodeChar
  simp only
  split_ifs <;> refine ⟨_, _, rfl, ?_⟩ <;>
    simp only [isContinuation, UInt8.toNat_ofNat', decide_eq_false_iff_not] <;> omega

/-- An ASCII byte is a whole character. -/
theorem utf8_ascii {c : Char} {byte : UInt8} (h : byte ∈ String.utf8EncodeChar c) (hascii : byte.toNat < 128) :
    String.utf8EncodeChar c = [byte] := by
  have hcode : c.toNat < 128 := by
    rcases utf8_byte h with heq | hle <;> omega
  have hval : c.toNat = c.val.toNat := rfl
  have hone : String.utf8EncodeChar c = [UInt8.ofNat c.val.toNat] := by
    unfold String.utf8EncodeChar
    exact if_pos (by omega)
  rw [hone] at h ⊢
  rw [List.mem_singleton.1 h]

/-- Where a character may start: at the end, or at a byte that does not go on
with one. -/
def isBoundary (bytes : List UInt8) (i : Nat) : Bool :=
  match bytes[i]? with
  | some byte => !isContinuation byte
  | none => i = bytes.length

theorem isBoundary_shift (before bytes : List UInt8) (i : Nat) :
    isBoundary (before ++ bytes) (before.length + i) = isBoundary bytes i := by
  unfold isBoundary
  rw [List.getElem?_append_right (Nat.le_add_right _ _), Nat.add_sub_cancel_left, List.length_append]
  simp only [Nat.add_left_cancel_iff]

theorem isBoundary_zero (text : List Char) : isBoundary (text.flatMap String.utf8EncodeChar) 0 = true := by
  cases text with
  | nil => rfl
  | cons c text =>
    obtain ⟨byte, rest, hlead, hstart⟩ := utf8_lead c
    simp [isBoundary, hlead, hstart]

/-- A character starts behind every ASCII byte. -/
theorem isBoundary_after_ascii {text : List Char} {i : Nat} {byte : UInt8}
    (h : (text.flatMap String.utf8EncodeChar)[i]? = some byte) (hascii : byte.toNat < 128) :
    isBoundary (text.flatMap String.utf8EncodeChar) (i + 1) = true := by
  induction text generalizing i with
  | nil => cases h
  | cons c text ih =>
    rw [List.flatMap_cons] at h ⊢
    by_cases hfirst : i < (String.utf8EncodeChar c).length
    · rw [List.getElem?_append_left hfirst] at h
      have hone := utf8_ascii (List.mem_of_getElem? h) hascii
      rw [hone] at hfirst ⊢
      obtain rfl : i = 0 := by simpa using hfirst
      exact (isBoundary_shift [byte] _ 0).trans (isBoundary_zero text)
    · obtain ⟨j, rfl⟩ := Nat.exists_eq_add_of_le (Nat.not_lt.1 hfirst)
      rw [List.getElem?_append_right (Nat.le_add_right _ _), Nat.add_sub_cancel_left] at h
      rw [Nat.add_assoc, isBoundary_shift]
      exact ih h

end LaserSdk.Lib

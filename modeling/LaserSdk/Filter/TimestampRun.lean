import LaserSdk.Lib.Checks
import LaserSdk.Filter.Timestamp
/-!
# The timestamp parser never panics

The parser again, with every operation that could panic or overflow as an
outcome of its own: 64-bit arithmetic outside the checked steps, indexing, and
slices of a text that must fall between characters. We prove that it only
returns or refuses, as the parser over unbounded integers does.
-/

namespace LaserSdk.Filter

open LaserSdk.Lib

/-- Why the parser ends without a result. -/
inductive Stop where
  | refused
  | panicked
  deriving DecidableEq, Repr

/-- An early return of `None`. -/
def orRefused {α : Type} : Option α → Except Stop α
  | some a => .ok a
  | none => .error .refused

@[simp] theorem orRefused_some {α : Type} (a : α) : orRefused (some a) = .ok a := rfl

@[simp] theorem orRefused_none {α : Type} : orRefused (none : Option α) = .error .refused := rfl

/-- Two runs that read the same and go on alike. -/
theorem orRefused_bind {α β : Type} {x : Option α} {f : α → Except Stop β} {g : α → Option β}
    (h : ∀ a, x = some a → f a = orRefused (g a)) : (orRefused x >>= f) = orRefused (x >>= g) := by
  cases x with
  | none => rfl
  | some a => exact h a rfl

/-- The result of unchecked 64-bit arithmetic. -/
def i64 (value : Int) : Except Stop Int := if -2 ^ 63 ≤ value ∧ value < 2 ^ 63 then .ok value else .error .panicked

/-- `bytes[i]`. -/
def byteAt (bytes : List UInt8) (i : Nat) : Except Stop UInt8 :=
  match bytes[i]? with
  | some byte => .ok byte
  | none => .error .panicked

/-- `&text[start..stop]`. -/
def sliceText (bytes : List UInt8) (start stop : Nat) : Except Stop (List UInt8) :=
  if start ≤ stop ∧ stop ≤ bytes.length ∧ isBoundary bytes start ∧ isBoundary bytes stop then
    .ok ((bytes.drop start).take (stop - start))
  else .error .panicked

/-- `text.split_at(middle)`. -/
def splitText (bytes : List UInt8) (middle : Nat) : Except Stop (List UInt8 × List UInt8) :=
  if middle ≤ bytes.length ∧ isBoundary bytes middle then .ok (bytes.take middle, bytes.drop middle)
  else .error .panicked

/-! ## The parser -/

/-- `byte - b'0'` of two bytes. -/
def digitOf (byte : UInt8) : Except Stop Int := if 48 ≤ byte then .ok (byte.toNat - 48) else .error .panicked

def foldDigits (value : Int) : List UInt8 → Except Stop Int
  | [] => .ok value
  | byte :: rest =>
    if isAsciiDigit byte then do
      let tens ← i64 (value * 10)
      let digit ← digitOf byte
      let value ← i64 (tens + digit)
      foldDigits value rest
    else .error .refused

def digitsAtRun (bytes : List UInt8) (start len : Nat) : Except Stop Int :=
  if start + len ≤ bytes.length then foldDigits 0 ((bytes.drop start).take len) else .error .refused

def daysFromCivilRun (year month day : Int) : Except Stop Int := do
  let year ← (if month ≤ 2 then i64 (year - 1) else .ok year)
  let rounded ← (if year ≥ 0 then .ok year else i64 (year - 399))
  let era := rounded.tdiv 400
  let eraYears ← i64 (era * 400)
  let yearOfEra ← i64 (year - eraYears)
  let shiftedMonth ← (if month > 2 then i64 (month - 3) else i64 (month + 9))
  let fifths ← i64 (153 * shiftedMonth)
  let fifths ← i64 (fifths + 2)
  let dayOfYear ← i64 (fifths.tdiv 5 + day)
  let dayOfYear ← i64 (dayOfYear - 1)
  let dayOfEra ← i64 (yearOfEra * 365)
  let dayOfEra ← i64 (dayOfEra + yearOfEra.tdiv 4)
  let dayOfEra ← i64 (dayOfEra - yearOfEra.tdiv 100)
  let dayOfEra ← i64 (dayOfEra + dayOfYear)
  let eraDays ← i64 (era * 146097)
  let days ← i64 (eraDays + dayOfEra)
  i64 (days - 719468)

def fractionMicrosRun (bytes : List UInt8) (position : Nat) : Except Stop (Int × Nat) :=
  if bytes[position]? = some 46 then do
    let stop := position + 1 + ((bytes.drop (position + 1)).takeWhile isAsciiDigit).length
    let fraction ← sliceText bytes (position + 1) stop
    if fraction = [] ∨ fraction.length > 9 then .error .refused
    else
      let (kept, dropped) ← splitText fraction (min fraction.length 6)
      if dropped.any (· != 48) then .error .refused
      else
        let power ← (if kept.length ≤ 6 then .ok (6 - kept.length) else .error .panicked)
        let scale ← i64 (10 ^ power)
        -- `parse` refuses a number that does not fit.
        let value ← orRefused (checkedI64 (digitsValue kept))
        let micros ← i64 (value * scale)
        return (micros, stop)
  else .ok (0, position)

def offsetSecondsRun (bytes : List UInt8) (position : Nat) : Except Stop Int := do
  let mark ← orRefused bytes[position]?
  if (mark = 90 ∨ mark = 122) ∧ position + 1 = bytes.length then .ok 0
  else if (mark = 43 ∨ mark = 45) ∧ position + 6 = bytes.length then
    let hour ← digitsAtRun bytes (position + 1) 2
    let minute ← digitsAtRun bytes (position + 4) 2
    let colon ← byteAt bytes (position + 3)
    if colon ≠ 58 ∨ hour > 23 ∨ minute > 59 then .error .refused
    else
      let hours ← i64 (hour * 3600)
      let minutes ← i64 (minute * 60)
      let magnitude ← i64 (hours + minutes)
      if mark = 45 then i64 (-magnitude) else .ok magnitude
  else .error .refused

def rfc3339MicrosRun (text : String) : Except Stop Int := do
  let bytes := utf8Bytes text
  if bytes.length < 20 then .error .refused
  else
    let year ← digitsAtRun bytes 0 4
    let month ← digitsAtRun bytes 5 2
    let day ← digitsAtRun bytes 8 2
    let hour ← digitsAtRun bytes 11 2
    let minute ← digitsAtRun bytes 14 2
    let second ← digitsAtRun bytes 17 2
    let yearEnd ← byteAt bytes 4
    let monthEnd ← byteAt bytes 7
    let dateEnd ← byteAt bytes 10
    let hourEnd ← byteAt bytes 13
    let minuteEnd ← byteAt bytes 16
    if yearEnd ≠ 45 ∨ monthEnd ≠ 45 ∨ (dateEnd ≠ 84 ∧ dateEnd ≠ 116) ∨ hourEnd ≠ 58 ∨ minuteEnd ≠ 58 then
      .error .refused
    else if month < 1 ∨ month > 12 ∨ day = 0 ∨ day > daysInMonth year month ∨ hour > 23 ∨ minute > 59 ∨
        second > 59 then .error .refused
    else
      let (fraction, position) ← fractionMicrosRun bytes 19
      let offset ← offsetSecondsRun bytes position
      let days ← daysFromCivilRun year month day
      let days ← orRefused (checkedI64 (days * secondsPerDay))
      let hours ← i64 (hour * 3600)
      let minutes ← i64 (minute * 60)
      let time ← i64 (hours + minutes)
      let time ← i64 (time + second)
      let seconds ← orRefused (checkedI64 (days + time))
      let seconds ← orRefused (checkedI64 (seconds - offset))
      let micros ← orRefused (checkedI64 (seconds * microsPerSecond))
      orRefused (checkedI64 (micros + fraction))

/-! ## Its parts neither panic nor overflow -/

theorem i64_of {value : Int} (h : -2 ^ 63 ≤ value ∧ value < 2 ^ 63) : i64 value = .ok value := if_pos h

theorem byteAt_of {bytes : List UInt8} {i : Nat} {byte : UInt8} (h : bytes[i]? = some byte) : byteAt bytes i = .ok byte := by
  rw [byteAt, h]

/-- A few digits stay far below the bound of the fold. -/
theorem foldDigits_eq (value : Nat) (bytes : List UInt8) (h : (value + 1) * 10 ^ bytes.length ≤ 10 ^ 18) :
    foldDigits value bytes = orRefused (if bytes.all isAsciiDigit then
      some ((bytes.foldl (fun n byte => 10 * n + (byte.toNat - 48)) value : Nat) : Int) else none) := by
  induction bytes generalizing value with
  | nil => rfl
  | cons byte bytes ih =>
    rw [foldDigits]
    by_cases hdigit : isAsciiDigit byte = true
    · have hbyte := isAsciiDigit_iff.1 hdigit
      have hnext : (10 * value + (byte.toNat - 48) + 1) * 10 ^ bytes.length ≤ 10 ^ 18 := by
        refine Nat.le_trans (Nat.mul_le_mul_right _ (show _ ≤ (value + 1) * 10 by omega)) ?_
        rwa [List.length_cons, Nat.pow_succ', ← Nat.mul_assoc] at h
      have hsmall : 10 * value + (byte.toNat - 48) + 1 ≤ 10 ^ 18 :=
        Nat.le_trans (Nat.le_mul_of_pos_right _ (Nat.pow_pos (by decide))) hnext
      have hof : digitOf byte = .ok (byte.toNat - 48) := by
        rw [digitOf, if_pos]
        exact UInt8.le_iff_toNat_le.2 hbyte.1
      have hvalue : (value * 10 + (byte.toNat - 48) : Int) = (10 * value + (byte.toNat - 48) : Nat) := by omega
      rw [if_pos hdigit, i64_of (by omega), ok_bind, hof, ok_bind, i64_of (by omega), ok_bind, hvalue, ih _ hnext]
      simp [hdigit]
    · simp [hdigit, orRefused]

theorem digitsAtRun_eq (bytes : List UInt8) (start : Nat) {len : Nat} (hlen : 1 ≤ len ∧ len ≤ 4) :
    digitsAtRun bytes start len = orRefused (digitsAt bytes start len) := by
  unfold digitsAtRun digitsAt
  dsimp only
  by_cases hlong : start + len ≤ bytes.length
  · have hlength : ((bytes.drop start).take len).length = len := by
      rw [List.length_take, List.length_drop]
      omega
    have hbound : (0 + 1) * 10 ^ ((bytes.drop start).take len).length ≤ 10 ^ 18 := by
      rw [hlength, Nat.zero_add, Nat.one_mul]
      exact Nat.pow_le_pow_right (by decide) (by omega)
    have hfold := foldDigits_eq 0 ((bytes.drop start).take len) hbound
    rw [if_pos hlong]
    simp only [hlength, true_and]
    exact hfold
  · have hshort : ((bytes.drop start).take len).length ≠ len := by
      rw [List.length_take, List.length_drop]
      omega
    rw [if_neg hlong, if_neg fun h => hshort h.1]
    rfl

theorem daysFromCivilRun_eq {year month day : Int} (hyear : 0 ≤ year ∧ year < 10000) (hmonth : 1 ≤ month ∧ month ≤ 12)
    (hday : 1 ≤ day ∧ day ≤ 31) : daysFromCivilRun year month day = .ok (daysFromCivil year month day) := by
  have hstart : (if month ≤ 2 then i64 (year - 1) else .ok year) = .ok (if month ≤ 2 then year - 1 else year) := by
    split
    · exact i64_of (by omega)
    · rfl
  have hshifted : (if month > 2 then i64 (month - 3) else i64 (month + 9)) =
      .ok (if month > 2 then month - 3 else month + 9) := by
    split <;> exact i64_of (by omega)
  unfold daysFromCivilRun daysFromCivil
  rw [hstart, ok_bind]
  have hrange : -1 ≤ (if month ≤ 2 then year - 1 else year) ∧ (if month ≤ 2 then year - 1 else year) < 10000 := by
    split <;> omega
  have hmonths : 0 ≤ (if month > 2 then month - 3 else month + 9) ∧ (if month > 2 then month - 3 else month + 9) ≤ 11 := by
    split <;> omega
  generalize (if month ≤ 2 then year - 1 else year) = marchYear at hrange ⊢
  generalize (if month > 2 then month - 3 else month + 9) = shiftedMonth at hmonths hshifted ⊢
  have hrounded : (if marchYear ≥ 0 then .ok marchYear else i64 (marchYear - 399)) =
      .ok (if marchYear ≥ 0 then marchYear else marchYear - 399) := by
    split
    · rfl
    · exact i64_of (by omega)
  rw [hrounded, ok_bind, hshifted]
  dsimp only
  rw [era_eq]
  have hera : -1 ≤ marchYear / 400 ∧ marchYear / 400 < 25 := by omega
  have hofEra : 0 ≤ marchYear - marchYear / 400 * 400 ∧ marchYear - marchYear / 400 * 400 < 400 := by omega
  rw [i64_of (by omega), ok_bind, i64_of (by omega), ok_bind, ok_bind]
  generalize marchYear - marchYear / 400 * 400 = yearOfEra at hofEra ⊢
  generalize marchYear / 400 = era at hera ⊢
  have hfifths : 0 ≤ 153 * shiftedMonth + 2 := by omega
  rw [i64_of (by omega), ok_bind, i64_of (by omega), ok_bind, Int.tdiv_eq_ediv_of_nonneg hfifths,
    Int.tdiv_eq_ediv_of_nonneg hofEra.1, Int.tdiv_eq_ediv_of_nonneg hofEra.1]
  rw [i64_of (by omega), ok_bind, i64_of (by omega), ok_bind, i64_of (by omega), ok_bind, i64_of (by omega), ok_bind,
    i64_of (by omega), ok_bind, i64_of (by omega), ok_bind, i64_of (by omega), ok_bind, i64_of (by omega), ok_bind,
    i64_of (by omega)]

/-- A digit or a point before a place means that a character starts there. -/
theorem isBoundary_after {text : String} {i : Nat} {byte : UInt8} (h : (utf8Bytes text)[i]? = some byte)
    (hascii : byte.toNat < 128) : isBoundary (utf8Bytes text) (i + 1) = true := by
  have hbytes : utf8Bytes text = text.toList.flatMap String.utf8EncodeChar := by
    rw [utf8Bytes, ← utf8_ofList, String.ofList_toList]
  rw [hbytes] at h ⊢
  exact isBoundary_after_ascii h hascii

theorem isAsciiDigit_lt {byte : UInt8} (h : isAsciiDigit byte = true) : byte.toNat < 128 := by
  have hbyte := isAsciiDigit_iff.1 h
  omega

/-- A run of digits behind a point lies between characters. -/
theorem sliceText_digits {text : String} {position : Nat} {digits : List UInt8} (h : (utf8Bytes text)[position]? = some 46)
    (hdigits : ((utf8Bytes text).drop (position + 1)).takeWhile isAsciiDigit = digits) :
    sliceText (utf8Bytes text) (position + 1) (position + 1 + digits.length) = .ok digits := by
  have hread : digits <+: (utf8Bytes text).drop (position + 1) := hdigits ▸ List.takeWhile_prefix _
  have hascii : ∀ byte ∈ digits, isAsciiDigit byte = true := by
    rw [← hdigits]
    exact fun byte => List.mem_takeWhile_imp
  obtain ⟨hlt, -⟩ := List.getElem?_eq_some_iff.1 h
  have hlength := hread.length_le
  rw [List.length_drop] at hlength
  have hstart : isBoundary (utf8Bytes text) (position + 1) = true := isBoundary_after h (by decide)
  have hstop : isBoundary (utf8Bytes text) (position + 1 + digits.length) = true := by
    rcases List.eq_nil_or_concat digits with rfl | ⟨front, last, rfl⟩
    · exact hstart
    · have hlast : (utf8Bytes text)[position + 1 + front.length]? = some last := by
        obtain ⟨rest, hrest⟩ := hread
        rw [← List.getElem?_drop, ← hrest]
        simp
      rw [List.concat_eq_append, List.length_append, List.length_singleton, ← Nat.add_assoc]
      exact isBoundary_after hlast (isAsciiDigit_lt (hascii last (by simp)))
  rw [sliceText, if_pos ⟨by omega, by omega, hstart, hstop⟩, Nat.add_sub_cancel_left, ← List.prefix_iff_eq_take.1 hread]

theorem splitText_digits {digits : List UInt8} (h : AsciiDigits digits) :
    splitText digits (min digits.length 6) = .ok (digits.take 6, digits.drop 6) := by
  have hboundary : isBoundary digits (min digits.length 6) = true := by
    unfold isBoundary
    split
    · rename_i byte hbyte
      have hdigit := isAsciiDigit_iff.1 (h byte (List.mem_of_getElem? hbyte))
      simp only [isContinuation, Bool.not_eq_true', decide_eq_false_iff_not]
      omega
    · rename_i hnone
      have := List.getElem?_eq_none_iff.1 hnone
      simp only [decide_eq_true_eq]
      omega
  rw [splitText, if_pos ⟨Nat.min_le_left _ _, hboundary⟩]
  rcases Nat.le_total digits.length 6 with hle | hle
  · rw [Nat.min_eq_left hle, List.take_length, List.drop_length, List.take_of_length_le hle, List.drop_of_length_le hle]
  · rw [Nat.min_eq_right hle]

/-- Six digits and their scale stay within a million. -/
theorem kept_bounds {kept : List UInt8} (h : AsciiDigits kept) (hlength : kept.length ≤ 6) :
    (digitsValue kept : Int) < 10 ^ 6 ∧ (0 < (10 : Int) ^ (6 - kept.length) ∧ (10 : Int) ^ (6 - kept.length) ≤ 10 ^ 6) ∧
      0 ≤ digitsValue kept * (10 : Int) ^ (6 - kept.length) ∧ digitsValue kept * (10 : Int) ^ (6 - kept.length) < 10 ^ 6 := by
  have hvalue : digitsValue kept < 10 ^ kept.length := by
    have hlt := decimalValue_lt h.digits
    rwa [← digitsValue_eq, List.length_map] at hlt
  have hall : 10 ^ kept.length ≤ 10 ^ 6 := Nat.pow_le_pow_right (by decide) hlength
  have hscale : 10 ^ (6 - kept.length) ≤ 10 ^ 6 := Nat.pow_le_pow_right (by decide) (by omega)
  have hpos : 0 < 10 ^ (6 - kept.length) := Nat.pow_pos (by decide)
  have hproduct : digitsValue kept * 10 ^ (6 - kept.length) < 10 ^ 6 := by
    calc digitsValue kept * 10 ^ (6 - kept.length) < 10 ^ kept.length * 10 ^ (6 - kept.length) :=
          Nat.mul_lt_mul_of_pos_right hvalue hpos
      _ = 10 ^ 6 := by rw [← Nat.pow_add, Nat.add_sub_cancel' hlength]
  exact ⟨by exact_mod_cast hvalue.trans_le hall, ⟨by exact_mod_cast hpos, by exact_mod_cast hscale⟩, by positivity,
    by exact_mod_cast hproduct⟩

theorem fractionMicrosRun_eq (text : String) (position : Nat) :
    fractionMicrosRun (utf8Bytes text) position = orRefused (fractionMicros (utf8Bytes text) position) := by
  unfold fractionMicrosRun fractionMicros
  by_cases hpoint : (utf8Bytes text)[position]? = some 46
  · rw [if_pos hpoint, if_pos hpoint]
    dsimp only
    generalize hdigits : ((utf8Bytes text).drop (position + 1)).takeWhile isAsciiDigit = digits
    have hascii : AsciiDigits digits := by
      rw [← hdigits]
      exact fun byte => List.mem_takeWhile_imp
    rw [sliceText_digits hpoint hdigits, ok_bind]
    by_cases hlength : digits = [] ∨ digits.length > 9
    · rw [if_pos hlength, if_pos hlength]
      rfl
    · rw [if_neg hlength, if_neg hlength, splitText_digits hascii, ok_bind]
      dsimp only
      by_cases hdropped : (digits.drop 6).any (· != 48) = true
      · rw [if_pos hdropped, if_pos hdropped]
        rfl
      · have hkept : (digits.take 6).length ≤ 6 := List.length_take_le 6 digits
        obtain ⟨hvalue, hscale, hproduct⟩ := kept_bounds (hascii.subset fun byte => List.mem_of_mem_take) hkept
        have hscaled : i64 (10 ^ (6 - (digits.take 6).length)) = .ok (10 ^ (6 - (digits.take 6).length)) := i64_of (by omega)
        have hparsed : checkedI64 (digitsValue (digits.take 6)) = some (digitsValue (digits.take 6) : Int) :=
          checkedI64_of (by omega)
        rw [if_neg hdropped, if_neg hdropped, if_pos hkept, ok_bind, hscaled, ok_bind, hparsed]
        rw [orRefused_some, orRefused_some, ok_bind, i64_of (by omega), ok_bind]
        simp [pure, Except.pure]
  · rw [if_neg hpoint, if_neg hpoint]
    rfl

theorem offsetSecondsRun_eq (bytes : List UInt8) (position : Nat) :
    offsetSecondsRun bytes position = orRefused (offsetSeconds bytes position) := by
  unfold offsetSecondsRun offsetSeconds
  cases hmark : bytes[position]? with
  | none => rfl
  | some mark =>
    simp only [orRefused, ok_bind, Option.bind_eq_bind, Option.bind_some]
    by_cases hzulu : (mark = 90 ∨ mark = 122) ∧ position + 1 = bytes.length
    · rw [if_pos hzulu, if_pos hzulu]
      rfl
    · rw [if_neg hzulu, if_neg hzulu]
      by_cases hnumeric : (mark = 43 ∨ mark = 45) ∧ position + 6 = bytes.length
      · rw [if_pos hnumeric, if_pos hnumeric, digitsAtRun_eq _ _ (by decide), digitsAtRun_eq _ _ (by decide)]
        obtain ⟨colon, hcolon⟩ : ∃ colon, bytes[position + 3]? = some colon :=
          ⟨_, List.getElem?_eq_getElem (show position + 3 < bytes.length by omega)⟩
        cases hhour : digitsAt bytes (position + 1) 2 with
        | none => rfl
        | some hour =>
          cases hminute : digitsAt bytes (position + 4) 2 with
          | none => rfl
          | some minute =>
            have hh := (digitsAt_iff.1 hhour).bounds
            have hm := (digitsAt_iff.1 hminute).bounds
            simp only [orRefused, ok_bind, Option.bind_some, byteAt_of hcolon, hcolon, Option.some.injEq, ne_eq]
            by_cases hranges : ¬ colon = 58 ∨ hour > 23 ∨ minute > 59
            · rw [if_pos hranges, if_pos hranges]
            · rw [if_neg hranges, if_neg hranges, i64_of (by omega), ok_bind, i64_of (by omega), ok_bind, i64_of (by omega),
                ok_bind]
              by_cases hbehind : mark = 45
              · rw [if_pos hbehind, if_pos hbehind, i64_of (by omega)]
                rfl
              · rw [if_neg hbehind, if_neg hbehind]
                rfl
      · rw [if_neg hnumeric, if_neg hnumeric]

/-- The time of a day and the instant, on what the parser read. -/
theorem instantRun_eq {hour minute second : Int} (hh : 0 ≤ hour ∧ hour ≤ 23) (hm : 0 ≤ minute ∧ minute ≤ 59)
    (hs : 0 ≤ second ∧ second ≤ 59) (days offset fraction : Int) :
    (do
      let days ← orRefused (checkedI64 (days * secondsPerDay))
      let hours ← i64 (hour * 3600)
      let minutes ← i64 (minute * 60)
      let time ← i64 (hours + minutes)
      let time ← i64 (time + second)
      let seconds ← orRefused (checkedI64 (days + time))
      let seconds ← orRefused (checkedI64 (seconds - offset))
      let micros ← orRefused (checkedI64 (seconds * microsPerSecond))
      orRefused (checkedI64 (micros + fraction))) =
    orRefused (instantMicros days (hour * 3600 + minute * 60 + second) offset fraction) := by
  unfold instantMicros
  refine orRefused_bind fun days _ => ?_
  rw [i64_of (by omega), ok_bind, i64_of (by omega), ok_bind, i64_of (by omega), ok_bind, i64_of (by omega), ok_bind]
  refine orRefused_bind fun seconds _ => ?_
  refine orRefused_bind fun seconds _ => ?_
  exact orRefused_bind fun micros _ => rfl

/-- The parser with its panics is the parser over the integers. -/
theorem rfc3339MicrosRun_eq (text : String) : rfc3339MicrosRun text = orRefused (rfc3339Micros text) := by
  unfold rfc3339MicrosRun rfc3339Micros
  dsimp only
  by_cases hshort : (utf8Bytes text).length < 20
  · rw [if_pos hshort, if_pos hshort]
    rfl
  · rw [if_neg hshort, if_neg hshort]
    have hmark : ∀ i < 20, ∃ byte, (utf8Bytes text)[i]? = some byte := fun i hi =>
      ⟨_, List.getElem?_eq_getElem (show i < (utf8Bytes text).length by omega)⟩
    obtain ⟨yearEnd, hyearEnd⟩ := hmark 4 (by decide)
    obtain ⟨monthEnd, hmonthEnd⟩ := hmark 7 (by decide)
    obtain ⟨dateEnd, hdateEnd⟩ := hmark 10 (by decide)
    obtain ⟨hourEnd, hhourEnd⟩ := hmark 13 (by decide)
    obtain ⟨minuteEnd, hminuteEnd⟩ := hmark 16 (by decide)
    simp only [digitsAtRun_eq _ _ (show 1 ≤ 4 ∧ 4 ≤ 4 by decide), digitsAtRun_eq _ _ (show 1 ≤ 2 ∧ 2 ≤ 4 by decide),
      byteAt_of hyearEnd, byteAt_of hmonthEnd, byteAt_of hdateEnd, byteAt_of hhourEnd, byteAt_of hminuteEnd, ok_bind,
      hyearEnd, hmonthEnd, hdateEnd, hhourEnd, hminuteEnd, Option.some.injEq, ne_eq, fractionMicrosRun_eq,
      offsetSecondsRun_eq]
    refine orRefused_bind fun year hyear => ?_
    refine orRefused_bind fun month hmonth => ?_
    refine orRefused_bind fun day hday => ?_
    refine orRefused_bind fun hour hhour => ?_
    refine orRefused_bind fun minute hminute => ?_
    refine orRefused_bind fun second hsecond => ?_
    split
    · rfl
    · split
      · rfl
      · rename_i hranges
        refine orRefused_bind fun fraction _ => ?_
        refine orRefused_bind fun offset _ => ?_
        have hy := (digitsAt_iff.1 hyear).bounds
        have hd := (digitsAt_iff.1 hday).bounds
        have hh := (digitsAt_iff.1 hhour).bounds
        have hm := (digitsAt_iff.1 hminute).bounds
        have hs := (digitsAt_iff.1 hsecond).bounds
        have hmem : 1 ≤ month ∧ month ≤ 12 := by omega
        have hlength := monthLength_le year month
        rw [← daysInMonth_eq hmem] at hlength
        rw [daysFromCivilRun_eq hy hmem (by omega), ok_bind]
        exact instantRun_eq (by omega) (by omega) (by omega) _ _ _

/-! ## What it returns -/

theorem orRefused_ok_iff {α : Type} {x : Option α} {a : α} : orRefused x = .ok a ↔ x = some a := by
  cases x <;> simp

theorem rfc3339MicrosRun_ok_iff {text : String} {micros : Int} : rfc3339MicrosRun text = .ok micros ↔
    ∃ instant : ℚ, TimestampText (utf8Bytes text) instant ∧ (micros : ℚ) = instant * 10 ^ 6 := by
  rw [rfc3339MicrosRun_eq, orRefused_ok_iff]
  constructor
  · intro h
    obtain ⟨instant, htext⟩ := timestampText_of_micros h
    obtain ⟨found, hfound, hinstant⟩ := htext.micros
    rw [h] at hfound
    cases hfound
    exact ⟨instant, htext, hinstant⟩
  · rintro ⟨instant, htext, hmicros⟩
    obtain ⟨found, hfound, hinstant⟩ := htext.micros
    rw [hfound, Option.some.injEq]
    exact_mod_cast hinstant.trans hmicros.symm

/-- No text panics the parser. It accepts the texts of instants, with their exact microseconds, and equal
results are one instant. -/
theorem rfc3339Micros_exact (text : String) : rfc3339MicrosRun text ≠ .error .panicked ∧
    (∀ micros : Int, rfc3339MicrosRun text = .ok micros ↔
      ∃ instant : ℚ, TimestampText (utf8Bytes text) instant ∧ (micros : ℚ) = instant * 10 ^ 6) ∧
    ∀ other : String, (∃ micros, rfc3339MicrosRun text = .ok micros ∧ rfc3339MicrosRun other = .ok micros) ↔
      ∃ instant, TimestampText (utf8Bytes text) instant ∧ TimestampText (utf8Bytes other) instant := by
  refine ⟨?_, fun micros => rfc3339MicrosRun_ok_iff, fun other => ⟨?_, ?_⟩⟩
  · rw [rfc3339MicrosRun_eq]
    cases rfc3339Micros text <;> simp
  · rintro ⟨micros, htext, hother⟩
    obtain ⟨instant, hinstant, hmicros⟩ := rfc3339MicrosRun_ok_iff.1 htext
    obtain ⟨second, hsecond, hsame⟩ := rfc3339MicrosRun_ok_iff.1 hother
    have hone : instant = second := by linarith
    exact ⟨instant, hinstant, hone ▸ hsecond⟩
  · rintro ⟨instant, htext, hother⟩
    obtain ⟨micros, -, hmicros⟩ := htext.micros
    exact ⟨micros, rfc3339MicrosRun_ok_iff.2 ⟨instant, htext, hmicros⟩, rfc3339MicrosRun_ok_iff.2 ⟨instant, hother, hmicros⟩⟩

-- A leap day just past midnight, ahead of the epoch's zone.
example : rfc3339MicrosRun "2024-02-29T00:30:00.25+01:00" = .ok 1709163000250000 := by decide +kernel

end LaserSdk.Filter

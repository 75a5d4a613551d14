import LaserSdk.Filter.Timestamp
import LaserSdk.Typescript.Decimal
/-!
# Timestamps in the TypeScript client

The TypeScript client reads timestamps with regular expressions and big
integers, where the Rust client walks the bytes with checked 64-bit arithmetic.
We prove that the two read the same microseconds, and with the decimals that
both clients coerce every text alike.
-/

namespace LaserSdk.Typescript

open LaserSdk.Lib
open LaserSdk.Filter (TimestampFormat)

/-! ## The parsers -/

def microsPerSecond : Int := 1000000

def microsPerMilli : Int := 1000

def secondsPerDay : Int := 86400

def inI64 (value : Int) : Option Int := if value ≥ -2 ^ 63 ∧ value ≤ 2 ^ 63 - 1 then some value else none

/-- `BigInt` of a text that `/^[+-]?\d+$/` matches. -/
def matchInteger (text : JsString) : Option Int :=
  let (sign, digits) := splitSign text
  if digits ≠ [] ∧ digits.all isDigit then
    some (if sign = [45] then -(digitsNumber digits : Int) else digitsNumber digits)
  else none

def timestampFormatMicrosFromInteger (format : TimestampFormat) (value : Int) : Option Int :=
  if inI64 value = none then none
  else
    match format with
    | .rfc3339 => none
    | .epochSeconds => inI64 (value * microsPerSecond)
    | .epochMillis => inI64 (value * microsPerMilli)
    | .epochMicros => some value

def digitsAt (text : JsString) (start length : Nat) : Option Int :=
  let slice := (text.drop start).take length
  if slice.length = length ∧ slice ≠ [] ∧ slice.all isDigit then some (digitsNumber slice) else none

def isLeapYear (year : Int) : Bool := (year % 4 == 0 && year % 100 != 0) || year % 400 == 0

def daysInMonth (year month : Int) : Int :=
  if month ∈ [1, 3, 5, 7, 8, 10, 12] then 31
  else if month ∈ [4, 6, 9, 11] then 30
  else if isLeapYear year then 29
  else 28

def daysFromCivil (yearInput month day : Int) : Int :=
  let year := if month ≤ 2 then yearInput - 1 else yearInput
  let era := (if year ≥ 0 then year else year - 399).tdiv 400
  let yearOfEra := year - era * 400
  let shiftedMonth := if month > 2 then month - 3 else month + 9
  let dayOfYear := (153 * shiftedMonth + 2).tdiv 5 + day - 1
  let dayOfEra := yearOfEra * 365 + yearOfEra.tdiv 4 - yearOfEra.tdiv 100 + dayOfYear
  era * 146097 + dayOfEra - 719468

/-- The microseconds of the fraction and the position behind it. -/
def fractionMicros (text : JsString) (position : Nat) : Option (Int × Nat) :=
  if text[position]? = some 46 then
    let fraction := (text.drop (position + 1)).takeWhile isDigit
    if fraction.length = 0 ∨ fraction.length > 9 then none
    else
      let kept := fraction.take 6
      -- `/[1-9]/` on the digits past the sixth.
      if (fraction.drop 6).any (fun unit => 49 ≤ unit && unit ≤ 57) then none
      else some (digitsNumber kept * 10 ^ (6 - kept.length), position + 1 + fraction.length)
  else some (0, position)

def offsetSeconds (text : JsString) (position : Nat) : Option Int :=
  let marker := text[position]?
  if (marker = some 90 ∨ marker = some 122) ∧ position + 1 = text.length then some 0
  else if (marker = some 43 ∨ marker = some 45) ∧ position + 6 = text.length then do
    let offsetHour ← digitsAt text (position + 1) 2
    let offsetMinute ← digitsAt text (position + 4) 2
    if text[position + 3]? ≠ some 58 ∨ offsetHour > 23 ∨ offsetMinute > 59 then none
    else
      let magnitude := offsetHour * 3600 + offsetMinute * 60
      some (if marker = some 45 then -magnitude else magnitude)
  else none

def rfc3339Micros (text : JsString) : Option Int :=
  -- `/[^ -~]/`: a unit that is not printable ASCII.
  if text.length < 20 ∨ text.any (fun unit => !(32 ≤ unit && unit ≤ 126)) then none
  else do
    let year ← digitsAt text 0 4
    let month ← digitsAt text 5 2
    let day ← digitsAt text 8 2
    let hour ← digitsAt text 11 2
    let minute ← digitsAt text 14 2
    let second ← digitsAt text 17 2
    if text[4]? ≠ some 45 ∨ text[7]? ≠ some 45 ∨ (text[10]? ≠ some 84 ∧ text[10]? ≠ some 116) ∨
        text[13]? ≠ some 58 ∨ text[16]? ≠ some 58 then none
    else if month < 1 ∨ month > 12 ∨ day = 0 ∨ day > daysInMonth year month ∨ hour > 23 ∨ minute > 59 ∨
        second > 59 then none
    else
      let (fraction, position) ← fractionMicros text 19
      let offset ← offsetSeconds text position
      let days := daysFromCivil year month day
      let seconds := days * secondsPerDay + (hour * 3600 + minute * 60 + second) - offset
      inI64 (seconds * microsPerSecond + fraction)

def timestampFormatMicrosFromText (format : TimestampFormat) (text : JsString) : Option Int :=
  match format with
  | .rfc3339 => rfc3339Micros text
  | _ => (matchInteger text).bind (timestampFormatMicrosFromInteger format)

/-! ## Reading timestamps alike -/

theorem inI64_eq (value : Int) : inI64 value = Filter.checkedI64 value := by
  unfold inI64 Filter.checkedI64
  by_cases h : -2 ^ 63 ≤ value ∧ value < 2 ^ 63
  · rw [if_pos h, if_pos (by omega)]
  · rw [if_neg h, if_neg (by omega)]

theorem microsFromInteger_eq (format : TimestampFormat) (value : Int) :
    timestampFormatMicrosFromInteger format value = format.microsFromInteger value := by
  unfold timestampFormatMicrosFromInteger TimestampFormat.microsFromInteger
  simp only [inI64_eq, microsPerSecond, microsPerMilli, Filter.microsPerSecond, Filter.microsPerMilli]
  by_cases h : -2 ^ 63 ≤ value ∧ value < 2 ^ 63
  · rw [Filter.checkedI64_of h]
    rfl
  · have hnone : Filter.checkedI64 value = none := if_neg h
    rw [hnone]
    rfl

/-- The digits of an integer text with their sign. -/
def signedDigits (negative : Bool) (digits : List UInt8) : Option Int :=
  if digits ≠ [] ∧ digits.all Filter.isAsciiDigit then
    some (if negative then -(Filter.digitsValue digits : Int) else Filter.digitsValue digits)
  else none

theorem matchInteger_widen (bytes : List UInt8) :
    matchInteger (widen bytes) = signedDigits (Filter.splitSign bytes).1 (Filter.splitSign bytes).2 := by
  obtain ⟨sign, hsplit, hsign⟩ := splitSign_widen bytes
  unfold matchInteger signedDigits
  rw [hsplit, ← hsign]
  simp only [ne_eq, widen_eq_nil, all_isDigit_widen, digitsNumber_widen, beq_iff_eq]

/-- The integer within 128 bits that a signed text has. -/
def checkedDigits (negative : Bool) (digits : List UInt8) : Option Int :=
  if digits = [] ∨ ¬ digits.all Filter.isAsciiDigit then none
  else
    let magnitude : Int := Filter.digitsValue digits
    let value := if negative then -magnitude else magnitude
    if -2 ^ 127 ≤ value ∧ value < 2 ^ 127 then some value else none

theorem parseInteger_eq (text : String) :
    Filter.parseInteger text =
      checkedDigits (Filter.splitSign (Filter.utf8Bytes text)).1 (Filter.splitSign (Filter.utf8Bytes text)).2 := by
  rfl

/-- A result within 64 bits does not notice the check for 128. -/
theorem checkedDigits_bind (format : TimestampFormat) (negative : Bool) (digits : List UInt8) :
    (checkedDigits negative digits).bind format.microsFromInteger =
      (signedDigits negative digits).bind format.microsFromInteger := by
  unfold checkedDigits signedDigits
  by_cases hdigits : digits ≠ [] ∧ digits.all Filter.isAsciiDigit
  · have hgood : ¬ (digits = [] ∨ ¬ digits.all Filter.isAsciiDigit) := by
      rw [not_or, not_not]
      exact hdigits
    rw [if_pos hdigits, if_neg hgood]
    dsimp only
    generalize (if negative then -(Filter.digitsValue digits : Int) else Filter.digitsValue digits) = value
    split
    · rfl
    · rename_i hbig
      have hnone : Filter.checkedI64 value = none := if_neg (by omega)
      simp [TimestampFormat.microsFromInteger, hnone]
  · have hbad : digits = [] ∨ ¬ digits.all Filter.isAsciiDigit := by
      rwa [not_and_or, not_not] at hdigits
    rw [if_neg hdigits, if_pos hbad]

theorem digitsAt_widen (bytes : List UInt8) {start length : Nat} (h : 0 < length) :
    digitsAt (widen bytes) start length = Filter.digitsAt bytes start length := by
  unfold digitsAt Filter.digitsAt
  simp only [slice_widen, length_widen, all_isDigit_widen, digitsNumber_widen, ne_eq, widen_eq_nil]
  by_cases hslice : ((bytes.drop start).take length).length = length
  · have hne : (bytes.drop start).take length ≠ [] := by
      rw [← List.length_pos_iff, hslice]
      exact h
    simp [hne]
  · rw [if_neg fun hall => hslice hall.1, if_neg fun hall => hslice hall.1]

/-- A unit of a widened text, as a byte. -/
theorem getElem?_widen (bytes : List UInt8) (i : Nat) {unit : UInt16} {byte : UInt8} (h : byte.toUInt16 = unit) :
    (widen bytes)[i]? = some unit ↔ bytes[i]? = some byte := by
  rw [widen, List.getElem?_map, Option.map_eq_some_iff]
  constructor
  · rintro ⟨byte', hbyte, hunit⟩
    rw [hbyte, toUInt16_inj.1 (hunit.trans h.symm)]
  · intro hbyte
    exact ⟨byte, hbyte, h⟩

/-- Among digits, `[1-9]` finds what is not a zero. -/
theorem any_nonzero_widen {digits : List UInt8} (h : Filter.AsciiDigits digits) :
    (widen digits).any (fun unit => 49 ≤ unit && unit ≤ 57) = digits.any (· != 48) := by
  induction digits with
  | nil => rfl
  | cons byte digits ih =>
    have hdigit := Filter.isAsciiDigit_iff.1 (h byte (by simp))
    have hbyte : (decide (49 ≤ byte.toUInt16) && decide (byte.toUInt16 ≤ 57)) = (byte != 48) := by
      rw [Bool.eq_iff_iff]
      simp only [Bool.and_eq_true, decide_eq_true_eq, bne_iff_ne, ne_eq, UInt16.le_iff_toNat_le, ← UInt8.toNat_inj,
        UInt8.toNat_toUInt16]
      have : (49 : UInt16).toNat = 49 ∧ (57 : UInt16).toNat = 57 ∧ (48 : UInt8).toNat = 48 := ⟨rfl, rfl, rfl⟩
      omega
    have hih := ih h.tail
    unfold widen at hih ⊢
    rw [List.map_cons, List.any_cons, List.any_cons, hih, hbyte]

theorem fractionMicros_widen (bytes : List UInt8) (position : Nat) :
    fractionMicros (widen bytes) position = Filter.fractionMicros bytes position := by
  have hdigits : Filter.AsciiDigits ((bytes.drop (position + 1)).takeWhile Filter.isAsciiDigit) :=
    fun byte => List.mem_takeWhile_imp
  have hdropped := any_nonzero_widen fun byte hbyte => hdigits byte (List.mem_of_mem_drop (i := 6) hbyte)
  have hdrop (k : Nat) (bytes : List UInt8) : (widen bytes).drop k = widen (bytes.drop k) := List.map_drop.symm
  have htake (bytes : List UInt8) : (widen bytes).take 6 = widen (bytes.take 6) := List.map_take.symm
  have hpoint := getElem?_widen bytes position (show (46 : UInt8).toUInt16 = 46 from rfl)
  unfold fractionMicros Filter.fractionMicros
  simp only [hpoint, hdrop, takeWhile_widen, htake, length_widen, digitsNumber_widen, List.length_eq_zero_iff, hdropped]

theorem offsetSeconds_widen (bytes : List UInt8) (position : Nat) :
    offsetSeconds (widen bytes) position = Filter.offsetSeconds bytes position := by
  have hmark {unit : UInt16} {byte : UInt8} (h : byte.toUInt16 = unit) (i : Nat) := getElem?_widen bytes i h
  unfold offsetSeconds Filter.offsetSeconds
  simp only [ne_eq, hmark (show (90 : UInt8).toUInt16 = 90 from rfl), hmark (show (122 : UInt8).toUInt16 = 122 from rfl),
    hmark (show (43 : UInt8).toUInt16 = 43 from rfl), hmark (show (45 : UInt8).toUInt16 = 45 from rfl),
    hmark (show (58 : UInt8).toUInt16 = 58 from rfl), length_widen, digitsAt_widen bytes (show 0 < 2 by decide)]
  cases bytes[position]? with
  | none => simp
  | some mark => simp

/-- Printable ASCII. -/
def Printable (bytes : List UInt8) : Prop := ∀ byte ∈ bytes, 32 ≤ byte.toNat ∧ byte.toNat ≤ 126

theorem Printable.append {bytes rest : List UInt8} (h : Printable bytes) (hrest : Printable rest) :
    Printable (bytes ++ rest) := List.forall_mem_append.2 ⟨h, hrest⟩

theorem Printable.cons {byte : UInt8} {rest : List UInt8} (h : 32 ≤ byte.toNat ∧ byte.toNat ≤ 126)
    (hrest : Printable rest) : Printable (byte :: rest) := List.forall_mem_cons.2 ⟨h, hrest⟩

theorem digits_printable {bytes : List UInt8} (h : Filter.AsciiDigits bytes) : Printable bytes := by
  intro byte hbyte
  have := Filter.isAsciiDigit_iff.1 (h byte hbyte)
  omega

theorem fraction_printable {bytes : List UInt8} {part : ℚ} (h : Filter.FractionText bytes part) : Printable bytes := by
  cases h with
  | none => simp [Printable]
  | point hdigits _ _ => exact .cons (by decide) (digits_printable hdigits)

theorem offset_printable {bytes : List UInt8} {offset : Int} (h : Filter.OffsetText bytes offset) : Printable bytes := by
  cases h with
  | zulu hmark =>
    refine .cons ?_ (by simp [Printable])
    rcases hmark with rfl | rfl <;> decide
  | numeric hsign hhour _ hminute _ =>
    refine .cons ?_ ((digits_printable hhour.digits).append (.cons (by decide) (digits_printable hminute.digits)))
    rcases hsign with rfl | rfl <;> decide

/-- The text of an instant is printable. -/
theorem timestamp_printable {bytes : List UInt8} {instant : ℚ} (h : Filter.TimestampText bytes instant) :
    Printable bytes := by
  cases h with
  | mk hyear hmonth hday hmark hhour _ hminute _ hsecond _ hfraction hzone _ =>
    refine (digits_printable hyear.digits).append (.cons (by decide) ?_)
    refine (digits_printable hmonth.digits).append (.cons (by decide) ?_)
    refine (digits_printable hday.digits).append (.cons ?_ ?_)
    · rcases hmark with rfl | rfl <;> decide
    refine (digits_printable hhour.digits).append (.cons (by decide) ?_)
    refine (digits_printable hminute.digits).append (.cons (by decide) ?_)
    exact (digits_printable hsecond.digits).append ((fraction_printable hfraction).append (offset_printable hzone))

theorem any_unprintable_widen (bytes : List UInt8) :
    (widen bytes).any (fun unit => !(32 ≤ unit && unit ≤ 126)) = false ↔ Printable bytes := by
  rw [widen, List.any_map, List.any_eq_false]
  unfold Printable
  refine forall₂_congr fun byte hbyte => ?_
  simp [UInt16.le_iff_toNat_le]

section instant

variable {bytes : List UInt8}

/-- The marks between the fields, as bytes. -/
theorem marks_widen : ((widen bytes)[4]? ≠ some 45 ∨ (widen bytes)[7]? ≠ some 45 ∨
      ((widen bytes)[10]? ≠ some 84 ∧ (widen bytes)[10]? ≠ some 116) ∨ (widen bytes)[13]? ≠ some 58 ∨
      (widen bytes)[16]? ≠ some 58) ↔
    (bytes[4]? ≠ some 45 ∨ bytes[7]? ≠ some 45 ∨ (bytes[10]? ≠ some 84 ∧ bytes[10]? ≠ some 116) ∨
      bytes[13]? ≠ some 58 ∨ bytes[16]? ≠ some 58) := by
  have hmark {unit : UInt16} {byte : UInt8} (h : byte.toUInt16 = unit) (i : Nat) := getElem?_widen bytes i h
  simp only [ne_eq, hmark (show (45 : UInt8).toUInt16 = 45 from rfl), hmark (show (84 : UInt8).toUInt16 = 84 from rfl),
    hmark (show (116 : UInt8).toUInt16 = 116 from rfl), hmark (show (58 : UInt8).toUInt16 = 58 from rfl)]

/-- The parser over bytes, once the text is known to be printable. -/
theorem rfc3339Micros_widen (hlong : 20 ≤ bytes.length) (hprintable : Printable bytes) :
    rfc3339Micros (widen bytes) = (do
      let year ← Filter.digitsAt bytes 0 4
      let month ← Filter.digitsAt bytes 5 2
      let day ← Filter.digitsAt bytes 8 2
      let hour ← Filter.digitsAt bytes 11 2
      let minute ← Filter.digitsAt bytes 14 2
      let second ← Filter.digitsAt bytes 17 2
      if bytes[4]? ≠ some 45 ∨ bytes[7]? ≠ some 45 ∨ (bytes[10]? ≠ some 84 ∧ bytes[10]? ≠ some 116) ∨
          bytes[13]? ≠ some 58 ∨ bytes[16]? ≠ some 58 then none
      else if month < 1 ∨ month > 12 ∨ day = 0 ∨ day > Filter.daysInMonth year month ∨ hour > 23 ∨ minute > 59 ∨
          second > 59 then none
      else
        let (fraction, position) ← Filter.fractionMicros bytes 19
        let offset ← Filter.offsetSeconds bytes position
        Filter.checkedI64 ((Filter.daysFromCivil year month day * 86400 + (hour * 3600 + minute * 60 + second) - offset) *
          1000000 + fraction)) := by
  have hread : ¬ ((widen bytes).length < 20 ∨ (widen bytes).any (fun unit => !(32 ≤ unit && unit ≤ 126)) = true) := by
    rw [length_widen, not_or, Bool.not_eq_true, any_unprintable_widen]
    exact ⟨Nat.not_lt.2 hlong, hprintable⟩
  unfold rfc3339Micros
  rw [if_neg hread]
  simp only [digitsAt_widen bytes (show 0 < 4 by decide), digitsAt_widen bytes (show 0 < 2 by decide), marks_widen,
    fractionMicros_widen, offsetSeconds_widen, inI64_eq]
  rfl

theorem rfc3339Micros_of {year month day hour minute second fraction offset : Int}
    (h : Filter.Fields bytes year month day hour minute second fraction offset) :
    rfc3339Micros (widen bytes) =
      some ((Filter.daysFromCivil year month day * 86400 + (hour * 3600 + minute * 60 + second) - offset) * 1000000 +
        fraction) := by
  obtain ⟨instant, htext⟩ := h.timestamp
  obtain ⟨hdays, htime, hoffset', hfraction'⟩ := h.inRange
  obtain ⟨hlong, ⟨hyear, hmonth, hday, hhour, hminute, hsecond⟩, hmarks, hdate, htime', position, hfraction, hoffset⟩ := h
  rw [rfc3339Micros_widen hlong (timestamp_printable htext), hyear, hmonth, hday, hhour, hminute, hsecond]
  simp only [Option.bind_eq_bind, Option.bind_some]
  rw [if_neg, if_neg, hfraction, Option.bind_some, hoffset, Option.bind_some, Filter.checkedI64_of]
  · omega
  · omega
  · simp only [not_or, not_and_or, not_not]
    exact hmarks

theorem fields_of_rfc3339Micros {micros : Int} (h : rfc3339Micros (widen bytes) = some micros) :
    ∃ year month day hour minute second fraction offset,
      Filter.Fields bytes year month day hour minute second fraction offset := by
  have hread : 20 ≤ bytes.length ∧ Printable bytes := by
    rw [← any_unprintable_widen, ← Nat.not_lt, ← length_widen, ← Bool.not_eq_true, ← not_or]
    intro hbad
    unfold rfc3339Micros at h
    rw [if_pos hbad] at h
    cases h
  rw [rfc3339Micros_widen hread.1 hread.2] at h
  obtain ⟨year, hyear, h⟩ := Option.bind_eq_some_iff.1 h
  obtain ⟨month, hmonth, h⟩ := Option.bind_eq_some_iff.1 h
  obtain ⟨day, hday, h⟩ := Option.bind_eq_some_iff.1 h
  obtain ⟨hour, hhour, h⟩ := Option.bind_eq_some_iff.1 h
  obtain ⟨minute, hminute, h⟩ := Option.bind_eq_some_iff.1 h
  obtain ⟨second, hsecond, h⟩ := Option.bind_eq_some_iff.1 h
  split at h
  · cases h
  · rename_i hmarks
    split at h
    · cases h
    · rename_i hranges
      obtain ⟨⟨fraction, position⟩, hfraction, h⟩ := Option.bind_eq_some_iff.1 h
      obtain ⟨offset, hoffset, -⟩ := Option.bind_eq_some_iff.1 h
      simp only [not_or, not_and_or, not_not] at hmarks
      exact ⟨year, month, day, hour, minute, second, fraction, offset, hread.1,
        ⟨hyear, hmonth, hday, hhour, hminute, hsecond⟩, hmarks, by omega, by omega, position, hfraction, hoffset⟩

end instant

/-- Both clients read the same instant from ASCII, or none. -/
theorem rfc3339Micros_ascii (text : String) :
    rfc3339Micros (widen (Filter.utf8Bytes text)) = Filter.rfc3339Micros text := by
  cases hrust : Filter.rfc3339Micros text with
  | some micros =>
    obtain ⟨year, month, day, hour, minute, second, fraction, offset, hfields⟩ := Filter.rfc3339Micros_fields hrust
    rw [rfc3339Micros_of hfields, ← hrust, hfields.micros, Filter.instantMicros_of hfields.inRange]
  | none =>
    rw [Option.eq_none_iff_forall_not_mem]
    intro micros h
    obtain ⟨year, month, day, hour, minute, second, fraction, offset, hfields⟩ := fields_of_rfc3339Micros h
    have hsome := hfields.micros.trans (Filter.instantMicros_of hfields.inRange)
    exact nomatch hrust.symm.trans hsome

/-! ### Only ASCII is taken -/

theorem rfc3339Micros_units {text : JsString} {micros : Int} (h : rfc3339Micros text = some micros) :
    ∀ unit ∈ text, unit.toNat < 128 := by
  unfold rfc3339Micros at h
  split at h
  · cases h
  · rename_i hread
    rw [not_or, Bool.not_eq_true, List.any_eq_false] at hread
    intro unit hunit
    have hprintable := hread.2 unit hunit
    simp only [Bool.not_eq_true', Bool.not_eq_false, Bool.and_eq_true, decide_eq_true_eq, UInt16.le_iff_toNat_le]
      at hprintable
    have hlast : (126 : UInt16).toNat = 126 := rfl
    omega

theorem matchInteger_units {text : JsString} {value : Int} (h : matchInteger text = some value) :
    ∀ unit ∈ text, unit.toNat < 128 := by
  apply splitSign_ascii
  unfold matchInteger at h
  dsimp only at h
  split at h
  · rename_i hdigits
    intro unit hunit
    exact isDigit_ascii (List.all_eq_true.1 hdigits.2 unit hunit)
  · cases h

theorem parseInteger_bytes {text : String} {value : Int} (h : Filter.parseInteger text = some value) :
    ∀ byte ∈ Filter.utf8Bytes text, byte.toNat < 128 := by
  obtain ⟨sign, hsign, hbytes⟩ := Filter.exists_sign (Filter.utf8Bytes text)
  rw [parseInteger_eq] at h
  unfold checkedDigits at h
  split at h
  · cases h
  · rename_i hdigits
    rw [not_or, not_not] at hdigits
    rw [hbytes]
    exact List.forall_mem_append.2 ⟨sign_ascii hsign, digits_ascii (List.all_eq_true.1 hdigits.2)⟩

theorem microsFromText_utf16 (format : TimestampFormat) (text : String) :
    timestampFormatMicrosFromText format (utf16 text.toList) = format.microsFromText text := by
  -- The three integer formats read the text alike.
  have hinteger : (matchInteger (utf16 text.toList)).bind (timestampFormatMicrosFromInteger format) =
      (Filter.parseInteger text).bind format.microsFromInteger := by
    have hformat : timestampFormatMicrosFromInteger format = format.microsFromInteger := by
      funext value
      exact microsFromInteger_eq format value
    rw [hformat]
    refine read_ascii_alike (f := fun units => (matchInteger units).bind format.microsFromInteger)
      (g := fun text => (Filter.parseInteger text).bind format.microsFromInteger) ?_ ?_ ?_ text
    · intro units micros h
      obtain ⟨value, hvalue, -⟩ := Option.bind_eq_some_iff.1 h
      exact matchInteger_units hvalue
    · intro text micros h
      obtain ⟨value, hvalue, -⟩ := Option.bind_eq_some_iff.1 h
      exact parseInteger_bytes hvalue
    · intro text
      rw [matchInteger_widen, parseInteger_eq, checkedDigits_bind]
      rfl
  cases format with
  | rfc3339 =>
    refine read_ascii_alike (fun units micros => rfc3339Micros_units) ?_ rfc3339Micros_ascii text
    intro text micros h byte hbyte
    obtain ⟨instant, htext⟩ := Filter.timestampText_of_micros h
    have := timestamp_printable htext byte hbyte
    omega
  | epochSeconds => exact hinteger
  | epochMillis => exact hinteger
  | epochMicros => exact hinteger

/-- Both clients take the same decimals and compare them alike, and both take
the same timestamps and read the same microseconds. -/
theorem clients_coerce_alike :
    (∀ text : String, (ExactDecimal.parse (utf16 text.toList)).isSome = (Filter.ExactDecimal.parse text).isSome) ∧
    (∀ (text text' : String) left right left' right', Filter.ExactDecimal.parse text = some left →
      Filter.ExactDecimal.parse text' = some right → ExactDecimal.parse (utf16 text.toList) = some left' →
      ExactDecimal.parse (utf16 text'.toList) = some right' → left'.compare right' = ofOrdering (left.cmp right)) ∧
    ∀ (format : TimestampFormat) (text : String),
      timestampFormatMicrosFromText format (utf16 text.toList) = format.microsFromText text := by
  refine ⟨?_, ?_, microsFromText_utf16⟩
  · intro text
    rw [parse_utf16, Option.isSome_map]
  · intro text text' left right left' right' hleft hright hleft' hright'
    rw [parse_utf16, hleft] at hleft'
    rw [parse_utf16, hright] at hright'
    cases hleft'
    cases hright'
    exact compare_widened left right

end LaserSdk.Typescript

import Mathlib.Tactic.IntervalCases
import LaserSdk.Lib.Calendar
import LaserSdk.Filter.Decimal
/-!
# Timestamps are the instants they write

An RFC 3339 text denotes an instant: a date of the Gregorian calendar, the
time of the day, a fraction of a second and the offset. We prove that the
parser accepts exactly these texts and returns the exact microseconds from the
epoch, so that equal results are equal instants.
-/

namespace LaserSdk.Filter

open LaserSdk.Lib

/-! ## Days -/

/-- The era of a year, rounded down also before the year zero. -/
theorem era_eq (year : Int) : (if year ≥ 0 then year else year - 399).tdiv 400 = year / 400 := by
  split
  · rename_i h
    exact Int.tdiv_eq_ediv_of_nonneg h
  · rename_i h
    have hneg : (year - 399).tdiv 400 = -((399 - year) / 400) := by
      rw [← Int.tdiv_eq_ediv_of_nonneg (by omega), ← Int.neg_tdiv]
      congr 1
      omega
    rw [hneg]
    omega

/-- Leap days and years before a year that starts in March, without eras. -/
theorem yearDays_eq (year : Int) :
    let yearOfEra := year - year / 400 * 400
    year / 400 * 146097 + (yearOfEra * 365 + yearOfEra.tdiv 4 - yearOfEra.tdiv 100) =
      365 * year + year / 4 - year / 100 + year / 400 := by
  intro yearOfEra
  have hpos : 0 ≤ yearOfEra := by omega
  rw [Int.tdiv_eq_ediv_of_nonneg hpos, Int.tdiv_eq_ediv_of_nonneg hpos]
  omega

theorem daysFromCivil_eq {month : Int} (hmonth : 1 ≤ month) (year day : Int) :
    daysFromCivil year month day =
      let year := if month ≤ 2 then year - 1 else year
      let shiftedMonth := if month > 2 then month - 3 else month + 9
      365 * year + year / 4 - year / 100 + year / 400 + (153 * shiftedMonth + 2) / 5 + day - 719469 := by
  have hshifted : 0 ≤ 153 * (if month > 2 then month - 3 else month + 9) + 2 := by split <;> omega
  have hyear := yearDays_eq (if month ≤ 2 then year - 1 else year)
  simp only [daysFromCivil, era_eq]
  rw [Int.tdiv_eq_ediv_of_nonneg hshifted]
  dsimp only at hyear
  omega

theorem isLeapYear_iff (year : Int) : isLeapYear year = true ↔ Calendar.IsLeap year := by
  simp only [isLeapYear, Calendar.IsLeap, Bool.or_eq_true, Bool.and_eq_true, beq_iff_eq, bne_iff_ne]
  omega

theorem daysInMonth_eq {month : Int} (h : 1 ≤ month ∧ month ≤ 12) (year : Int) :
    daysInMonth year month = Calendar.monthLength year month := by
  obtain ⟨hfirst, hlast⟩ := h
  simp only [daysInMonth, Calendar.monthLength, isLeapYear_iff]
  interval_cases month <;> simp

theorem daysFromCivil_counts : Calendar.CountsMonths fun year month => daysFromCivil year month 1 where
  month year month hfirst hlast := by
    simp only [daysFromCivil_eq hfirst, daysFromCivil_eq (show 1 ≤ month + 1 by omega), Calendar.monthLength]
    by_cases hfebruary : month = 2
    · -- The year of the formula ends here, with the leap day.
      subst hfebruary
      simp only [Calendar.IsLeap]
      split_ifs <;> omega
    · interval_cases month <;> simp at hfebruary ⊢ <;> omega
  year year := by
    simp only [daysFromCivil_eq (show (1 : Int) ≤ 12 by decide), daysFromCivil_eq (Int.le_refl 1), Calendar.monthLength]
    simp
    omega

def epoch : Calendar.Date := ⟨1970, 1, 1, by decide, by decide⟩

/-- The formula counts the days from the epoch. -/
theorem daysFromCivil_iff {date : Calendar.Date} {days : Int} :
    Calendar.IsDaysAfter days epoch date ↔ daysFromCivil date.year date.month date.day = days := by
  have hday : daysFromCivil date.year date.month date.day = daysFromCivil date.year date.month 1 + (date.day - 1) := by
    simp only [daysFromCivil_eq date.month_mem.1]
    omega
  have hepoch : Calendar.number (fun year month => daysFromCivil year month 1) epoch = 0 := by decide
  rw [Calendar.isDaysAfter_iff daysFromCivil_counts, hepoch, Int.zero_add, hday]
  rfl

/-! ## Texts and their instants -/

/-- So many digits write a number. -/
structure Writes (width : Nat) (bytes : List UInt8) (n : Int) : Prop where
  digits : AsciiDigits bytes
  length : bytes.length = width
  value : n = digitsValue bytes

/-- A fraction of a second: one to nine digits, only zeros past the sixth. -/
inductive FractionText : List UInt8 → ℚ → Prop
  | none : FractionText [] 0
  | point {digits : List UInt8} (hdigits : AsciiDigits digits) (hlength : 1 ≤ digits.length ∧ digits.length ≤ 9)
      (hzeros : ∀ byte ∈ digits.drop 6, byte = 48) :
      FractionText (46 :: digits) (digitsValue digits / 10 ^ digits.length)

/-- `Z` or `+hh:mm`, and the seconds the local time is ahead. -/
inductive OffsetText : List UInt8 → Int → Prop
  | zulu {mark : UInt8} (hmark : mark = 90 ∨ mark = 122) : OffsetText [mark] 0
  | numeric {sign : UInt8} {hour minute : List UInt8} {h m : Int} (hsign : sign = 43 ∨ sign = 45) (hhour : Writes 2 hour h)
      (hle : h ≤ 23) (hminute : Writes 2 minute m) (mle : m ≤ 59) :
      OffsetText (sign :: (hour ++ 58 :: minute)) (if sign = 45 then -(h * 3600 + m * 60) else h * 3600 + m * 60)

/-- A text and its instant, in seconds from the epoch. -/
inductive TimestampText : List UInt8 → ℚ → Prop
  | mk {year month day hour minute second fraction zone : List UInt8} {mark : UInt8} {date : Calendar.Date}
      {days h m s offset : Int} {part : ℚ} (hyear : Writes 4 year date.year) (hmonth : Writes 2 month date.month)
      (hday : Writes 2 day date.day) (hmark : mark = 84 ∨ mark = 116) (hhour : Writes 2 hour h) (hle : h ≤ 23)
      (hminute : Writes 2 minute m) (mle : m ≤ 59) (hsecond : Writes 2 second s) (sle : s ≤ 59)
      (hfraction : FractionText fraction part) (hzone : OffsetText zone offset)
      (hdays : Calendar.IsDaysAfter days epoch date) :
      TimestampText (year ++ 45 :: (month ++ 45 :: (day ++ mark :: (hour ++ 58 :: (minute ++ 58 ::
          (second ++ (fraction ++ zone)))))))
        (days * 86400 + h * 3600 + m * 60 + s - offset + part)

/-! ## Fields of the parser -/

theorem digitsAt_iff {bytes : List UInt8} {start len : Nat} {n : Int} :
    digitsAt bytes start len = some n ↔ Writes len ((bytes.drop start).take len) n := by
  unfold digitsAt
  dsimp only
  constructor
  · intro h
    split at h
    · rename_i hslice
      cases h
      exact ⟨List.all_eq_true.1 hslice.2, hslice.1, rfl⟩
    · cases h
  · rintro ⟨hdigits, hlength, rfl⟩
    rw [if_pos ⟨hlength, List.all_eq_true.2 hdigits⟩]

theorem Writes.bounds {width : Nat} {bytes : List UInt8} {n : Int} (h : Writes width bytes n) : 0 ≤ n ∧ n < 10 ^ width := by
  have hlt := decimalValue_lt h.digits.digits
  rw [← digitsValue_eq, List.length_map, h.length] at hlt
  rw [h.value]
  exact ⟨Int.natCast_nonneg _, by exact_mod_cast hlt⟩

theorem digitsAt_shift (before bytes : List UInt8) (start len : Nat) :
    digitsAt (before ++ bytes) (before.length + start) len = digitsAt bytes start len := by
  rw [digitsAt, digitsAt, ← List.drop_drop, List.drop_left]

theorem getElem?_shift (before bytes : List UInt8) (k : Nat) : (before ++ bytes)[before.length + k]? = bytes[k]? := by
  rw [List.getElem?_append_right (Nat.le_add_right _ _), Nat.add_sub_cancel_left]

/-! Only the bytes from the position on are read for the fraction and the
offset. -/

theorem offsetSeconds_shift (before bytes : List UInt8) :
    offsetSeconds (before ++ bytes) before.length = offsetSeconds bytes 0 := by
  have hmark := getElem?_shift before bytes 0
  rw [Nat.add_zero] at hmark
  simp only [offsetSeconds, hmark, getElem?_shift, digitsAt_shift, List.length_append, Nat.zero_add,
    Nat.add_left_cancel_iff]

theorem fractionMicros_shift (before bytes : List UInt8) :
    fractionMicros (before ++ bytes) before.length =
      (fractionMicros bytes 0).map fun found => (found.1, before.length + found.2) := by
  have hmark := getElem?_shift before bytes 0
  have hdrop : (before ++ bytes).drop (before.length + 1) = bytes.drop 1 := by
    rw [← List.drop_drop, List.drop_left]
  rw [Nat.add_zero] at hmark
  simp only [fractionMicros, hmark, hdrop, Nat.zero_add]
  split_ifs <;> simp [Nat.add_assoc]

theorem offsetSeconds_ok {zone : List UInt8} {offset : Int} (h : offsetSeconds zone 0 = some offset) :
    OffsetText zone offset := by
  simp only [offsetSeconds, Option.bind_eq_bind, Option.bind_eq_some_iff, Nat.zero_add] at h
  obtain ⟨mark, hmark, h⟩ := h
  split at h
  · rename_i hzulu
    obtain ⟨byte, rfl⟩ := List.length_eq_one_iff.1 hzulu.2.symm
    cases hmark
    cases h
    exact .zulu hzulu.1
  · split at h
    · rename_i hnumeric
      match zone, hnumeric.2 with
      | [sign, a, b, colon, c, d], _ =>
        cases hmark
        simp only [Option.bind_eq_some_iff] at h
        obtain ⟨hour, hhour, minute, hminute, h⟩ := h
        split at h
        · cases h
        · rename_i hranges
          cases h
          have hcolon : colon = 58 := by simpa using fun hne => hranges (.inl hne)
          subst hcolon
          have htext := OffsetText.numeric hnumeric.1 (digitsAt_iff.1 hhour) (by omega) (digitsAt_iff.1 hminute) (by omega)
          exact htext
    · cases h

theorem offsetSeconds_of {zone : List UInt8} {offset : Int} (h : OffsetText zone offset) :
    offsetSeconds zone 0 = some offset := by
  cases h with
  | zulu hmark => simp [offsetSeconds, hmark]
  | @numeric sign hour minute h m hsign hhour hle hminute mle =>
    match hour, minute, hhour.length, hminute.length with
    | [a, b], [c, d], _, _ =>
      have hfirst : digitsAt [sign, a, b, 58, c, d] 1 2 = some h := digitsAt_iff.2 hhour
      have hsecond : digitsAt [sign, a, b, 58, c, d] 4 2 = some m := digitsAt_iff.2 hminute
      simp [offsetSeconds, hsign, hfirst, hsecond, hle, mle]

/-- The kept digits count the microseconds of the fraction, as the dropped ones
are zeros. -/
theorem keptMicros {digits : List UInt8} (hzeros : ∀ byte ∈ digits.drop 6, byte = 48) :
    ((digitsValue (digits.take 6) * 10 ^ (6 - (digits.take 6).length) : Nat) : ℚ) =
      digitsValue digits / 10 ^ digits.length * 10 ^ 6 := by
  have hdropped : digits.drop 6 = List.replicate (digits.drop 6).length 48 := List.eq_replicate_of_mem hzeros
  have hpart : (digitsValue digits / 10 ^ digits.length : ℚ) =
      digitsValue (digits.take 6) / 10 ^ (digits.take 6).length := by
    have hsplit : digits.map byteDigit =
        (digits.take 6).map byteDigit ++ List.replicate (digits.drop 6).length 0 := by
      conv_lhs => rw [← List.take_append_drop 6 digits, List.map_append, hdropped, List.map_replicate]
      simp [byteDigit]
    have hsame := decimalFraction_append_zeros ((digits.take 6).map byteDigit) (digits.drop 6).length
    rw [← hsplit] at hsame
    simpa [decimalFraction, digitsValue_eq] using hsame
  have hpow : (10 : ℚ) ^ 6 = 10 ^ (6 - (digits.take 6).length) * 10 ^ (digits.take 6).length := by
    rw [← pow_add]
    congr 1
    have := List.length_take_le 6 digits
    omega
  rw [hpart, hpow]
  push_cast
  field_simp

theorem fractionMicros_ok {rest : List UInt8} {micros : Int} {stop : Nat}
    (h : fractionMicros rest 0 = some (micros, stop)) : ∃ fraction zone part, rest = fraction ++ zone ∧
      stop = fraction.length ∧ FractionText fraction part ∧ (micros : ℚ) = part * 10 ^ 6 := by
  unfold fractionMicros at h
  split at h
  · rename_i hpoint
    obtain ⟨body, rfl⟩ : ∃ body, rest = 46 :: body := by
      cases rest with
      | nil => cases hpoint
      | cons byte body =>
        cases hpoint
        exact ⟨body, rfl⟩
    dsimp only at h
    rw [Nat.zero_add, List.drop_one, List.tail_cons] at h
    split at h
    · cases h
    · rename_i hlength
      split at h
      · cases h
      · rename_i hdropped
        cases h
        have hzeros : ∀ byte ∈ (body.takeWhile isAsciiDigit).drop 6, byte = 48 := by
          simpa [List.any_eq_true] using hdropped
        rw [not_or, not_lt] at hlength
        refine ⟨46 :: body.takeWhile isAsciiDigit, body.dropWhile isAsciiDigit, _, ?_, ?_,
          .point (fun byte => List.mem_takeWhile_imp) ⟨?_, hlength.2⟩ hzeros, ?_⟩
        · rw [List.cons_append, List.takeWhile_append_dropWhile]
        · rw [List.length_cons, Nat.add_comm]
        · exact List.length_pos_iff.2 hlength.1
        · exact_mod_cast keptMicros hzeros
  · cases h
    exact ⟨[], rest, 0, rfl, rfl, .none, by simp⟩

/-- An offset neither starts with a point nor with a digit. -/
theorem OffsetText.ends {zone : List UInt8} {offset : Int} (h : OffsetText zone offset) :
    ∃ mark rest, zone = mark :: rest ∧ mark ≠ 46 ∧ isAsciiDigit mark = false := by
  cases h with
  | zulu hmark =>
    refine ⟨_, _, rfl, ?_⟩
    rcases hmark with rfl | rfl <;> decide
  | numeric hsign _ _ _ _ =>
    refine ⟨_, _, rfl, ?_⟩
    rcases hsign with rfl | rfl <;> decide

theorem fractionMicros_of {fraction zone : List UInt8} {part : ℚ} {offset : Int} (h : FractionText fraction part)
    (hzone : OffsetText zone offset) : ∃ micros : Int,
      fractionMicros (fraction ++ zone) 0 = some (micros, fraction.length) ∧ (micros : ℚ) = part * 10 ^ 6 := by
  obtain ⟨mark, rest, rfl, hpoint, hdigit⟩ := hzone.ends
  cases h with
  | none =>
    refine ⟨0, ?_, by simp⟩
    simp [fractionMicros, hpoint]
  | @point digits hdigits hlength hzeros =>
    have htake : (digits ++ mark :: rest).takeWhile isAsciiDigit = digits := by
      rw [List.takeWhile_append_of_pos hdigits, List.takeWhile_cons_of_neg (by simp [hdigit]), List.append_nil]
    have hdropped : (digits.drop 6).any (· != 48) = false := by
      simpa [List.any_eq_false] using hzeros
    refine ⟨(digitsValue (digits.take 6) * 10 ^ (6 - (digits.take 6).length) : Nat), ?_, ?_⟩
    · have hne : digits ≠ [] := List.length_pos_iff.1 hlength.1
      simp only [fractionMicros, List.cons_append, List.getElem?_cons_zero, if_true, Nat.zero_add, List.drop_one,
        List.tail_cons, htake, hdropped]
      simp [hne, hlength.2, Nat.add_comm]
    · exact_mod_cast keptMicros hzeros

/-! ## The checked arithmetic -/

theorem checkedI64_of {value : Int} (h : -2 ^ 63 ≤ value ∧ value < 2 ^ 63) : checkedI64 value = some value := if_pos h

/-- Days of four-digit years, a time of the day, an offset and a fraction. -/
structure InRange (days time offset fraction : Int) : Prop where
  days : -1000000 ≤ days ∧ days ≤ 4000000
  time : 0 ≤ time ∧ time < 86400
  offset : -86400 < offset ∧ offset < 86400
  fraction : 0 ≤ fraction ∧ fraction < 1000000

/-- The last steps of the parser, on what it read. -/
def instantMicros (days time offset fraction : Int) : Option Int := do
  let days ← checkedI64 (days * secondsPerDay)
  let seconds ← checkedI64 (days + time)
  let seconds ← checkedI64 (seconds - offset)
  let micros ← checkedI64 (seconds * microsPerSecond)
  checkedI64 (micros + fraction)

/-- No checked step fails. -/
theorem instantMicros_of {days time offset fraction : Int} (h : InRange days time offset fraction) :
    instantMicros days time offset fraction = some ((days * 86400 + time - offset) * 1000000 + fraction) := by
  obtain ⟨hdays, htime, hoffset, hfraction⟩ := h
  unfold instantMicros secondsPerDay microsPerSecond
  rw [checkedI64_of (by omega)]
  simp only [Option.bind_eq_bind, Option.bind_some]
  rw [checkedI64_of (by omega), Option.bind_some, checkedI64_of (by omega), Option.bind_some, checkedI64_of (by omega),
    Option.bind_some, checkedI64_of (by omega)]

theorem daysFromCivil_bounds {year month day : Int} (hyear : 0 ≤ year ∧ year < 10000) (hmonth : 1 ≤ month ∧ month ≤ 12)
    (hday : 1 ≤ day ∧ day ≤ 31) : -1000000 ≤ daysFromCivil year month day ∧ daysFromCivil year month day ≤ 4000000 := by
  rw [daysFromCivil_eq hmonth.1]
  dsimp only
  split_ifs <;> omega

theorem monthLength_le (year month : Int) : Calendar.monthLength year month ≤ 31 := by
  unfold Calendar.monthLength
  split_ifs <;> omega

theorem FractionText.bounds {bytes : List UInt8} {part : ℚ} (h : FractionText bytes part) : 0 ≤ part ∧ part < 1 := by
  cases h with
  | none => simp
  | @point digits hdigits hlength hzeros =>
    have hlt := decimalFraction_lt_one hdigits.digits
    have hnonneg := decimalFraction_nonneg (digits.map byteDigit)
    rw [decimalFraction, ← digitsValue_eq, List.length_map] at hlt hnonneg
    exact ⟨hnonneg, hlt⟩

theorem OffsetText.bounds {zone : List UInt8} {offset : Int} (h : OffsetText zone offset) :
    -86400 < offset ∧ offset < 86400 := by
  cases h with
  | zulu _ => omega
  | numeric _ hhour _ hminute _ =>
    have hh := hhour.bounds
    have hm := hminute.bounds
    split <;> omega

/-! ## The whole text -/

/-- A piece of a text up to a mark. -/
theorem drop_piece {bytes : List UInt8} {start len : Nat} {mark : UInt8} (h : bytes[start + len]? = some mark) :
    bytes.drop start = (bytes.drop start).take len ++ mark :: bytes.drop (start + len + 1) := by
  obtain ⟨hlt, hmark⟩ := List.getElem?_eq_some_iff.1 h
  rw [← hmark, ← List.drop_eq_getElem_cons hlt, ← List.drop_drop, List.take_append_drop]

theorem bytes_pieces {bytes : List UInt8} {mark : UInt8} (hyear : bytes[4]? = some 45) (hmonth : bytes[7]? = some 45)
    (hday : bytes[10]? = some mark) (hhour : bytes[13]? = some 58) (hminute : bytes[16]? = some 58) :
    bytes = (bytes.drop 0).take 4 ++ 45 :: ((bytes.drop 5).take 2 ++ 45 :: ((bytes.drop 8).take 2 ++ mark ::
      ((bytes.drop 11).take 2 ++ 58 :: ((bytes.drop 14).take 2 ++ 58 :: ((bytes.drop 17).take 2 ++ bytes.drop 19))))) := by
  have hsecond : bytes.drop 17 = (bytes.drop 17).take 2 ++ bytes.drop 19 := by
    rw [← List.drop_drop (i := 2) (j := 17), List.take_append_drop]
  rw [← hsecond, ← drop_piece hminute, ← drop_piece hhour, ← drop_piece hday, ← drop_piece hmonth, ← drop_piece hyear,
    List.drop_zero]

/-- What the parser reads of a text it accepts. -/
structure Fields (bytes : List UInt8) (year month day hour minute second fraction offset : Int) : Prop where
  long : 20 ≤ bytes.length
  digits : digitsAt bytes 0 4 = some year ∧ digitsAt bytes 5 2 = some month ∧ digitsAt bytes 8 2 = some day ∧
    digitsAt bytes 11 2 = some hour ∧ digitsAt bytes 14 2 = some minute ∧ digitsAt bytes 17 2 = some second
  marks : bytes[4]? = some 45 ∧ bytes[7]? = some 45 ∧ (bytes[10]? = some 84 ∨ bytes[10]? = some 116) ∧
    bytes[13]? = some 58 ∧ bytes[16]? = some 58
  date : (1 ≤ month ∧ month ≤ 12) ∧ day ≠ 0 ∧ day ≤ daysInMonth year month
  time : hour ≤ 23 ∧ minute ≤ 59 ∧ second ≤ 59
  rest : ∃ position, fractionMicros bytes 19 = some (fraction, position) ∧ offsetSeconds bytes position = some offset

theorem rfc3339Micros_fields {text : String} {micros : Int} (h : rfc3339Micros text = some micros) :
    ∃ year month day hour minute second fraction offset,
      Fields (utf8Bytes text) year month day hour minute second fraction offset := by
  unfold rfc3339Micros at h
  dsimp only at h
  split at h
  · cases h
  · rename_i hlength
    obtain ⟨year, hyear, h⟩ := Option.bind_eq_some_iff.1 h
    obtain ⟨month, hmonth, h⟩ := Option.bind_eq_some_iff.1 h
    obtain ⟨day, hday, h⟩ := Option.bind_eq_some_iff.1 h
    obtain ⟨hour, hhour, h⟩ := Option.bind_eq_some_iff.1 h
    obtain ⟨minute, hminute, h⟩ := Option.bind_eq_some_iff.1 h
    obtain ⟨second, hsecond, h⟩ := Option.bind_eq_some_iff.1 h
    split at h
    · cases h
    · rename_i hmarks
      split at h
      · cases h
      · rename_i hranges
        obtain ⟨⟨fraction, position⟩, hfraction, h⟩ := Option.bind_eq_some_iff.1 h
        obtain ⟨offset, hoffset, -⟩ := Option.bind_eq_some_iff.1 h
        simp only [not_or, not_and_or, not_not] at hmarks
        exact ⟨year, month, day, hour, minute, second, fraction, offset, Nat.not_lt.1 hlength,
          ⟨hyear, hmonth, hday, hhour, hminute, hsecond⟩, hmarks, by omega, by omega, position, hfraction, hoffset⟩

/-- With its fields read, only the arithmetic of a text is left. -/
theorem Fields.micros {text : String} {year month day hour minute second fraction offset : Int}
    (h : Fields (utf8Bytes text) year month day hour minute second fraction offset) : rfc3339Micros text =
      instantMicros (daysFromCivil year month day) (hour * 3600 + minute * 60 + second) offset fraction := by
  obtain ⟨hlong, ⟨hyear, hmonth, hday, hhour, hminute, hsecond⟩, hmarks, hdate, htime, position, hfraction, hoffset⟩ := h
  unfold rfc3339Micros
  dsimp only
  rw [if_neg (Nat.not_lt.2 hlong), hyear, hmonth, hday, hhour, hminute, hsecond]
  simp only [Option.bind_eq_bind, Option.bind_some]
  rw [if_neg, if_neg, hfraction, Option.bind_some, hoffset, Option.bind_some]
  · rfl
  · omega
  · simp only [not_or, not_and_or, not_not]
    exact hmarks

/-- What follows the seconds is a fraction and an offset. -/
theorem rest_texts {bytes : List UInt8} {position : Nat} {fraction offset : Int} (hlong : 20 ≤ bytes.length)
    (hfraction : fractionMicros bytes 19 = some (fraction, position)) (hoffset : offsetSeconds bytes position = some offset) :
    ∃ digits zone part, bytes.drop 19 = digits ++ zone ∧ FractionText digits part ∧ OffsetText zone offset ∧
      (fraction : ℚ) = part * 10 ^ 6 := by
  have hlength : (bytes.take 19).length = 19 := by
    rw [List.length_take]
    omega
  have hshift := fractionMicros_shift (bytes.take 19) (bytes.drop 19)
  rw [List.take_append_drop, hlength, hfraction] at hshift
  obtain ⟨⟨micros, stop⟩, hfound, hsame⟩ := Option.map_eq_some_iff.1 hshift.symm
  obtain ⟨rfl, rfl⟩ := Prod.mk.inj hsame
  obtain ⟨digits, zone, part, hrest, rfl, hdigits, hpart⟩ := fractionMicros_ok hfound
  have hbytes : bytes = (bytes.take 19 ++ digits) ++ zone := by
    rw [List.append_assoc, ← hrest, List.take_append_drop]
  have hzone := offsetSeconds_shift (bytes.take 19 ++ digits) zone
  rw [← hbytes, List.length_append, hlength, hoffset] at hzone
  exact ⟨digits, zone, part, hrest, hdigits, offsetSeconds_ok hzone.symm, hpart⟩

/-- The fields of a text are those of an instant. -/
theorem Fields.timestamp {bytes : List UInt8} {year month day hour minute second fraction offset : Int}
    (h : Fields bytes year month day hour minute second fraction offset) : ∃ instant, TimestampText bytes instant := by
  obtain ⟨hlong, ⟨hyear, hmonth, hday, hhour, hminute, hsecond⟩, ⟨h4, h7, h10, h13, h16⟩, hdate, htime, position, hfraction,
    hoffset⟩ := h
  obtain ⟨digits, zone, part, hrest, hdigits, hzone, -⟩ := rest_texts hlong hfraction hoffset
  obtain ⟨mark, hmark, hkind⟩ : ∃ mark, bytes[10]? = some mark ∧ (mark = 84 ∨ mark = 116) := by
    rcases h10 with h | h
    · exact ⟨84, h, .inl rfl⟩
    · exact ⟨116, h, .inr rfl⟩
  have hpos := (digitsAt_iff.1 hday).bounds
  let date : Calendar.Date := ⟨year, month, day, hdate.1, by omega, by rw [← daysInMonth_eq hdate.1]; exact hdate.2.2⟩
  have htext := @TimestampText.mk _ _ _ _ _ _ digits zone mark date _ hour minute second offset part (digitsAt_iff.1 hyear)
    (digitsAt_iff.1 hmonth) (digitsAt_iff.1 hday) hkind (digitsAt_iff.1 hhour) htime.1 (digitsAt_iff.1 hminute) htime.2.1
    (digitsAt_iff.1 hsecond) htime.2.2 hdigits hzone (daysFromCivil_iff.2 rfl)
  rw [← hrest, ← bytes_pieces h4 h7 hmark h13 h16] at htext
  exact ⟨_, htext⟩

/-- The fields of an accepted text are in the range of the arithmetic. -/
theorem Fields.inRange {bytes : List UInt8} {year month day hour minute second fraction offset : Int}
    (h : Fields bytes year month day hour minute second fraction offset) :
    InRange (daysFromCivil year month day) (hour * 3600 + minute * 60 + second) offset fraction := by
  obtain ⟨hlong, ⟨hyear, hmonth, hday, hhour, hminute, hsecond⟩, -, hdate, htime, position, hfraction, hoffset⟩ := h
  obtain ⟨digits, zone, part, -, hdigits, hzone, hpart⟩ := rest_texts hlong hfraction hoffset
  have hy := (digitsAt_iff.1 hyear).bounds
  have hd := (digitsAt_iff.1 hday).bounds
  have hh := (digitsAt_iff.1 hhour).bounds
  have hm := (digitsAt_iff.1 hminute).bounds
  have hs := (digitsAt_iff.1 hsecond).bounds
  have hlength := monthLength_le year month
  rw [← daysInMonth_eq hdate.1] at hlength
  refine ⟨daysFromCivil_bounds hy hdate.1 (by omega), by omega, hzone.bounds, ?_⟩
  have hbounds := hdigits.bounds
  have hlow : (0 : ℚ) ≤ fraction := by
    rw [hpart]
    linarith [hbounds.1]
  have hhigh : (fraction : ℚ) < 1000000 := by
    rw [hpart]
    linarith [hbounds.2]
  exact ⟨by exact_mod_cast hlow, by exact_mod_cast hhigh⟩

/-- A fraction and an offset behind the seconds are read. -/
theorem rest_read {before digits zone : List UInt8} {part : ℚ} {offset : Int} (hlength : before.length = 19)
    (hdigits : FractionText digits part) (hzone : OffsetText zone offset) : ∃ (fraction : Int) (position : Nat),
      fractionMicros (before ++ (digits ++ zone)) 19 = some (fraction, position) ∧
      offsetSeconds (before ++ (digits ++ zone)) position = some offset ∧ (fraction : ℚ) = part * 10 ^ 6 := by
  obtain ⟨fraction, hfraction, hpart⟩ := fractionMicros_of hdigits hzone
  refine ⟨fraction, (before ++ digits).length, ?_, ?_, hpart⟩
  · have hshift := fractionMicros_shift before (digits ++ zone)
    rw [hfraction, hlength] at hshift
    rw [hshift, List.length_append, hlength]
    rfl
  · rw [← List.append_assoc, offsetSeconds_shift]
    exact offsetSeconds_of hzone

/-- The text of an instant has its fields. -/
theorem TimestampText.fields {bytes : List UInt8} {instant : ℚ} (h : TimestampText bytes instant) :
    ∃ year month day hour minute second fraction offset, Fields bytes year month day hour minute second fraction offset ∧
      instant * 10 ^ 6 =
        ((daysFromCivil year month day * 86400 + (hour * 3600 + minute * 60 + second) - offset) * 1000000 +
          fraction : Int) := by
  cases h with
  | @mk year month day hour minute second digits zone mark date days h m s offset part hyear hmonth hday hmark hhour hle
      hminute mle hsecond sle hfraction hzone hdays =>
    obtain ⟨first, rest, hfirst, -⟩ := hzone.ends
    match year, month, day, hour, minute, second, hyear.length, hmonth.length, hday.length, hhour.length, hminute.length,
      hsecond.length with
    | [y1, y2, y3, y4], [m1, m2], [d1, d2], [h1, h2], [n1, n2], [s1, s2], _, _, _, _, _, _ =>
      obtain ⟨fraction, position, hread, hoffset, hpart⟩ := rest_read
        (show [y1, y2, y3, y4, 45, m1, m2, 45, d1, d2, mark, h1, h2, 58, n1, n2, 58, s1, s2].length = 19 from rfl)
        hfraction hzone
      have hlength := daysInMonth_eq date.month_mem date.year
      have hdaymem := date.day_mem
      refine ⟨date.year, date.month, date.day, h, m, s, fraction, offset, ⟨?_, ⟨digitsAt_iff.2 hyear, digitsAt_iff.2 hmonth,
        digitsAt_iff.2 hday, digitsAt_iff.2 hhour, digitsAt_iff.2 hminute, digitsAt_iff.2 hsecond⟩, ?_, ?_, ⟨hle, mle, sle⟩,
        position, hread, hoffset⟩, ?_⟩
      · simp [hfirst]
        omega
      · refine ⟨rfl, rfl, ?_, rfl, rfl⟩
        rcases hmark with rfl | rfl
        · exact .inl rfl
        · exact .inr rfl
      · exact ⟨date.month_mem, by omega, by omega⟩
      · rw [daysFromCivil_iff.1 hdays]
        push_cast
        rw [hpart]
        ring

/-- Every text of an instant is accepted, with its exact microseconds. -/
theorem TimestampText.micros {text : String} {instant : ℚ} (h : TimestampText (utf8Bytes text) instant) :
    ∃ micros : Int, rfc3339Micros text = some micros ∧ (micros : ℚ) = instant * 10 ^ 6 := by
  obtain ⟨year, month, day, hour, minute, second, fraction, offset, hfields, hinstant⟩ := h.fields
  exact ⟨_, hfields.micros.trans (instantMicros_of hfields.inRange), hinstant.symm⟩

/-- Every accepted text is that of an instant. -/
theorem timestampText_of_micros {text : String} {micros : Int} (h : rfc3339Micros text = some micros) :
    ∃ instant, TimestampText (utf8Bytes text) instant := by
  obtain ⟨year, month, day, hour, minute, second, fraction, offset, hfields⟩ := rfc3339Micros_fields h
  exact hfields.timestamp

end LaserSdk.Filter

import LaserSdk.Lib.Text
import LaserSdk.Filter.Value
/-!
# Coercions

Timestamps and exact decimals read from text and integers. Every parser works
on the bytes of the text, as the source does, and a 64-bit result that does
not fit is refused.
-/

namespace LaserSdk.Filter

inductive TimestampFormat where
  | rfc3339 | epochSeconds | epochMillis | epochMicros
  deriving DecidableEq, Repr

inductive Coerce where
  | timestamp (format : TimestampFormat)
  | number
  deriving DecidableEq, Repr

def microsPerSecond : Int := 1000000

def microsPerMilli : Int := 1000

def secondsPerDay : Int := 86400

def maxDecimalDigits : Nat := 512

/-- A result of checked 64-bit arithmetic. -/
def checkedI64 (value : Int) : Option Int := if -2 ^ 63 ≤ value ∧ value < 2 ^ 63 then some value else none

def isAsciiDigit (byte : UInt8) : Bool := 48 ≤ byte && byte ≤ 57

def utf8Bytes (text : String) : List UInt8 := text.toUTF8.toList

def digitsValue (bytes : List UInt8) : Nat := bytes.foldl (fun n byte => 10 * n + (byte.toNat - 48)) 0

/-! ## Integers -/

/-- A decimal integer string: optional sign, digits only, within 128 bits. -/
def parseInteger (text : String) : Option Int :=
  let bytes := utf8Bytes text
  let (negative, digits) : Bool × List UInt8 :=
    match bytes with
    | 45 :: rest => (true, rest)
    | 43 :: rest => (false, rest)
    | rest => (false, rest)
  if digits = [] ∨ ¬ digits.all isAsciiDigit then none
  else
    let magnitude : Int := digitsValue digits
    let value := if negative then -magnitude else magnitude
    if -2 ^ 127 ≤ value ∧ value < 2 ^ 127 then some value else none

/-! ## Timestamps -/

def digitsAt (bytes : List UInt8) (start len : Nat) : Option Int :=
  let slice := (bytes.drop start).take len
  if slice.length = len ∧ slice.all isAsciiDigit then some (digitsValue slice) else none

def isLeapYear (year : Int) : Bool := (year % 4 == 0 && year % 100 != 0) || year % 400 == 0

def daysInMonth (year month : Int) : Int :=
  if month ∈ [1, 3, 5, 7, 8, 10, 12] then 31
  else if month ∈ [4, 6, 9, 11] then 30
  else if isLeapYear year then 29
  else 28

/-- Days since 1970-01-01 of a date in the proleptic Gregorian calendar. -/
def daysFromCivil (year month day : Int) : Int :=
  let year := if month ≤ 2 then year - 1 else year
  let era := (if year ≥ 0 then year else year - 399).tdiv 400
  let yearOfEra := year - era * 400
  let shiftedMonth := if month > 2 then month - 3 else month + 9
  let dayOfYear := (153 * shiftedMonth + 2).tdiv 5 + day - 1
  let dayOfEra := yearOfEra * 365 + yearOfEra.tdiv 4 - yearOfEra.tdiv 100 + dayOfYear
  era * 146097 + dayOfEra - 719468

/-- The fraction after the seconds and where it ends. -/
def fractionMicros (bytes : List UInt8) (position : Nat) : Option (Int × Nat) :=
  if bytes[position]? = some 46 then
    let fraction := (bytes.drop (position + 1)).takeWhile isAsciiDigit
    if fraction = [] ∨ fraction.length > 9 then none
    else
      let kept := fraction.take 6
      let dropped := fraction.drop 6
      if dropped.any (· != 48) then none
      else some (digitsValue kept * 10 ^ (6 - kept.length), position + 1 + fraction.length)
  else some (0, position)

def offsetSeconds (bytes : List UInt8) (position : Nat) : Option Int := do
  let mark ← bytes[position]?
  if (mark = 90 ∨ mark = 122) ∧ position + 1 = bytes.length then return 0
  else if (mark = 43 ∨ mark = 45) ∧ position + 6 = bytes.length then
    let hour ← digitsAt bytes (position + 1) 2
    let minute ← digitsAt bytes (position + 4) 2
    if bytes[position + 3]? ≠ some 58 ∨ hour > 23 ∨ minute > 59 then none
    else
      let magnitude := hour * 3600 + minute * 60
      return if mark = 45 then -magnitude else magnitude
  else none

def rfc3339Micros (text : String) : Option Int := do
  let bytes := utf8Bytes text
  if bytes.length < 20 then none
  else
    let year ← digitsAt bytes 0 4
    let month ← digitsAt bytes 5 2
    let day ← digitsAt bytes 8 2
    let hour ← digitsAt bytes 11 2
    let minute ← digitsAt bytes 14 2
    let second ← digitsAt bytes 17 2
    if bytes[4]? ≠ some 45 ∨ bytes[7]? ≠ some 45 ∨ (bytes[10]? ≠ some 84 ∧ bytes[10]? ≠ some 116) ∨
        bytes[13]? ≠ some 58 ∨ bytes[16]? ≠ some 58 then none
    else if month < 1 ∨ month > 12 ∨ day = 0 ∨ day > daysInMonth year month ∨ hour > 23 ∨ minute > 59 ∨
        second > 59 then none
    else
      let (fraction, position) ← fractionMicros bytes 19
      let offset ← offsetSeconds bytes position
      let days ← checkedI64 (daysFromCivil year month day * secondsPerDay)
      let seconds ← checkedI64 (days + (hour * 3600 + minute * 60 + second))
      let seconds ← checkedI64 (seconds - offset)
      let micros ← checkedI64 (seconds * microsPerSecond)
      checkedI64 (micros + fraction)

def TimestampFormat.microsFromInteger (format : TimestampFormat) (value : Int) : Option Int := do
  let value ← checkedI64 value
  match format with
  | .rfc3339 => none
  | .epochSeconds => checkedI64 (value * microsPerSecond)
  | .epochMillis => checkedI64 (value * microsPerMilli)
  | .epochMicros => some value

def TimestampFormat.microsFromText (format : TimestampFormat) (text : String) : Option Int :=
  match format with
  | .rfc3339 => rfc3339Micros text
  | _ => (parseInteger text).bind format.microsFromInteger

/-! ## Decimals -/

/-- A decimal without leading and trailing zeros, so equal numbers are equal
values. -/
structure ExactDecimal where
  negative : Bool
  integer : List UInt8
  fraction : List UInt8
  deriving DecidableEq, Repr

namespace ExactDecimal

def normalized (negative : Bool) (integer fraction : List UInt8) : ExactDecimal :=
  let integer := integer.dropWhile (· == 48)
  let fraction := (fraction.reverse.dropWhile (· == 48)).reverse
  ⟨negative && !(integer.isEmpty && fraction.isEmpty), integer, fraction⟩

def parseBytes (bytes : List UInt8) : Option ExactDecimal := do
  let (negative, unsigned) : Bool × List UInt8 ←
    match bytes with
    | [] => none
    | 45 :: rest => some (true, rest)
    | 43 :: rest => some (false, rest)
    | rest => some (false, rest)
  let (integer, fraction) := (Lib.splitOnce 46 unsigned).getD (unsigned, [])
  if integer = [] ∧ fraction = [] then none
  else if integer.length + fraction.length > maxDecimalDigits ∨ ¬ integer.all isAsciiDigit ∨
      ¬ fraction.all isAsciiDigit ∨ (46 ∈ unsigned ∧ fraction = []) then none
  else return normalized negative integer fraction

/-- `[+-]digits[.digits]`, at most 512 digits. -/
def parse (text : String) : Option ExactDecimal := parseBytes (utf8Bytes text)

def fromInteger (value : Int) : ExactDecimal := normalized (value < 0) (utf8Bytes (toString value.natAbs)) []

def magnitudeCmp (left right : ExactDecimal) : Ordering :=
  (compare left.integer.length right.integer.length).then
    ((compare left.integer right.integer).then (compare left.fraction right.fraction))

def cmp (left right : ExactDecimal) : Ordering :=
  match left.negative, right.negative with
  | false, true => .gt
  | true, false => .lt
  | false, false => left.magnitudeCmp right
  | true, true => right.magnitudeCmp left

end ExactDecimal

end LaserSdk.Filter

import Mathlib
/-!
# The Gregorian calendar

A date is followed by the next day. The days from one date to another are
counted by going on day by day, in the calendar extended to all years before
its introduction. A formula counts them if it goes up by the length of each
month from its first day to the first day of the next.
-/

namespace LaserSdk.Lib.Calendar

def IsLeap (year : Int) : Prop := 4 ∣ year ∧ (100 ∣ year → 400 ∣ year)

instance (year : Int) : Decidable (IsLeap year) := inferInstanceAs (Decidable (_ ∧ _))

/-- Months count from one. -/
def monthLength (year month : Int) : Int :=
  if month = 2 then if IsLeap year then 29 else 28
  else if month = 4 ∨ month = 6 ∨ month = 9 ∨ month = 11 then 30
  else 31

theorem monthLength_pos (year month : Int) : 1 ≤ monthLength year month := by
  unfold monthLength
  split_ifs <;> omega

@[ext] structure Date where
  year : Int
  month : Int
  day : Int
  month_mem : 1 ≤ month ∧ month ≤ 12
  day_mem : 1 ≤ day ∧ day ≤ monthLength year month
  deriving DecidableEq

namespace Date

/-- The next day. -/
def next (date : Date) : Date :=
  if hday : date.day < monthLength date.year date.month then
    { date with day := date.day + 1, day_mem := ⟨by have := date.day_mem; omega, by omega⟩ }
  else if hmonth : date.month < 12 then
    ⟨date.year, date.month + 1, 1, by have := date.month_mem; omega, Int.le_refl _, monthLength_pos _ _⟩
  else ⟨date.year + 1, 1, 1, by omega, Int.le_refl _, monthLength_pos _ _⟩

end Date

/-- One date comes so many days after another, or before it if negative. -/
def IsDaysAfter (days : Int) (start date : Date) : Prop := Date.next^[days.toNat] start = Date.next^[(-days).toNat] date

section

-- The number of the first day of each month.
variable {first : Int → Int → Int}

/-- The number of a date, counted within its month. -/
def number (first : Int → Int → Int) (date : Date) : Int := first date.year date.month + (date.day - 1)

/-- The first days go up by the length of the months. -/
structure CountsMonths (first : Int → Int → Int) : Prop where
  month : ∀ year month, 1 ≤ month → month < 12 → first year (month + 1) = first year month + monthLength year month
  year : ∀ year, first (year + 1) 1 = first year 12 + monthLength year 12

theorem number_next (h : CountsMonths first) (date : Date) : number first date.next = number first date + 1 := by
  have hmonth := date.month_mem
  have hday := date.day_mem
  unfold Date.next
  split
  · simp only [number]
    omega
  · split
    · rename_i hlast hbefore
      have hfirst := h.month date.year date.month hmonth.1 hbefore
      simp only [number]
      omega
    · rename_i hlast hdecember
      have hfirst := h.year date.year
      have htwelve : date.month = 12 := by omega
      simp only [number]
      rw [htwelve] at hlast hday ⊢
      omega

theorem number_iterate (h : CountsMonths first) (n : Nat) (date : Date) :
    number first (Date.next^[n] date) = number first date + n := by
  induction n with
  | zero => simp
  | succ n ih =>
    rw [Function.iterate_succ_apply', number_next h, ih]
    push_cast
    ring

/-! The months of all years in one row. -/

def firstOf (first : Int → Int → Int) (n : Int) : Int := first (n / 12) (n % 12 + 1)

theorem firstOf_succ (h : CountsMonths first) (n : Int) :
    firstOf first (n + 1) = firstOf first n + monthLength (n / 12) (n % 12 + 1) := by
  unfold firstOf
  by_cases hlast : n % 12 = 11
  · have hnext : (n + 1) / 12 = n / 12 + 1 ∧ (n + 1) % 12 = 0 := by omega
    rw [hnext.1, hnext.2, hlast]
    exact h.year (n / 12)
  · have hnext : (n + 1) / 12 = n / 12 ∧ (n + 1) % 12 = n % 12 + 1 := by omega
    rw [hnext.1, hnext.2]
    exact h.month (n / 12) (n % 12 + 1) (by omega) (by omega)

theorem firstOf_strictMono (h : CountsMonths first) : StrictMono (firstOf first) := by
  refine strictMono_int_of_lt_succ fun n => ?_
  have hlength := monthLength_pos (n / 12) (n % 12 + 1)
  rw [firstOf_succ h]
  omega

/-- The place of a date's month in the row. -/
def Date.monthIndex (date : Date) : Int := 12 * date.year + (date.month - 1)

theorem Date.monthIndex_parts (date : Date) :
    date.monthIndex / 12 = date.year ∧ date.monthIndex % 12 + 1 = date.month := by
  have hmonth := date.month_mem
  unfold Date.monthIndex
  omega

theorem number_eq (date : Date) : number first date = firstOf first date.monthIndex + (date.day - 1) := by
  rw [number, firstOf, date.monthIndex_parts.1, date.monthIndex_parts.2]

/-- A date in an earlier month has a smaller number. -/
theorem number_lt (h : CountsMonths first) {left right : Date} (hlt : left.monthIndex < right.monthIndex) :
    number first left < number first right := by
  have hmono := (firstOf_strictMono h).monotone (Int.add_one_le_of_lt hlt)
  have hsucc := firstOf_succ h left.monthIndex
  rw [left.monthIndex_parts.1, left.monthIndex_parts.2] at hsucc
  have hleft := left.day_mem
  have hright := right.day_mem
  rw [number_eq, number_eq]
  omega

theorem number_injective (h : CountsMonths first) : Function.Injective (number first) := by
  intro left right hnumber
  have hindex : left.monthIndex = right.monthIndex := by
    rcases lt_trichotomy left.monthIndex right.monthIndex with hlt | heq | hgt
    · exact absurd hnumber (ne_of_lt (number_lt h hlt))
    · exact heq
    · exact absurd hnumber (ne_of_gt (number_lt h hgt))
  have hleft := left.monthIndex_parts
  have hright := right.monthIndex_parts
  rw [number_eq, number_eq, hindex] at hnumber
  refine Date.ext ?_ ?_ ?_ <;> omega

/-- Numbers that count the months count the days between any two dates. -/
theorem isDaysAfter_iff (h : CountsMonths first) {days : Int} {start date : Date} :
    IsDaysAfter days start date ↔ number first date = number first start + days := by
  unfold IsDaysAfter
  rw [← (number_injective h).eq_iff, number_iterate h, number_iterate h]
  omega

end

end LaserSdk.Lib.Calendar

import Mathlib.Algebra.Order.BigOperators.Group.List
import Mathlib.Order.Monotone.Basic
import Mathlib.Data.Int.SuccPred
import Mathlib.Tactic.Linarith

/-!
# The proleptic Gregorian calendar

Days are numbered from 0001-01-01, which is day 0, and may be negative.
`dateOfDay` splits a day number into year, month and day of the month, and
`dayOfDate` puts them together again, counting a month past December into the
following year.  The months of a year are consecutive blocks of days, and so
finding the month of a day is finding the block a position falls in.
-/

namespace Conduit.Calendar

/-! ## Consecutive blocks -/

/-- The index of the block a position falls in and its offset there, for blocks of
the given lengths that follow each other. -/
def locate : List ℤ → ℤ → ℕ × ℤ
  | [], position => (0, position)
  | length :: lengths, position =>
      if position < length then (0, position)
      else
        let rest := locate lengths (position - length)
        (rest.1 + 1, rest.2)

/-- A position inside the blocks is the start of its block plus its offset. -/
theorem locate_spec (lengths : List ℤ) (position : ℤ) (hnonneg : 0 ≤ position)
    (hlt : position < lengths.sum) :
    (locate lengths position).1 < lengths.length ∧
      0 ≤ (locate lengths position).2 ∧
      (locate lengths position).2 < lengths.getD (locate lengths position).1 0 ∧
      (lengths.take (locate lengths position).1).sum + (locate lengths position).2 =
        position := by
  induction lengths generalizing position with
  | nil =>
      rw [List.sum_nil] at hlt
      omega
  | cons length lengths ih =>
      rw [List.sum_cons] at hlt
      rw [locate]
      by_cases hfirst : position < length
      · rw [if_pos hfirst]
        simp [hnonneg, hfirst]
      · rw [if_neg hfirst]
        obtain ⟨hindex, hoffset, hlength, hsum⟩ :=
          ih (position - length) (by omega) (by omega)
        refine ⟨?_, hoffset, ?_, ?_⟩
        · simpa using hindex
        · simpa using hlength
        · rw [List.take_succ_cons, List.sum_cons, add_assoc, hsum]
          omega

/-- A block ends before the blocks do. -/
theorem sum_take_add_getD_le {lengths : List ℤ} (hlengths : ∀ length ∈ lengths, 0 ≤ length)
    (index : ℕ) : (lengths.take index).sum + lengths.getD index 0 ≤ lengths.sum := by
  induction lengths generalizing index with
  | nil => simp
  | cons length lengths ih =>
      have htail : ∀ other ∈ lengths, 0 ≤ other := by
        intro other hother
        exact hlengths other (List.mem_cons_of_mem _ hother)
      cases index with
      | zero => simpa using List.sum_nonneg htail
      | succ index =>
          have hrest := ih htail index
          rw [List.take_succ_cons, List.sum_cons, List.sum_cons, List.getD_cons_succ]
          omega

/-- The start of a block plus an offset inside it is located there. -/
theorem locate_start_add {lengths : List ℤ} (hlengths : ∀ length ∈ lengths, 0 ≤ length)
    {index : ℕ} (hindex : index < lengths.length) (offset : ℤ)
    (hnonneg : 0 ≤ offset) (hlt : offset < lengths.getD index 0) :
    locate lengths ((lengths.take index).sum + offset) = (index, offset) := by
  induction lengths generalizing index with
  | nil => simp at hindex
  | cons length lengths ih =>
      cases index with
      | zero =>
          rw [locate, List.take_zero, List.sum_nil, zero_add, if_pos]
          simpa using hlt
      | succ index =>
          have htail : ∀ other ∈ lengths, 0 ≤ other := by
            intro other hother
            exact hlengths other (List.mem_cons_of_mem _ hother)
          have hbefore : 0 ≤ (lengths.take index).sum := by
            apply List.sum_nonneg
            intro other hother
            exact htail other (List.mem_of_mem_take hother)
          have hpast : ¬ length + (lengths.take index).sum + offset < length := by
            omega
          have hrest : length + (lengths.take index).sum + offset - length =
              (lengths.take index).sum + offset := by
            omega
          rw [List.take_succ_cons, List.sum_cons, locate, if_neg hpast, hrest]
          rw [ih htail (by simpa using hindex) (by simpa using hlt)]

/-! ## Years -/

def leapYear (year : ℤ) : Bool :=
  year % 4 = 0 ∧ (year % 100 ≠ 0 ∨ year % 400 = 0)

/-- The number of the first day of a year. -/
def daysBeforeYear (year : ℤ) : ℤ :=
  365 * (year - 1) + (year - 1) / 4 - (year - 1) / 100 + (year - 1) / 400

def monthLengths (leap : Bool) : List ℤ :=
  [31, if leap then 29 else 28, 31, 30, 31, 30, 31, 31, 30, 31, 30, 31]

/-- The year of a day, by cycles of 400, 100, 4 and 1 years.  The last of four
centuries is a day longer than the others, and so is the last of four years. -/
def yearOfDay (day : ℤ) : ℤ :=
  let inQuadricentury := day % 146097
  let century := min (inQuadricentury / 36524) 3
  let inCentury := inQuadricentury - 36524 * century
  let inQuadrennium := inCentury % 1461
  400 * (day / 146097) + 100 * century + 4 * (inCentury / 1461) +
    min (inQuadrennium / 365) 3 + 1

theorem sum_monthLengths (leap : Bool) :
    (monthLengths leap).sum = if leap then 366 else 365 := by
  cases leap <;> rfl

theorem daysBeforeYear_succ (year : ℤ) :
    daysBeforeYear (year + 1) = daysBeforeYear year + (monthLengths (leapYear year)).sum := by
  rw [sum_monthLengths]
  simp only [daysBeforeYear, leapYear, decide_eq_true_eq]
  split
  · omega
  · omega

theorem daysBeforeYear_lt_iff {year later : ℤ} :
    daysBeforeYear year < daysBeforeYear later ↔ year < later := by
  have hmono : StrictMono daysBeforeYear := by
    apply strictMono_int_of_lt_succ
    intro year
    rw [daysBeforeYear_succ, sum_monthLengths]
    split
    · omega
    · omega
  exact hmono.lt_iff_lt

section Cycles

variable (quadricentury : ℤ) {century quadrennium year : ℤ}

theorem daysBeforeYear_cycles (hcentury : 0 ≤ century ∧ century ≤ 3)
    (hquadrennium : 0 ≤ quadrennium ∧ quadrennium ≤ 24) (hyear : 0 ≤ year ∧ year ≤ 3) :
    daysBeforeYear (400 * quadricentury + 100 * century + 4 * quadrennium + year + 1) =
      146097 * quadricentury + 36524 * century + 1461 * quadrennium + 365 * year := by
  rw [daysBeforeYear]
  omega

theorem leapYear_cycles (hcentury : 0 ≤ century ∧ century ≤ 3)
    (hquadrennium : 0 ≤ quadrennium ∧ quadrennium ≤ 24) (hyear : 0 ≤ year ∧ year ≤ 3) :
    leapYear (400 * quadricentury + 100 * century + 4 * quadrennium + year + 1) = true ↔
      year = 3 ∧ (quadrennium ≠ 24 ∨ century = 3) := by
  rw [leapYear, decide_eq_true_eq]
  omega

/-- A day of a year given by its cycles, the 366th one only in a leap year. -/
theorem daysBeforeYear_le_and_lt (hcentury : 0 ≤ century ∧ century ≤ 3)
    (hquadrennium : 0 ≤ quadrennium ∧ quadrennium ≤ 24) (hyear : 0 ≤ year ∧ year ≤ 3)
    {day : ℤ}
    (hstart : 146097 * quadricentury + 36524 * century + 1461 * quadrennium + 365 * year ≤ day)
    (hend : day ≤
      146097 * quadricentury + 36524 * century + 1461 * quadrennium + 365 * year + 365)
    (hlast : day =
      146097 * quadricentury + 36524 * century + 1461 * quadrennium + 365 * year + 365 →
        year = 3 ∧ (quadrennium ≠ 24 ∨ century = 3)) :
    daysBeforeYear (400 * quadricentury + 100 * century + 4 * quadrennium + year + 1) ≤ day ∧
      day < daysBeforeYear
        (400 * quadricentury + 100 * century + 4 * quadrennium + year + 1 + 1) := by
  rw [daysBeforeYear_succ (400 * quadricentury + 100 * century + 4 * quadrennium + year + 1),
    sum_monthLengths, daysBeforeYear_cycles quadricentury hcentury hquadrennium hyear]
  split
  · omega
  · rename_i hcommon
    have hnotLast := mt (leapYear_cycles quadricentury hcentury
      hquadrennium hyear).2 hcommon
    omega

end Cycles

theorem daysBeforeYear_yearOfDay (day : ℤ) :
    daysBeforeYear (yearOfDay day) ≤ day ∧ day < daysBeforeYear (yearOfDay day + 1) := by
  rw [yearOfDay]
  apply daysBeforeYear_le_and_lt
  · omega
  · omega
  · omega
  · omega
  · omega
  · omega

theorem yearOfDay_eq {day year : ℤ} (hstart : daysBeforeYear year ≤ day)
    (hend : day < daysBeforeYear (year + 1)) : yearOfDay day = year := by
  obtain ⟨hstart', hend'⟩ := daysBeforeYear_yearOfDay day
  have hbelow : yearOfDay day < year + 1 :=
    daysBeforeYear_lt_iff.1 (lt_of_le_of_lt hstart' hend)
  have habove : year < yearOfDay day + 1 :=
    daysBeforeYear_lt_iff.1 (lt_of_le_of_lt hstart hend')
  omega

/-! ## Dates -/

structure Date where
  year : ℤ
  month : ℤ
  day : ℤ
  deriving DecidableEq

/-- The length of a month of the year, `month` being 1 to 12. -/
def monthLength (year month : ℤ) : ℤ :=
  (monthLengths (leapYear year)).getD (month - 1).toNat 0

def dateOfDay (day : ℤ) : Date :=
  let year := yearOfDay day
  let place := locate (monthLengths (leapYear year)) (day - daysBeforeYear year)
  ⟨year, place.1 + 1, place.2 + 1⟩

/-- The number of a day given by year, month and day of the month. -/
def dayOfDate (year month day : ℤ) : ℤ :=
  let year := year + (month - 1) / 12
  daysBeforeYear year +
    ((monthLengths (leapYear year)).take ((month - 1) % 12).toNat).sum + (day - 1)

/-- The day of the week, Sunday being 0. -/
def weekday (day : ℤ) : ℤ :=
  (day + 1) % 7

theorem length_monthLengths (leap : Bool) : (monthLengths leap).length = 12 := rfl

theorem monthLengths_pos (leap : Bool) : ∀ length ∈ monthLengths leap, 0 < length := by
  cases leap <;> decide

theorem dayOfDate_of_month {year month : ℤ} (hmonth : 1 ≤ month ∧ month ≤ 12) (day : ℤ) :
    dayOfDate year month day = daysBeforeYear year +
      ((monthLengths (leapYear year)).take (month - 1).toNat).sum + (day - 1) := by
  have hquotient : (month - 1) / 12 = 0 := by omega
  have hremainder : (month - 1) % 12 = month - 1 := by omega
  rw [dayOfDate, hquotient, hremainder, add_zero]

/-- What `dateOfDay` answers is a date of the calendar. -/
theorem dateOfDay_valid (day : ℤ) :
    (1 ≤ (dateOfDay day).month ∧ (dateOfDay day).month ≤ 12) ∧ 1 ≤ (dateOfDay day).day ∧
      (dateOfDay day).day ≤ monthLength (dateOfDay day).year (dateOfDay day).month := by
  obtain ⟨hstart, hend⟩ := daysBeforeYear_yearOfDay day
  rw [daysBeforeYear_succ] at hend
  obtain ⟨hindex, hoffset, hlength, -⟩ := locate_spec
    (monthLengths (leapYear (yearOfDay day)))
    (day - daysBeforeYear (yearOfDay day)) (by omega) (by omega)
  rw [length_monthLengths] at hindex
  simp only [dateOfDay, monthLength, add_sub_cancel_right, Int.toNat_natCast]
  refine ⟨⟨?_, ?_⟩, ?_, ?_⟩ <;> omega

theorem dayOfDate_dateOfDay (day : ℤ) :
    dayOfDate (dateOfDay day).year (dateOfDay day).month (dateOfDay day).day = day := by
  obtain ⟨hstart, hend⟩ := daysBeforeYear_yearOfDay day
  rw [daysBeforeYear_succ] at hend
  obtain ⟨-, -, -, hsum⟩ := locate_spec
    (monthLengths (leapYear (yearOfDay day)))
    (day - daysBeforeYear (yearOfDay day)) (by omega) (by omega)
  rw [dayOfDate_of_month (dateOfDay_valid day).1]
  simp only [dateOfDay, add_sub_cancel_right, Int.toNat_natCast]
  omega

/-- The days of a month follow its first one. -/
theorem dateOfDay_dayOfDate (year day : ℤ) {month : ℤ} (hmonth : 1 ≤ month ∧ month ≤ 12)
    (hday : 1 ≤ day) (hlength : day ≤ monthLength year month) :
    dateOfDay (dayOfDate year month day) = ⟨year, month, day⟩ := by
  have hindex : (month - 1).toNat < (monthLengths (leapYear year)).length := by
    rw [length_monthLengths]
    omega
  have hlocate := locate_start_add
    (fun length hmem => le_of_lt (monthLengths_pos (leapYear year) length hmem)) hindex
    (day - 1) (by omega) (by rw [monthLength] at hlength; omega)
  have hinside : 0 ≤ ((monthLengths (leapYear year)).take (month - 1).toNat).sum := by
    apply List.sum_nonneg
    intro length hmem
    exact le_of_lt (monthLengths_pos _ length (List.mem_of_mem_take hmem))
  have hbefore : ((monthLengths (leapYear year)).take (month - 1).toNat).sum +
      monthLength year month ≤ (monthLengths (leapYear year)).sum := by
    exact sum_take_add_getD_le (fun length hmem => le_of_lt (monthLengths_pos _ length hmem)) _
  have hyear : yearOfDay (dayOfDate year month day) = year := by
    apply yearOfDay_eq
    · rw [dayOfDate_of_month hmonth]
      omega
    · rw [dayOfDate_of_month hmonth, daysBeforeYear_succ]
      omega
  have hposition : dayOfDate year month day - daysBeforeYear year =
      ((monthLengths (leapYear year)).take (month - 1).toNat).sum + (day - 1) := by
    rw [dayOfDate_of_month hmonth]
    omega
  simp only [dateOfDay, hyear, hposition, hlocate, Date.mk.injEq, true_and]
  omega

theorem monthLength_le (year month : ℤ) : monthLength year month ≤ 31 := by
  have hlengths : ∀ length ∈ monthLengths (leapYear year), length ≤ 31 := by
    cases leapYear year <;> decide
  rw [monthLength, List.getD_eq_getElem?_getD]
  rcases hlength : (monthLengths (leapYear year))[(month - 1).toNat]? with _ | length
  · simp
  · exact hlengths length (List.mem_of_getElem? hlength)

/-- The first day of the next month comes after the last day of this one. -/
theorem dayOfDate_next_month {year month : ℤ} (hmonth : 1 ≤ month ∧ month ≤ 12) :
    dayOfDate year (month + 1) 1 = dayOfDate year month 1 + monthLength year month := by
  rw [dayOfDate_of_month hmonth]
  by_cases hdecember : month = 12
  · -- Past December, the days before the next year are all twelve months.
    have hsum : ((monthLengths (leapYear year)).take 11).sum +
        (monthLengths (leapYear year)).getD 11 0 = (monthLengths (leapYear year)).sum := by
      cases leapYear year <;> rfl
    have hquotient : (month + 1 - 1) / 12 = 1 := by omega
    have hremainder : (month + 1 - 1) % 12 = 0 := by omega
    have hindex : (month - 1).toNat = 11 := by omega
    rw [dayOfDate, hquotient, hremainder, daysBeforeYear_succ, ← hsum, monthLength, hindex]
    simp
    omega
  · have hnext : 1 ≤ month + 1 ∧ month + 1 ≤ 12 := by omega
    have hindex : (month + 1 - 1).toNat = (month - 1).toNat + 1 := by omega
    have hlt : (month - 1).toNat < (monthLengths (leapYear year)).length := by
      rw [length_monthLengths]
      omega
    rw [dayOfDate_of_month hnext, hindex, List.take_add_one, List.sum_append, monthLength,
      List.getD_eq_getElem?_getD, List.getElem?_eq_getElem hlt]
    simp
    omega

/-- From a day to the end of its month only the day of the month changes. -/
theorem dateOfDay_of_lt_next_month {day later : ℤ} (hle : day ≤ later)
    (hlt : later < dayOfDate (dateOfDay day).year ((dateOfDay day).month + 1) 1) :
    dateOfDay later = { dateOfDay day with day := (dateOfDay day).day + (later - day) } := by
  obtain ⟨hmonth, hday, -⟩ := dateOfDay_valid day
  have hround := dayOfDate_dateOfDay day
  rw [dayOfDate_next_month hmonth] at hlt
  rw [dayOfDate_of_month hmonth] at hround hlt
  have hlater : dayOfDate (dateOfDay day).year (dateOfDay day).month
      ((dateOfDay day).day + (later - day)) = later := by
    rw [dayOfDate_of_month hmonth]
    omega
  have hdate := dateOfDay_dayOfDate (dateOfDay day).year
    ((dateOfDay day).day + (later - day)) hmonth (by omega) (by omega)
  rw [hlater] at hdate
  exact hdate

/-- A day is before the first day of the next month. -/
theorem lt_next_month (day : ℤ) :
    day < dayOfDate (dateOfDay day).year ((dateOfDay day).month + 1) 1 := by
  obtain ⟨hmonth, -, hlength⟩ := dateOfDay_valid day
  have hround := dayOfDate_dateOfDay day
  rw [dayOfDate_next_month hmonth]
  rw [dayOfDate_of_month hmonth] at hround ⊢
  omega

/-- Counting one day on from a date is the next day, also at the end of a month. -/
theorem dayOfDate_add (year month day days : ℤ) :
    dayOfDate year month (day + days) = dayOfDate year month day + days := by
  simp only [dayOfDate]
  omega

end Conduit.Calendar

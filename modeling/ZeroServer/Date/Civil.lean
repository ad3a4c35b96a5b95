/-
This file models the proleptic Gregorian calendar: days since 1970-01-01 to and from a civil date by
cycles of 400 years. The year formula is monotone and right at the first and the last day of every
year, so every day count comes back from its date.
-/

import Mathlib.Tactic.IntervalCases
import Mathlib.Tactic.Linarith

namespace ZeroServer.Date

/-! ### The calendar -/

/-- A date in the proleptic Gregorian calendar. -/
structure CivilDate where
  year : Int
  month : Int
  day : Int
  deriving DecidableEq

/-- Days from 1970-01-01 to 0000-01-01. -/
def minDays : Int := -719528

/-- Days from 1970-01-01 to 9999-12-31. -/
def maxDays : Int := 2932896

def daysPerEra : Int := 146097
def daysToEraStart : Int := 719468

def isLeapYear (year : Int) : Bool := year % 4 = 0 ∧ (year % 100 ≠ 0 ∨ year % 400 = 0)

def daysInMonth (year month : Int) : Option Int :=
  if [1, 3, 5, 7, 8, 10, 12].contains month then some 31
  else if [4, 6, 9, 11].contains month then some 30
  else if month = 2 then some (if isLeapYear year then 29 else 28)
  else none

/-- The year of a day of an era. -/
def yearOfEra (dayOfEra : Int) : Int :=
  (dayOfEra - dayOfEra / 1460 + dayOfEra / 36524 - dayOfEra / 146096) / 365

/-- The days before a year of an era. -/
def daysBeforeYear (yearOfEra : Int) : Int := yearOfEra * 365 + yearOfEra / 4 - yearOfEra / 100

/-- Converts a day count since 1970-01-01 to a date. -/
def civilFromDays (days : Int) : Option CivilDate :=
  if minDays ≤ days ∧ days ≤ maxDays then
    let shifted := days + daysToEraStart
    let era := shifted / daysPerEra
    let dayOfEra := shifted % daysPerEra
    let yearOfEra := yearOfEra dayOfEra
    let year := yearOfEra + era * 400
    let dayOfYear := dayOfEra - daysBeforeYear yearOfEra
    let shiftedMonth := (dayOfYear * 5 + 2) / 153
    let daysBeforeMonth := (shiftedMonth * 153 + 2) / 5
    let day := dayOfYear - daysBeforeMonth + 1
    let month := if shiftedMonth < 10 then shiftedMonth + 3 else shiftedMonth - 9
    let year := if month ≤ 2 then year + 1 else year
    some ⟨year, month, day⟩
  else none

/-- Converts a date to a day count since 1970-01-01. -/
def daysFromCivil (date : CivilDate) : Option Int :=
  match daysInMonth date.year date.month with
  | none => none
  | some last =>
    if date.day = 0 ∨ last < date.day then none
    else
      let year := if date.month ≤ 2 then date.year - 1 else date.year
      let era := year / 400
      let yearOfEra := year % 400
      let shiftedMonth := if date.month > 2 then date.month - 3 else date.month + 9
      let dayOfYear := (shiftedMonth * 153 + 2) / 5 + date.day - 1
      let dayOfEra := yearOfEra * 365 + yearOfEra / 4 - yearOfEra / 100 + dayOfYear
      let days := era * daysPerEra + dayOfEra - daysToEraStart
      if minDays ≤ days ∧ days ≤ maxDays then some days else none

/-- The day of the week of a day count, 0 for Sunday. -/
def weekdayFromDays (days : Int) : Int := (days % 7 + 4) % 7

/-! ### The year of a day -/

variable {day : Int}

/-- The first day of a year of an era; behind the last one, the first day of the next era. -/
def yearStart (year : Nat) : Int := daysBeforeYear year + year / 400

theorem yearOfEra_mono {first second : Int} (ordered : first ≤ second) (positive : 0 ≤ first)
    (bounded : second < 146097) : yearOfEra first ≤ yearOfEra second := by
  have step : ∀ day : Int, 0 ≤ day → day < 146096 →
      day - day / 1460 + day / 36524 - day / 146096 ≤
        (day + 1) - (day + 1) / 1460 + (day + 1) / 36524 - (day + 1) / 146096 := by
    intro day some_ below
    omega
  obtain ⟨count, rfl⟩ := Int.le.dest ordered
  induction count with
  | zero => rw [Int.natCast_zero, Int.add_zero]
  | succ count inductionHypothesis =>
    refine (inductionHypothesis (by omega) (by omega)).trans ?_
    have next := step (first + count) (by omega) (by omega)
    unfold yearOfEra
    rw [Int.natCast_succ, ← Int.add_assoc]
    exact Int.ediv_le_ediv (by decide) next

/-- At the first and the last day of every year the formula is right. -/
theorem yearOfEra_ends : ∀ year < 400, yearOfEra (yearStart year) = year ∧
    yearOfEra (yearStart (year + 1) - 1) = year := by
  decide +kernel

theorem yearStart_bounds : ∀ year < 401, 0 ≤ yearStart year ∧ yearStart year ≤ 146097 := by
  decide +kernel

/-- The years of an era, with their lengths. -/
theorem year_length : ∀ year < 400, yearStart year = daysBeforeYear year ∧
    yearStart (year + 1) - daysBeforeYear year ≤ 366 ∧
    (yearStart (year + 1) - daysBeforeYear year = 366 → isLeapYear (year + 1) = true) := by
  decide +kernel

theorem exists_year {count : Nat} (positive : 0 ≤ day) (below : day < yearStart count) :
    ∃ year < count, yearStart year ≤ day ∧ day < yearStart (year + 1) := by
  induction count with
  | zero =>
    have first : yearStart 0 = 0 := by decide
    omega
  | succ count inductionHypothesis =>
    by_cases earlier : day < yearStart count
    · obtain ⟨year, small, held⟩ := inductionHypothesis earlier
      exact ⟨year, Nat.lt_succ_of_lt small, held⟩
    · exact ⟨count, Nat.lt_succ_self count, Int.not_lt.mp earlier, below⟩

/-- The year of a day is the one that has the day. -/
theorem yearOfEra_eq (positive : 0 ≤ day) (below : day < 146097) :
    ∃ year : Nat, year < 400 ∧ yearOfEra day = year ∧ yearStart year ≤ day ∧
      day < yearStart (year + 1) := by
  have whole : yearStart 400 = 146097 := by decide
  obtain ⟨year, small, first, last⟩ := exists_year positive (whole ▸ below)
  obtain ⟨atFirst, atLast⟩ := yearOfEra_ends year small
  have lower := yearOfEra_mono first (yearStart_bounds year (by omega)).1 below
  have upper := yearOfEra_mono (show day ≤ yearStart (year + 1) - 1 by omega) positive
    (by have := (yearStart_bounds (year + 1) (by omega)).2; omega)
  exact ⟨year, small, by omega, first, last⟩

/-- A year of an era begins in March: it has a day 365 if the February in it has a 29th. -/
theorem dayOfYear_bounds (positive : 0 ≤ day) (below : day < 146097) :
    (0 ≤ yearOfEra day ∧ yearOfEra day < 400) ∧ 0 ≤ day - daysBeforeYear (yearOfEra day) ∧
      day - daysBeforeYear (yearOfEra day) ≤ 365 ∧
      (day - daysBeforeYear (yearOfEra day) = 365 → isLeapYear (yearOfEra day + 1) = true) := by
  obtain ⟨year, small, same, first, last⟩ := yearOfEra_eq positive below
  obtain ⟨start, length, leap⟩ := year_length year small
  rw [same]
  exact ⟨⟨by omega, by omega⟩, by omega, by omega, fun late => leap (by omega)⟩

/-! ### Day counts come back -/

theorem isLeapYear_era (year era : Int) : isLeapYear (year + era * 400) = isLeapYear year := by
  unfold isLeapYear
  refine decide_eq_decide.mpr ?_
  omega

/-- The month that is so many months behind March. -/
def monthOf (shiftedMonth : Int) : Int :=
  if shiftedMonth < 10 then shiftedMonth + 3 else shiftedMonth - 9

/-- The months from March on, each with its number and its days. -/
theorem month_table {shiftedMonth : Int} (lower : 0 ≤ shiftedMonth) (upper : shiftedMonth ≤ 11)
    (year : Int) :
    (1 ≤ monthOf shiftedMonth ∧ monthOf shiftedMonth ≤ 12) ∧
      (if monthOf shiftedMonth > 2 then monthOf shiftedMonth - 3 else monthOf shiftedMonth + 9) =
        shiftedMonth ∧
      (monthOf shiftedMonth ≤ 2 ↔ 10 ≤ shiftedMonth) ∧
      (daysInMonth year (monthOf shiftedMonth) =
          some ((shiftedMonth * 153 + 155) / 5 - (shiftedMonth * 153 + 2) / 5) ∨
        shiftedMonth = 11 ∧
          daysInMonth year (monthOf shiftedMonth) = some (if isLeapYear year then 29 else 28)) := by
  interval_cases shiftedMonth
  all_goals refine ⟨by decide, by decide, by decide, ?_⟩
  any_goals exact .inl rfl
  exact .inr ⟨rfl, rfl⟩

/-- The date of a day of a year that begins in March. -/
def dateOf (year dayOfYear : Int) : CivilDate :=
  let shiftedMonth := (dayOfYear * 5 + 2) / 153
  ⟨if monthOf shiftedMonth ≤ 2 then year + 1 else year, monthOf shiftedMonth,
    dayOfYear - (shiftedMonth * 153 + 2) / 5 + 1⟩

/-- The date is one of the calendar, and the day count is found back from it. -/
theorem daysFromCivil_dateOf {year dayOfYear : Int} (positive : 0 ≤ dayOfYear)
    (below : dayOfYear ≤ 365) (leap : dayOfYear = 365 → isLeapYear (year + 1) = true) :
    (1 ≤ (dateOf year dayOfYear).month ∧ (dateOf year dayOfYear).month ≤ 12) ∧
      (1 ≤ (dateOf year dayOfYear).day ∧ (dateOf year dayOfYear).day ≤ 31) ∧
      (dayOfYear < 306 ∧ (dateOf year dayOfYear).year = year ∨
        306 ≤ dayOfYear ∧ (dateOf year dayOfYear).year = year + 1) ∧
      daysFromCivil (dateOf year dayOfYear) =
        let days := year / 400 * daysPerEra + (daysBeforeYear (year % 400) + dayOfYear) -
          daysToEraStart
        if minDays ≤ days ∧ days ≤ maxDays then some days else none := by
  have lower : 0 ≤ (dayOfYear * 5 + 2) / 153 := by omega
  have upper : (dayOfYear * 5 + 2) / 153 ≤ 11 := by omega
  have table := month_table lower upper
    (if monthOf ((dayOfYear * 5 + 2) / 153) ≤ 2 then year + 1 else year)
  unfold dateOf
  dsimp only
  have first : 0 ≤ dayOfYear - ((dayOfYear * 5 + 2) / 153 * 153 + 2) / 5 := by omega
  have last : dayOfYear < ((dayOfYear * 5 + 2) / 153 * 153 + 155) / 5 := by omega
  have late : 10 ≤ (dayOfYear * 5 + 2) / 153 ↔ 306 ≤ dayOfYear := by omega
  have wide : ((dayOfYear * 5 + 2) / 153 * 153 + 155) / 5 -
      ((dayOfYear * 5 + 2) / 153 * 153 + 2) / 5 ≤ 31 := by omega
  generalize (dayOfYear * 5 + 2) / 153 = shiftedMonth at *
  obtain ⟨month, back, early, days⟩ := table
  refine ⟨month, ⟨by omega, by omega⟩, ?_, ?_⟩
  · split
    · rename_i second
      exact .inr ⟨late.mp (early.mp second), rfl⟩
    · rename_i first
      exact .inl ⟨Int.not_le.mp fun behind => first (early.mpr (late.mpr behind)), rfl⟩
  · have fits : ∃ length, daysInMonth (if monthOf shiftedMonth ≤ 2 then year + 1 else year)
        (monthOf shiftedMonth) = some length ∧
        dayOfYear - (shiftedMonth * 153 + 2) / 5 + 1 ≤ length := by
      rcases days with plain | ⟨february, counted⟩
      · exact ⟨_, plain, by omega⟩
      · refine ⟨_, counted, ?_⟩
        rw [if_pos (early.mpr (by omega)), february]
        split
        · omega
        · rename_i common
          have short : dayOfYear ≠ 365 := fun leapDay => common (leap leapDay)
          omega
    obtain ⟨length, counted, inMonth⟩ := fits
    have kept : (if monthOf shiftedMonth ≤ 2 then
        (if monthOf shiftedMonth ≤ 2 then year + 1 else year) - 1
        else if monthOf shiftedMonth ≤ 2 then year + 1 else year) = year := by
      split
      · exact Int.add_sub_cancel year 1
      · rfl
    have order : (shiftedMonth * 153 + 2) / 5 +
        (dayOfYear - (shiftedMonth * 153 + 2) / 5 + 1) - 1 = dayOfYear := by omega
    unfold daysFromCivil
    dsimp only
    rw [counted]
    dsimp only
    rw [if_neg (by omega), kept, back, order]
    rfl

/-- A day count is the day count of its date, and its date is one of the calendar. -/
theorem daysFromCivil_civilFromDays {days : Int} (within : minDays ≤ days ∧ days ≤ maxDays) :
    ∃ date, civilFromDays days = some date ∧ daysFromCivil date = some days ∧
      (1 ≤ date.month ∧ date.month ≤ 12) ∧ (1 ≤ date.day ∧ date.day ≤ 31) ∧
      (0 ≤ date.year ∧ date.year ≤ 9999) := by
  have era : 0 ≤ (days + daysToEraStart) % daysPerEra ∧
      (days + daysToEraStart) % daysPerEra < 146097 := by
    unfold daysPerEra
    omega
  have parts : (days + daysToEraStart) / daysPerEra * 146097 +
      (days + daysToEraStart) % daysPerEra = days + 719468 := by
    unfold daysPerEra daysToEraStart
    omega
  obtain ⟨⟨yearLow, yearHigh⟩, dayLow, dayHigh, leap⟩ := dayOfYear_bounds era.1 era.2
  have civil : civilFromDays days = some (dateOf
      (yearOfEra ((days + daysToEraStart) % daysPerEra) +
        (days + daysToEraStart) / daysPerEra * 400)
      ((days + daysToEraStart) % daysPerEra -
        daysBeforeYear (yearOfEra ((days + daysToEraStart) % daysPerEra)))) := if_pos within
  refine ⟨_, civil, ?_⟩
  generalize (days + daysToEraStart) / daysPerEra = cycle at *
  generalize (days + daysToEraStart) % daysPerEra = dayOfEra at *
  have lastYear : daysBeforeYear 399 = 145731 := by decide
  generalize yearOfEra dayOfEra = inEra at *
  generalize before : daysBeforeYear inEra = start at *
  obtain ⟨month, day, year, counted⟩ := @daysFromCivil_dateOf (inEra + cycle * 400)
    (dayOfEra - start) dayLow dayHigh fun leapDay => by
      rw [Int.add_right_comm, isLeapYear_era]
      exact leap leapDay
  have inCycle : (inEra + cycle * 400) / 400 = cycle ∧ (inEra + cycle * 400) % 400 = inEra := by
    omega
  have same : cycle * daysPerEra + (start + (dayOfEra - start)) - daysToEraStart = days := by
    unfold daysPerEra daysToEraStart
    omega
  rw [inCycle.1, inCycle.2, before] at counted
  dsimp only at counted
  rw [same, if_pos within] at counted
  refine ⟨counted, month, day, ?_⟩
  obtain ⟨lowest, highest⟩ := within
  unfold minDays at lowest
  unfold maxDays at highest
  have cycles : -1 ≤ cycle ∧ cycle ≤ 24 := by omega
  by_cases final : inEra = 399
  · rw [final, lastYear] at before
    omega
  · unfold daysBeforeYear at before
    omega

end ZeroServer.Date

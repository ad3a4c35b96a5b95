/-
This file models the formatter of dates: a template of 29 bytes that the day name, the date and the
time of day are put into. For the years of four digits the result is the text of its parts.
-/

import ZeroServer.Date.Civil
import ZeroServer.Http1.Types

namespace ZeroServer.Date

open Http1

/-- The last timestamp of a year of four digits: 9999-12-31 23:59:59. -/
def maxUnixSeconds : Nat := 253402300799

def secondsPerDay : Nat := 86400
def secondsPerHour : Nat := 3600
def secondsPerMinute : Nat := 60

/-- The day names, from Sunday on. -/
def dayNames : List Bytes := ["Sun", "Mon", "Tue", "Wed", "Thu", "Fri", "Sat"].map ascii

/-- The month names, from January on. -/
def monthNames : List Bytes :=
  ["Jan", "Feb", "Mar", "Apr", "May", "Jun", "Jul", "Aug", "Sep", "Oct", "Nov", "Dec"].map ascii

/-- Bytes put into a text at some place, if they fit. -/
def put (out : Bytes) (place : Nat) (bytes : Bytes) : Bytes :=
  if place + bytes.length ≤ out.length then
    out.take place ++ bytes ++ out.drop (place + bytes.length)
  else out

def digit (value : Nat) : UInt8 := UInt8.ofNat (48 + value % 10)

def twoDigits (value : Nat) : Bytes := [digit (value / 10), digit value]

def fourDigits (value : Nat) : Bytes :=
  [digit (value / 1000), digit (value / 100 % 10), digit (value / 10 % 10), digit (value % 10)]

/-- Formats a timestamp, if its year has four digits. -/
def imfFixdate (unixSeconds : Nat) : Option Bytes :=
  if maxUnixSeconds < unixSeconds then none
  else do
    let days : Int := (unixSeconds / secondsPerDay : Nat)
    let secondOfDay := unixSeconds % secondsPerDay
    let date ← civilFromDays days
    let weekday ← dayNames[(weekdayFromDays days).toNat]?
    let month ← monthNames[date.month.toNat - 1]?
    let out := put (ascii "Sun, 00 Jan 0000 00:00:00 GMT") 0 weekday
    let out := put out 5 (twoDigits date.day.toNat)
    let out := put out 8 month
    let out := put out 12 (fourDigits date.year.toNat)
    let out := put out 17 (twoDigits (secondOfDay / secondsPerHour))
    let out := put out 20 (twoDigits (secondOfDay % secondsPerHour / secondsPerMinute))
    return put out 23 (twoDigits (secondOfDay % secondsPerMinute))

/-! ### The text of a date -/

/-- A date and a time of day as text. -/
def imfText (weekday month : Bytes) (day year hour minute second : Nat) : Bytes :=
  weekday ++ ascii ", " ++ twoDigits day ++ ascii " " ++ month ++ ascii " " ++ fourDigits year ++
    ascii " " ++ twoDigits hour ++ ascii ":" ++ twoDigits minute ++ ascii ":" ++ twoDigits second ++
    ascii " GMT"

/-- Bytes put behind what is done, over as many of the rest. -/
theorem put_next {done between old rest bytes tail : Bytes} {place : Nat}
    (split : tail = between ++ (old ++ rest)) (here : done.length + between.length = place)
    (same : old.length = bytes.length) :
    put (done ++ tail) place bytes = done ++ between ++ bytes ++ rest := by
  subst split here
  unfold put
  have room : done.length + between.length + bytes.length ≤
      (done ++ (between ++ (old ++ rest))).length := by
    simp only [List.length_append]
    omega
  have shape : done ++ (between ++ (old ++ rest)) = (done ++ between) ++ (old ++ rest) :=
    (List.append_assoc _ _ _).symm
  rw [if_pos room, shape, ← List.length_append, List.take_left, ← same, ← List.drop_drop,
    List.drop_left, List.drop_left]

/-- Names of three letters put into the template. -/
theorem put_text {weekday month : Bytes} (threeLetters : weekday.length = 3)
    (threeLetters' : month.length = 3) (day year hour minute second : Nat) :
    put (put (put (put (put (put (put (ascii "Sun, 00 Jan 0000 00:00:00 GMT") 0 weekday) 5
      (twoDigits day)) 8 month) 12 (fourDigits year)) 17 (twoDigits hour)) 20 (twoDigits minute)) 23
      (twoDigits second) = imfText weekday month day year hour minute second := by
  have two : ∀ value, (twoDigits value).length = 2 := fun _ => rfl
  have four : ∀ value, (fourDigits value).length = 4 := fun _ => rfl
  have first : put (ascii "Sun, 00 Jan 0000 00:00:00 GMT") 0 weekday =
      [] ++ [] ++ weekday ++ ascii ", 00 Jan 0000 00:00:00 GMT" :=
    @put_next [] [] (ascii "Sun") _ weekday _ 0 (by decide) rfl threeLetters.symm
  have gap : (ascii ", ").length = 2 ∧ (ascii " ").length = 1 ∧ (ascii ":").length = 1 := by decide
  rw [first, put_next (show ascii ", 00 Jan 0000 00:00:00 GMT" = ascii ", " ++ (ascii "00" ++
      ascii " Jan 0000 00:00:00 GMT") by decide)
      (by simp only [List.length_append, threeLetters, gap, List.length_nil]) (two day).symm,
    put_next (show ascii " Jan 0000 00:00:00 GMT" = ascii " " ++ (ascii "Jan" ++
      ascii " 0000 00:00:00 GMT") by decide)
      (by simp only [List.length_append, threeLetters, gap, two, List.length_nil])
      threeLetters'.symm,
    put_next (show ascii " 0000 00:00:00 GMT" = ascii " " ++ (ascii "0000" ++
      ascii " 00:00:00 GMT") by decide)
      (by simp only [List.length_append, threeLetters, threeLetters', gap, two, List.length_nil])
      (four year).symm,
    put_next (show ascii " 00:00:00 GMT" = ascii " " ++ (ascii "00" ++ ascii ":00:00 GMT")
      by decide)
      (by simp only [List.length_append, threeLetters, threeLetters', gap, two, four,
        List.length_nil]) (two hour).symm,
    put_next (show ascii ":00:00 GMT" = ascii ":" ++ (ascii "00" ++ ascii ":00 GMT")
      by decide)
      (by simp only [List.length_append, threeLetters, threeLetters', gap, two, four,
        List.length_nil]) (two minute).symm,
    put_next (show ascii ":00 GMT" = ascii ":" ++ (ascii "00" ++ ascii " GMT") by decide)
      (by simp only [List.length_append, threeLetters, threeLetters', gap, two, four,
        List.length_nil]) (two second).symm]
  rfl

theorem dayNames_get {index : Nat} (small : index < 7) :
    ∃ name, dayNames[index]? = some name ∧ name.length = 3 := by
  have all : ∀ index < 7, (dayNames[index]?.any fun name => name.length = 3) = true := by decide
  have here := all index small
  cases named : dayNames[index]? with
  | none =>
    rw [named] at here
    cases here
  | some name =>
    rw [named] at here
    exact ⟨name, rfl, of_decide_eq_true here⟩

theorem monthNames_get {index : Nat} (small : index < 12) :
    ∃ name, monthNames[index]? = some name ∧ name.length = 3 := by
  have all : ∀ index < 12, (monthNames[index]?.any fun name => name.length = 3) = true := by decide
  have here := all index small
  cases named : monthNames[index]? with
  | none =>
    rw [named] at here
    cases here
  | some name =>
    rw [named] at here
    exact ⟨name, rfl, of_decide_eq_true here⟩

/-- The parts of a timestamp. -/
structure Parts (unixSeconds : Nat) (date : CivilDate) : Prop where
  days : daysFromCivil date = some ((unixSeconds / secondsPerDay : Nat) : Int)
  month : 1 ≤ date.month ∧ date.month ≤ 12
  day : 1 ≤ date.day ∧ date.day ≤ 31
  year : 0 ≤ date.year ∧ date.year ≤ 9999

/-- Up to the last year of four digits a timestamp is formatted as the text of its parts. -/
theorem imfFixdate_text {unixSeconds : Nat} (small : unixSeconds ≤ maxUnixSeconds) :
    ∃ date weekday month, ∃ index < 7, Parts unixSeconds date ∧ dayNames[index]? = some weekday ∧
      monthNames[date.month.toNat - 1]? = some month ∧
      imfFixdate unixSeconds = some (imfText weekday month date.day.toNat date.year.toNat
        (unixSeconds % secondsPerDay / secondsPerHour)
        (unixSeconds % secondsPerDay % secondsPerHour / secondsPerMinute)
        (unixSeconds % secondsPerDay % secondsPerMinute)) := by
  have within : minDays ≤ ((unixSeconds / secondsPerDay : Nat) : Int) ∧
      ((unixSeconds / secondsPerDay : Nat) : Int) ≤ maxDays := by
    unfold maxUnixSeconds at small
    unfold minDays maxDays secondsPerDay
    omega
  obtain ⟨date, civil, counted, month, day, year⟩ := daysFromCivil_civilFromDays within
  have weekdays : (weekdayFromDays ((unixSeconds / secondsPerDay : Nat) : Int)).toNat < 7 := by
    unfold weekdayFromDays
    omega
  obtain ⟨weekday, named, letters⟩ := dayNames_get weekdays
  obtain ⟨monthName, monthNamed, monthLetters⟩ :=
    monthNames_get (show date.month.toNat - 1 < 12 by omega)
  refine ⟨date, weekday, monthName, _, weekdays, ⟨counted, month, day, year⟩, named, monthNamed, ?_⟩
  unfold imfFixdate
  rw [if_neg (Nat.not_lt_of_le small)]
  simp only [civil, named, monthNamed, Option.bind_eq_bind, Option.bind_some]
  exact congrArg some (put_text letters monthLetters _ _ _ _ _)

end ZeroServer.Date

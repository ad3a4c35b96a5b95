/-
This file models the parser of dates in the three formats a recipient accepts, a cursor that moves
over the value, and proves that it reads every formatted timestamp back.
-/

import ZeroServer.Date.Imf
import ZeroServer.Http1.Grammar
import ZeroServer.Lib.Numeral

namespace ZeroServer.Date

open Http1 Lib

/-- The long day names, from Sunday on. -/
def longDayNames : List Bytes :=
  ["Sunday", "Monday", "Tuesday", "Wednesday", "Thursday", "Friday", "Saturday"].map ascii

/-- The fields of a date and a time of day, before the calendar is applied. -/
structure Fields where
  year : Int
  month : Nat
  day : Nat
  hour : Nat
  minute : Nat
  second : Nat
  deriving DecidableEq

/-! ### The cursor -/

/-- A cursor over the rest of the value. -/
abbrev Cursor := StateT Bytes Option

namespace Cursor

/-- The rest behind a prefix. -/
def stripPrefix (expected rest : Bytes) : Option Bytes :=
  if expected <+: rest then some (rest.drop expected.length) else none

def literal (expected : Bytes) : Cursor Unit := fun rest =>
  (stripPrefix expected rest).map fun rest => ((), rest)

/-- One of some names, from an index on. -/
def oneOfFrom : Nat → List Bytes → Cursor Nat
  | _, [], _ => none
  | index, name :: names, rest =>
    match stripPrefix name rest with
    | some rest => some (index, rest)
    | none => oneOfFrom (index + 1) names rest

/-- One of some names, as its index. -/
def oneOf (names : List Bytes) : Cursor Nat := oneOfFrom 0 names

/-- Exactly so many digits. -/
def digits (count : Nat) : Cursor Nat := fun rest =>
  if count ≤ rest.length ∧ (rest.take count).all isAsciiDigit = true then
    some (numeral 10 0 ((rest.take count).map fun byte => byte.toNat - 48), rest.drop count)
  else none

def timeOfDay : Cursor (Nat × Nat × Nat) := do
  let hour ← digits 2
  literal (ascii ":")
  let minute ← digits 2
  literal (ascii ":")
  let second ← digits 2
  return (hour, minute, second)

def month : Cursor Nat := do
  let index ← oneOf monthNames
  return index + 1

/-- What a cursor read, if nothing is left. -/
def whole {Value : Type} (cursor : Cursor Value) (input : Bytes) : Option Value :=
  match cursor input with
  | some (value, []) => some value
  | _ => none

end Cursor

open Cursor

/-! ### The three formats -/

/-- `day-name "," SP date1 SP time-of-day SP GMT`. -/
def imfFixdateFields : Cursor Fields := do
  let _ ← oneOf dayNames
  literal (ascii ", ")
  let day ← digits 2
  literal (ascii " ")
  let month ← month
  literal (ascii " ")
  let year ← digits 4
  literal (ascii " ")
  let (hour, minute, second) ← timeOfDay
  literal (ascii " GMT")
  return ⟨year, month, day, hour, minute, second⟩

/-- The year of two digits, in the century of the present one or the one before. -/
def fullYear (nowYear : Int) (twoDigits : Nat) : Int :=
  let year := nowYear.tdiv 100 * 100 + twoDigits
  if year - nowYear > 50 then year - 100 else year

/-- `day-name-l "," SP date2 SP time-of-day SP GMT`. -/
def rfc850Fields (nowYear : Int) : Cursor Fields := do
  let _ ← oneOf longDayNames
  literal (ascii ", ")
  let day ← digits 2
  literal (ascii "-")
  let month ← month
  literal (ascii "-")
  let twoDigits ← digits 2
  literal (ascii " ")
  let (hour, minute, second) ← timeOfDay
  literal (ascii " GMT")
  return ⟨fullYear nowYear twoDigits, month, day, hour, minute, second⟩

/-- The day of a month, of two digits or of a space and one. -/
def paddedDay : Cursor Nat := fun rest =>
  match literal (ascii " ") rest with
  | some ((), rest) => digits 1 rest
  | none => digits 2 rest

/-- `day-name SP date3 SP time-of-day SP year`. -/
def asctimeFields : Cursor Fields := do
  let _ ← oneOf dayNames
  literal (ascii " ")
  let month ← month
  literal (ascii " ")
  let day ← paddedDay
  literal (ascii " ")
  let (hour, minute, second) ← timeOfDay
  literal (ascii " ")
  let year ← digits 4
  return ⟨year, month, day, hour, minute, second⟩

/-- The timestamp of the fields; a leap second counts as the next minute, and a date before 1970 is
0. -/
def unixOf (fields : Fields) : Option Nat :=
  if 23 < fields.hour ∨ 59 < fields.minute ∨ 60 < fields.second then none
  else
    match daysFromCivil ⟨fields.year, fields.month, fields.day⟩ with
    | none => none
    | some days =>
      if days < 0 then some 0
      else
        some (days.toNat * secondsPerDay +
          (fields.hour * secondsPerHour + fields.minute * secondsPerMinute + fields.second))

/-- Parses a date in any of the three formats. -/
def parseHttpDate (value : Bytes) (now : Nat) : Option Nat :=
  match value with
  | [] => none
  | _ =>
    if value[3]? = some 44 then (imfFixdateFields.whole value).bind unixOf
    else if value[3]? = some 32 then (asctimeFields.whole value).bind unixOf
    else do
      let date ← civilFromDays (now / secondsPerDay : Nat)
      (rfc850Fields date.year).whole value >>= unixOf

/-! ### What is formatted is read back -/

namespace Cursor

theorem literal_append (expected rest : Bytes) :
    literal expected (expected ++ rest) = some ((), rest) := by
  unfold literal stripPrefix
  rw [if_pos (List.prefix_append _ _), List.drop_left]
  rfl

/-- A name of a list is read if no other begins with its letters. -/
theorem oneOfFrom_append {names : List Bytes} {name : Bytes} {index first : Nat}
    (named : names[index]? = some name) (same : ∀ other ∈ names, other.length = name.length)
    (once : names.Nodup) (rest : Bytes) :
    oneOfFrom first names (name ++ rest) = some (first + index, rest) := by
  induction names generalizing index first with
  | nil => cases named
  | cons other names inductionHypothesis =>
    obtain ⟨fresh, once⟩ := List.nodup_cons.mp once
    unfold oneOfFrom stripPrefix
    cases index with
    | zero =>
      cases named
      rw [if_pos (List.prefix_append _ _), List.drop_left]
      rfl
    | succ index =>
      have apart : ¬ other <+: name ++ rest := by
        intro begins
        have within : other <+: name := List.prefix_of_prefix_length_le begins
          (List.prefix_append _ _) (same other List.mem_cons_self).le
        have equal := within.eq_of_length (same other List.mem_cons_self)
        exact fresh (equal ▸ List.mem_of_getElem? named)
      rw [if_neg apart]
      dsimp only
      rw [inductionHypothesis named (fun other member => same other (List.mem_cons_of_mem _ member))
        once, Nat.add_right_comm, Nat.add_assoc]

theorem digit_read (value : Nat) : isAsciiDigit (digit value) = true ∧
    (digit value).toNat - 48 = value % 10 := by
  have table : ∀ value < 10, isAsciiDigit (UInt8.ofNat (48 + value)) = true ∧
      (UInt8.ofNat (48 + value)).toNat - 48 = value := by decide
  exact table (value % 10) (Nat.mod_lt _ (by decide))

theorem digits_twoDigits {value : Nat} (small : value < 100) (rest : Bytes) :
    digits 2 (twoDigits value ++ rest) = some (value, rest) := by
  unfold digits twoDigits
  have first := digit_read (value / 10)
  have second := digit_read value
  rw [if_pos ⟨by simp, by simp [first.1, second.1]⟩]
  simp only [List.cons_append, List.nil_append, List.take_succ_cons, List.take_zero, List.map_cons,
    List.map_nil, numeral_cons, numeral_nil, List.drop_succ_cons, List.drop_zero, first.2, second.2]
  refine congrArg (fun read => some (read, rest)) ?_
  omega

theorem digits_fourDigits {value : Nat} (small : value < 10000) (rest : Bytes) :
    digits 4 (fourDigits value ++ rest) = some (value, rest) := by
  unfold digits fourDigits
  have first := digit_read (value / 1000)
  have second := digit_read (value / 100 % 10)
  have third := digit_read (value / 10 % 10)
  have fourth := digit_read (value % 10)
  rw [if_pos ⟨by simp, by simp [first.1, second.1, third.1, fourth.1]⟩]
  simp only [List.cons_append, List.nil_append, List.take_succ_cons, List.take_zero, List.map_cons,
    List.map_nil, numeral_cons, numeral_nil, List.drop_succ_cons, List.drop_zero, first.2, second.2,
    third.2, fourth.2]
  refine congrArg (fun read => some (read, rest)) ?_
  omega

theorem bind_read {First Second : Type} {cursor : Cursor First} {next : First → Cursor Second}
    {value : First} {input rest : Bytes} (read : cursor input = some (value, rest)) :
    (cursor >>= next) input = next value rest := by
  show (cursor input >>= fun result => next result.1 result.2) = _
  rw [read]
  rfl

theorem timeOfDay_append {hour minute second : Nat} (hours : hour < 100) (minutes : minute < 100)
    (seconds : second < 100) (rest : Bytes) :
    timeOfDay (twoDigits hour ++ (ascii ":" ++ (twoDigits minute ++ (ascii ":" ++
      (twoDigits second ++ rest))))) = some ((hour, minute, second), rest) := by
  unfold timeOfDay
  rw [bind_read (digits_twoDigits hours _), bind_read (literal_append _ _),
    bind_read (digits_twoDigits minutes _), bind_read (literal_append _ _),
    bind_read (digits_twoDigits seconds _)]
  rfl

theorem month_append {index : Nat} {name : Bytes} (named : monthNames[index]? = some name)
    (rest : Bytes) : month (name ++ rest) = some (index + 1, rest) := by
  have lengths : ∀ other ∈ monthNames, other.length = 3 := by decide
  have read := @oneOfFrom_append monthNames name index 0 named (fun other member =>
    (lengths other member).trans (lengths name (List.mem_of_getElem? named)).symm) (by decide) rest
  unfold month
  rw [bind_read (show oneOf monthNames (name ++ rest) = _ from read), Nat.zero_add]
  rfl

end Cursor

theorem imfFixdateFields_text {weekday month : Bytes} {index monthIndex day year hour minute second : Nat} (named : dayNames[index]? = some weekday)
    (monthNamed : monthNames[monthIndex]? = some month) (days : day < 100) (years : year < 10000)
    (hours : hour < 100) (minutes : minute < 100) (seconds : second < 100) :
    imfFixdateFields.whole (imfText weekday month day year hour minute second) =
      some ⟨year, monthIndex + 1, day, hour, minute, second⟩ := by
  have lengths : ∀ other ∈ dayNames, other.length = 3 := by decide
  have weekdayRead := fun rest => @oneOfFrom_append dayNames weekday index 0 named
    (fun other member => (lengths other member).trans
      (lengths weekday (List.mem_of_getElem? named)).symm) (by decide) rest
  have last : literal (ascii " GMT") (ascii " GMT") = some ((), []) := by decide
  unfold Cursor.whole imfText imfFixdateFields
  simp only [List.append_assoc]
  rw [bind_read (show oneOf dayNames (weekday ++ _) = _ from weekdayRead _),
    bind_read (literal_append _ _), bind_read (digits_twoDigits days _),
    bind_read (literal_append _ _), bind_read (month_append monthNamed _),
    bind_read (literal_append _ _), bind_read (digits_fourDigits years _),
    bind_read (literal_append _ _), bind_read (timeOfDay_append hours minutes seconds _),
    bind_read last]
  rfl

theorem parseHttpDate_comma {value : Bytes} (fourth : value[3]? = some 44) (now : Nat) :
    parseHttpDate value now = (imfFixdateFields.whole value).bind unixOf := by
  cases value with
  | nil => cases fourth
  | cons first rest =>
    unfold parseHttpDate
    dsimp only
    rw [if_pos fourth]

variable {unixSeconds : Nat}

/-- The fields of a timestamp come to it. -/
theorem unixOf_parts {date : CivilDate} (parts : Parts unixSeconds date) :
    unixOf ⟨date.year.toNat, date.month.toNat - 1 + 1, date.day.toNat,
      unixSeconds % secondsPerDay / secondsPerHour,
      unixSeconds % secondsPerDay % secondsPerHour / secondsPerMinute,
      unixSeconds % secondsPerDay % secondsPerMinute⟩ = some unixSeconds := by
  obtain ⟨counted, month, day, year⟩ := parts
  have same : (⟨(date.year.toNat : Int), ((date.month.toNat - 1 + 1 : Nat) : Int),
      (date.day.toNat : Int)⟩ : CivilDate) = date := by
    obtain ⟨yearOf, monthOf, dayOf⟩ := date
    dsimp only at month day year ⊢
    rw [CivilDate.mk.injEq]
    omega
  unfold secondsPerDay at counted
  unfold unixOf secondsPerHour secondsPerMinute secondsPerDay
  dsimp only
  rw [if_neg (by omega), same, counted]
  dsimp only
  rw [if_neg (by omega), Int.toNat_natCast]
  refine congrArg some ?_
  omega

/-- Every timestamp that is formatted is read back, whatever the time. -/
theorem parseHttpDate_imfFixdate (small : unixSeconds ≤ maxUnixSeconds) (now : Nat) :
    ∃ text, imfFixdate unixSeconds = some text ∧ parseHttpDate text now = some unixSeconds := by
  obtain ⟨date, weekday, month, index, inWeek, parts, named, monthNamed, formatted⟩ :=
    imfFixdate_text small
  have letters : weekday.length = 3 := by
    obtain ⟨other, known, length⟩ := dayNames_get inWeek
    rw [named] at known
    cases known
    exact length
  refine ⟨_, formatted, ?_⟩
  obtain ⟨-, months, days, years⟩ := id parts
  have read := imfFixdateFields_text named monthNamed (show date.day.toNat < 100 by omega)
    (show date.year.toNat < 10000 by omega)
    (show unixSeconds % secondsPerDay / secondsPerHour < 100 by
      unfold secondsPerDay secondsPerHour; omega)
    (show unixSeconds % secondsPerDay % secondsPerHour / secondsPerMinute < 100 by
      unfold secondsPerDay secondsPerHour secondsPerMinute; omega)
    (show unixSeconds % secondsPerDay % secondsPerMinute < 100 by
      unfold secondsPerDay secondsPerMinute; omega)
  rw [parseHttpDate_comma, read]
  · exact unixOf_parts parts
  · obtain ⟨a, b, c, rfl⟩ := List.length_eq_three.mp letters
    rfl

end ZeroServer.Date

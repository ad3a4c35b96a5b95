/-
This file is about binary64 numbers as the results of correct rounding: a ratio becomes the nearest
multiple of the unit its size allows, ties to even, and is infinite from the midpoint above the
largest finite number on.
-/

import Mathlib.Data.Nat.Log
import Mathlib.Tactic.Ring

namespace ZeroServer.Lib

/-- A binary64 number; a finite one is a multiple of the least positive one. -/
inductive Binary64 where
  | finite (negative : Bool) (units : Nat)
  | infinite (negative : Bool)
  | nan
  deriving DecidableEq

namespace Binary64

def isFinite : Binary64 → Bool
  | finite _ _ => true
  | _ => false

/-- The units in one of a finite number: the least positive one is `2 ^ -1074`. -/
def unitsPerOne : Nat := 2 ^ 1074

/-- Round a ratio of units to the precision a number of its size has, ties to even. -/
def nearestUnits (numerator denominator : Nat) : Nat :=
  let spacing := 2 ^ (Nat.log 2 (numerator / denominator) - 52)
  let step := denominator * spacing
  let steps := numerator / step
  let rest := numerator % step
  (if step < 2 * rest ∨ (step = 2 * rest ∧ steps % 2 = 1) then steps + 1 else steps) * spacing

/-- The number nearest to a ratio. -/
def ofRatio (negative : Bool) (numerator denominator : Nat) : Binary64 :=
  let units := nearestUnits (numerator * unitsPerOne) denominator
  if units < 2 ^ (2045 + 53) then finite negative units else infinite negative

/-- The number nearest to some digits times a power of ten. -/
def ofDecimal (negative : Bool) (digits : Nat) (exponent : Int) : Binary64 :=
  ofRatio negative (digits * 10 ^ exponent.toNat) (10 ^ (-exponent).toNat)

/-! ### What is finite -/

section Rounding

variable {numerator denominator : Nat}

variable {shift : Nat}

/-- There are fewer steps than the ratio has room for. -/
theorem steps_lt {bits : Nat} (small : numerator < denominator * 2 ^ (shift + bits)) :
    numerator / (denominator * 2 ^ shift) < 2 ^ bits := by
  refine Nat.div_lt_of_lt_mul ?_
  rwa [Nat.mul_assoc, ← Nat.pow_add]

/-- Below a binade nothing is rounded past its start. -/
theorem nearestUnits_below (small : numerator < denominator * 2 ^ (shift + 52)) :
    nearestUnits numerator denominator ≤ 2 ^ (shift + 52) := by
  have ratio : numerator / denominator < 2 ^ (shift + 52) := Nat.div_lt_of_lt_mul small
  have spaced : Nat.log 2 (numerator / denominator) - 52 ≤ shift + 52 := by
    by_cases zero : numerator / denominator = 0
    · rw [zero, Nat.log_zero_right]
      exact Nat.zero_le _
    · have log := Nat.log_lt_of_lt_pow zero ratio
      omega
  unfold nearestUnits
  generalize Nat.log 2 (numerator / denominator) - 52 = spacing at spaced ⊢
  have split : 2 ^ (shift + 52) = 2 ^ (shift + 52 - spacing) * 2 ^ spacing := by
    rw [← Nat.pow_add, Nat.sub_add_cancel spaced]
  have few : numerator / (denominator * 2 ^ spacing) < 2 ^ (shift + 52 - spacing) := by
    refine steps_lt ?_
    rwa [Nat.add_sub_cancel' spaced]
  rw [split]
  refine Nat.mul_le_mul_right _ ?_
  split
  · exact few
  · exact Nat.le_of_lt few

/-- In a binade what lies behind its last midpoint is rounded to its end. -/
theorem nearestUnits_inside (positive : 0 < denominator)
    (low : denominator * 2 ^ (shift + 52) ≤ numerator)
    (high : numerator < denominator * 2 ^ (shift + 53)) :
    nearestUnits numerator denominator < 2 ^ (shift + 53) ↔
      2 * numerator < denominator * 2 ^ shift * (2 ^ 54 - 1) := by
  have atLeast : 2 ^ (shift + 52) ≤ numerator / denominator :=
    (Nat.le_div_iff_mul_le positive).mpr (Nat.mul_comm _ _ ▸ low)
  have spacing : Nat.log 2 (numerator / denominator) - 52 = shift := by
    have some_ : numerator / denominator ≠ 0 := fun zero => by
      rw [zero] at atLeast
      exact absurd atLeast (Nat.not_le_of_lt (Nat.two_pow_pos _))
    have lower := (Nat.le_log_iff_pow_le Nat.one_lt_two some_).mpr atLeast
    have upper := Nat.log_lt_of_lt_pow some_ (Nat.div_lt_of_lt_mul high)
    omega
  have few : numerator / (denominator * 2 ^ shift) < 2 ^ 53 := steps_lt high
  have whole := Nat.div_add_mod numerator (denominator * 2 ^ shift)
  have rest := Nat.mod_lt numerator (Nat.mul_pos positive (Nat.two_pow_pos shift))
  unfold nearestUnits
  rw [spacing]
  dsimp only
  rw [Nat.add_comm shift, Nat.pow_add, Nat.mul_lt_mul_right (Nat.two_pow_pos shift)]
  generalize numerator % (denominator * 2 ^ shift) = left at whole rest ⊢
  generalize numerator / (denominator * 2 ^ shift) = steps at whole few ⊢
  generalize denominator * 2 ^ shift = step at whole rest ⊢
  by_cases last : steps = 2 ^ 53 - 1
  · subst last
    have odd : (2 ^ 53 - 1) % 2 = 1 := rfl
    split <;> omega
  · have earlier : step * (steps + 1) ≤ step * (2 ^ 53 - 1) :=
      Nat.mul_le_mul_left _ (by omega)
    rw [Nat.mul_add_one] at earlier
    refine iff_of_true ?_ (by omega)
    split <;> omega

/-- Behind a binade everything is rounded past its end. -/
theorem nearestUnits_behind (positive : 0 < denominator)
    (high : denominator * 2 ^ (shift + 53) ≤ numerator) :
    2 ^ (shift + 53) ≤ nearestUnits numerator denominator := by
  have ratio : 2 ^ (shift + 53) ≤ numerator / denominator :=
    (Nat.le_div_iff_mul_le positive).mpr (Nat.mul_comm _ _ ▸ high)
  have some_ : numerator / denominator ≠ 0 := fun zero => by
    rw [zero] at ratio
    exact absurd ratio (Nat.not_le_of_lt (Nat.two_pow_pos _))
  have log := (Nat.le_log_iff_pow_le Nat.one_lt_two some_).mpr ratio
  have power := Nat.pow_log_le_self 2 some_
  unfold nearestUnits
  generalize Nat.log 2 (numerator / denominator) = exponent at log power ⊢
  have split : 2 ^ exponent = 2 ^ 52 * 2 ^ (exponent - 52) := by
    rw [← Nat.pow_add, Nat.add_sub_cancel' (by omega)]
  have steps : 2 ^ 52 ≤ numerator / (denominator * 2 ^ (exponent - 52)) := by
    rw [← Nat.div_div_eq_div_mul, Nat.le_div_iff_mul_le (Nat.two_pow_pos _), ← split]
    exact power
  calc 2 ^ (shift + 53) ≤ 2 ^ exponent := Nat.pow_le_pow_right (by decide) log
    _ = 2 ^ 52 * 2 ^ (exponent - 52) := split
    _ ≤ _ := Nat.mul_le_mul_right _ (by split <;> omega)

/-- A ratio is rounded into a binade or below it up to the last midpoint. -/
theorem nearestUnits_lt (positive : 0 < denominator) (shift : Nat) :
    nearestUnits numerator denominator < 2 ^ (shift + 53) ↔
      2 * numerator < denominator * 2 ^ shift * (2 ^ 54 - 1) := by
  have double : denominator * 2 ^ (shift + 53) = denominator * 2 ^ shift * 2 ^ 53 := by
    rw [Nat.pow_add, Nat.mul_assoc]
  have single : denominator * 2 ^ (shift + 52) = denominator * 2 ^ shift * 2 ^ 52 := by
    rw [Nat.pow_add, Nat.mul_assoc]
  by_cases small : numerator < denominator * 2 ^ (shift + 52)
  · refine iff_of_true ?_ ?_
    · exact Nat.lt_of_le_of_lt (nearestUnits_below small)
        (Nat.pow_lt_pow_right (by decide) (by omega))
    · rw [single] at small
      omega
  · by_cases inside : numerator < denominator * 2 ^ (shift + 53)
    · exact nearestUnits_inside positive (Nat.le_of_not_lt small) inside
    · have high := Nat.le_of_not_lt inside
      refine iff_of_false (Nat.not_lt_of_le (nearestUnits_behind positive high)) ?_
      rw [double] at high
      omega

end Rounding

/-- The least number that is rounded to infinity, `2 ^ 1024 - 2 ^ 970`. -/
def overflow : Nat := 2 ^ 970 * (2 ^ 54 - 1)

theorem isFinite_ofRatio {numerator denominator : Nat} (negative : Bool)
    (positive : 0 < denominator) :
    (ofRatio negative numerator denominator).isFinite = true ↔
      numerator < denominator * overflow := by
  have scaled : denominator * 2 ^ 2045 * (2 ^ 54 - 1) =
      2 * (denominator * overflow * unitsPerOne) := by
    unfold overflow unitsPerOne
    rw [show 2045 = 1 + (970 + 1074) from rfl, Nat.pow_add 2 1, Nat.pow_add 2 970, Nat.pow_one]
    generalize 2 ^ 970 = low
    generalize 2 ^ 1074 = units
    ring
  have room := @nearestUnits_lt (numerator * unitsPerOne) denominator positive 2045
  rw [scaled, Nat.mul_lt_mul_left (by decide),
    Nat.mul_lt_mul_right (show 0 < unitsPerOne from Nat.two_pow_pos 1074)] at room
  rw [← room]
  unfold ofRatio
  dsimp only
  split
  · exact iff_of_true rfl ‹_›
  · exact iff_of_false nofun ‹_›

/-- Digits times a power of ten are finite below the least number that overflows. -/
theorem isFinite_ofDecimal (negative : Bool) (digits : Nat) (exponent : Int) :
    (ofDecimal negative digits exponent).isFinite = true ↔
      digits * 10 ^ exponent.toNat < 10 ^ (-exponent).toNat * overflow :=
  isFinite_ofRatio negative (Nat.pow_pos (by decide))

end Binary64

end ZeroServer.Lib

/-
This file is about positional numerals read from the most significant digit, the way a parser
meets them: each digit scales what was read and is added to it.
-/

import Mathlib.Data.Nat.Digits.Lemmas

namespace ZeroServer.Lib

/-- The value of a numeral whose digits follow those already read. -/
def numeral (base start : Nat) (digits : List Nat) : Nat :=
  digits.foldl (fun value digit => value * base + digit) start

@[simp] theorem numeral_nil (base start : Nat) : numeral base start [] = start := rfl

@[simp] theorem numeral_cons (base start digit : Nat) (rest : List Nat) :
    numeral base start (digit :: rest) = numeral base (start * base + digit) rest := rfl

theorem numeral_append (base start : Nat) (first second : List Nat) :
    numeral base start (first ++ second) = numeral base (numeral base start first) second :=
  List.foldl_append

/-- More digits do not make a numeral smaller. -/
theorem le_numeral {base : Nat} (positive : 0 < base) (start : Nat) (digits : List Nat) :
    start ≤ numeral base start digits := by
  induction digits generalizing start with
  | nil => exact Nat.le_refl start
  | cons digit rest inductionHypothesis =>
    calc start ≤ start * base := Nat.le_mul_of_pos_right start positive
      _ ≤ start * base + digit := Nat.le_add_right _ _
      _ ≤ numeral base start (digit :: rest) := inductionHypothesis _

/-- Read from the other end, a numeral is what Mathlib calls `Nat.ofDigits`. -/
theorem numeral_reverse (base : Nat) (digits : List Nat) :
    numeral base 0 digits.reverse = Nat.ofDigits base digits := by
  induction digits with
  | nil => rfl
  | cons digit rest inductionHypothesis =>
    rw [List.reverse_cons, numeral_append, inductionHypothesis, Nat.ofDigits_cons, numeral_cons,
      numeral_nil, Nat.mul_comm, Nat.add_comm]

variable {base : Nat} {digits : List Nat}

/-- A numeral is below the power of its base that its length gives. -/
theorem numeral_lt_pow (large : 1 < base) (small : ∀ digit ∈ digits, digit < base) :
    numeral base 0 digits < base ^ digits.length := by
  rw [← List.reverse_reverse digits, numeral_reverse, List.length_reverse]
  exact Nat.ofDigits_lt_base_pow_length large fun digit member =>
    small digit (List.mem_reverse.mp member)

/-! ### Shortest numerals -/

/-- The digits of a number from the least significant one on, with one digit for zero. -/
def lowDigits (base number : Nat) : List Nat :=
  if number = 0 then [0] else Nat.digits base number

theorem lowDigits_eq (large : 1 < base) (number : Nat) :
    lowDigits base number =
      number % base :: if number / base = 0 then [] else lowDigits base (number / base) := by
  unfold lowDigits
  by_cases zero : number = 0
  · rw [if_pos zero, zero, Nat.zero_mod, Nat.zero_div, if_pos rfl]
  · rw [if_neg zero, Nat.digits_def' large (Nat.pos_of_ne_zero zero)]
    by_cases last : number / base = 0
    · rw [if_pos last, last, Nat.digits_zero]
    · rw [if_neg last, if_neg last]

theorem lowDigits_ne_nil {base : Nat} (large : 1 < base) (number : Nat) :
    lowDigits base number ≠ [] := by
  rw [lowDigits_eq large]
  exact List.cons_ne_nil _ _

theorem lowDigits_lt (large : 1 < base) (number : Nat) :
    ∀ digit ∈ lowDigits base number, digit < base := by
  intro digit member
  unfold lowDigits at member
  by_cases zero : number = 0
  · rw [if_pos zero, List.mem_singleton] at member
    omega
  · rw [if_neg zero] at member
    exact Nat.digits_lt_base large member

/-- The digits of a number, most significant first, are a numeral of it. -/
theorem numeral_lowDigits (base number : Nat) :
    numeral base 0 (lowDigits base number).reverse = number := by
  unfold lowDigits
  by_cases zero : number = 0
  · rw [if_pos zero, zero]
    simp
  · rw [if_neg zero, numeral_reverse, Nat.ofDigits_digits]

theorem length_lowDigits_le {count number : Nat} (large : 1 < base) (some_ : 0 < count)
    (small : number < base ^ count) : (lowDigits base number).length ≤ count := by
  unfold lowDigits
  by_cases zero : number = 0
  · rw [if_pos zero]
    exact some_
  · rw [if_neg zero]
    exact (Nat.digits_length_le_iff large number).mpr small

/-- No numeral of a number is shorter. -/
theorem lowDigits_shortest {number : Nat} (large : 1 < base) (some_ : digits ≠ [])
    (small : ∀ digit ∈ digits, digit < base) (same : numeral base 0 digits = number) :
    (lowDigits base number).length ≤ digits.length := by
  refine length_lowDigits_le large (List.length_pos_of_ne_nil some_) ?_
  rw [← same]
  exact numeral_lt_pow large small

end ZeroServer.Lib

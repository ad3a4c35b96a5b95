/-
This file is about numbers as strings of bits, the most significant bit first: fixed-width strings,
what shifting and joining numbers does to them, and octets as strings of eight bits.
-/

import Mathlib.Data.Nat.Bitwise
import Mathlib.Data.List.Induction

namespace ZeroServer.Lib

/-- The low bits of a number, as many as the width says. -/
def bitsOf : Nat → Nat → List Bool
  | 0, _ => []
  | width + 1, number => number.testBit width :: bitsOf width number

/-- The number a string of bits spells. -/
def ofBits (bits : List Bool) : Nat := bits.foldl (fun value bit => 2 * value + bit.toNat) 0

@[simp] theorem bitsOf_zero (number : Nat) : bitsOf 0 number = [] := rfl

theorem bitsOf_succ (width number : Nat) :
    bitsOf (width + 1) number = number.testBit width :: bitsOf width number := rfl

@[simp] theorem length_bitsOf (width number : Nat) : (bitsOf width number).length = width := by
  induction width with
  | zero => rfl
  | succ width inductionHypothesis =>
    rw [bitsOf_succ, List.length_cons, inductionHypothesis]

/-- A string of bits splits into the bits of the shifted number and the low bits. -/
theorem bitsOf_add (high low number : Nat) :
    bitsOf (high + low) number = bitsOf high (number >>> low) ++ bitsOf low number := by
  induction high with
  | zero => rw [Nat.zero_add, bitsOf_zero, List.nil_append]
  | succ high inductionHypothesis =>
    rw [Nat.add_right_comm, bitsOf_succ, bitsOf_succ, inductionHypothesis, List.cons_append,
      Nat.testBit_shiftRight, Nat.add_comm low high]

theorem bitsOf_congr {width first second : Nat}
    (same : ∀ place, place < width → first.testBit place = second.testBit place) :
    bitsOf width first = bitsOf width second := by
  induction width with
  | zero => rfl
  | succ width inductionHypothesis =>
    rw [bitsOf_succ, bitsOf_succ, same width (Nat.lt_succ_self width),
      inductionHypothesis fun place small => same place (Nat.lt_succ_of_lt small)]

theorem bitsOf_mod (width number : Nat) :
    bitsOf width (number % 2 ^ width) = bitsOf width number := by
  refine bitsOf_congr fun place small => ?_
  rw [Nat.testBit_mod_two_pow, decide_eq_true small, Bool.true_and]

/-- Joining a low number below a high one joins their bits. -/
theorem bitsOf_join (highWidth lowWidth high low : Nat) (small : low < 2 ^ lowWidth) :
    bitsOf (highWidth + lowWidth) (2 ^ lowWidth * high + low) =
      bitsOf highWidth high ++ bitsOf lowWidth low := by
  rw [bitsOf_add]
  congr 1
  · rw [Nat.shiftRight_eq_div_pow, Nat.mul_add_div (Nat.two_pow_pos lowWidth),
      Nat.div_eq_of_lt small, Nat.add_zero]
  · rw [← bitsOf_mod, Nat.mul_add_mod, Nat.mod_eq_of_lt small]

theorem bitsOf_ones (width : Nat) : bitsOf width (2 ^ width - 1) = List.replicate width true := by
  have all : ∀ low high : Nat, low ≤ high →
      bitsOf low (2 ^ high - 1) = List.replicate low true := by
    intro low high
    induction low with
    | zero => exact fun _ => rfl
    | succ low inductionHypothesis =>
      intro le
      rw [bitsOf_succ, inductionHypothesis (Nat.le_of_succ_le le), Nat.testBit_two_pow_sub_one,
        decide_eq_true (Nat.lt_of_succ_le le), List.replicate_succ]
  exact all width width (Nat.le_refl width)

@[simp] theorem ofBits_nil : ofBits [] = 0 := rfl

theorem ofBits_concat (bits : List Bool) (bit : Bool) :
    ofBits (bits ++ [bit]) = 2 * ofBits bits + bit.toNat := by
  rw [ofBits, List.foldl_append]
  rfl

theorem bitsOf_two_mul_add (width number : Nat) (bit : Bool) :
    bitsOf (width + 1) (2 * number + bit.toNat) = bitsOf width number ++ [bit] := by
  have joined := bitsOf_join width 1 number bit.toNat (by cases bit <;> decide)
  rw [Nat.pow_one] at joined
  rw [joined]
  cases bit <;> rfl

theorem ofBits_bitsOf (width number : Nat) : ofBits (bitsOf width number) = number % 2 ^ width := by
  induction width generalizing number with
  | zero => rw [bitsOf_zero, ofBits_nil, Nat.pow_zero, Nat.mod_one]
  | succ width inductionHypothesis =>
    rw [bitsOf_add width 1, show bitsOf 1 number = [number.testBit 0] from rfl, ofBits_concat,
      inductionHypothesis, Nat.testBit_zero, Nat.shiftRight_eq_div_pow, Nat.pow_one,
      Nat.pow_succ, Nat.mul_comm (2 ^ width) 2, Nat.mod_mul]
    rcases Nat.mod_two_eq_zero_or_one number with even | odd
    · rw [even]
      simp
    · rw [odd]
      simp [Nat.add_comm]

theorem bitsOf_inj {width first second : Nat} (smallFirst : first < 2 ^ width)
    (smallSecond : second < 2 ^ width) (same : bitsOf width first = bitsOf width second) :
    first = second := by
  have values := congrArg ofBits same
  rwa [ofBits_bitsOf, ofBits_bitsOf, Nat.mod_eq_of_lt smallFirst, Nat.mod_eq_of_lt smallSecond]
    at values

/-! ### Octets -/

def octetBits (octet : UInt8) : List Bool := bitsOf 8 octet.toNat

def octetsBits (octets : List UInt8) : List Bool := octets.flatMap octetBits

@[simp] theorem octetsBits_nil : octetsBits [] = [] := rfl

@[simp] theorem octetsBits_cons (octet : UInt8) (rest : List UInt8) :
    octetsBits (octet :: rest) = octetBits octet ++ octetsBits rest := rfl

@[simp] theorem octetsBits_append (first second : List UInt8) :
    octetsBits (first ++ second) = octetsBits first ++ octetsBits second :=
  List.flatMap_append

@[simp] theorem length_octetBits (octet : UInt8) : (octetBits octet).length = 8 :=
  length_bitsOf 8 _

theorem length_octetsBits (octets : List UInt8) :
    (octetsBits octets).length = 8 * octets.length := by
  induction octets with
  | nil => rfl
  | cons octet rest inductionHypothesis =>
    rw [octetsBits_cons, List.length_append, length_octetBits, inductionHypothesis,
      List.length_cons, Nat.mul_succ, Nat.add_comm]

theorem octetBits_ofNat (number : Nat) : octetBits (UInt8.ofNat number) = bitsOf 8 number := by
  rw [octetBits, UInt8.toNat_ofNat', bitsOf_mod]

/-- Octets with the same bits are the same octets. -/
theorem octetsBits_inj {first second : List UInt8}
    (same : octetsBits first = octetsBits second) : first = second := by
  induction first generalizing second with
  | nil =>
    have lengths := congrArg List.length same
    rw [length_octetsBits, length_octetsBits, List.length_nil] at lengths
    exact (List.eq_nil_of_length_eq_zero (by omega)).symm
  | cons octet rest inductionHypothesis =>
    cases second with
    | nil =>
      have lengths := congrArg List.length same
      rw [length_octetsBits, length_octetsBits, List.length_nil, List.length_cons] at lengths
      omega
    | cons other others =>
      rw [octetsBits_cons, octetsBits_cons] at same
      obtain ⟨head, tail⟩ := List.append_inj same (by simp)
      rw [inductionHypothesis tail,
        UInt8.toNat_inj.mp (bitsOf_inj octet.toNat_lt other.toNat_lt head)]

end ZeroServer.Lib

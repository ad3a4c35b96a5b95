/-
This file proves what the parser makes of a number literal: which integers fit 64 bits, which
binary64 a literal is nearest to, and that one is refused only for being infinite.
-/

import ZeroServer.Json.Grammar

namespace ZeroServer.Json

open Http1 Lib

/-! ### Digits -/

theorem digitsValue_eq (digits : Bytes) :
    digitsValue digits = numeral 10 0 (digits.map fun byte => byte.toNat - 48) :=
  (List.foldl_map ..).symm

/-- A magnitude is read as long as it fits. -/
theorem magnitudeOf_eq (digits : Bytes) :
    magnitudeOf digits =
      if digitsValue digits < 2 ^ 64 then some (digitsValue digits) else none := by
  have from_ : ∀ start < 2 ^ 64, digits.foldlM (fun magnitude byte =>
      let scaled := magnitude * 10
      if 2 ^ 64 ≤ scaled then none
      else
        let sum := scaled + (byte.toNat - 48)
        if 2 ^ 64 ≤ sum then none else some sum) start =
      if numeral 10 start (digits.map fun byte => byte.toNat - 48) < 2 ^ 64 then
        some (numeral 10 start (digits.map fun byte => byte.toNat - 48)) else none := by
    induction digits with
    | nil => exact fun start small => (if_pos small).symm
    | cons byte digits inductionHypothesis =>
      intro start small
      rw [List.foldlM_cons, List.map_cons, numeral_cons]
      have grows := @le_numeral 10 (by decide) (start * 10 + (byte.toNat - 48))
        (digits.map fun byte => byte.toNat - 48)
      dsimp only
      by_cases scaled : 2 ^ 64 ≤ start * 10
      · rw [if_pos scaled, if_neg (by omega)]
        rfl
      · rw [if_neg scaled]
        by_cases sum : 2 ^ 64 ≤ start * 10 + (byte.toNat - 48)
        · rw [if_pos sum, if_neg (by omega)]
          rfl
        · rw [if_neg sum]
          exact inductionHypothesis _ (Nat.lt_of_not_le sum)
  rw [digitsValue_eq]
  exact from_ 0 (by decide)

namespace Number

variable {number : Number}

/-- A literal is its sign and what is behind it. -/
theorem splitSign_text (wellFormed : number.WellFormed) :
    splitSign number.text =
      (number.negative, number.whole ++ (number.fractionText ++ number.exponentText)) := by
  obtain ⟨some_, all⟩ := wellFormed.whole
  unfold text signText splitSign
  cases number.negative with
  | true => rfl
  | false =>
    rw [if_neg Bool.false_ne_true, List.nil_append]
    rcases whole : number.whole with _ | ⟨byte, digits⟩
    · exact absurd whole some_
    · have notMinus : byte ≠ 45 := by
        rintro rfl
        exact absurd (all 45 (whole ▸ List.mem_cons_self)) (by decide)
      rw [List.cons_append]
      split
      · next rest same => exact absurd (List.cons.inj same).1 notMinus
      · rfl

theorem integer_text (integral : number.isFloat = false) :
    number.fractionText ++ number.exponentText = [] := by
  obtain ⟨fraction, exponent⟩ := Bool.or_eq_false_iff.mp integral
  unfold fractionText exponentText
  rw [Option.isSome_eq_false_iff, Option.isNone_iff_eq_none] at fraction exponent
  rw [fraction, exponent]
  rfl

/-- What fits 64 bits is read as it is. -/
theorem parseI64_text (wellFormed : number.WellFormed) (integral : number.isFloat = false) :
    parseI64 number.text =
      if number.FitsI64 then some (Int64.ofInt number.integer) else none := by
  unfold parseI64
  rw [splitSign_text wellFormed, integer_text integral, List.append_nil]
  dsimp only
  rw [magnitudeOf_eq]
  cases sign : number.negative with
  | true =>
    have value : number.integer = -(digitsValue number.whole : Int) := by
      unfold integer
      rw [if_pos sign]
    have fits : number.FitsI64 ↔ digitsValue number.whole ≤ 2 ^ 63 := by
      unfold FitsI64
      rw [value]
      omega
    by_cases small : digitsValue number.whole < 2 ^ 64
    · rw [if_pos small]
      dsimp only
      rw [if_pos rfl]
      by_cases least : digitsValue number.whole = 2 ^ 63
      · rw [if_pos least, if_pos (fits.mpr (Nat.le_of_eq least)), value, least]
        rfl
      · rw [if_neg least]
        by_cases below : digitsValue number.whole < 2 ^ 63
        · rw [if_pos below, if_pos (fits.mpr (Nat.le_of_lt below)), value, Int64.ofInt_neg,
            Int64.ofInt_eq_ofNat]
        · rw [if_neg below, if_neg (fun holds => by have := fits.mp holds; omega)]
    · rw [if_neg small, if_neg (fun holds => by have := fits.mp holds; omega)]
  | false =>
    have value : number.integer = (digitsValue number.whole : Int) := by
      unfold integer
      rw [if_neg (by rw [sign]; decide)]
    have fits : number.FitsI64 ↔ digitsValue number.whole < 2 ^ 63 := by
      unfold FitsI64
      rw [value]
      omega
    by_cases small : digitsValue number.whole < 2 ^ 64
    · rw [if_pos small]
      dsimp only
      rw [if_neg Bool.false_ne_true]
      by_cases below : digitsValue number.whole < 2 ^ 63
      · rw [if_pos below, if_pos (fits.mpr below), value, Int64.ofInt_eq_ofNat]
      · rw [if_neg below, if_neg (mt fits.mp below)]
    · rw [if_neg small, if_neg (fun holds => by have := fits.mp holds; omega)]

/-! ### Floats -/

theorem whole_plain (wellFormed : number.WellFormed) :
    ∀ byte ∈ number.whole, byte ≠ dot ∧ byte ≠ 101 ∧ byte ≠ 69 := by
  intro byte member
  have digit := wellFormed.whole.2 byte member
  refine ⟨?_, ?_, ?_⟩ <;> rintro rfl <;> exact absurd digit (by decide)

theorem fractionText_plain (wellFormed : number.WellFormed) :
    ∀ byte ∈ number.fractionText, byte ≠ 101 ∧ byte ≠ 69 := by
  intro byte member
  unfold fractionText at member
  rcases given : number.fraction with _ | digits
  · rw [given] at member
    cases member
  · rw [given] at member
    rcases List.mem_cons.mp member with rfl | inside
    · decide
    · have digit := (wellFormed.fraction digits given).2 byte inside
      refine ⟨?_, ?_⟩ <;> rintro rfl <;> exact absurd digit (by decide)

/-- The mantissa is what is in front of the exponent. -/
theorem takeWhile_mantissa (wellFormed : number.WellFormed) :
    ((number.whole ++ (number.fractionText ++ number.exponentText)).takeWhile
      fun byte => byte ≠ 101 ∧ byte ≠ 69) = number.whole ++ number.fractionText := by
  rw [← List.append_assoc]
  refine takeWhile_stops (fun byte member => ?_) (fun byte first => ?_)
  · rcases List.mem_append.mp member with inside | inside
    · exact decide_eq_true (whole_plain wellFormed byte inside).2
    · exact decide_eq_true (fractionText_plain wellFormed byte inside)
  · unfold exponentText at first
    rcases given : number.exponent with _ | exponent
    · rw [given] at first
      cases first
    · rw [given] at first
      cases first
      have mark := (wellFormed.exponent exponent given).mark
      exact decide_eq_false fun both => mark.elim both.1 both.2

theorem takeWhile_whole (wellFormed : number.WellFormed) :
    ((number.whole ++ number.fractionText).takeWhile fun byte => byte ≠ dot) = number.whole := by
  refine takeWhile_stops (fun byte member => ?_) (fun byte first => ?_)
  · exact decide_eq_true (whole_plain wellFormed byte member).1
  · unfold fractionText at first
    rcases given : number.fraction with _ | digits
    · rw [given] at first
      cases first
    · rw [given] at first
      cases first
      rfl

theorem exponentValue_text {exponent : Exponent} (wellFormed : exponent.WellFormed) :
    exponentValue exponent.text.tail = exponent.value := by
  unfold Exponent.text Exponent.value exponentValue
  rw [List.tail_cons]
  rcases given : exponent.sign with _ | sign
  · rw [if_neg nofun, Option.toList_none, List.nil_append]
    split
    · next digits same =>
      exact absurd (wellFormed.digits.2 45 (same ▸ List.mem_cons_self)) (by decide)
    · next digits same =>
      exact absurd (wellFormed.digits.2 43 (same ▸ List.mem_cons_self)) (by decide)
    · rfl
  · rcases wellFormed.sign sign given with rfl | rfl
    · rfl
    · rfl

/-- A literal is read as its digits, scaled. -/
theorem parseF64_text (wellFormed : number.WellFormed) :
    parseF64 number.text = Binary64.ofDecimal number.negative number.digits number.scale := by
  have fraction : number.fractionText.tail = number.fraction.getD [] := by
    unfold fractionText
    rcases number.fraction with _ | digits <;> rfl
  have exponent : exponentValue number.exponentText.tail - (number.fraction.getD []).length =
      number.scale := by
    unfold exponentText scale
    rcases given : number.exponent with _ | exponent
    · rfl
    · dsimp only
      rw [exponentValue_text (wellFormed.exponent exponent given)]
  unfold parseF64
  rw [splitSign_text wellFormed]
  dsimp only
  rw [takeWhile_mantissa wellFormed, takeWhile_whole wellFormed, ← List.append_assoc,
    List.drop_left, List.drop_left, fraction, exponent]
  rfl

theorem isFinite_parseF64 (wellFormed : number.WellFormed) :
    (parseF64 number.text).isFinite = true ↔ number.Finite := by
  rw [parseF64_text wellFormed]
  exact Binary64.isFinite_ofDecimal _ _ _

/-! ### What becomes of a literal -/

variable {parser : Parser} {start : Nat}

/-- An accepted number becomes its value. -/
theorem numberValue_ok (wellFormed : number.WellFormed)
    (accepted : number.Accepted parser.bigIntegers)
    (literal : (parser.input.take parser.at_).drop start = number.text) :
    numberValue start number.isFloat parser = .ok (number.value parser.bigIntegers, parser) := by
  have finite := isFinite_parseF64 wellFormed
  unfold numberValue value
  rw [literal]
  dsimp only
  cases float : number.isFloat with
  | true =>
    rw [if_pos rfl, if_pos (finite.mpr (accepted (.inl float))), parseF64_text wellFormed,
      if_pos rfl]
  | false =>
    rw [if_neg Bool.false_ne_true, if_neg Bool.false_ne_true, parseI64_text wellFormed float]
    by_cases fits : number.FitsI64
    · rw [if_pos fits, if_pos fits]
      dsimp only
      rw [Int64.toInt_ofInt_of_le fits.1 fits.2]
      split <;> rfl
    · rw [if_neg fits, if_neg fits]
      dsimp only
      by_cases strings : parser.bigIntegers = .strings
      · rw [if_pos strings, if_pos strings]
      · have lossy : parser.bigIntegers = .lossy := by
          cases mode : parser.bigIntegers with
          | lossy => rfl
          | strings => exact absurd mode strings
        rw [if_neg strings, if_neg strings, if_pos (finite.mpr (accepted (.inr ⟨lossy, fits⟩))),
          parseF64_text wellFormed]

/-- A number that is not accepted is refused where it begins. -/
theorem numberValue_error (wellFormed : number.WellFormed)
    (refused : ¬ number.Accepted parser.bigIntegers)
    (literal : (parser.input.take parser.at_).drop start = number.text) :
    numberValue start number.isFloat parser = .error (.refused ⟨.invalidNumber, start⟩) := by
  obtain ⟨float, infinite⟩ := Classical.not_imp.mp refused
  have notFinite := mt (isFinite_parseF64 wellFormed).mp infinite
  unfold numberValue
  rw [literal]
  dsimp only
  rcases isFloat : number.isFloat with _ | _
  · obtain ⟨lossy, fits⟩ := float.resolve_left (by rw [isFloat]; decide)
    rw [if_neg Bool.false_ne_true, parseI64_text wellFormed isFloat, if_neg fits, lossy]
    dsimp only
    rw [if_neg nofun, if_neg notFinite]
  · rw [if_pos rfl, if_neg notFinite]

end Number

end ZeroServer.Json

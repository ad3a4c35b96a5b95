/-
This file is about what strings decode to: the codes of hexadecimal digits and surrogate pairs, and
that what decodes to text is cut into characters where the escapes in it are.
-/

import ZeroServer.Json.Grammar

namespace ZeroServer.Json

open Http1 Lib

/-! ### Codes -/

variable {digit : UInt8} {unit : UInt16}

variable {byte : UInt8} {char : Char}

theorem hexDigit_lt (read : hexDigit byte = some digit) : digit.toNat < 16 := by
  have all : ∀ byte : Fin 256,
      (hexDigit ⟨⟨byte⟩⟩).all (fun value => decide (value.toNat < 16)) = true := by decide +kernel
  exact of_decide_eq_true ((Option.all_eq_true _ _).mp (all byte.toBitVec.toFin) digit read)

/-- A digit behind a unit that has room for one. -/
theorem hexStep (room : unit.toNat < 4096) (small : digit.toNat < 16) :
    (unit <<< 4 ||| digit.toUInt16).toNat = unit.toNat * 16 + digit.toNat := by
  rw [UInt16.toNat_or, UInt16.toNat_shiftLeft, UInt8.toNat_toUInt16]
  rw [show (4 : UInt16).toNat % 16 = 4 from rfl, Nat.shiftLeft_eq, Nat.mod_eq_of_lt (by omega),
    Nat.mul_comm, ← Nat.two_pow_add_eq_or_of_lt small, Nat.mul_comm]

/-- Digits that have room leave room behind each of them. -/
theorem hexStep_room {count : Nat} (room : (unit.toNat + 1) * 16 ^ (count + 1) ≤ 2 ^ 16)
    (small : digit.toNat < 16) :
    unit.toNat < 4096 ∧
      ((unit <<< 4 ||| digit.toUInt16).toNat + 1) * 16 ^ count ≤ 2 ^ 16 := by
  have least : 1 ≤ 16 ^ count := Nat.one_le_pow _ _ (by decide)
  have inside : (unit.toNat + 1) * 16 ≤ 2 ^ 16 := by
    calc (unit.toNat + 1) * 16 ≤ (unit.toNat + 1) * 16 ^ (count + 1) :=
          Nat.mul_le_mul_left _ (by rw [Nat.pow_succ]; omega)
      _ ≤ 2 ^ 16 := room
  have below : unit.toNat < 4096 := by omega
  refine ⟨below, ?_⟩
  rw [hexStep below small]
  calc (unit.toNat * 16 + digit.toNat + 1) * 16 ^ count
      ≤ ((unit.toNat + 1) * 16) * 16 ^ count := Nat.mul_le_mul_right _ (by omega)
    _ = (unit.toNat + 1) * 16 ^ (count + 1) := by
      rw [Nat.pow_succ, Nat.mul_assoc, Nat.mul_comm 16]
    _ ≤ 2 ^ 16 := room

theorem isHighSurrogate_iff : isHighSurrogate unit = true ↔ High unit.toNat := by
  unfold isHighSurrogate High
  rw [decide_eq_true_iff, UInt16.le_iff_toNat_le, UInt16.le_iff_toNat_le]
  rfl

theorem isLowSurrogate_iff : isLowSurrogate unit = true ↔ Low unit.toNat := by
  unfold isLowSurrogate Low
  rw [decide_eq_true_iff, UInt16.le_iff_toNat_le, UInt16.le_iff_toNat_le]
  rfl

theorem toNat_pairCode {high low : UInt16} (isHigh : High high.toNat) (isLow : Low low.toNat) :
    (pairCode high low).toNat =
      0x10000 + (high.toNat - 0xD800) * 0x400 + (low.toNat - 0xDC00) := by
  obtain ⟨highLeast, highMost⟩ := isHigh
  obtain ⟨lowLeast, lowMost⟩ := isLow
  have first : (high - 0xD800).toNat = high.toNat - 0xD800 :=
    UInt16.toNat_sub_of_le _ _ (UInt16.le_iff_toNat_le.mpr highLeast)
  have second : (low - 0xDC00).toNat = low.toNat - 0xDC00 :=
    UInt16.toNat_sub_of_le _ _ (UInt16.le_iff_toNat_le.mpr lowLeast)
  unfold pairCode
  rw [UInt32.toNat_add, UInt32.toNat_add, UInt32.toNat_shiftLeft, UInt16.toNat_toUInt32,
    UInt16.toNat_toUInt32, first, second, show (10 : UInt32).toNat % 32 = 10 from rfl,
    Nat.shiftLeft_eq, show (0x10000 : UInt32).toNat = 0x10000 from rfl]
  omega

/-- The code of a unit that is no surrogate is a character. -/
theorem valid_unit {code : Nat} (small : code < 2 ^ 16) (notHigh : ¬ High code)
    (notLow : ¬ Low code) : code.isValidChar := by
  unfold High at notHigh
  unfold Low at notLow
  unfold Nat.isValidChar
  omega

/-- The code of a pair is a character. -/
theorem valid_pair {high low : Nat} (isHigh : High high) (isLow : Low low) :
    (0x10000 + (high - 0xD800) * 0x400 + (low - 0xDC00)).isValidChar := by
  obtain ⟨highLeast, highMost⟩ := isHigh
  obtain ⟨lowLeast, lowMost⟩ := isLow
  unfold Nat.isValidChar
  omega

/-- The bytes of a raw character are raw. -/
theorem raw_visible (visible : 0x20 ≤ char.toNat) (notQuote : char ≠ '"')
    (notBackslash : char ≠ '\\') (member : byte ∈ String.utf8EncodeChar char) :
    0x20 ≤ byte ∧ byte ≠ quote ∧ byte ≠ backslash := by
  by_cases ascii : byte < 0x80
  · have inside : byte ∈ Utf8.encode [char] := by
      rwa [Utf8.encode_cons, Utf8.encode_nil, List.append_nil]
    have same : Char.ofNat byte.toNat = char :=
      List.mem_singleton.mp ((Utf8.mem_encode_ascii ascii).mp inside)
    have small : byte.toNat < 0x80 := UInt8.lt_iff_toNat_lt.mp ascii
    have value : char.toNat = byte.toNat := by
      rw [← same]
      exact Utf8.toNat_ofNat (.inl (by omega))
    refine ⟨UInt8.le_iff_toNat_le.mpr (value ▸ visible), ?_, ?_⟩
    · rintro rfl
      exact notQuote same.symm
    · rintro rfl
      exact notBackslash same.symm
  · have high : 0x80 ≤ byte := UInt8.not_lt.mp ascii
    refine ⟨UInt8.le_trans (by decide) high, ?_, ?_⟩ <;> rintro rfl <;>
      exact absurd high (by decide)

/-- An item without a reverse solidus in front is a raw character. -/
theorem StringItem.raw_of_head {bytes : Bytes} (item : StringItem bytes char)
    (plain : bytes.head? ≠ some backslash) :
    (∀ byte ∈ bytes, 0x20 ≤ byte ∧ byte ≠ quote ∧ byte ≠ backslash) ∧
      bytes = String.utf8EncodeChar char := by
  cases item with
  | raw visible notQuote notBackslash =>
    exact ⟨fun _ member => raw_visible visible notQuote notBackslash member, rfl⟩
  | short | unit | pair => exact absurd rfl plain

/-! ### Pieces of a string -/

/-- What a step of the parser takes from a string, and the bytes it decodes to. -/
inductive Piece : Bytes → Bytes → Prop where
  | raw {byte : UInt8} (visible : 0x20 ≤ byte) (quote : byte ≠ quote)
      (backslash : byte ≠ backslash) : Piece [byte] [byte]
  | escaped {text : Bytes} {char : Char} (item : StringItem text char) :
      Piece text (String.utf8EncodeChar char)

/-- What the parser takes from a string. -/
inductive Pieces : Bytes → Bytes → Prop where
  | nil : Pieces [] []
  | cons {text rest decoded more : Bytes} (first : Piece text decoded) (later : Pieces rest more) :
      Pieces (text ++ rest) (decoded ++ more)

theorem Piece.decoded_some {text decoded : Bytes} (piece : Piece text decoded) : decoded ≠ [] := by
  cases piece with
  | raw => exact List.cons_ne_nil _ _
  | escaped => exact Utf8.utf8EncodeChar_some _

/-- The bytes of a character behind its first one are all its own. -/
theorem Pieces.tails {text tails more : Bytes} (all : ∀ byte ∈ tails, Utf8.Tail byte)
    (pieces : Pieces text (tails ++ more)) : ∃ rest, text = tails ++ rest ∧ Pieces rest more := by
  induction tails generalizing text with
  | nil => exact ⟨text, rfl, pieces⟩
  | cons tail tails inductionHypothesis =>
    obtain ⟨isTail, later⟩ := List.forall_mem_cons.mp all
    generalize whole : tail :: tails ++ more = decoded at pieces
    cases pieces with
    | nil => cases whole
    | cons first rest =>
      cases first with
      | raw visible =>
        obtain ⟨rfl, rfl⟩ := List.cons.inj whole
        obtain ⟨behind, rfl, pieces⟩ := inductionHypothesis later rest
        exact ⟨behind, rfl, pieces⟩
      | @escaped _ char item =>
        obtain ⟨lead, others, same, notTail⟩ := Utf8.utf8EncodeChar_lead char
        rw [same] at whole
        exact absurd ((List.cons.inj whole).1 ▸ isTail) notTail.1

/-- Pieces that decode to text are the items of its characters. -/
theorem Pieces.content {text : Bytes} {chars : List Char}
    (pieces : Pieces text (Utf8.encode chars)) : StringContent text chars := by
  induction chars generalizing text with
  | nil =>
    generalize whole : Utf8.encode [] = decoded at pieces
    cases pieces with
    | nil => exact .nil
    | cons first => exact absurd (List.append_eq_nil_iff.mp whole.symm).1 first.decoded_some
  | cons char chars inductionHypothesis =>
    rw [Utf8.encode_cons] at pieces
    generalize whole : String.utf8EncodeChar char ++ Utf8.encode chars = decoded at pieces
    cases pieces with
    | nil => exact absurd (List.append_eq_nil_iff.mp whole).1 (Utf8.utf8EncodeChar_some char)
    | cons first rest =>
      cases first with
      | @escaped _ other item =>
        obtain ⟨same, behind⟩ :=
          Text.word_unique Utf8.prefixCode ⟨char, rfl⟩ ⟨other, rfl⟩ whole
        obtain rfl := Utf8.utf8EncodeChar_injective same
        exact .cons item (inductionHypothesis (behind ▸ rest))
      | @raw byte visible notQuote notBackslash =>
        obtain ⟨lead, tails, same, -, allTails⟩ := Utf8.utf8EncodeChar_lead char
        rw [same, List.cons_append] at whole
        obtain ⟨rfl, behind⟩ := List.cons.inj whole
        rw [List.append_eq, List.nil_append] at behind
        subst behind
        obtain ⟨left, rfl, later⟩ := Pieces.tails allTails rest
        have item : StringItem (String.utf8EncodeChar char) char := by
          have ascii : char.toNat ≤ 0x7F → lead = UInt8.ofNat char.toNat := fun one => by
            rw [Utf8.utf8EncodeChar_ascii one] at same
            exact (List.cons.inj same).1.symm
          refine .raw ?_ ?_ ?_
          · by_cases one : char.toNat ≤ 0x7F
            · have shown := UInt8.le_iff_toNat_le.mp visible
              rw [ascii one, UInt8.toNat_ofNat_of_lt' (by rw [UInt8.size]; omega)] at shown
              exact shown
            · omega
          · rintro rfl
            exact notQuote (ascii (by decide))
          · rintro rfl
            exact notBackslash (ascii (by decide))
        have content := StringContent.cons item (inductionHypothesis later)
        rw [same] at content
        exact content

end ZeroServer.Json

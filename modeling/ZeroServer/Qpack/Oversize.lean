/-
This file proves that the bound on encoded field sections refuses no section that decodes within
the limit it follows from, whatever representations, integer encodings and codings the section uses.
-/

import ZeroServer.H3.Windows
import ZeroServer.Qpack.Forms

namespace ZeroServer.Qpack

open Http1 Lib

/-- What a field line counts for in the size of a section. -/
def FieldLine.size (line : FieldLine) : Nat := line.name.length + line.value.length + 32

/-! ### Strings -/

variable {input : Bytes}

variable {text : Bytes}

namespace Huffman

theorem length_textBits_le (text : Bytes) : (textBits text).length ≤ maxCodeLen * text.length := by
  induction text with
  | nil => exact Nat.le_refl 0
  | cons octet text inductionHypothesis =>
    have short := (octet_coded octet).short
    rw [textBits_cons, List.length_append, codeBits, length_bitsOf, List.length_cons, Nat.mul_succ,
      Nat.add_comm]
    exact Nat.add_le_add inductionHypothesis short

/-- A Huffman string takes at most four octets for each one it stands for. -/
theorem length_decodeToVec (decoded : decodeToVec input [] = (text, .ok ())) :
    input.length ≤ 4 * text.length := by
  have bits := length_textBits_le text
  rw [maxCodeLen] at bits
  rw [← encode_decodeToVec decoded, length_encode, encodedLen_eq]
  omega

end Huffman

variable {literal : StringLiteral} {used : Nat}

variable {bits : StringPrefixBits}

namespace StringLiteral

theorem length_decode (decoded : literal.decode = .ok text) :
    literal.data.length ≤ 4 * text.length := by
  unfold decode at decoded
  split at decoded
  · split at decoded
    · cases decoded
    · rename_i out done
      cases decoded
      exact Huffman.length_decodeToVec done
  · cases decoded
    omega

theorem parse_length {cap : Nat} (done : parse input bits cap = .ok (some (literal, used))) :
    used ≤ Integer.maxLen + literal.data.length := by
  cases input with
  | nil => cases done
  | cons first rest =>
    unfold parse at done
    dsimp only at done
    split at done
    · cases done
    · cases done
    rename_i len taken length
    obtain ⟨-, short, -⟩ := Integer.decode_sum length
    split at done
    · cases done
    · rename_i enough
      cases done
      rw [List.length_take_of_le (Nat.le_of_not_lt enough)]
      exact Nat.add_le_add_right short len

end StringLiteral

/-! ### Representations -/

variable {representation : Representation}

namespace Representation

/-- The octets of the string literals of a representation. -/
def literals : Representation → Nat
  | .indexed _ _ | .indexedPostBase _ => 0
  | .literalNameReference _ _ _ value | .literalPostBaseNameReference _ _ value => value.data.length
  | .literalName _ name value => name.data.length + value.data.length

theorem completeIndex_length {bits : PrefixBits} {index : Nat}
    (done : completeIndex input bits = .ok (index, used)) : used ≤ Integer.maxLen := by
  unfold completeIndex at done
  split at done
  · cases done
  · cases done
  · rename_i decoded
    cases done
    exact (Integer.decode_sum decoded).2.1

theorem completeLiteral_length (done : completeLiteral input bits = .ok (literal, used)) :
    used ≤ Integer.maxLen + literal.data.length := by
  unfold completeLiteral at done
  split at done
  · cases done
  · cases done
  · rename_i parsed
    cases done
    exact StringLiteral.parse_length parsed

/-- Beside its strings a representation takes two integers at most. -/
theorem parse_length (done : parse input = .ok (representation, used)) :
    used ≤ 2 * Integer.maxLen + representation.literals := by
  cases input with
  | nil => cases done
  | cons first rest =>
    unfold parse at done
    dsimp only [bind, pure, Except.pure] at done
    split at done
    · obtain ⟨⟨index, taken⟩, indexed, same⟩ := bind_ok done
      cases same
      have short := completeIndex_length indexed
      dsimp only [literals]
      omega
    split at done
    · obtain ⟨⟨index, taken⟩, indexed, later⟩ := bind_ok done
      obtain ⟨⟨value, valueLen⟩, valued, same⟩ := bind_ok later
      cases same
      have short := completeIndex_length indexed
      have more := completeLiteral_length valued
      dsimp only [literals]
      omega
    split at done
    · obtain ⟨⟨name, taken⟩, named, later⟩ := bind_ok done
      obtain ⟨⟨value, valueLen⟩, valued, same⟩ := bind_ok later
      cases same
      have short := completeLiteral_length named
      have more := completeLiteral_length valued
      dsimp only [literals]
      omega
    split at done
    · obtain ⟨⟨index, taken⟩, indexed, same⟩ := bind_ok done
      cases same
      have short := completeIndex_length indexed
      dsimp only [literals]
      omega
    · obtain ⟨⟨index, taken⟩, indexed, later⟩ := bind_ok done
      obtain ⟨⟨value, valueLen⟩, valued, same⟩ := bind_ok later
      cases same
      have short := completeIndex_length indexed
      have more := completeLiteral_length valued
      dsimp only [literals]
      omega

end Representation

/-! ### Sections -/

namespace FieldLines

theorem textOf_length (done : textOf literal = .ok text) :
    literal.data.length ≤ 4 * text.length := by
  unfold textOf at done
  split at done
  · rename_i decoded
    cases done
    exact StringLiteral.length_decode decoded
  · cases done

variable {lines : FieldLines}

variable {line : FieldLine}

/-- The strings of a representation take at most four octets for each one of its line. -/
theorem resolve_length (done : lines.resolve representation = .ok line) :
    representation.literals ≤ 4 * (line.name.length + line.value.length) := by
  unfold resolve at done
  dsimp only [bind, pure, Except.pure] at done
  split at done
  · obtain ⟨entry, -, same⟩ := Representation.bind_ok done
    exact Nat.zero_le _
  · obtain ⟨entry, -, later⟩ := Representation.bind_ok done
    obtain ⟨-, -, later⟩ := Representation.bind_ok later
    obtain ⟨value, valued, same⟩ := Representation.bind_ok later
    cases same
    have short := textOf_length valued
    dsimp only [Representation.literals]
    omega
  · obtain ⟨-, -, later⟩ := Representation.bind_ok done
    obtain ⟨-, -, later⟩ := Representation.bind_ok later
    obtain ⟨name, named, later⟩ := Representation.bind_ok later
    obtain ⟨value, valued, same⟩ := Representation.bind_ok later
    cases same
    have short := textOf_length named
    have more := textOf_length valued
    dsimp only [Representation.literals]
    omega
  · cases done

/-- A line takes at most four octets for each one it counts for. -/
theorem line_length (done : lines.line = .ok (line, used)) : used ≤ 4 * line.size := by
  obtain ⟨⟨representation, taken⟩, parsed, later⟩ := Representation.bind_ok done
  obtain ⟨other, resolved, same⟩ := Representation.bind_ok later
  cases same
  have short := Representation.parse_length parsed
  have more := resolve_length resolved
  rw [Integer.maxLen] at short
  rw [FieldLine.size]
  omega

theorem yields_length (running : lines.done = false) {items : List FieldLine}
    (yields : lines.Yields (items.map .ok)) :
    lines.rest.length ≤ 4 * (items.map FieldLine.size).sum := by
  induction items generalizing lines with
  | nil =>
    rcases yields with ⟨ended⟩ | _
    unfold next at ended
    rw [running, Bool.false_or] at ended
    split at ended
    · rename_i empty
      rw [List.isEmpty_iff.mp empty]
      exact Nat.zero_le _
    · split at ended
      · cases ended
      · cases ended
  | cons item items inductionHypothesis =>
    rcases yields with _ | ⟨yielded, more⟩
    rename_i later
    unfold next at yielded
    rw [running, Bool.false_or] at yielded
    split at yielded
    · cases yielded
    split at yielded
    · rename_i line used done
      cases yielded
      have short := line_length done
      have rest := inductionHypothesis rfl more
      dsimp only at rest
      rw [List.length_drop] at rest
      rw [List.map_cons, List.sum_cons, Nat.mul_add]
      omega
    · cases yielded

end FieldLines

theorem Prefix.parse_length {fields : Prefix} (done : parse input = .ok (fields, used)) :
    used ≤ 2 * Integer.maxLen := by
  obtain ⟨⟨count, first⟩, counted, later⟩ := Representation.bind_ok done
  obtain ⟨⟨delta, second⟩, based, same⟩ := Representation.bind_ok later
  cases same
  have short := Representation.completeIndex_length counted
  have more := Representation.completeIndex_length based
  omega

/-- A section that decodes to lines within a size is within the bound that follows from the size,
which is the number for every section that can be in memory. -/
theorem oversize_exact (decoder : Decoder) (input : Bytes) (fieldLines : FieldLines)
    (lines : List FieldLine) (limit : Nat) (decoded : decoder.decode input = .ok fieldLines)
    (yields : fieldLines.Yields (lines.map .ok))
    (within : (lines.map FieldLine.size).sum ≤ limit) :
    input.length ≤ 4 * limit + 20 ∧
      (input.length < 2 ^ 64 → input.length ≤ H3.encodedFieldSectionBound limit) := by
  have bound : input.length ≤ 4 * limit + 20 := by
    unfold Decoder.decode at decoded
    dsimp only at decoded
    split at decoded
    · cases decoded
    rename_i used prefixed
    cases decoded
    obtain ⟨⟨fields, taken⟩, parsed, later⟩ := Representation.bind_ok prefixed
    obtain ⟨count, -, later⟩ := Representation.bind_ok later
    obtain ⟨-, -, same⟩ := Representation.bind_ok later
    cases same
    have short := Prefix.parse_length parsed
    have rest := FieldLines.yields_length rfl yields
    dsimp only at rest
    rw [List.length_drop] at rest
    rw [Integer.maxLen] at short
    omega
  refine ⟨bound, fun small => ?_⟩
  unfold H3.encodedFieldSectionBound H3.largest
  omega

/-- A request method from the static table. -/
theorem oversize_exact_method : [0, 0, 0xD1].length ≤ 4 * 42 + 20 :=
  (oversize_exact ⟨65536⟩ [0, 0, 0xD1] ⟨[0xD1], 65536, false⟩
    [⟨ascii ":method", ascii "GET", false⟩] 42 rfl (.cons rfl (.nil rfl)) (by decide)).1

end ZeroServer.Qpack

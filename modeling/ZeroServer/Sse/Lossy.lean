/-
This file proves what the lossy text of bytes keeps: ASCII bytes stand where they stood, so a line
of the text is the text of a line, and bytes that are text are that text.
-/

import ZeroServer.Sse.RoundTrip

namespace ZeroServer.Sse

open Http1 Lib

/-! ### Broken bytes -/

variable {bytes : Bytes}

theorem fromUtf8Lossy_nil : fromUtf8Lossy [] = [] := fromUtf8Lossy_encode []

/-- The text in front of a broken subpart, the mark in its place, and the text behind it. -/
theorem fromUtf8Lossy_broken {position : Nat} {length : Option Nat}
    (broken : IllFormed Utf8.IsChar bytes position length) :
    fromUtf8Lossy bytes = (Utf8.decode (bytes.take position)).getD [] ++
      '\uFFFD' :: (length.map fun count =>
        fromUtf8Lossy (bytes.drop (position + count))).getD [] := by
  rcases Simd.validateUtf8_spec bytes with ⟨-, isText⟩ | ⟨⟨validUpTo, errorLen⟩, failed, found⟩
  · exact absurd isText broken.not_text
  · obtain ⟨rfl, rfl⟩ := found.unique broken
    rw [fromUtf8Lossy]
    split <;> rename_i verdict
    · rw [failed] at verdict
      cases verdict
    · rw [failed] at verdict
      cases verdict
      rfl
    · rw [failed] at verdict
      cases verdict
      rfl

/-- Bytes are a text or broken somewhere. -/
theorem text_or_broken (bytes : Bytes) :
    (∃ text, bytes = Utf8.encode text) ∨
      ∃ position length, IllFormed Utf8.IsChar bytes position length := by
  rcases Simd.validateUtf8_spec bytes with ⟨-, isText⟩ | ⟨error, -, broken⟩
  · exact .inl (Utf8.text_iff.mp isText)
  · exact .inr ⟨_, _, broken⟩

theorem isText_encode (text : List Char) : Text Utf8.IsChar (Utf8.encode text) :=
  Utf8.text_iff.mpr ⟨text, rfl⟩

/-- Text in front of bytes is text. -/
theorem fromUtf8Lossy_append (text : List Char) (bytes : Bytes) :
    fromUtf8Lossy (Utf8.encode text ++ bytes) = text ++ fromUtf8Lossy bytes := by
  rcases text_or_broken bytes with ⟨more, rfl⟩ | ⟨position, length, broken⟩
  · rw [← Utf8.encode_append, fromUtf8Lossy_encode, fromUtf8Lossy_encode]
  · obtain ⟨valid, front⟩ := Utf8.text_iff.mp broken.valid
    have whole := broken.behind Utf8.prefixCode (isText_encode text)
    have dropped : ∀ count, (Utf8.encode text ++ bytes).drop
        ((Utf8.encode text).length + position + count) = bytes.drop (position + count) := by
      intro count
      rw [Nat.add_assoc, ← List.drop_drop, List.drop_left]
    have decoded : (Utf8.decode (Utf8.encode text ++ bytes.take position)).getD [] =
        text ++ (Utf8.decode (bytes.take position)).getD [] := by
      rw [front]
      change (Utf8.decode (Utf8.encode text ++ Utf8.encode valid)).getD [] =
        text ++ (Utf8.decode (Utf8.encode valid)).getD []
      rw [← Utf8.encode_append, Utf8.decode_encoded, Utf8.decode_encoded]
      rfl
    rw [fromUtf8Lossy_broken whole, fromUtf8Lossy_broken broken, List.take_length_add_append,
      decoded, List.append_assoc]
    simp only [dropped]

/-! ### ASCII bytes -/

variable {byte : UInt8}

/-- The character of an ASCII byte. -/
def charOf (byte : UInt8) : Char := Char.ofNat byte.toNat

theorem encode_charOf (ascii : byte < 0x80) : Utf8.encode [charOf byte] = [byte] := by
  have small : byte.toNat ≤ 0x7F := Nat.le_of_lt_succ ascii
  have value : (charOf byte).toNat = byte.toNat := Utf8.toNat_ofNat (.inl (by omega))
  rw [Utf8.encode_cons, Utf8.encode_nil, List.append_nil,
    Utf8.utf8EncodeChar_ascii (by rw [value]; exact small), value, UInt8.ofNat_toNat]

theorem fromUtf8Lossy_cons (ascii : byte < 0x80) (bytes : Bytes) :
    fromUtf8Lossy (byte :: bytes) = charOf byte :: fromUtf8Lossy bytes := by
  have front := fromUtf8Lossy_append [charOf byte] bytes
  rwa [encode_charOf ascii] at front

/-- No character goes on with an ASCII byte. -/
theorem ascii_alone (ascii : byte < 0x80) {part : Bytes} (some_ : part ≠ []) (more : Bytes) :
    ¬ Utf8.IsChar (part ++ byte :: more) := by
  intro isChar
  rcases (Utf8.isChar_iff.mp isChar).ascii with single | high
  · rw [List.length_append, List.length_cons] at single
    have positive := List.length_pos_of_ne_nil some_
    omega
  · have above := high byte (List.mem_append_right part List.mem_cons_self)
    exact absurd (UInt8.lt_of_lt_of_le ascii above) (UInt8.lt_irrefl _)

/-- An ASCII byte stands between two texts. -/
theorem fromUtf8Lossy_split (ascii : byte < 0x80) (left right : Bytes) :
    fromUtf8Lossy (left ++ byte :: right) =
      fromUtf8Lossy left ++ charOf byte :: fromUtf8Lossy right := by
  induction measured : left.length using Nat.strongRecOn generalizing left with
  | ind size inductionHypothesis =>
    rcases text_or_broken left with ⟨text, rfl⟩ | ⟨position, length, broken⟩
    · rw [fromUtf8Lossy_append, fromUtf8Lossy_cons ascii, fromUtf8Lossy_encode]
    · cases length with
      | none =>
        have some_ : left.drop position ≠ [] := List.ne_nil_of_length_pos (by
          rw [List.length_drop]
          exact Nat.sub_pos_of_lt broken.inside)
        have dead := @illFormed_of_broken _ _ Utf8.prefixCode _ _ right _ broken.valid
          (.inr (broken.unfinished.mp rfl)) (ascii_alone ascii some_)
        have positive := List.length_pos_of_ne_nil some_
        have inside := Nat.le_of_lt broken.inside
        rw [← List.append_assoc, List.take_append_drop, List.length_take_of_le inside,
          Nat.max_eq_left positive, List.length_drop] at dead
        rw [fromUtf8Lossy_broken dead, fromUtf8Lossy_broken broken,
          List.take_append_of_le_length inside]
        dsimp only [Option.map_some, Option.map_none, Option.getD_some, Option.getD_none]
        rw [Nat.add_sub_cancel' inside, List.drop_left, fromUtf8Lossy_cons ascii, List.append_assoc]
        rfl
      | some count =>
        have subpart := broken.subpart count rfl
        have within : position + count ≤ left.length := by
          have room := subpart.inside
          rw [List.length_drop] at room
          have inside := broken.inside
          omega
        have shorter : (left.drop (position + count)).length < size := by
          rw [List.length_drop, ← measured]
          have positive := subpart.some
          omega
        have whole := broken.extend Utf8.prefixCode (byte :: right)
        rw [fromUtf8Lossy_broken whole, fromUtf8Lossy_broken broken,
          List.take_append_of_le_length (Nat.le_of_lt broken.inside)]
        dsimp only [Option.map_some, Option.getD_some]
        rw [List.drop_append_of_le_length within, inductionHypothesis _ shorter _ rfl,
          List.append_assoc]
        rfl

theorem fromUtf8Lossy_some (some_ : bytes ≠ []) : fromUtf8Lossy bytes ≠ [] := by
  rcases text_or_broken bytes with ⟨text, rfl⟩ | ⟨position, length, broken⟩
  · rw [fromUtf8Lossy_encode]
    rintro rfl
    exact some_ rfl
  · rw [fromUtf8Lossy_broken broken]
    exact List.append_ne_nil_of_right_ne_nil _ (List.cons_ne_nil _ _)

theorem fromUtf8Lossy_eq_nil : fromUtf8Lossy bytes = [] ↔ bytes = [] := by
  constructor
  · intro empty
    by_contra some_
    exact fromUtf8Lossy_some some_ empty
  · rintro rfl
    exact fromUtf8Lossy_nil

theorem charOf_ne_mark (ascii : byte < 0x80) : charOf byte ≠ '\uFFFD' := by
  have small : byte.toNat < 0x80 := ascii
  intro same
  have value : (charOf byte).toNat = byte.toNat := Utf8.toNat_ofNat (.inl (by omega))
  rw [same] at value
  have mark : ('\uFFFD').toNat = 0xFFFD := rfl
  omega

/-- An ASCII byte is among bytes when its character is in their text. -/
theorem mem_fromUtf8Lossy (ascii : byte < 0x80) (bytes : Bytes) :
    charOf byte ∈ fromUtf8Lossy bytes ↔ byte ∈ bytes := by
  constructor
  · induction measured : bytes.length using Nat.strongRecOn generalizing bytes with
    | ind size inductionHypothesis =>
      intro member
      rcases text_or_broken bytes with ⟨text, rfl⟩ | ⟨position, length, broken⟩
      · rw [fromUtf8Lossy_encode] at member
        exact (Utf8.mem_encode_ascii ascii).mpr member
      · rw [fromUtf8Lossy_broken broken] at member
        obtain ⟨valid, front⟩ := Utf8.text_iff.mp broken.valid
        rcases List.mem_append.mp member with early | late
        · rw [front] at early
          change _ ∈ (Utf8.decode (Utf8.encode valid)).getD [] at early
          rw [Utf8.decode_encoded] at early
          refine List.mem_of_mem_take (i := position) ?_
          rw [front]
          exact (Utf8.mem_encode_ascii ascii).mpr early
        · rcases List.mem_cons.mp late with mark | behind
          · exact absurd mark (charOf_ne_mark ascii)
          · cases length with
            | none => cases behind
            | some count =>
              have shorter : (bytes.drop (position + count)).length < size := by
                rw [List.length_drop, ← measured]
                have positive := (broken.subpart count rfl).some
                have inside := broken.inside
                omega
              exact List.mem_of_mem_drop (inductionHypothesis _ shorter _ rfl behind)
  · intro member
    obtain ⟨left, right, rfl⟩ := List.append_of_mem member
    rw [fromUtf8Lossy_split ascii]
    exact List.mem_append_right _ List.mem_cons_self

/-- Text without the mark is the text of its own bytes only. -/
theorem eq_encode_of_unmarked (unmarked : '\uFFFD' ∉ fromUtf8Lossy bytes) :
    bytes = Utf8.encode (fromUtf8Lossy bytes) := by
  rcases text_or_broken bytes with ⟨text, rfl⟩ | ⟨position, length, broken⟩
  · rw [fromUtf8Lossy_encode]
  · rw [fromUtf8Lossy_broken broken] at unmarked
    exact absurd (List.mem_append_right _ List.mem_cons_self) unmarked

/-- Bytes are those of a text without the mark when their text is. -/
theorem fromUtf8Lossy_eq_iff {text : List Char} (unmarked : '\uFFFD' ∉ text) :
    fromUtf8Lossy bytes = text ↔ bytes = Utf8.encode text := by
  constructor
  · rintro rfl
    exact eq_encode_of_unmarked unmarked
  · rintro rfl
    exact fromUtf8Lossy_encode text

/-- Bytes begin with an ASCII byte when their text begins with its character. -/
theorem head?_fromUtf8Lossy (ascii : byte < 0x80) (bytes : Bytes) :
    (fromUtf8Lossy bytes).head? = some (charOf byte) ↔ bytes.head? = some byte := by
  constructor
  · intro first
    obtain ⟨rest, same⟩ := List.head?_eq_some_iff.mp first
    have member : byte ∈ bytes := (mem_fromUtf8Lossy ascii bytes).mp (same ▸ List.mem_cons_self)
    obtain ⟨left, right, rfl, apart⟩ := List.eq_append_cons_of_mem member
    cases left with
    | nil => rfl
    | cons head left =>
      have some_ := fromUtf8Lossy_some (List.cons_ne_nil head left)
      rw [fromUtf8Lossy_split ascii, List.head?_append_of_ne_nil _ some_] at first
      exact absurd ((mem_fromUtf8Lossy ascii _).mp (List.mem_of_mem_head? first)) apart
  · intro first
    obtain ⟨rest, rfl⟩ := List.head?_eq_some_iff.mp first
    rw [fromUtf8Lossy_cons ascii]
    rfl

end ZeroServer.Sse

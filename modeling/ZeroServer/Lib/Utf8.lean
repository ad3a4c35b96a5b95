/-
This file is about texts made of words no one of which starts another, and about UTF-8 as such a
code: the words are the encodings of characters, and their bytes are those a table of ranges gives.
-/

import Mathlib.Data.List.Basic

namespace ZeroServer.Lib

/-! ### Prefix codes -/

/-- Words that are not empty and do not start one another. -/
structure PrefixCode {Token : Type} (Word : List Token → Prop) : Prop where
  some : ¬Word []
  apart : ∀ {word more}, Word word → Word (word ++ more) → more = []

/-- A text is words one after the other. -/
inductive Text {Token : Type} (Word : List Token → Prop) : List Token → Prop
  | nil : Text Word []
  | cons {word rest : List Token} (first : Word word) (later : Text Word rest) :
      Text Word (word ++ rest)

/-- Tokens that are the start of a word, but not all of it. -/
def Begins {Token : Type} (Word : List Token → Prop) (part : List Token) : Prop :=
  ∃ more, more ≠ [] ∧ Word (part ++ more)

variable {count : Nat}

namespace Text

variable {Token : Type} {Word : List Token → Prop}

theorem single {word : List Token} (isWord : Word word) : Text Word word := by
  have text := Text.cons isWord Text.nil
  rwa [List.append_nil] at text

theorem append {first second : List Token} (left : Text Word first) (right : Text Word second) :
    Text Word (first ++ second) := by
  induction left with
  | nil => exact right
  | cons word later inductionHypothesis =>
    rw [List.append_assoc]
    exact .cons word inductionHypothesis

/-- Two ways to start the same tokens with a word are one. -/
theorem word_unique (code : PrefixCode Word) {first second left right : List Token}
    (isFirst : Word first) (isSecond : Word second) (same : first ++ left = second ++ right) :
    first = second ∧ left = right := by
  rcases List.append_eq_append_iff.mp same with ⟨more, grown, rest⟩ | ⟨more, grown, rest⟩
  · have nothing := code.apart isFirst (grown ▸ isSecond)
    subst nothing
    rw [List.append_nil] at grown
    exact ⟨grown.symm, rest⟩
  · have nothing := code.apart isSecond (grown ▸ isFirst)
    subst nothing
    rw [List.append_nil] at grown
    exact ⟨grown, rest.symm⟩

/-- What a word starts is a text exactly when the rest is. -/
theorem word_append (code : PrefixCode Word) {word rest : List Token} (isWord : Word word) :
    Text Word (word ++ rest) ↔ Text Word rest := by
  constructor
  · intro text
    generalize whole : word ++ rest = tokens at text
    cases text with
    | nil =>
      obtain ⟨empty, -⟩ := List.append_eq_nil_iff.mp whole
      exact absurd (empty ▸ isWord) code.some
    | cons first later =>
      obtain ⟨-, same⟩ := word_unique code isWord first whole
      rw [same]
      exact later
  · exact Text.cons isWord

theorem append_iff (code : PrefixCode Word) {first second : List Token} (left : Text Word first) :
    Text Word (first ++ second) ↔ Text Word second := by
  induction left with
  | nil => rfl
  | cons word later inductionHypothesis =>
    rw [List.append_assoc, word_append code word, inductionHypothesis]

/-- Tokens that start with no word are no text. -/
theorem not_of_stuck {rest : List Token} (some_ : rest ≠ [])
    (stuck : ∀ word more, rest = word ++ more → ¬Word word) : ¬Text Word rest := by
  intro text
  cases text with
  | nil => exact some_ rfl
  | cons first later => exact stuck _ _ rfl first

/-- A text in front of tokens that start with no word is the longest one. -/
theorem longest (code : PrefixCode Word) {text rest : List Token} (isText : Text Word text)
    (stuck : ∀ word more, rest = word ++ more → ¬Word word) (inside : count ≤ (text ++ rest).length)
    (other : Text Word ((text ++ rest).take count)) : count ≤ text.length := by
  refine Nat.le_of_not_lt fun longer => ?_
  rw [List.take_append, List.take_of_length_le (Nat.le_of_lt longer),
    append_iff code isText] at other
  refine not_of_stuck ?_ (fun word more same => ?_) other
  · rw [List.length_append] at inside
    intro empty
    have lengths := congrArg List.length empty
    rw [List.length_take, List.length_nil] at lengths
    omega
  · refine stuck word (more ++ rest.drop (count - text.length)) ?_
    rw [← List.append_assoc, ← same, List.take_append_drop]

end Text

/-! ### Where tokens stop being a text -/

/-- The maximal subpart at the start of tokens that start with no word: the longest start of them
that begins a word, or one token. -/
structure Subpart {Token : Type} (Word : List Token → Prop) (rest : List Token) (count : Nat) :
    Prop where
  some : 0 < count
  inside : count ≤ rest.length
  begins : count = 1 ∨ Begins Word (rest.take count)
  maximal : ∀ longer, count < longer → longer ≤ rest.length → ¬Begins Word (rest.take longer)

/-- Tokens are no text: the longest text they start with ends at the position, and what is there
is a broken subpart of a length, or a word not all there. -/
structure IllFormed {Token : Type} (Word : List Token → Prop) (tokens : List Token)
    (position : Nat) (length : Option Nat) : Prop where
  inside : position < tokens.length
  valid : Text Word (tokens.take position)
  longest : ∀ count, count ≤ tokens.length → Text Word (tokens.take count) → count ≤ position
  unfinished : length = none ↔ Begins Word (tokens.drop position)
  subpart : ∀ count, length = some count → Subpart Word (tokens.drop position) count

theorem Subpart.unique {Token : Type} {Word : List Token → Prop} {rest : List Token}
    {first second : Nat} (left : Subpart Word rest first) (right : Subpart Word rest second) :
    first = second := by
  have bounded : ∀ {shorter longer : Nat}, Subpart Word rest shorter → Subpart Word rest longer →
      longer ≤ shorter := by
    intro shorter longer lower upper
    refine Nat.le_of_not_lt fun less => ?_
    rcases upper.begins with single | begins
    · exact absurd lower.some (by omega)
    · exact lower.maximal longer less upper.inside begins
  exact Nat.le_antisymm (bounded right left) (bounded left right)

/-- A text behind which a word starts that nothing of what follows can end. -/
theorem illFormed_of_broken {Token : Type} {Word : List Token → Prop} (code : PrefixCode Word)
    {text part rest : List Token} {token : Token} (isText : Text Word text)
    (live : part = [] ∨ Begins Word part) (dead : ∀ more, ¬Word (part ++ token :: more)) :
    IllFormed Word (text ++ (part ++ token :: rest)) text.length
      (some (max part.length 1)) := by
  have stuck : ∀ word more, part ++ token :: rest = word ++ more → ¬Word word := by
    intro word more same isWord
    rcases List.append_eq_append_iff.mp same with ⟨grown, rfl, behind⟩ | ⟨grown, rfl, -⟩
    · cases grown with
      | nil =>
        rw [List.append_nil] at isWord
        rcases live with rfl | ⟨ending, some_, begins⟩
        · exact code.some isWord
        · exact some_ (code.apart isWord begins)
      | cons head tail =>
        obtain ⟨rfl, -⟩ := List.cons.inj behind
        exact dead _ isWord
    · rcases live with empty | ⟨ending, some_, begins⟩
      · rw [(List.append_eq_nil_iff.mp empty).1] at isWord
        exact code.some isWord
      · rw [List.append_assoc] at begins
        have nothing := code.apart isWord begins
        exact some_ (List.append_eq_nil_iff.mp nothing).2
  have notBegins : ∀ longer, part.length < longer →
      ¬Begins Word ((part ++ token :: rest).take longer) := by
    rintro longer less ⟨more, -, begins⟩
    rw [List.take_append, List.take_of_length_le (Nat.le_of_lt less)] at begins
    cases count : longer - part.length with
    | zero => omega
    | succ smaller =>
      rw [count, List.take_succ_cons, List.append_assoc, List.cons_append] at begins
      exact dead _ begins
  refine ⟨?_, ?_, ?_, ?_, ?_⟩
  · simp only [List.length_append, List.length_cons]
    omega
  · rw [List.take_left]
    exact isText
  · intro count inside other
    exact Text.longest code isText stuck inside other
  · rw [List.drop_left]
    refine ⟨(fun impossible => by cases impossible), fun begins => absurd begins ?_⟩
    rw [← List.take_length (l := part ++ token :: rest)]
    exact notBegins _ (by simp)
  · intro count same
    obtain rfl : max part.length 1 = count := Option.some.inj same
    rw [List.drop_left]
    refine ⟨Nat.lt_of_lt_of_le Nat.one_pos (Nat.le_max_right _ _), ?_, ?_, ?_⟩
    · rw [List.length_append, List.length_cons]
      omega
    · rcases live with rfl | begins
      · exact .inl rfl
      · cases part with
        | nil => exact .inl rfl
        | cons head tail =>
          right
          rw [Nat.max_eq_left (by simp), List.take_left]
          exact begins
    · intro longer less inside
      exact notBegins longer (Nat.lt_of_le_of_lt (Nat.le_max_left _ _) less)

namespace IllFormed

variable {Token : Type} {Word : List Token → Prop} {tokens : List Token}

variable {position : Nat} {length : Option Nat}

theorem not_text (faulty : IllFormed Word tokens position length) : ¬Text Word tokens := by
  intro text
  have whole := faulty.longest tokens.length (Nat.le_refl _) (by rwa [List.take_length])
  exact absurd faulty.inside (Nat.not_lt_of_le whole)

theorem unique {other : Nat} {lengths : Option Nat} (left : IllFormed Word tokens position length)
    (right : IllFormed Word tokens other lengths) : position = other ∧ length = lengths := by
  obtain rfl : position = other :=
    Nat.le_antisymm (right.longest _ (Nat.le_of_lt left.inside) left.valid)
      (left.longest _ (Nat.le_of_lt right.inside) right.valid)
  refine ⟨rfl, ?_⟩
  cases first : length with
  | none => exact (right.unfinished.mpr (left.unfinished.mp first)).symm
  | some count =>
    cases second : lengths with
    | none => exact absurd (left.unfinished.mpr (right.unfinished.mp second)) (by simp [first])
    | some others =>
      rw [(left.subpart _ first).unique (right.subpart _ second)]

/-- A text in front moves the place where tokens stop being one. -/
theorem behind (code : PrefixCode Word) {text : List Token} (isText : Text Word text)
    (faulty : IllFormed Word tokens position length) :
    IllFormed Word (text ++ tokens) (text.length + position) length := by
  have dropped : (text ++ tokens).drop (text.length + position) = tokens.drop position := by
    rw [← List.drop_drop, List.drop_left]
  refine ⟨?_, ?_, fun count inside other => ?_, ?_, ?_⟩
  · rw [List.length_append]
    exact Nat.add_lt_add_left faulty.inside _
  · rw [List.take_length_add_append]
    exact isText.append faulty.valid
  · refine Nat.le_of_not_lt fun longer => ?_
    obtain ⟨more, rfl⟩ := Nat.exists_eq_add_of_le (Nat.le_of_lt (Nat.lt_of_le_of_lt
      (Nat.le_add_right _ _) longer))
    rw [List.length_append] at inside
    rw [List.take_length_add_append, Text.append_iff code isText] at other
    exact Nat.not_lt_of_le (faulty.longest more (Nat.le_of_add_le_add_left inside) other)
      (Nat.lt_of_add_lt_add_left longer)
  · rw [dropped]
    exact faulty.unfinished
  · rw [dropped]
    exact faulty.subpart

/-- A broken subpart is a start of a word, or nothing, and a token that no word goes on with. -/
theorem broken (faulty : IllFormed Word tokens position (some count)) :
    ∃ part token rest, tokens.drop position = part ++ token :: rest ∧
      (part = [] ∨ Begins Word part) ∧ (∀ more, ¬ Word (part ++ token :: more)) ∧
      count = max part.length 1 := by
  have subpart := faulty.subpart count rfl
  have unfinished : ¬ Begins Word (tokens.drop position) := fun begins =>
    nomatch faulty.unfinished.mpr begins
  have noWord : ∀ longer, 0 < longer → longer ≤ (tokens.drop position).length →
      ¬ Word ((tokens.drop position).take longer) := by
    intro longer positive inside isWord
    have isText : Text Word (tokens.take (position + longer)) := by
      rw [List.take_add]
      exact faulty.valid.append (.single isWord)
    rw [List.length_drop] at inside
    have within := faulty.longest (position + longer) (by omega) isText
    omega
  have dead : ∀ part token rest, tokens.drop position = part ++ token :: rest →
      ¬ Begins Word (part ++ [token]) → ∀ more, ¬ Word (part ++ token :: more) := by
    intro part token rest parts notBegins more isWord
    cases more with
    | nil =>
      have taken : (tokens.drop position).take (part.length + 1) = part ++ [token] := by
        rw [parts, List.take_length_add_append]
        rfl
      rw [← taken] at isWord
      refine noWord (part.length + 1) (Nat.succ_pos _) ?_ isWord
      rw [parts, List.length_append, List.length_cons]
      omega
    | cons next more =>
      refine notBegins ⟨next :: more, List.cons_ne_nil _ _, ?_⟩
      rw [List.append_assoc]
      exact isWord
  by_cases begins : Begins Word ((tokens.drop position).take count)
  · have less : count < (tokens.drop position).length := by
      refine Nat.lt_of_le_of_ne subpart.inside fun same => unfinished ?_
      rwa [same, List.take_length] at begins
    have parts : tokens.drop position = (tokens.drop position).take count ++
        (tokens.drop position)[count] :: (tokens.drop position).drop (count + 1) := by
      rw [← List.drop_eq_getElem_cons less, List.take_append_drop]
    refine ⟨_, _, _, parts, .inr begins, dead _ _ _ parts ?_, ?_⟩
    · rw [List.take_append_getElem less]
      exact subpart.maximal (count + 1) (Nat.lt_succ_self count) less
    · rw [List.length_take_of_le subpart.inside]
      exact (Nat.max_eq_left subpart.some).symm
  · have one : count = 1 := subpart.begins.resolve_right begins
    subst one
    obtain ⟨token, rest, parts⟩ := List.exists_cons_of_ne_nil
      (List.ne_nil_of_length_pos subpart.inside)
    refine ⟨[], token, rest, parts, .inl rfl, dead [] token rest parts ?_, rfl⟩
    rwa [parts] at begins

/-- What follows does not mend a broken subpart. -/
theorem extend (code : PrefixCode Word) (faulty : IllFormed Word tokens position (some count))
    (more : List Token) : IllFormed Word (tokens ++ more) position (some count) := by
  obtain ⟨part, token, rest, parts, live, dead, same⟩ := faulty.broken
  have whole : tokens ++ more = tokens.take position ++ (part ++ token :: (rest ++ more)) := by
    rw [← List.cons_append, ← List.append_assoc part, ← parts, ← List.append_assoc,
      List.take_append_drop]
  have length : (tokens.take position).length = position :=
    List.length_take_of_le (Nat.le_of_lt faulty.inside)
  have broken := @illFormed_of_broken _ _ code _ _ (rest ++ more) _ faulty.valid live dead
  rwa [← whole, length, ← same] at broken

end IllFormed

/-- A text behind which a word starts that is not all there. -/
theorem illFormed_of_begins {Token : Type} {Word : List Token → Prop} (code : PrefixCode Word)
    {text part : List Token} (isText : Text Word text) (some_ : part ≠ [])
    (begins : Begins Word part) : IllFormed Word (text ++ part) text.length none := by
  have stuck : ∀ word more, part = word ++ more → ¬Word word := by
    rintro word more rfl isWord
    obtain ⟨ending, nonempty, whole⟩ := begins
    rw [List.append_assoc] at whole
    exact nonempty (List.append_eq_nil_iff.mp (code.apart isWord whole)).2
  refine ⟨?_, ?_, ?_, ?_, fun count impossible => by cases impossible⟩
  · rw [List.length_append]
    exact Nat.lt_add_of_pos_right (List.length_pos_iff.mpr some_)
  · rw [List.take_left]
    exact isText
  · intro count inside other
    exact Text.longest code isText stuck inside other
  · rw [List.drop_left]
    exact ⟨fun _ => begins, fun _ => rfl⟩

/-! ### UTF-8 -/

namespace Utf8

/-- The encodings of characters. -/
def IsChar (bytes : List UInt8) : Prop := ∃ char : Char, String.utf8EncodeChar char = bytes

/-- A byte after the first one. -/
def Tail (byte : UInt8) : Prop := 0x80 ≤ byte ∧ byte ≤ 0xBF

/-- The bytes of a character, by the table of ranges. -/
inductive WellFormed : List UInt8 → Prop
  | one {a : UInt8} (ascii : a ≤ 0x7F) : WellFormed [a]
  | two {a b : UInt8} (low : 0xC2 ≤ a) (high : a ≤ 0xDF) (second : Tail b) : WellFormed [a, b]
  | e0 {b c : UInt8} (low : 0xA0 ≤ b) (high : b ≤ 0xBF) (third : Tail c) : WellFormed [0xE0, b, c]
  | three {a b c : UInt8} (lead : 0xE1 ≤ a ∧ a ≤ 0xEC ∨ 0xEE ≤ a ∧ a ≤ 0xEF) (second : Tail b)
      (third : Tail c) : WellFormed [a, b, c]
  | ed {b c : UInt8} (low : 0x80 ≤ b) (high : b ≤ 0x9F) (third : Tail c) : WellFormed [0xED, b, c]
  | f0 {b c d : UInt8} (low : 0x90 ≤ b) (high : b ≤ 0xBF) (third : Tail c) (fourth : Tail d) :
      WellFormed [0xF0, b, c, d]
  | four {a b c d : UInt8} (low : 0xF1 ≤ a) (high : a ≤ 0xF3) (second : Tail b) (third : Tail c)
      (fourth : Tail d) : WellFormed [a, b, c, d]
  | f4 {b c d : UInt8} (low : 0x80 ≤ b) (high : b ≤ 0x8F) (third : Tail c) (fourth : Tail d) :
      WellFormed [0xF4, b, c, d]

theorem tail_ofNat (number : Nat) : Tail (UInt8.ofNat (number % 64 + 0x80)) := by
  have small : number % 64 < 64 := Nat.mod_lt _ (by decide)
  constructor <;>
    · rw [UInt8.le_iff_toNat_le, UInt8.toNat_ofNat_of_lt' (by rw [UInt8.size]; omega)]
      simp only [UInt8.reduceToNat]
      omega

theorem wellFormed_utf8EncodeChar (char : Char) : WellFormed (String.utf8EncodeChar char) := by
  have valid : char.val.toNat < 0xD800 ∨ 0xDFFF < char.val.toNat ∧ char.val.toNat < 0x110000 :=
    char.valid
  unfold String.utf8EncodeChar
  generalize char.val.toNat = v at valid
  dsimp only
  by_cases one : v ≤ 0x7F
  · rw [if_pos one]
    refine .one ?_
    rw [UInt8.le_iff_toNat_le, UInt8.toNat_ofNat_of_lt' (by rw [UInt8.size]; omega)]
    exact one
  rw [if_neg one]
  by_cases two : v ≤ 0x7FF
  · rw [if_pos two]
    have lead : (UInt8.ofNat (v / 64 % 0x20 + 0xC0)).toNat = v / 64 % 0x20 + 0xC0 :=
      UInt8.toNat_ofNat_of_lt' (by rw [UInt8.size]; omega)
    refine .two ?_ ?_ (tail_ofNat v) <;>
      · rw [UInt8.le_iff_toNat_le, lead]
        simp only [UInt8.reduceToNat]
        omega
  rw [if_neg two]
  by_cases three : v ≤ 0xFFFF
  · rw [if_pos three]
    have lead : (UInt8.ofNat (v / 4096 % 0x10 + 0xE0)).toNat = v / 4096 % 0x10 + 0xE0 :=
      UInt8.toNat_ofNat_of_lt' (by rw [UInt8.size]; omega)
    have second : (UInt8.ofNat (v / 64 % 0x40 + 0x80)).toNat = v / 64 % 0x40 + 0x80 :=
      UInt8.toNat_ofNat_of_lt' (by rw [UInt8.size]; omega)
    by_cases first : v / 4096 = 0
    · rw [show UInt8.ofNat (v / 4096 % 0x10 + 0xE0) = 0xE0 by rw [first]; rfl]
      refine .e0 ?_ ?_ (tail_ofNat v) <;>
        · rw [UInt8.le_iff_toNat_le, second]
          simp only [UInt8.reduceToNat]
          omega
    by_cases surrogate : v / 4096 = 0xD
    · rw [show UInt8.ofNat (v / 4096 % 0x10 + 0xE0) = 0xED by rw [surrogate]; rfl]
      refine .ed ?_ ?_ (tail_ofNat v) <;>
        · rw [UInt8.le_iff_toNat_le, second]
          simp only [UInt8.reduceToNat]
          omega
    · refine .three ?_ (tail_ofNat (v / 64)) (tail_ofNat v)
      simp only [UInt8.le_iff_toNat_le, lead, UInt8.reduceToNat]
      omega
  · rw [if_neg three]
    have lead : (UInt8.ofNat (v / 262144 % 0x08 + 0xF0)).toNat = v / 262144 % 0x08 + 0xF0 :=
      UInt8.toNat_ofNat_of_lt' (by rw [UInt8.size]; omega)
    have second : (UInt8.ofNat (v / 4096 % 0x40 + 0x80)).toNat = v / 4096 % 0x40 + 0x80 :=
      UInt8.toNat_ofNat_of_lt' (by rw [UInt8.size]; omega)
    by_cases first : v / 262144 = 0
    · rw [show UInt8.ofNat (v / 262144 % 0x08 + 0xF0) = 0xF0 by rw [first]; rfl]
      refine .f0 ?_ ?_ (tail_ofNat (v / 64)) (tail_ofNat v) <;>
        · rw [UInt8.le_iff_toNat_le, second]
          simp only [UInt8.reduceToNat]
          omega
    by_cases last : v / 262144 = 4
    · rw [show UInt8.ofNat (v / 262144 % 0x08 + 0xF0) = 0xF4 by rw [last]; rfl]
      refine .f4 ?_ ?_ (tail_ofNat (v / 64)) (tail_ofNat v) <;>
        · rw [UInt8.le_iff_toNat_le, second]
          simp only [UInt8.reduceToNat]
          omega
    · refine .four ?_ ?_ (tail_ofNat (v / 4096)) (tail_ofNat (v / 64)) (tail_ofNat v) <;>
        · rw [UInt8.le_iff_toNat_le, lead]
          simp only [UInt8.reduceToNat]
          omega

theorem toNat_ofNat {number : Nat} (valid : number.isValidChar) :
    (Char.ofNat number).val.toNat = number := by
  rw [Char.ofNat, dif_pos valid]
  rfl

theorem ofNat_eq {number : Nat} {byte : UInt8} (same : number = byte.toNat) :
    UInt8.ofNat number = byte := by
  rw [same, UInt8.ofNat_toNat]

theorem Tail.range {byte : UInt8} (tail : Tail byte) : 0x80 ≤ byte.toNat ∧ byte.toNat ≤ 0xBF := tail

variable {v : Nat}

theorem isChar_two {a b : UInt8} (valid : v.isValidChar) (low : 0x7F < v) (high : v ≤ 0x7FF)
    (first : v / 64 % 0x20 + 0xC0 = a.toNat) (second : v % 64 + 0x80 = b.toNat) :
    IsChar [a, b] := by
  refine ⟨Char.ofNat v, ?_⟩
  unfold String.utf8EncodeChar
  dsimp only
  rw [toNat_ofNat valid, if_neg (Nat.not_le_of_lt low), if_pos high, ofNat_eq first,
    ofNat_eq second]

theorem isChar_three {a b c : UInt8} (valid : v.isValidChar) (low : 0x7FF < v) (high : v ≤ 0xFFFF)
    (first : v / 4096 % 0x10 + 0xE0 = a.toNat) (second : v / 64 % 0x40 + 0x80 = b.toNat)
    (third : v % 64 + 0x80 = c.toNat) : IsChar [a, b, c] := by
  refine ⟨Char.ofNat v, ?_⟩
  unfold String.utf8EncodeChar
  dsimp only
  rw [toNat_ofNat valid, if_neg (by omega), if_neg (Nat.not_le_of_lt low), if_pos high,
    ofNat_eq first, ofNat_eq second, ofNat_eq third]

theorem isChar_four {a b c d : UInt8} (valid : v.isValidChar) (low : 0xFFFF < v)
    (first : v / 262144 % 0x08 + 0xF0 = a.toNat) (second : v / 4096 % 0x40 + 0x80 = b.toNat)
    (third : v / 64 % 0x40 + 0x80 = c.toNat) (fourth : v % 64 + 0x80 = d.toNat) :
    IsChar [a, b, c, d] := by
  refine ⟨Char.ofNat v, ?_⟩
  unfold String.utf8EncodeChar
  dsimp only
  rw [toNat_ofNat valid, if_neg (by omega), if_neg (by omega), if_neg (Nat.not_le_of_lt low),
    ofNat_eq first, ofNat_eq second, ofNat_eq third, ofNat_eq fourth]

variable {bytes : List UInt8}

theorem WellFormed.isChar (wellFormed : WellFormed bytes) : IsChar bytes := by
  cases wellFormed with
  | @one a ascii =>
    have high : a.toNat ≤ 0x7F := ascii
    refine ⟨Char.ofNat a.toNat, ?_⟩
    unfold String.utf8EncodeChar
    dsimp only
    rw [toNat_ofNat (.inl (by omega)), if_pos high, UInt8.ofNat_toNat]
  | @two a b low high second =>
    have lead : 0xC2 ≤ a.toNat := low
    have bound : a.toNat ≤ 0xDF := high
    have tail := second.range
    refine isChar_two (v := (a.toNat - 0xC0) * 64 + (b.toNat - 0x80)) (.inl ?_) ?_ ?_ ?_ ?_ <;>
      omega
  | @e0 b c low high third =>
    have first : (0xE0 : UInt8).toNat = 0xE0 := rfl
    have lead : 0xA0 ≤ b.toNat := low
    have bound : b.toNat ≤ 0xBF := high
    have tail := third.range
    refine isChar_three (v := (b.toNat - 0x80) * 64 + (c.toNat - 0x80)) (.inl ?_) ?_ ?_ ?_ ?_ ?_ <;>
      omega
  | @three a b c lead second third =>
    have lead : 0xE1 ≤ a.toNat ∧ a.toNat ≤ 0xEC ∨ 0xEE ≤ a.toNat ∧ a.toNat ≤ 0xEF := lead
    have middle := second.range
    have tail := third.range
    refine isChar_three
      (v := (a.toNat - 0xE0) * 4096 + (b.toNat - 0x80) * 64 + (c.toNat - 0x80)) ?_ ?_ ?_ ?_ ?_ ?_
    · rcases lead with ⟨low, high⟩ | ⟨low, high⟩
      · exact .inl (by omega)
      · exact .inr ⟨by omega, by omega⟩
    all_goals omega
  | @ed b c low high third =>
    have first : (0xED : UInt8).toNat = 0xED := rfl
    have lead : 0x80 ≤ b.toNat := low
    have bound : b.toNat ≤ 0x9F := high
    have tail := third.range
    refine isChar_three
      (v := 0xD000 + (b.toNat - 0x80) * 64 + (c.toNat - 0x80)) (.inl ?_) ?_ ?_ ?_ ?_ ?_ <;>
      omega
  | @f0 b c d low high third fourth =>
    have first : (0xF0 : UInt8).toNat = 0xF0 := rfl
    have lead : 0x90 ≤ b.toNat := low
    have bound : b.toNat ≤ 0xBF := high
    have middle := third.range
    have tail := fourth.range
    refine isChar_four
      (v := (b.toNat - 0x80) * 4096 + (c.toNat - 0x80) * 64 + (d.toNat - 0x80))
      (.inr ⟨?_, ?_⟩) ?_ ?_ ?_ ?_ ?_ <;>
      omega
  | @four a b c d low high second third fourth =>
    have lead : 0xF1 ≤ a.toNat := low
    have bound : a.toNat ≤ 0xF3 := high
    have upper := second.range
    have middle := third.range
    have tail := fourth.range
    refine isChar_four
      (v := (a.toNat - 0xF0) * 262144 + (b.toNat - 0x80) * 4096 + (c.toNat - 0x80) * 64
        + (d.toNat - 0x80)) (.inr ⟨?_, ?_⟩) ?_ ?_ ?_ ?_ ?_ <;>
      omega
  | @f4 b c d low high third fourth =>
    have first : (0xF4 : UInt8).toNat = 0xF4 := rfl
    have lead : 0x80 ≤ b.toNat := low
    have bound : b.toNat ≤ 0x8F := high
    have middle := third.range
    have tail := fourth.range
    refine isChar_four
      (v := 0x100000 + (b.toNat - 0x80) * 4096 + (c.toNat - 0x80) * 64 + (d.toNat - 0x80))
      (.inr ⟨?_, ?_⟩) ?_ ?_ ?_ ?_ ?_ <;>
      omega

/-- The table of ranges is UTF-8. -/
theorem isChar_iff : IsChar bytes ↔ WellFormed bytes := by
  constructor
  · rintro ⟨char, rfl⟩
    exact wellFormed_utf8EncodeChar char
  · exact WellFormed.isChar

/-- How many bytes a first byte announces. -/
def announced (lead : UInt8) : Nat :=
  if lead < 0x80 then 1 else if lead < 0xE0 then 2 else if lead < 0xF0 then 3 else 4

theorem WellFormed.length_eq (wellFormed : WellFormed bytes) :
    ∃ lead rest, bytes = lead :: rest ∧ bytes.length = announced lead := by
  unfold announced
  cases wellFormed with
  | @one a ascii =>
    have high : a.toNat ≤ 0x7F := ascii
    refine ⟨_, _, rfl, ?_⟩
    rw [if_pos (UInt8.lt_iff_toNat_lt.mpr (Nat.lt_succ_of_le high))]
    rfl
  | @two a b low high second =>
    have lead : 0xC2 ≤ a.toNat := low
    have bound : a.toNat ≤ 0xDF := high
    refine ⟨_, _, rfl, ?_⟩
    simp only [UInt8.lt_iff_toNat_lt, UInt8.reduceToNat]
    rw [if_neg (by omega), if_pos (by omega)]
    rfl
  | e0 low high third => exact ⟨_, _, rfl, rfl⟩
  | @three a b c lead second third =>
    have lead : 0xE1 ≤ a.toNat ∧ a.toNat ≤ 0xEC ∨ 0xEE ≤ a.toNat ∧ a.toNat ≤ 0xEF := lead
    refine ⟨_, _, rfl, ?_⟩
    simp only [UInt8.lt_iff_toNat_lt, UInt8.reduceToNat]
    rw [if_neg (by omega), if_neg (by omega), if_pos (by omega)]
    rfl
  | ed low high third => exact ⟨_, _, rfl, rfl⟩
  | f0 low high third fourth => exact ⟨_, _, rfl, rfl⟩
  | @four a b c d low high second third fourth =>
    have lead : 0xF1 ≤ a.toNat := low
    have bound : a.toNat ≤ 0xF3 := high
    refine ⟨_, _, rfl, ?_⟩
    simp only [UInt8.lt_iff_toNat_lt, UInt8.reduceToNat]
    rw [if_neg (by omega), if_neg (by omega), if_neg (by omega)]
    rfl
  | f4 low high third fourth => exact ⟨_, _, rfl, rfl⟩

/-- No character's encoding starts another's. -/
theorem prefixCode : PrefixCode IsChar where
  some empty := by
    obtain ⟨lead, rest, same, -⟩ := (isChar_iff.mp empty).length_eq
    exact List.cons_ne_nil lead rest same.symm
  apart := by
    intro word more first whole
    obtain ⟨lead, rest, rfl, length⟩ := (isChar_iff.mp first).length_eq
    obtain ⟨other, others, same, lengths⟩ := (isChar_iff.mp whole).length_eq
    obtain rfl : lead = other := (List.cons.inj same).1
    rw [List.length_append, length] at lengths
    exact List.length_eq_zero_iff.mp (Nat.add_eq_left.mp lengths)

/-- Texts of characters are the encodings of lists of characters. -/
theorem text_iff :
    Text IsChar bytes ↔ ∃ chars : List Char, bytes = chars.flatMap String.utf8EncodeChar := by
  constructor
  · intro text
    induction text with
    | nil => exact ⟨[], rfl⟩
    | cons first later inductionHypothesis =>
      obtain ⟨char, rfl⟩ := first
      obtain ⟨chars, rfl⟩ := inductionHypothesis
      exact ⟨char :: chars, rfl⟩
  · rintro ⟨chars, rfl⟩
    induction chars with
    | nil => exact .nil
    | cons char chars inductionHypothesis => exact .cons ⟨char, rfl⟩ inductionHypothesis

/-! ### Encoding and decoding -/

/-- The bytes of characters. -/
def encode (chars : List Char) : List UInt8 := chars.flatMap String.utf8EncodeChar

/-- The character at the start of the bytes. -/
def decodeChar (bytes : List UInt8) : Option Char := bytes.toByteArray.utf8DecodeChar? 0

/-- The characters of bytes that are a text. -/
def decode (bytes : List UInt8) : Option (List Char) :=
  if _some : bytes = [] then some []
  else
    match decodeChar bytes with
    | none => none
    | some char => (decode (bytes.drop char.utf8Size)).map (char :: ·)
termination_by bytes.length
decreasing_by
  have length := List.length_pos_iff.mpr _some
  have size := char.utf8Size_pos
  rw [List.length_drop]
  omega

@[simp] theorem encode_nil : encode [] = [] := rfl

@[simp] theorem encode_cons (char : Char) (chars : List Char) :
    encode (char :: chars) = String.utf8EncodeChar char ++ encode chars := rfl

@[simp] theorem encode_append (first second : List Char) :
    encode (first ++ second) = encode first ++ encode second := List.flatMap_append

theorem utf8EncodeChar_some (char : Char) : String.utf8EncodeChar char ≠ [] := by
  intro empty
  have length := String.length_utf8EncodeChar char
  rw [empty] at length
  exact absurd length.symm (Nat.ne_of_gt char.utf8Size_pos)

theorem decodeChar_append (char : Char) (rest : List UInt8) :
    decodeChar (String.utf8EncodeChar char ++ rest) = some char := by
  rw [decodeChar, List.toByteArray_append]
  exact ByteArray.utf8DecodeChar?_utf8EncodeChar_append

theorem decode_cons (char : Char) (rest : List UInt8) :
    decode (String.utf8EncodeChar char ++ rest) = (decode rest).map (char :: ·) := by
  have some_ : String.utf8EncodeChar char ++ rest ≠ [] := fun empty =>
    utf8EncodeChar_some char (List.append_eq_nil_iff.mp empty).1
  rw [decode, dif_neg some_, decodeChar_append]
  dsimp only
  rw [← String.length_utf8EncodeChar, List.drop_left]

/-- What was encoded is decoded. -/
@[simp] theorem decode_encoded (chars : List Char) : decode (encode chars) = some chars := by
  induction chars with
  | nil =>
    rw [encode_nil, decode]
    exact dif_pos rfl
  | cons char chars inductionHypothesis =>
    rw [encode_cons, decode_cons, inductionHypothesis]
    rfl

theorem decodeChar_eq_some {char : Char} (decoded : decodeChar bytes = some char) :
    ∃ rest, bytes = String.utf8EncodeChar char ++ rest ∧ bytes.drop char.utf8Size = rest := by
  obtain ⟨rest, same⟩ := ByteArray.exists_of_utf8DecodeChar?_eq_some decoded
  have whole : bytes = String.utf8EncodeChar char ++ rest.data.toList := by
    have listed := congrArg (fun array : ByteArray => array.data.toList) same
    simpa using listed
  refine ⟨rest.data.toList, whole, ?_⟩
  rw [whole, ← String.length_utf8EncodeChar, List.drop_left]

/-- What is decoded is an encoding. -/
theorem encode_of_decode {chars : List Char} (decoded : decode bytes = some chars) :
    bytes = encode chars := by
  induction size : bytes.length using Nat.strongRecOn generalizing bytes chars with
  | ind length inductionHypothesis =>
    rw [decode] at decoded
    by_cases empty : bytes = []
    · rw [dif_pos empty] at decoded
      cases decoded
      exact empty
    · rw [dif_neg empty] at decoded
      rcases first : decodeChar bytes with _ | char
      · rw [first] at decoded
        cases decoded
      · rw [first] at decoded
        obtain ⟨rest, whole, dropped⟩ := decodeChar_eq_some first
        obtain ⟨later, decodedRest, rfl⟩ := Option.map_eq_some_iff.mp decoded
        rw [dropped] at decodedRest
        have shorter : rest.length < length := by
          rw [← size, whole, List.length_append, String.length_utf8EncodeChar]
          exact Nat.lt_add_of_pos_left char.utf8Size_pos
        rw [whole, inductionHypothesis rest.length shorter decodedRest rfl]
        rfl

theorem encode_injective {first second : List Char} (same : encode first = encode second) :
    first = second := by
  have decoded := congrArg decode same
  rw [decode_encoded, decode_encoded] at decoded
  exact Option.some.inj decoded

theorem WellFormed.ascii (wellFormed : WellFormed bytes) :
    bytes.length = 1 ∨ ∀ byte ∈ bytes, 0x80 ≤ byte := by
  cases wellFormed with
  | one ascii => exact .inl rfl
  | two low high second =>
    right
    simp only [List.forall_mem_cons, List.not_mem_nil, false_implies, implies_true, and_true]
    exact ⟨UInt8.le_trans (by decide) low, second.1⟩
  | e0 low high third =>
    right
    simp only [List.forall_mem_cons, List.not_mem_nil, false_implies, implies_true, and_true]
    exact ⟨by decide, UInt8.le_trans (by decide) low, third.1⟩
  | three lead second third =>
    right
    simp only [List.forall_mem_cons, List.not_mem_nil, false_implies, implies_true, and_true]
    refine ⟨?_, second.1, third.1⟩
    rcases lead with ⟨low, -⟩ | ⟨low, -⟩ <;> exact UInt8.le_trans (by decide) low
  | ed low high third =>
    right
    simp only [List.forall_mem_cons, List.not_mem_nil, false_implies, implies_true, and_true]
    exact ⟨by decide, low, third.1⟩
  | f0 low high third fourth =>
    right
    simp only [List.forall_mem_cons, List.not_mem_nil, false_implies, implies_true, and_true]
    exact ⟨by decide, UInt8.le_trans (by decide) low, third.1, fourth.1⟩
  | four low high second third fourth =>
    right
    simp only [List.forall_mem_cons, List.not_mem_nil, false_implies, implies_true, and_true]
    exact ⟨UInt8.le_trans (by decide) low, second.1, third.1, fourth.1⟩
  | f4 low high third fourth =>
    right
    simp only [List.forall_mem_cons, List.not_mem_nil, false_implies, implies_true, and_true]
    exact ⟨by decide, low, third.1, fourth.1⟩

/-- The first byte of a character is no tail, and the others are. -/
theorem WellFormed.lead (wellFormed : WellFormed bytes) :
    ∃ lead tails, bytes = lead :: tails ∧ ¬ Tail lead ∧ ∀ byte ∈ tails, Tail byte := by
  have above : ∀ byte : UInt8, 0xC0 ≤ byte → ¬ Tail byte := fun byte high tail =>
    absurd (UInt8.le_trans high tail.2) (by decide)
  cases wellFormed with
  | one ascii => exact ⟨_, [], rfl, fun tail => absurd (UInt8.le_trans tail.1 ascii) (by decide), nofun⟩
  | two low high second =>
    exact ⟨_, _, rfl, above _ (UInt8.le_trans (by decide) low),
      List.forall_mem_singleton.mpr second⟩
  | e0 low high third =>
    refine ⟨_, _, rfl, above _ (by decide), List.forall_mem_cons.mpr ⟨?_, List.forall_mem_singleton.mpr third⟩⟩
    exact ⟨UInt8.le_trans (by decide) low, high⟩
  | three lead second third =>
    refine ⟨_, _, rfl, ?_, List.forall_mem_cons.mpr ⟨second, List.forall_mem_singleton.mpr third⟩⟩
    rcases lead with ⟨low, -⟩ | ⟨low, -⟩ <;> exact above _ (UInt8.le_trans (by decide) low)
  | ed low high third =>
    refine ⟨_, _, rfl, above _ (by decide), List.forall_mem_cons.mpr ⟨?_, List.forall_mem_singleton.mpr third⟩⟩
    exact ⟨low, UInt8.le_trans high (by decide)⟩
  | f0 low high third fourth =>
    refine ⟨_, _, rfl, above _ (by decide), List.forall_mem_cons.mpr ⟨?_, List.forall_mem_cons.mpr
      ⟨third, List.forall_mem_singleton.mpr fourth⟩⟩⟩
    exact ⟨UInt8.le_trans (by decide) low, high⟩
  | four low high second third fourth =>
    refine ⟨_, _, rfl, ?_, List.forall_mem_cons.mpr ⟨second, List.forall_mem_cons.mpr
      ⟨third, List.forall_mem_singleton.mpr fourth⟩⟩⟩
    exact above _ (UInt8.le_trans (by decide) low)
  | f4 low high third fourth =>
    refine ⟨_, _, rfl, above _ (by decide), List.forall_mem_cons.mpr ⟨?_, List.forall_mem_cons.mpr
      ⟨third, List.forall_mem_singleton.mpr fourth⟩⟩⟩
    exact ⟨low, UInt8.le_trans high (by decide)⟩

theorem utf8EncodeChar_lead (char : Char) :
    ∃ lead tails, String.utf8EncodeChar char = lead :: tails ∧ ¬ Tail lead ∧
      ∀ byte ∈ tails, Tail byte :=
  (wellFormed_utf8EncodeChar char).lead

theorem utf8EncodeChar_injective {first second : Char}
    (same : String.utf8EncodeChar first = String.utf8EncodeChar second) : first = second := by
  have decoded := decodeChar_append first []
  rw [same, decodeChar_append] at decoded
  exact (Option.some.inj decoded).symm

theorem utf8EncodeChar_ascii {char : Char} (one : char.toNat ≤ 0x7F) :
    String.utf8EncodeChar char = [UInt8.ofNat char.toNat] := by
  unfold String.utf8EncodeChar
  exact if_pos one

/-- An ASCII byte of a text is the character of the same number. -/
theorem mem_encode_ascii {chars : List Char} {byte : UInt8} (ascii : byte < 0x80) :
    byte ∈ encode chars ↔ Char.ofNat byte.toNat ∈ chars := by
  have small : byte.toNat ≤ 0x7F := Nat.le_of_lt_succ ascii
  have valid : byte.toNat.isValidChar := .inl (by omega)
  have value : (Char.ofNat byte.toNat).toNat = byte.toNat := toNat_ofNat valid
  have one : String.utf8EncodeChar (Char.ofNat byte.toNat) = [byte] := by
    rw [utf8EncodeChar_ascii (by rw [value]; exact small), value, UInt8.ofNat_toNat]
  constructor
  · intro member
    obtain ⟨char, inside, ofChar⟩ := List.mem_flatMap.mp member
    rcases (wellFormed_utf8EncodeChar char).ascii with single | high
    · rw [String.length_utf8EncodeChar, Char.utf8Size_eq_one_iff] at single
      rw [utf8EncodeChar_ascii single, List.mem_singleton] at ofChar
      have bound : char.toNat < 256 := Nat.lt_of_le_of_lt single (by decide)
      rw [ofChar, UInt8.toNat_ofNat_of_lt' bound, Char.ofNat_toNat]
      exact inside
    · exact absurd ascii (UInt8.not_lt.mpr (high byte ofChar))
  · intro member
    refine List.mem_flatMap.mpr ⟨_, member, ?_⟩
    rw [one]
    exact List.mem_cons_self

end Utf8

end ZeroServer.Lib

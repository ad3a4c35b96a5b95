/-
This file is about texts with padding around them, and about members between separators: what is
left when the padding is taken off, and what a member can hold.
-/

import Mathlib.Data.List.DropRight

namespace ZeroServer.Lib

variable {Letter : Type} {test : Letter → Bool} {text inner before after : List Letter}
  {letter : Letter}

/-- A text without the padding at its ends. -/
def trimBoth (test : Letter → Bool) (text : List Letter) : List Letter :=
  (text.dropWhile test).rdropWhile test

theorem trimBoth_blank (blank : ∀ letter ∈ text, test letter = true) : trimBoth test text = [] := by
  unfold trimBoth
  rw [List.dropWhile_eq_nil_iff.mpr blank]
  rfl

/-- Padding in front is taken off. -/
theorem trimBoth_front (blank : ∀ letter ∈ before, test letter = true) :
    trimBoth test (before ++ text) = trimBoth test text := by
  unfold trimBoth
  rw [List.dropWhile_append_of_pos blank]

/-- Padding behind is taken off. -/
theorem trimBoth_back (blank : ∀ letter ∈ after, test letter = true) :
    trimBoth test (text ++ after) = trimBoth test text := by
  induction text with
  | nil => rw [List.nil_append, trimBoth_blank blank]; rfl
  | cons letter text inductionHypothesis =>
    unfold trimBoth at inductionHypothesis ⊢
    rcases same : test letter with - | -
    · rw [List.cons_append, List.dropWhile_cons_of_neg (by rw [same]; exact Bool.false_ne_true),
        List.dropWhile_cons_of_neg (by rw [same]; exact Bool.false_ne_true), ← List.cons_append,
        List.rdropWhile, List.rdropWhile, List.reverse_append,
        List.dropWhile_append_of_pos fun letter member =>
          blank letter (List.mem_reverse.mp member)]
    · rw [List.cons_append, List.dropWhile_cons_of_pos same, List.dropWhile_cons_of_pos same,
        inductionHypothesis]

/-- What stands in front of something that is no padding stays. -/
theorem rdropWhile_mark (dark : test letter = false) (front text : List Letter) :
    (front ++ letter :: text).rdropWhile test = front ++ letter :: text.rdropWhile test := by
  induction text using List.reverseRecOn with
  | nil => exact List.rdropWhile_concat_neg _ _ _ (by rw [dark]; exact Bool.false_ne_true)
  | append_singleton text last inductionHypothesis =>
    rw [← List.cons_append, ← List.append_assoc, List.rdropWhile_concat, List.rdropWhile_concat,
      inductionHypothesis]
    split
    · rfl
    · rw [List.append_assoc, List.cons_append]

/-- Behind a text that begins and ends without padding, only the padding at the end is taken off. -/
theorem trimBoth_behind (some_ : inner ≠ []) (first : ∀ letter ∈ inner.head?, test letter = false)
    (last : ∀ letter ∈ inner.getLast?, test letter = false) (text : List Letter) :
    trimBoth test (inner ++ text) = inner ++ text.rdropWhile test := by
  have front : (inner ++ text).dropWhile test = inner ++ text := by
    obtain ⟨letter, rest, rfl⟩ := List.exists_cons_of_ne_nil some_
    exact List.dropWhile_cons_of_neg (by rw [first letter rfl]; exact Bool.false_ne_true)
  rcases List.eq_nil_or_concat inner with none_ | ⟨init, letter, rfl⟩
  · exact absurd none_ some_
  · rw [List.concat_eq_append] at last front ⊢
    have dark := last letter (List.getLast?_concat)
    unfold trimBoth
    rw [front, List.append_assoc, List.singleton_append, rdropWhile_mark dark, List.append_assoc,
      List.singleton_append]

/-- Padding around a text that begins and ends without it is taken off. -/
theorem trimBoth_padded (blank : ∀ letter ∈ before, test letter = true)
    (blank' : ∀ letter ∈ after, test letter = true) (some_ : inner ≠ [])
    (first : ∀ letter ∈ inner.head?, test letter = false)
    (last : ∀ letter ∈ inner.getLast?, test letter = false) :
    trimBoth test (before ++ inner ++ after) = inner := by
  have bare := trimBoth_behind some_ first last []
  rw [List.rdropWhile_nil, List.append_nil] at bare
  rw [trimBoth_back blank', trimBoth_front blank, bare]

theorem mem_dropWhile_dark (held : letter ∈ text) (dark : test letter = false) :
    letter ∈ text.dropWhile test := by
  rw [← List.takeWhile_append_dropWhile (p := test) (l := text)] at held
  rcases List.mem_append.mp held with padding | kept
  · rw [List.mem_takeWhile_imp padding] at dark
    cases dark
  · exact kept

/-- What is no padding stays. -/
theorem mem_trimBoth (held : letter ∈ text) (dark : test letter = false) :
    letter ∈ trimBoth test text := by
  unfold trimBoth
  rw [List.rdropWhile]
  exact List.mem_reverse.mpr
    (mem_dropWhile_dark (List.mem_reverse.mpr (mem_dropWhile_dark held dark)) dark)

theorem trimBoth_sublist (test : Letter → Bool) (text : List Letter) :
    (trimBoth test text).Sublist text :=
  (List.rdropWhile_prefix test _).sublist.trans (List.dropWhile_sublist _)

variable [DecidableEq Letter] {separator : Letter}

/-- A member is part of its text. -/
theorem mem_splitOn_sublist {piece : List Letter} (member : piece ∈ text.splitOn separator) :
    piece.Sublist text := by
  induction size : text.length using Nat.strongRecOn generalizing text with
  | ind length inductionHypothesis =>
    by_cases held : separator ∈ text
    · obtain ⟨front, behind, rfl⟩ := List.append_of_mem held
      rw [List.length_append, List.length_cons] at size
      rw [List.splitOn_append_cons_self] at member
      rcases List.mem_append.mp member with inFront | inBehind
      · exact (inductionHypothesis front.length (by omega) inFront rfl).trans
          (List.sublist_append_left _ _)
      · exact (inductionHypothesis behind.length (by omega) inBehind rfl).trans
          ((List.sublist_cons_self _ _).trans (List.sublist_append_right _ _))
    · rw [List.splitOn_eq_singleton held, List.mem_singleton] at member
      exact member ▸ List.Sublist.refl text

end ZeroServer.Lib

/-
This file is about texts split at a delimiter: at its first occurrence, and at every one of them
from the front. A delimiter that occurs nowhere earlier is found where it was put.
-/

import Mathlib.Data.List.Basic

namespace ZeroServer.Lib

variable {Letter : Type} [DecidableEq Letter]

/-- What stands before and behind the first occurrence of a delimiter. -/
def cutFirst (mark : List Letter) : List Letter → Option (List Letter × List Letter)
  | [] => if mark = [] then some ([], []) else none
  | letter :: rest =>
    if mark <+: letter :: rest then some ([], (letter :: rest).drop mark.length)
    else (cutFirst mark rest).map fun cut => (letter :: cut.1, cut.2)

/-- The pieces between the delimiters, for a number of rounds. -/
def piecesFor (mark : List Letter) : Nat → List Letter → List (List Letter)
  | 0, text => [text]
  | rounds + 1, text =>
    match cutFirst mark text with
    | none => [text]
    | some (front, behind) => front :: piecesFor mark rounds behind

/-- The pieces of a text between the delimiters, which are looked for from the front. -/
def pieces (mark text : List Letter) : List (List Letter) := piecesFor mark text.length text

variable {mark front rest text : List Letter}

/-- Behind a text the delimiter is the first one: it occurs in the text with it at the end only. -/
def EndsAt (mark front : List Letter) : Prop :=
  ∀ before behind, front ++ mark = before ++ mark ++ behind → behind = []

omit [DecidableEq Letter] in
theorem EndsAt.tail {letter : Letter} (ends : EndsAt mark (letter :: front)) :
    EndsAt mark front := fun before behind same =>
  ends (letter :: before) behind (congrArg (letter :: ·) same)

omit [DecidableEq Letter] in
/-- A letter in front, unless the delimiter would begin with it. -/
theorem EndsAt.cons {letter : Letter} (ends : EndsAt mark front)
    (later : ¬ mark <+: letter :: (front ++ mark)) : EndsAt mark (letter :: front) := by
  intro before behind same
  cases before with
  | nil => exact absurd ⟨behind, same.symm⟩ later
  | cons other before => exact ends before behind (List.cons.inj same).2

omit [DecidableEq Letter] in
/-- Text in front that the first letter of the delimiter does not occur in. -/
theorem EndsAt.plain {first : Letter} {more plain : List Letter}
    (ends : EndsAt (first :: more) front) (fresh : first ∉ plain) :
    EndsAt (first :: more) (plain ++ front) := by
  induction plain with
  | nil => exact ends
  | cons letter plain inductionHypothesis =>
    obtain ⟨other, rest⟩ := not_or.mp fun held => fresh (List.mem_cons.mpr held)
    exact (inductionHypothesis rest).cons fun begins => other (List.cons_prefix_cons.mp begins).1

omit [DecidableEq Letter] in
theorem endsAt_nil : EndsAt mark ([] : List Letter) := by
  intro before behind same
  have lengths := congrArg List.length same
  simp only [List.nil_append, List.length_append] at lengths
  exact List.length_eq_zero_iff.mp (by omega)

omit [DecidableEq Letter] in
/-- What a text and a delimiter behind it begin with, the text begins with if the first letter of
the delimiter does not occur in it. -/
theorem prefix_of_mark {first : Letter} {more plain : List Letter} (fresh : first ∉ plain)
    (begins : plain <+: text ++ first :: more) : plain <+: text := by
  obtain ⟨behind, same⟩ := begins
  rcases List.append_eq_append_iff.mp same with ⟨rest, whole, -⟩ | ⟨longer, whole, split⟩
  · exact ⟨rest, whole.symm⟩
  · cases longer with
    | nil => exact ⟨[], by rw [whole, List.append_nil, List.append_nil]⟩
    | cons letter longer =>
      refine absurd ?_ fresh
      rw [whole, (List.cons.inj split).1]
      exact List.mem_append_right _ List.mem_cons_self

omit [DecidableEq Letter] in
/-- A text without the delimiter, which begins with a letter it does not hold again. -/
theorem endsAt_of_absent {first : Letter} {more : List Letter} (fresh : first ∉ more)
    (absent : ¬ first :: more <:+: text) : EndsAt (first :: more) text := by
  induction text with
  | nil => exact endsAt_nil
  | cons letter text inductionHypothesis =>
    refine (inductionHypothesis fun inside => absent (inside.trans ?_)).cons fun begins => absent ?_
    · exact (List.suffix_cons letter text).isInfix
    · obtain ⟨same, rest⟩ := List.cons_prefix_cons.mp begins
      rw [same]
      exact (List.cons_prefix_cons.mpr ⟨rfl, prefix_of_mark fresh rest⟩).isInfix

theorem cutFirst_mark (some_ : mark ≠ []) (rest : List Letter) :
    cutFirst mark (mark ++ rest) = some ([], rest) := by
  obtain ⟨letter, more, rfl⟩ := List.exists_cons_of_ne_nil some_
  rw [List.cons_append, cutFirst, if_pos ⟨rest, rfl⟩]
  exact congrArg (fun behind => some ([], behind)) List.drop_left

theorem cutFirst_append (some_ : mark ≠ []) (ends : EndsAt mark front) (rest : List Letter) :
    cutFirst mark (front ++ mark ++ rest) = some (front, rest) := by
  induction front with
  | nil => exact cutFirst_mark some_ rest
  | cons letter front inductionHypothesis =>
    have later : ¬ mark <+: letter :: (front ++ mark ++ rest) := by
      intro first
      have inside : mark <+: letter :: (front ++ mark) :=
        List.prefix_of_prefix_length_le first ⟨rest, rfl⟩
          (by simp only [List.length_cons, List.length_append]; omega)
      obtain ⟨behind, same⟩ := inside
      have none_ := ends [] behind same.symm
      rw [none_, List.append_nil] at same
      have lengths := congrArg List.length same
      simp only [List.length_cons, List.length_append] at lengths
      omega
    rw [List.cons_append, List.cons_append, cutFirst, if_neg later, inductionHypothesis ends.tail]
    rfl

/-- A cut is where the delimiter stands. -/
theorem cutFirst_some {before behind : List Letter} (cut : cutFirst mark text = some (before, behind)) :
    text = before ++ mark ++ behind := by
  induction text generalizing before with
  | nil =>
    unfold cutFirst at cut
    split at cut
    · rename_i empty
      cases cut
      rw [empty]
      rfl
    · cases cut
  | cons letter text inductionHypothesis =>
    unfold cutFirst at cut
    split at cut
    · rename_i first
      cases cut
      exact (List.prefix_iff_eq_append.mp first).symm
    · cases later : cutFirst mark text with
      | none =>
        rw [later] at cut
        cases cut
      | some parts =>
        rw [later] at cut
        cases cut
        exact congrArg (letter :: ·) (inductionHypothesis later)

theorem cutFirst_none (absent : ¬ mark <:+: text) : cutFirst mark text = none := by
  cases cut : cutFirst mark text with
  | none => rfl
  | some parts => exact absurd ⟨parts.1, parts.2, (cutFirst_some cut).symm⟩ absent

/-- As many rounds as the text is long are enough. -/
theorem piecesFor_enough (some_ : mark ≠ []) {rounds : Nat} (enough : text.length ≤ rounds) :
    piecesFor mark rounds text = pieces mark text := by
  unfold pieces
  generalize length : text.length = size
  rw [length] at enough
  induction size using Nat.strongRecOn generalizing text rounds with
  | ind size inductionHypothesis =>
    have positive := List.length_pos_iff.mpr some_
    have shorter : ∀ {front behind : List Letter}, cutFirst mark text = some (front, behind) →
        behind.length < size := by
      intro front behind cut
      have whole := congrArg List.length (cutFirst_some cut)
      simp only [List.length_append] at whole
      omega
    cases rounds with
    | zero =>
      rw [Nat.le_zero.mp enough]
    | succ rounds =>
      cases size with
      | zero =>
        have cut : cutFirst mark text = none := by
          rw [List.length_eq_zero_iff.mp length, cutFirst, if_neg some_]
        show piecesFor mark (rounds + 1) text = [text]
        unfold piecesFor
        rw [cut]
      | succ size =>
        unfold piecesFor
        cases cut : cutFirst mark text with
        | none => rfl
        | some parts =>
          have less := shorter cut
          have both : ∀ {rounds}, parts.2.length ≤ rounds →
              piecesFor mark rounds parts.2 = piecesFor mark parts.2.length parts.2 :=
            fun enough => inductionHypothesis parts.2.length less enough rfl
          exact congrArg (parts.1 :: ·) ((both (by omega)).trans (both (by omega)).symm)

/-- The first piece and the others. -/
theorem pieces_append (some_ : mark ≠ []) (ends : EndsAt mark front) (rest : List Letter) :
    pieces mark (front ++ mark ++ rest) = front :: pieces mark rest := by
  have positive := List.length_pos_iff.mpr some_
  obtain ⟨rounds, length⟩ : ∃ rounds, (front ++ mark ++ rest).length = rounds + 1 :=
    ⟨front.length + (mark.length - 1) + rest.length, by
      simp only [List.length_append]
      omega⟩
  have enough : rest.length ≤ rounds := by
    simp only [List.length_append] at length
    omega
  unfold pieces
  rw [length, piecesFor, cutFirst_append some_ ends]
  exact congrArg (front :: ·) (piecesFor_enough some_ enough)

theorem pieces_whole (absent : ¬ mark <:+: text) : pieces mark text = [text] := by
  unfold pieces
  cases text.length with
  | zero => rfl
  | succ rounds => rw [piecesFor, cutFirst_none absent]

end ZeroServer.Lib

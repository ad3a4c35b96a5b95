/-
This file is about lists of closed intervals of numbers that stand in order with gaps between them:
what they cover, and how the last one grows or another is put behind it.
-/

import Mathlib.Data.List.Chain

namespace ZeroServer.Lib

/-- A number lies in one of the intervals. -/
def Covers (ranges : List (Nat × Nat)) (offset : Nat) : Prop :=
  ∃ range ∈ ranges, range.1 ≤ offset ∧ offset ≤ range.2

/-- Intervals below a bound, each behind the one before it and not adjacent to it. -/
structure Separated (bound : Nat) (ranges : List (Nat × Nat)) : Prop where
  proper : ∀ range ∈ ranges, range.1 ≤ range.2 ∧ range.2 < bound
  apart : ranges.IsChain fun first second => first.2 + 1 < second.1

variable {bound offset : Nat} {front ranges : List (Nat × Nat)} {previous next : Nat × Nat}

theorem separated_nil : Separated bound [] := ⟨nofun, .nil⟩

theorem covers_append {first second : List (Nat × Nat)} :
    Covers (first ++ second) offset ↔ Covers first offset ∨ Covers second offset := by
  unfold Covers
  constructor
  · rintro ⟨range, member, inside⟩
    exact (List.mem_append.mp member).imp (fun held => ⟨range, held, inside⟩)
      fun held => ⟨range, held, inside⟩
  · rintro (⟨range, member, inside⟩ | ⟨range, member, inside⟩)
    · exact ⟨range, List.mem_append_left _ member, inside⟩
    · exact ⟨range, List.mem_append_right _ member, inside⟩

theorem covers_singleton {range : Nat × Nat} :
    Covers [range] offset ↔ range.1 ≤ offset ∧ offset ≤ range.2 := by
  unfold Covers
  simp only [List.mem_singleton, exists_eq_left]

/-- An interval that begins in the last one, or right behind it, makes the last one longer. -/
theorem Separated.grow (separated : Separated bound (front ++ [previous]))
    (fits : next.1 ≤ next.2 ∧ next.2 < bound) (touches : next.1 ≤ previous.2 + 1)
    (onwards : previous.1 ≤ next.1) :
    Separated bound (front ++ [(previous.1, max previous.2 next.2)]) ∧
      (Covers (front ++ [(previous.1, max previous.2 next.2)]) offset ↔
        Covers (front ++ [previous]) offset ∨ next.1 ≤ offset ∧ offset ≤ next.2) := by
  have last := separated.proper previous (List.mem_append_right _ List.mem_cons_self)
  refine ⟨⟨fun range member => ?_, ?_⟩, ?_⟩
  · rcases List.mem_append.mp member with before | here
    · exact separated.proper range (List.mem_append_left _ before)
    · rw [List.mem_singleton.mp here]
      dsimp only
      omega
  · obtain ⟨before, -, seam⟩ := List.isChain_append.mp separated.apart
    refine List.isChain_append.mpr ⟨before, .singleton _, fun first ended second begun => ?_⟩
    cases begun
    exact seam first ended previous rfl
  · rw [covers_append, covers_append, covers_singleton, covers_singleton, or_assoc]
    refine or_congr_right ?_
    dsimp only
    omega

/-- An interval behind a gap is put behind the others. -/
theorem Separated.push (separated : Separated bound ranges)
    (fits : next.1 ≤ next.2 ∧ next.2 < bound)
    (behind : ∀ previous ∈ ranges.getLast?, previous.2 + 1 < next.1) :
    Separated bound (ranges ++ [next]) ∧
      (Covers (ranges ++ [next]) offset ↔
        Covers ranges offset ∨ next.1 ≤ offset ∧ offset ≤ next.2) := by
  refine ⟨⟨fun range member => ?_, ?_⟩, ?_⟩
  · rcases List.mem_append.mp member with before | here
    · exact separated.proper range before
    · rw [List.mem_singleton.mp here]
      exact fits
  · refine List.isChain_append.mpr ⟨separated.apart, .singleton _, fun first ended second begun => ?_⟩
    cases begun
    exact behind first ended
  · rw [covers_append, covers_singleton]

end ZeroServer.Lib

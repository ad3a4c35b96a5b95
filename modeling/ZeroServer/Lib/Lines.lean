/-
This file develops texts made of lines, each ended by the same two symbols: the search for the end
of the first line, reading a text back as its lines, and the in-place moves of an editor that drops
lines.
-/

import Mathlib.Data.List.Basic

namespace ZeroServer.Lib

variable {Symbol : Type} [DecidableEq Symbol] {first second : Symbol}

/-! ### The end of a line -/

/-- The place of the first pair of symbols. -/
def pairAt (first second : Symbol) : List Symbol → Option Nat
  | [] => none
  | symbol :: rest =>
    if symbol = first ∧ rest.head? = some second then some 0
    else (pairAt first second rest).map (· + 1)

theorem pairAt_append {line : List Symbol} (plain : first ∉ line) (rest : List Symbol) :
    pairAt first second (line ++ first :: second :: rest) = some line.length := by
  induction line with
  | nil =>
    rw [List.nil_append, pairAt, if_pos ⟨rfl, rfl⟩]
    rfl
  | cons symbol line inductionHypothesis =>
    obtain ⟨apart, later⟩ := not_or.mp (mt List.mem_cons.mpr plain)
    rw [List.cons_append, pairAt, if_neg (fun both => apart both.1.symm), inductionHypothesis later]
    rfl

/-! ### Reading lines back -/

/-- A text made of the lines, each ended by the pair. -/
def writeLines (first second : Symbol) (lines : List (List Symbol)) : List Symbol :=
  lines.flatMap fun line => line ++ [first, second]

/-- The lines of a text, behind the line read so far; nothing for a text that does not stop at the
end of a line. -/
def readLines (first second : Symbol) :
    List Symbol → List Symbol → Option (List (List Symbol))
  | line, [] => if line = [] then some [] else none
  | _, [_] => none
  | line, symbol :: next :: rest =>
    if symbol = first ∧ next = second then (readLines first second [] rest).map (line :: ·)
    else readLines first second (line ++ [symbol]) (next :: rest)

theorem readLines_cons {symbol : Symbol} (apart : symbol ≠ first) (known : List Symbol)
    {rest : List Symbol} (more : rest ≠ []) :
    readLines first second known (symbol :: rest) =
      readLines first second (known ++ [symbol]) rest := by
  obtain ⟨next, behind, rfl⟩ := List.exists_cons_of_ne_nil more
  rw [readLines, if_neg fun both => apart both.1]

theorem readLines_append {line : List Symbol} (plain : first ∉ line) (known rest : List Symbol) :
    readLines first second known (line ++ first :: second :: rest) =
      (readLines first second [] rest).map ((known ++ line) :: ·) := by
  induction line generalizing known with
  | nil => rw [List.nil_append, List.append_nil, readLines, if_pos ⟨rfl, rfl⟩]
  | cons symbol line inductionHypothesis =>
    obtain ⟨apart, later⟩ := not_or.mp (mt List.mem_cons.mpr plain)
    rw [List.cons_append, readLines_cons (Ne.symm apart) known (by simp),
      inductionHypothesis later, List.append_assoc]
    rfl

/-- Lines without the first symbol read back as they were written. -/
theorem readLines_writeLines {lines : List (List Symbol)} (plain : ∀ line ∈ lines, first ∉ line) :
    readLines first second [] (writeLines first second lines) = some lines := by
  induction lines with
  | nil => rfl
  | cons line lines inductionHypothesis =>
    have later := inductionHypothesis fun other member =>
      plain other (List.mem_cons_of_mem _ member)
    unfold writeLines at later ⊢
    rw [List.flatMap_cons, List.append_assoc, List.cons_append, List.cons_append, List.nil_append,
      readLines_append (plain line List.mem_cons_self), later]
    rfl

/-! ### Lines that either symbol ends -/

/-- The lines that are ended, by one of the symbols or by the first in front of the second, behind
the line read so far, and what stands behind the last end. -/
def endedLines (first second : Symbol) :
    List Symbol → List Symbol → List (List Symbol) × List Symbol
  | line, [] => ([], line)
  | line, [symbol] =>
    if symbol = first ∨ symbol = second then ([line], []) else ([], line ++ [symbol])
  | line, symbol :: next :: rest =>
    if symbol = first ∧ next = second then
      let (lines, unended) := endedLines first second [] rest
      (line :: lines, unended)
    else if symbol = first ∨ symbol = second then
      let (lines, unended) := endedLines first second [] (next :: rest)
      (line :: lines, unended)
    else endedLines first second (line ++ [symbol]) (next :: rest)

/-- A symbol that ends no line joins it. -/
theorem endedLines_joins {symbol : Symbol} (plain : ¬ (symbol = first ∨ symbol = second))
    (line rest : List Symbol) :
    endedLines first second line (symbol :: rest) =
      endedLines first second (line ++ [symbol]) rest := by
  cases rest with
  | nil => exact if_neg plain
  | cons next rest => rw [endedLines, if_neg fun both => plain (.inl both.1), if_neg plain]

/-- What stands behind the end of a line that a symbol ends: both symbols end it together. -/
def behindEnd (first second symbol : Symbol) (rest : List Symbol) : List Symbol :=
  if symbol = first ∧ rest.head? = some second then rest.tail else rest

/-- Either symbol ends a line. -/
theorem endedLines_ends {symbol : Symbol} (ends : symbol = first ∨ symbol = second)
    (line rest : List Symbol) :
    endedLines first second line (symbol :: rest) =
      (line :: (endedLines first second [] (behindEnd first second symbol rest)).1,
        (endedLines first second [] (behindEnd first second symbol rest)).2) := by
  unfold behindEnd
  cases rest with
  | nil =>
    rw [if_neg fun both => nomatch both.2]
    exact if_pos ends
  | cons next rest =>
    have heads : (symbol = first ∧ (next :: rest).head? = some second) ↔
        symbol = first ∧ next = second := and_congr_right fun _ => Option.some_inj
    rw [endedLines]
    by_cases both : symbol = first ∧ next = second
    · rw [if_pos both, if_pos (heads.mpr both)]
      rfl
    · rw [if_neg both, if_pos ends, if_neg (mt heads.mp both)]

theorem endedLines_plain {part : List Symbol}
    (plain : ∀ symbol ∈ part, ¬ (symbol = first ∨ symbol = second)) (line rest : List Symbol) :
    endedLines first second line (part ++ rest) = endedLines first second (line ++ part) rest := by
  induction part generalizing line with
  | nil => rw [List.nil_append, List.append_nil]
  | cons symbol part inductionHypothesis =>
    obtain ⟨joins, later⟩ := List.forall_mem_cons.mp plain
    rw [List.cons_append, endedLines_joins joins, inductionHypothesis later, List.append_assoc]
    rfl

/-- The line read so far begins the first line, or what stands behind the last one. -/
theorem endedLines_begins (line text : List Symbol) :
    (endedLines first second line text).1 = [] ∧
        line <+: (endedLines first second line text).2 ∨
      ∃ ended rest, (endedLines first second line text).1 = ended :: rest ∧ line <+: ended := by
  induction text generalizing line with
  | nil => exact .inl ⟨rfl, List.prefix_rfl⟩
  | cons symbol text inductionHypothesis =>
    by_cases ends : symbol = first ∨ symbol = second
    · rw [endedLines_ends ends]
      exact .inr ⟨line, _, rfl, List.prefix_rfl⟩
    · rw [endedLines_joins ends]
      have longer : line <+: line ++ [symbol] := List.prefix_append _ _
      rcases inductionHypothesis (line ++ [symbol]) with
        ⟨none, begins⟩ | ⟨ended, rest, some_, begins⟩
      · exact .inl ⟨none, longer.trans begins⟩
      · exact .inr ⟨ended, rest, some_, longer.trans begins⟩

/-! ### Moving a part of a text down -/

/-- Copy what stands between two places to an earlier one. -/
def copyWithin {Item : Type} (text : List Item) (from_ end_ write : Nat) : List Item :=
  text.take write ++ (text.drop from_).take (end_ - from_) ++ text.drop (write + (end_ - from_))

/-- A part moved down over a gap swaps with the gap, as far as lengths go: what was kept grows by
the part and as many items as before are between it and the rest. -/
theorem copyWithin_gap {Item : Type} (kept gap part rest : List Item) :
    ∃ gap', gap'.length = gap.length ∧
      copyWithin (kept ++ (gap ++ (part ++ rest))) (kept.length + gap.length)
        (kept.length + gap.length + part.length) kept.length =
          kept ++ part ++ (gap' ++ rest) := by
  refine ⟨(gap ++ part).drop part.length, by simp, ?_⟩
  unfold copyWithin
  have moved : ((kept ++ (gap ++ (part ++ rest))).drop (kept.length + gap.length)).take
      (kept.length + gap.length + part.length - (kept.length + gap.length)) = part := by
    rw [← List.append_assoc, ← List.length_append, List.drop_left, Nat.add_sub_cancel_left,
      List.take_left]
  have behind : (kept ++ (gap ++ (part ++ rest))).drop
      (kept.length + (kept.length + gap.length + part.length - (kept.length + gap.length))) =
        (gap ++ part).drop part.length ++ rest := by
    rw [Nat.add_sub_cancel_left, ← List.drop_drop, List.drop_left, ← List.append_assoc,
      List.drop_append_of_le_length (by simp)]
  rw [moved, behind, List.take_left]

end ZeroServer.Lib

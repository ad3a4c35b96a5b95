/-
This file develops texts whose parts are joined by a separator: splitting gives the parts back, a
mark is found behind what does not hold it, and two separators in a row are found only where a part
between them is empty.
-/

import ZeroServer.Lib.Lines

namespace ZeroServer.Lib

variable {Letter : Type} [DecidableEq Letter] {separator mark : Letter} {text front : List Letter}
  {parts : List (List Letter)}

/-! ### Marks -/

theorem findIdx?_mark (plain : mark ∉ front) (rest : List Letter) :
    (front ++ mark :: rest).findIdx? (· == mark) = some front.length := by
  induction front with
  | nil => rw [List.nil_append, List.findIdx?_cons, beq_self_eq_true]; rfl
  | cons letter front inductionHypothesis =>
    obtain ⟨apart, later⟩ := not_or.mp (mt List.mem_cons.mpr plain)
    rw [List.cons_append, List.findIdx?_cons, beq_false_of_ne (Ne.symm apart),
      if_neg Bool.false_ne_true, inductionHypothesis later]
    rfl

theorem findIdx?_plain (plain : mark ∉ text) : text.findIdx? (· == mark) = none :=
  List.findIdx?_eq_none_iff.mpr fun _ member => beq_false_of_ne fun same => plain (same ▸ member)

/-- What stands around the first mark. -/
theorem findIdx?_split {place : Nat} (found : text.findIdx? (· == mark) = some place) :
    mark ∉ text.take place ∧ text = text.take place ++ mark :: text.drop (place + 1) := by
  induction text generalizing place with
  | nil => cases found
  | cons letter text inductionHypothesis =>
    rw [List.findIdx?_cons] at found
    by_cases same : letter = mark
    · rw [if_pos (beq_iff_eq.mpr same)] at found
      cases found
      exact ⟨List.not_mem_nil, by rw [same]; rfl⟩
    · rw [if_neg (by simpa using same)] at found
      obtain ⟨earlier, before, rfl⟩ := Option.map_eq_some_iff.mp found
      obtain ⟨fresh, whole⟩ := inductionHypothesis before
      refine ⟨?_, ?_⟩
      · rw [List.take_succ_cons, List.mem_cons, not_or]
        exact ⟨fun here => same here.symm, fresh⟩
      · rw [List.take_succ_cons, List.cons_append, List.drop_succ_cons]
        exact congrArg (letter :: ·) whole

/-! ### Joined texts -/

variable {letter : Letter}

/-- A text of parts of a kind, one at least, with a separator between them. -/
def Joined (separator : Letter) (Part : List Letter → Prop) (text : List Letter) : Prop :=
  ∃ parts, parts ≠ [] ∧ (∀ part ∈ parts, Part part) ∧ [separator].intercalate parts = text

/-- A text is joined of parts of a kind without the separator exactly if splitting gives such. -/
theorem joined_iff {Part : List Letter → Prop} (plain : ∀ part, Part part → separator ∉ part) :
    Joined separator Part text ↔ ∀ part ∈ text.splitOn separator, Part part := by
  constructor
  · rintro ⟨parts, some_, all, rfl⟩
    rw [List.splitOn_intercalate separator (fun part member => plain part (all part member)) some_]
    exact all
  · intro all
    exact ⟨_, List.splitOn_ne_nil separator text, all, List.intercalate_splitOn separator⟩

omit [DecidableEq Letter] in
/-- The letters of a joined text are those of its parts, and the separator. -/
theorem mem_intercalate (held : letter ∈ [separator].intercalate parts) :
    letter = separator ∨ ∃ part ∈ parts, letter ∈ part := by
  induction parts with
  | nil => cases held
  | cons part rest inductionHypothesis =>
    cases rest with
    | nil =>
      rw [List.intercalate_singleton] at held
      exact .inr ⟨part, List.mem_cons_self, held⟩
    | cons next rest =>
      rw [List.intercalate_cons_cons, List.mem_append, List.mem_append, List.mem_singleton] at held
      rcases held with (here | mark) | later
      · exact .inr ⟨part, List.mem_cons_self, here⟩
      · exact .inl mark
      · refine (inductionHypothesis later).imp_right ?_
        rintro ⟨other, member, within⟩
        exact ⟨other, List.mem_cons_of_mem _ member, within⟩

omit [DecidableEq Letter] in
theorem mem_intercalate_of_mem {part : List Letter} (member : part ∈ parts) (held : letter ∈ part) :
    letter ∈ [separator].intercalate parts := by
  induction parts with
  | nil => cases member
  | cons first rest inductionHypothesis =>
    cases rest with
    | nil =>
      rw [List.intercalate_singleton]
      exact List.mem_singleton.mp member ▸ held
    | cons next rest =>
      rw [List.intercalate_cons_cons]
      rcases List.mem_cons.mp member with rfl | later
      · exact List.mem_append_left _ (List.mem_append_left _ held)
      · exact List.mem_append_right _ (inductionHypothesis later)

omit [DecidableEq Letter] in
theorem separator_mem_intercalate (many : 2 ≤ parts.length) :
    separator ∈ [separator].intercalate parts := by
  match parts, many with
  | first :: second :: rest, _ =>
    rw [List.intercalate_cons_cons]
    exact List.mem_append_left _ (List.mem_append_right _ List.mem_cons_self)

omit [DecidableEq Letter] in
theorem intercalate_append (front : List (List Letter)) (next : List Letter)
    (behind : List (List Letter)) (some_ : front ≠ []) :
    [separator].intercalate (front ++ next :: behind) =
      [separator].intercalate front ++ separator :: [separator].intercalate (next :: behind) := by
  induction front with
  | nil => exact absurd rfl some_
  | cons first rest inductionHypothesis =>
    cases rest with
    | nil =>
      rw [List.singleton_append, List.intercalate_cons_cons, List.intercalate_singleton,
        List.append_assoc, List.singleton_append]
    | cons second rest =>
      have inner := inductionHypothesis (List.cons_ne_nil _ _)
      rw [List.cons_append, List.cons_append, List.intercalate_cons_cons, ← List.cons_append, inner,
        List.intercalate_cons_cons]
      simp only [List.append_assoc]

/-! ### Separators in a row -/

theorem pairAt_split {first second : Letter} {place : Nat}
    (found : pairAt first second text = some place) :
    text = text.take place ++ first :: second :: text.drop (place + 2) := by
  induction text generalizing place with
  | nil => cases found
  | cons letter text inductionHypothesis =>
    rw [pairAt] at found
    by_cases here : letter = first ∧ text.head? = some second
    · rw [if_pos here] at found
      cases found
      obtain ⟨rest, rfl⟩ := List.head?_eq_some_iff.mp here.2
      rw [here.1]
      rfl
    · rw [if_neg here] at found
      obtain ⟨earlier, before, rfl⟩ := Option.map_eq_some_iff.mp found
      rw [List.take_succ_cons, List.cons_append]
      exact congrArg (letter :: ·) (inductionHypothesis before)

/-- No pair of separators begins in a text that holds none and is followed by none. -/
theorem pairAt_plain_append (plain : separator ∉ front) (rest : List Letter) :
    pairAt separator separator (front ++ rest) =
      (pairAt separator separator rest).map (· + front.length) := by
  induction front with
  | nil =>
    show _ = (pairAt separator separator rest).map id
    rw [Option.map_id]
    rfl
  | cons letter front inductionHypothesis =>
    obtain ⟨apart, later⟩ := not_or.mp (mt List.mem_cons.mpr plain)
    rw [List.cons_append, pairAt, if_neg fun both => apart both.1.symm, inductionHypothesis later,
      Option.map_map]
    rfl

/-- Between parts that are not empty there are no two separators in a row, and none at the ends. -/
theorem pairAt_joined (some_ : parts ≠ []) (plain : ∀ part ∈ parts, separator ∉ part ∧ part ≠ []) :
    pairAt separator separator ([separator].intercalate parts) = none ∧
      ([separator].intercalate parts).head? ≠ some separator ∧
      ([separator].intercalate parts).getLast? ≠ some separator := by
  have edges : ∀ {part : List Letter}, separator ∉ part →
      part.head? ≠ some separator ∧ part.getLast? ≠ some separator := fun plain =>
    ⟨fun first => plain (List.mem_of_head? first), fun last => plain (List.mem_of_getLast? last)⟩
  have alone : ∀ {part : List Letter}, separator ∉ part →
      pairAt separator separator part = none := by
    intro part plain
    have passed := @pairAt_plain_append _ _ _ _ plain []
    rw [List.append_nil] at passed
    exact passed
  induction parts with
  | nil => exact absurd rfl some_
  | cons part rest inductionHypothesis =>
    obtain ⟨⟨fresh, filled⟩, others⟩ := List.forall_mem_cons.mp plain
    cases rest with
    | nil =>
      rw [List.intercalate_singleton]
      exact ⟨alone fresh, edges fresh⟩
    | cons next rest =>
      obtain ⟨none_, first, last⟩ := inductionHypothesis (List.cons_ne_nil _ _) others
      have more : [separator].intercalate (next :: rest) ≠ [] := by
        intro empty
        have back := List.splitOn_intercalate separator (fun part member => (others part member).1)
          (List.cons_ne_nil next rest)
        rw [empty] at back
        exact (others next List.mem_cons_self).2 (List.cons.inj back).1.symm
      rw [List.intercalate_cons_cons]
      refine ⟨?_, ?_, ?_⟩
      · rw [List.append_assoc, List.singleton_append, pairAt_plain_append fresh, pairAt,
          if_neg fun both => first both.2, none_]
        rfl
      · rw [List.append_assoc, List.head?_append_of_ne_nil _ filled]
        exact (edges fresh).1
      · rw [List.getLast?_append_of_ne_nil _ more]
        exact last

/-- Behind a text without two separators in a row that does not end with one, they are found. -/
theorem pairAt_behind (none_ : pairAt separator separator front = none)
    (last : front.getLast? ≠ some separator) (rest : List Letter) :
    pairAt separator separator (front ++ separator :: separator :: rest) = some front.length := by
  induction front with
  | nil => rw [List.nil_append, pairAt, if_pos ⟨rfl, rfl⟩]; rfl
  | cons letter front inductionHypothesis =>
    rw [pairAt] at none_
    split at none_
    · cases none_
    · rename_i apart
      have before := Option.map_eq_none_iff.mp none_
      cases front with
      | nil =>
        have other : letter ≠ separator := fun same => last (by rw [same]; rfl)
        rw [List.singleton_append, pairAt, if_neg fun both => other both.1, pairAt, if_pos ⟨rfl, rfl⟩]
        rfl
      | cons next front =>
        have inner := inductionHypothesis before last
        have passed : ¬ (letter = separator ∧
            (next :: front ++ separator :: separator :: rest).head? = some separator) := apart
        rw [List.cons_append, pairAt, if_neg passed, inner]
        rfl

end ZeroServer.Lib

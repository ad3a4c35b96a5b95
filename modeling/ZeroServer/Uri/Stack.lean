/-
This file models the loop that removes dot-segments as it runs in place, with the input it keeps to
put a `/` back, and proves that it ends and does to an absolute path what a stack of segments does.
-/

import ZeroServer.Uri.Normal

namespace ZeroServer.Uri

open Http1

/-! ### The loop in place -/

variable {rest : Bytes} {count : Nat}

variable {input : Bytes}

/-- The input from the `/` on that is in front of a tail of it. -/
def completeWithSlash (after input : Bytes) : Bytes := input.drop (input.length - after.length - 1)

/-- One round: the rest of the input, and the output. -/
def dotRound (input rest output : Bytes) : Bytes × Bytes :=
  if rest.take 3 = [dot, dot, slash] then (rest.drop 3, output)
  else if rest.take 2 = [dot, slash] then (rest.drop 2, output)
  else if rest.take 3 = [slash, dot, slash] then
    if rest.drop 3 = [] then ([], output ++ [slash])
    else (completeWithSlash (rest.drop 3) input, output)
  else if rest = [slash, dot] then ([slash], output)
  else if rest.take 4 = [slash, dot, dot, slash] then
    (completeWithSlash (rest.drop 4) input, popSegment output)
  else if rest = [slash, dot, dot] then ([slash], popSegment output)
  else if rest = [dot] ∨ rest = [dot, dot] then ([], output)
  else (rest.drop (firstSegment rest), output ++ rest.take (firstSegment rest))

/-- The loop from a rest and an output on, for a number of rounds. -/
def dotRounds (input : Bytes) : Nat → Bytes × Bytes → Bytes × Bytes
  | 0, state => state
  | rounds + 1, (rest, output) =>
    if rest = [] then (rest, output) else dotRounds input rounds (dotRound input rest output)

/-- The loop over a path. -/
def dotLoop (path : Bytes) : Bytes × Bytes := dotRounds path path.length (path, [])

/-- The rest is the end of the input, or the `/` a final dot-segment became. -/
def Placed (input rest : Bytes) : Prop := rest <:+ input ∨ rest = [slash]

theorem completeWithSlash_eq (behind : rest <:+ input) (inside : count + 1 ≤ rest.length) :
    completeWithSlash (rest.drop (count + 1)) input = rest.drop count := by
  obtain ⟨front, rfl⟩ := behind
  have place : (front ++ rest).length - (rest.drop (count + 1)).length - 1 =
      front.length + count := by
    rw [List.length_append, List.length_drop]
    omega
  unfold completeWithSlash
  rw [place, List.drop_length_add_append]

theorem Placed.drop (placed : Placed input rest) (count : Nat) (long : 1 < rest.length) :
    Placed input (rest.drop count) := by
  rcases placed with behind | slashed
  · exact .inl ((List.drop_suffix count rest).trans behind)
  · rw [slashed] at long
    exact absurd long (Nat.lt_irrefl _)

theorem length_of_take {text : Bytes} (lead : rest.take count = text) :
    text.length ≤ rest.length := by
  rw [← lead]
  exact List.length_take_le' count rest

/-- The `/` that is put back is the one the round took, so a round in place does what the round on
the rest alone does. -/
theorem dotRound_eq (placed : Placed input rest) (output : Bytes) :
    dotRound input rest output = removeDotStep rest output := by
  have behind : 1 < rest.length → rest <:+ input := by
    intro long
    refine placed.resolve_right fun slashed => ?_
    rw [slashed] at long
    exact absurd long (Nat.lt_irrefl _)
  unfold dotRound removeDotStep
  split
  · rfl
  split
  · rfl
  split
  · rename_i lead
    have long : 3 ≤ rest.length := length_of_take lead
    rw [completeWithSlash_eq (behind (by omega)) long]
  split
  · rfl
  split
  · rename_i lead
    have long : 4 ≤ rest.length := length_of_take lead
    rw [completeWithSlash_eq (behind (by omega)) long]
  · rfl

/-- What a round leaves is again the end of the input or a `/`. -/
theorem Placed.step {input rest : Bytes} (placed : Placed input rest) (output : Bytes) :
    Placed input (removeDotStep rest output).1 := by
  have none_ : Placed input [] := .inl (List.nil_suffix)
  unfold removeDotStep
  split
  · rename_i lead
    exact placed.drop 3 (Nat.lt_of_lt_of_le (by decide) (length_of_take lead))
  split
  · rename_i lead
    exact placed.drop 2 (Nat.lt_of_lt_of_le (by decide) (length_of_take lead))
  split
  · rename_i lead
    split
    · exact none_
    · exact placed.drop 2 (Nat.lt_of_lt_of_le (by decide) (length_of_take lead))
  split
  · exact .inr rfl
  split
  · rename_i lead
    exact placed.drop 3 (Nat.lt_of_lt_of_le (by decide) (length_of_take lead))
  split
  · exact .inr rfl
  split
  · exact none_
  · rcases placed with behind | slashed
    · exact .inl ((List.drop_suffix _ rest).trans behind)
    · rw [slashed]
      exact none_

/-- The loop ends within as many rounds as its rest has bytes, with the output of the rounds on the
rest alone. -/
theorem dotRounds_ends {rounds : Nat} (placed : Placed input rest) (enough : rest.length ≤ rounds)
    (output : Bytes) :
    dotRounds input rounds (rest, output) = ([], removeDotRounds rounds rest output) := by
  induction rounds generalizing rest output with
  | zero =>
    obtain rfl := List.length_eq_zero_iff.mp (Nat.le_zero.mp enough)
    rfl
  | succ rounds inductionHypothesis =>
    rw [dotRounds, removeDotRounds]
    by_cases more : rest = []
    · rw [if_pos more, if_pos more, more]
    · have shorter := (removeDotStep_length more output).1
      rw [if_neg more, if_neg more, dotRound_eq placed]
      exact inductionHypothesis (placed.step output) (by omega) _

/-! ### The stack of segments -/

/-- What a segment does to the segments kept so far. -/
def stackSegment (kept : List Bytes) (segment : Bytes) : List Bytes :=
  if segment = [dot] then kept
  else if segment = [dot, dot] then kept.dropLast
  else kept ++ [segment]

/-- Segments as an absolute path. -/
def absolute (segments : List Bytes) : Bytes := segments.flatMap (slash :: ·)

/-- The path of the segments kept, with a `/` at the end if the last segment was a dot-segment. -/
def stackPath (kept segments : List Bytes) : Bytes :=
  absolute (segments.foldl stackSegment kept) ++
    if segments.getLast?.any isDotSegment then [slash] else []

/-- An absolute path without its dot-segments, by a stack of its segments. -/
def withoutDots (path : Bytes) : Bytes := stackPath [] (segmentsOf path.tail)

theorem absolute_concat (segments : List Bytes) (segment : Bytes) :
    absolute (segments ++ [segment]) = absolute segments ++ slash :: segment := by
  unfold absolute
  rw [List.flatMap_append, List.flatMap_singleton]

theorem stackPath_cons (kept segments : List Bytes) (segment : Bytes) (more : segments ≠ []) :
    stackPath kept (segment :: segments) = stackPath (stackSegment kept segment) segments := by
  obtain ⟨first, rest, rfl⟩ := List.exists_cons_of_ne_nil more
  unfold stackPath
  rw [List.foldl_cons, List.getLast?_cons_cons]

theorem stackPath_last (kept : List Bytes) (segment : Bytes) :
    stackPath kept [segment] = absolute (stackSegment kept segment) ++
      if isDotSegment segment then [slash] else [] := rfl

/-- The last segment of a path is popped. -/
theorem popSegment_absolute_concat (segments : List Bytes) {segment : Bytes}
    (plain : slash ∉ segment) :
    popSegment (absolute (segments ++ [segment])) = absolute segments := by
  rw [absolute_concat]
  rcases popSegment_cases (absolute segments ++ slash :: segment) with
    ⟨none_, -⟩ | ⟨front, last, whole, lastPlain, popped⟩
  · exact absurd (List.mem_append_right _ List.mem_cons_self) none_
  · have same := congrArg segmentsOf whole
    rw [segmentsOf_append, segmentsOf_append, segmentsOf_plain plain, segmentsOf_plain lastPlain]
      at same
    obtain rfl := List.cons.inj (List.append_inj' same rfl).2 |>.1
    exact popped.trans (List.append_cancel_right whole).symm

theorem popSegment_kept {kept : List Bytes} (plain : ∀ segment ∈ kept, slash ∉ segment) :
    popSegment (absolute kept) = absolute kept.dropLast := by
  rcases List.eq_nil_or_concat kept with rfl | ⟨front, last, rfl⟩
  · rfl
  · rw [List.concat_eq_append] at plain ⊢
    rw [List.dropLast_concat]
    exact popSegment_absolute_concat front (plain last (List.mem_append_right _ List.mem_cons_self))

/-- The output is a stack of segments, and the rest, if there is more, is absolute: whatever comes
of them is what the stack makes of the segments of the rest. -/
def Stacked (rest output final : Bytes) : Prop :=
  ∃ kept : List Bytes, (∀ segment ∈ kept, slash ∉ segment) ∧ output = absolute kept ∧
    (rest = [] ∧ final = output ∨ ∃ body, rest = slash :: body ∧
      final = stackPath kept (segmentsOf body))

theorem segmentsOf_ne_nil (path : Bytes) : segmentsOf path ≠ [] := List.splitOnP_ne_nil _ path

theorem Stacked.step {rest output next out final : Bytes} (stacked : Stacked rest output final)
    (moved : DotStep rest output next out) (more : rest ≠ []) : Stacked next out final := by
  obtain ⟨kept, plain, rfl, ended | ⟨body, same, rfl⟩⟩ := stacked
  · exact absurd ended.1 more
  have popped : ∀ segment ∈ kept.dropLast, slash ∉ segment := fun segment member =>
    plain segment ((List.dropLast_sublist kept).subset member)
  have pushed : ∀ {last : Bytes}, slash ∉ last → ∀ segment ∈ kept ++ [last], slash ∉ segment :=
    fun lastPlain segment member => (List.mem_append.mp member).elim (plain segment)
      fun isLast => List.mem_singleton.mp isLast ▸ lastPlain
  have closed : ∀ kept : List Bytes, absolute kept ++ [slash] = stackPath kept (segmentsOf []) :=
    fun kept => by
      rw [segmentsOf_plain List.not_mem_nil, stackPath_last]
      exact (absolute_concat kept []).symm.trans (List.append_nil _).symm
  cases moved with
  | skip isDots =>
    rcases decide_eq_true_iff.mp isDots with rfl | rfl <;> cases same
  | last isDots =>
    rcases decide_eq_true_iff.mp isDots with rfl | rfl <;> cases same
  | stay after =>
    cases same
    refine ⟨kept, plain, rfl, .inr ⟨after, rfl, ?_⟩⟩
    rw [show dot :: slash :: after = [dot] ++ slash :: after from rfl, segmentsOf_append,
      segmentsOf_plain (by decide)]
    exact stackPath_cons _ _ _ (segmentsOf_ne_nil after)
  | stayLast =>
    cases same
    refine ⟨kept, plain, rfl, .inr ⟨[], rfl, ?_⟩⟩
    rw [← closed, segmentsOf_plain (by decide)]
    rfl
  | close =>
    cases same
    refine ⟨kept ++ [[]], pushed List.not_mem_nil, (absolute_concat kept []).symm, .inl ⟨rfl, ?_⟩⟩
    rw [show [dot, slash] = [dot] ++ slash :: [] from rfl, segmentsOf_append,
      segmentsOf_plain (by decide), closed]
    exact stackPath_cons _ _ _ (segmentsOf_ne_nil [])
  | pop after =>
    cases same
    refine ⟨kept.dropLast, popped, popSegment_kept plain, .inr ⟨after, rfl, ?_⟩⟩
    rw [show dot :: dot :: slash :: after = [dot, dot] ++ slash :: after from rfl,
      segmentsOf_append, segmentsOf_plain (by decide)]
    exact stackPath_cons _ _ _ (segmentsOf_ne_nil after)
  | popLast =>
    cases same
    refine ⟨kept.dropLast, popped, popSegment_kept plain, .inr ⟨[], rfl, ?_⟩⟩
    rw [← closed, segmentsOf_plain (by decide)]
    rfl
  | @first segment next segmentPlain some_ =>
    obtain ⟨byte, tail, rfl⟩ := List.exists_cons_of_ne_nil some_
    obtain rfl := (List.cons.inj same).1
    exact absurd List.mem_cons_self segmentPlain
  | @move segment next segmentPlain undotted ends =>
    obtain rfl := (List.cons.inj same).2
    have notDots := decide_eq_false_iff_not.mp undotted
    rw [not_or] at notDots
    have kept_ : stackSegment kept segment = kept ++ [segment] := by
      unfold stackSegment
      rw [if_neg notDots.1, if_neg notDots.2]
    refine ⟨kept ++ [segment], pushed segmentPlain, (absolute_concat kept segment).symm, ?_⟩
    rcases ends with rfl | ahead
    · refine .inl ⟨rfl, ?_⟩
      rw [List.append_nil, segmentsOf_plain segmentPlain, stackPath_last, kept_, undotted,
        absolute_concat]
      exact List.append_nil _
    · cases next with
      | nil => cases ahead
      | cons first behind =>
        cases ahead
        refine .inr ⟨behind, rfl, ?_⟩
        rw [segmentsOf_append, segmentsOf_plain segmentPlain, List.singleton_append,
          stackPath_cons _ _ _ (segmentsOf_ne_nil behind), kept_]

theorem Stacked.rounds {output final : Bytes} (stacked : Stacked rest output final) {rounds : Nat}
    (enough : rest.length ≤ rounds) : removeDotRounds rounds rest output = final := by
  have ended : ∀ {output}, Stacked [] output final → output = final := by
    rintro output ⟨kept, -, -, done | ⟨body, same, -⟩⟩
    · exact done.2.symm
    · cases same
  induction rounds generalizing rest output with
  | zero =>
    obtain rfl := List.length_eq_zero_iff.mp (Nat.le_zero.mp enough)
    exact ended stacked
  | succ rounds inductionHypothesis =>
    rw [removeDotRounds]
    split
    · rename_i none_
      subst none_
      exact ended stacked
    · rename_i more
      have shorter := (removeDotStep_length more output).1
      exact inductionHypothesis (stacked.step (removeDotStep_step more output) more) (by omega)

/-- The loop ends on every path, within as many rounds as it has bytes, and on an absolute path it
leaves what the stack of segments leaves. -/
theorem dotLoop_stack (path : Bytes) :
    (dotLoop path).1 = [] ∧ (dotLoop path).2 = removeDotSegments path ∧
      (path.head? = some slash → (dotLoop path).2 = withoutDots path) := by
  have ends : dotLoop path = ([], removeDotSegments path) :=
    dotRounds_ends (.inl (List.suffix_refl path)) (Nat.le_refl _) []
  rw [ends]
  refine ⟨rfl, rfl, fun rooted => ?_⟩
  cases path with
  | nil => cases rooted
  | cons first body =>
    cases rooted
    have stacked : Stacked (slash :: body) [] (withoutDots (slash :: body)) :=
      ⟨[], nofun, rfl, .inr ⟨body, rfl, rfl⟩⟩
    exact stacked.rounds (Nat.le_refl _)

theorem dotLoop_stack_climbing :
    (dotLoop (ascii "/a//../b/c/./../../g/.")).2 = withoutDots (ascii "/a//../b/c/./../../g/.") ∧
      (dotLoop (ascii "/a//../b/c/./../../g/.")).2 = ascii "/a/g/" :=
  ⟨(dotLoop_stack (ascii "/a//../b/c/./../../g/.")).2.2 (by decide), by decide⟩

end ZeroServer.Uri

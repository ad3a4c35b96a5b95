/-
This file is about machines that read a stream in segments. A machine is shown the octets it has not
used yet; it waits for more, uses some and goes on, or fails. When longer input changes a step only
by letting the next step join it, the run over a stream does not depend on where it was cut.

States are compared up to a relation, so that a machine may keep what no later step reads.
-/

import Mathlib.Data.List.Basic

namespace ZeroServer.Lib

/-- What a machine does with the input it is shown. -/
inductive Progress (State : Type) where
  | wait
  | advance (next : State) (taken : Nat)
  | fail (final : State)

namespace Progress

variable {State : Type}

/-- Two steps that take the same input to related states. -/
inductive Matches (same : State → State → Prop) : Progress State → Progress State → Prop
  | wait : Matches same .wait .wait
  | advance {left right : State} {taken : Nat} (related : same left right) :
      Matches same (.advance left taken) (.advance right taken)
  | fail {left right : State} (related : same left right) : Matches same (.fail left) (.fail right)

/-- A step that stands for a first one, which used that many octets, and a second. -/
inductive Joins (same : State → State → Prop) (taken : Nat) :
    Progress State → Progress State → Prop
  | advance {left right : State} {more : Nat} (related : same left right) :
      Joins same taken (.advance left (taken + more)) (.advance right more)
  | fail {left right : State} (related : same left right) :
      Joins same taken (.fail left) (.fail right)

/-- What a step leaves has a property together with the input it left and what follows; a step that
waits leaves everything, and none fails. -/
def Keeps {Token : Type} (motive : State → List Token → Prop) (input later : List Token) :
    Progress State → Prop
  | .wait => True
  | .advance next taken => motive next (input.drop taken ++ later)
  | .fail _ => False

end Progress

/-- A machine; what it does without using input only makes it smaller. -/
structure Machine (State Token : Type) where
  step : State → List Token → Progress State
  size : State → List Token → Nat
  smaller : ∀ {state input next taken}, step state input = .advance next taken →
    size next (input.drop taken) < size state input

/-- Where a run stopped: the state, and the input that is left unless the machine failed. -/
structure Halt (State Token : Type) where
  state : State
  rest : Option (List Token)

namespace Machine

variable {State Token : Type} (machine : Machine State Token)

def runFor : Nat → State → List Token → Halt State Token
  | 0, state, input => ⟨state, some input⟩
  | fuel + 1, state, input =>
    match machine.step state input with
    | .wait => ⟨state, some input⟩
    | .advance next taken => runFor fuel next (input.drop taken)
    | .fail final => ⟨final, none⟩

/-- Step until the machine waits or fails. -/
def run (state : State) (input : List Token) : Halt State Token :=
  machine.runFor (machine.size state input + 1) state input

/-- Show the machine one segment after the other, each behind what it has left. -/
def runReads (state : State) (rest : List Token) : List (List Token) → Halt State Token
  | [] => ⟨state, some rest⟩
  | read :: reads =>
    match machine.run state (rest ++ read) with
    | ⟨next, some left⟩ => runReads next left reads
    | ⟨final, none⟩ => ⟨final, none⟩

/-- Any order of steps and of input that arrives: the steps that went on, each with what it was
shown. -/
inductive Trace : State → List Token → List (State × List Token) → State → List Token → Prop
  | nil (state : State) (rest : List Token) : Trace state rest [] state rest
  | arrive {state last : State} {rest left : List Token} {log : List (State × List Token)}
      (more : List Token) (later : Trace state (rest ++ more) log last left) :
      Trace state rest log last left
  | step {state next last : State} {rest left : List Token} {log : List (State × List Token)}
      {taken : Nat} (advanced : machine.step state rest = .advance next taken)
      (later : Trace next (rest.drop taken) log last left) :
      Trace state rest ((state, rest) :: log) last left

variable {machine}

variable {state : State}

variable {input : List Token}

theorem runFor_enough {fuel : Nat} (enough : machine.size state input < fuel) :
    machine.runFor fuel state input = machine.run state input := by
  have steady : ∀ fuel more (state : State) (input : List Token), machine.size state input < fuel →
      machine.runFor (fuel + more) state input = machine.runFor fuel state input := by
    intro fuel more
    induction fuel with
    | zero => exact fun _ _ short => absurd short (Nat.not_lt_zero _)
    | succ fuel inductionHypothesis =>
      intro state input enough
      rw [Nat.add_right_comm, runFor, runFor]
      rcases stepped : machine.step state input with _ | ⟨next, taken⟩ | final
      · rfl
      · exact inductionHypothesis next _
          (Nat.lt_of_lt_of_le (machine.smaller stepped) (Nat.le_of_lt_succ enough))
      · rfl
  obtain ⟨more, rfl⟩ := Nat.exists_eq_add_of_le enough
  exact steady _ more state input (Nat.lt_succ_self _)

theorem run_eq (state : State) (input : List Token) :
    machine.run state input =
      match machine.step state input with
      | .wait => ⟨state, some input⟩
      | .advance next taken => machine.run next (input.drop taken)
      | .fail final => ⟨final, none⟩ := by
  rw [run, runFor]
  rcases stepped : machine.step state input with _ | ⟨next, taken⟩ | final
  · rfl
  · exact runFor_enough (machine.smaller stepped)
  · rfl

variable {last : State}

variable {left : List Token}

/-- Where a run stops without a failure, the machine waits. -/
theorem run_waits (stopped : machine.run state input = ⟨last, some left⟩) :
    machine.step last left = .wait := by
  induction size : machine.size state input using Nat.strongRecOn generalizing state input with
  | _ size inductionHypothesis =>
    rw [run_eq] at stopped
    rcases stepped : machine.step state input with _ | ⟨next, taken⟩ | final
    · rw [stepped] at stopped
      cases stopped
      exact stepped
    · rw [stepped] at stopped
      refine inductionHypothesis _ ?_ stopped rfl
      rw [← size]
      exact machine.smaller stepped
    · rw [stepped] at stopped
      cases stopped

/-- A property of the state and of all that is still to be read. Every step keeps it while more of
the stream may follow what the step was shown, and no step fails. -/
def Follows (machine : Machine State Token) (motive : State → List Token → Prop) : Prop :=
  ∀ state input later, motive state (input ++ later) →
    (machine.step state input).Keeps motive input later

variable {motive : State → List Token → Prop}

variable {later : List Token}

theorem Follows.run (follows : machine.Follows motive) (start : motive state (input ++ later)) :
    ∃ last left, machine.run state input = ⟨last, some left⟩ ∧ motive last (left ++ later) := by
  induction size : machine.size state input using Nat.strongRecOn generalizing state input with
  | _ size inductionHypothesis =>
    have kept := follows state input later start
    rw [run_eq]
    rcases stepped : machine.step state input with _ | ⟨next, taken⟩ | final
    · exact ⟨state, input, rfl, start⟩
    · rw [stepped] at kept
      refine inductionHypothesis _ ?_ kept rfl
      rw [← size]
      exact machine.smaller stepped
    · rw [stepped] at kept
      exact kept.elim

variable {rest : List Token}

/-- However much of the stream was read, and in whatever reads, the machine waits in a state that
follows the rest of the stream. -/
theorem Follows.runReads (follows : machine.Follows motive)
    (quiet : machine.step state rest = .wait) (reads : List (List Token))
    (start : motive state (rest ++ (reads.flatten ++ later))) :
    ∃ last left, machine.runReads state rest reads = ⟨last, some left⟩ ∧
      motive last (left ++ later) ∧ machine.step last left = .wait := by
  induction reads generalizing state rest with
  | nil => exact ⟨state, rest, rfl, start, quiet⟩
  | cons read reads inductionHypothesis =>
    rw [List.flatten_cons, List.append_assoc, ← List.append_assoc] at start
    obtain ⟨next, left, stopped, kept⟩ := follows.run start
    obtain ⟨last, unread, ended, same, waits⟩ := inductionHypothesis (run_waits stopped) kept
    refine ⟨last, unread, ?_, same, waits⟩
    rw [Machine.runReads, stopped]
    exact ended

/-- Steps that longer input changes only by letting the next step join them, over the valid states
and up to a relation of states. -/
structure Segmentable (machine : Machine State Token) (valid : State → Prop)
    (same : State → State → Prop) : Prop where
  refl : ∀ state, same state state
  trans : ∀ {first second third}, same first second → same second third → same first third
  inside : ∀ {state input next taken}, machine.step state input = .advance next taken →
    taken ≤ input.length
  kept : ∀ {state input next taken}, valid state → machine.step state input = .advance next taken →
    valid next
  related : ∀ {left right}, valid left → valid right → same left right → ∀ input,
    (machine.step left input).Matches same (machine.step right input)
  failed : ∀ {state input final}, valid state → machine.step state input = .fail final → ∀ more,
    ∃ other, machine.step state (input ++ more) = .fail other ∧ same other final
  advanced : ∀ {state input next taken}, valid state →
    machine.step state input = .advance next taken → ∀ more,
    (∃ other, machine.step state (input ++ more) = .advance other taken ∧ same other next) ∨
      (taken = input.length ∧
        (machine.step state (input ++ more)).Joins same taken (machine.step next more))

namespace Segmentable

variable {valid : State → Prop} {same : State → State → Prop}

theorem run_valid (segmentable : Segmentable machine valid same) (start : valid state)
    (stopped : machine.run state input = ⟨last, some left⟩) : valid last := by
  induction size : machine.size state input using Nat.strongRecOn generalizing state input with
  | _ size inductionHypothesis =>
    rw [run_eq] at stopped
    rcases stepped : machine.step state input with _ | ⟨next, taken⟩ | final
    · rw [stepped] at stopped
      cases stopped
      exact start
    · rw [stepped] at stopped
      refine inductionHypothesis _ ?_ (segmentable.kept start stepped) stopped rfl
      rw [← size]
      exact machine.smaller stepped
    · rw [stepped] at stopped
      cases stopped

theorem run_related (segmentable : Segmentable machine valid same) {left right : State}
    {input : List Token} (validLeft : valid left) (validRight : valid right)
    (related : same left right) :
    same (machine.run left input).state (machine.run right input).state ∧
      (machine.run left input).rest = (machine.run right input).rest := by
  induction size : machine.size left input using Nat.strongRecOn
    generalizing left right input with
  | _ size inductionHypothesis =>
    have both := segmentable.related validLeft validRight related input
    rw [run_eq left, run_eq right]
    rcases stepped : machine.step left input with _ | ⟨next, taken⟩ | final
    · rw [stepped] at both
      generalize machine.step right input = other at both
      cases both
      exact ⟨related, rfl⟩
    · rcases again : machine.step right input with _ | ⟨other, taken'⟩ | final
      · rw [stepped, again] at both
        cases both
      · rw [stepped, again] at both
        cases both with
        | advance related =>
          refine inductionHypothesis _ ?_ (segmentable.kept validLeft stepped)
            (segmentable.kept validRight again) related rfl
          rw [← size]
          exact machine.smaller stepped
      · rw [stepped, again] at both
        cases both
    · rw [stepped] at both
      generalize machine.step right input = other at both
      cases both with
      | fail related => exact ⟨related, rfl⟩

/-- A run over longer input starts as the run over the shorter one and goes on from there. -/
theorem run_append (segmentable : Segmentable machine valid same) (start : valid state)
    (input more : List Token) :
    (∀ last left, machine.run state input = ⟨last, some left⟩ →
      same (machine.run state (input ++ more)).state (machine.run last (left ++ more)).state ∧
      (machine.run state (input ++ more)).rest = (machine.run last (left ++ more)).rest) ∧
    (∀ final, machine.run state input = ⟨final, none⟩ →
      same (machine.run state (input ++ more)).state final ∧
      (machine.run state (input ++ more)).rest = none) := by
  induction size : machine.size state input using Nat.strongRecOn generalizing state input with
  | _ size inductionHypothesis =>
    rw [run_eq state input]
    rcases stepped : machine.step state input with _ | ⟨next, taken⟩ | final
    · refine ⟨?_, nofun⟩
      rintro last left ⟨⟩
      exact ⟨segmentable.refl _, rfl⟩
    · have validNext := segmentable.kept start stepped
      have inside := segmentable.inside stepped
      have lower := machine.smaller stepped
      obtain ⟨stopped, failed⟩ :=
        inductionHypothesis _ (size ▸ lower) validNext (input.drop taken) rfl
      have continues : same (machine.run state (input ++ more)).state
            (machine.run next (input.drop taken ++ more)).state ∧
          (machine.run state (input ++ more)).rest =
            (machine.run next (input.drop taken ++ more)).rest := by
        rcases segmentable.advanced start stepped more with ⟨other, again, related⟩ | ⟨all, joins⟩
        · rw [run_eq state, again]
          dsimp only
          rw [List.drop_append_of_le_length inside]
          exact segmentable.run_related (segmentable.kept start again) validNext related
        · have nothing : input.drop taken = [] := List.drop_eq_nil_of_le (Nat.le_of_eq all.symm)
          rw [nothing, List.nil_append, run_eq state, run_eq next]
          rcases joined : machine.step state (input ++ more) with _ | ⟨other, count⟩ | other
          · rw [joined] at joins
            cases joins
          · rw [joined] at joins
            rcases second : machine.step next more with _ | ⟨last, further⟩ | final
            · rw [second] at joins
              cases joins
            · rw [second] at joins
              cases joins with
              | advance related =>
                dsimp only
                rw [all, List.drop_length_add_append]
                exact segmentable.run_related (segmentable.kept start joined)
                  (segmentable.kept validNext second) related
            · rw [second] at joins
              cases joins
          · rw [joined] at joins
            generalize machine.step next more = second at joins
            cases joins with
            | fail related => exact ⟨related, rfl⟩
      refine ⟨fun last left same_ => ?_, fun final same_ => ?_⟩
      · obtain ⟨related, rest⟩ := stopped last left same_
        exact ⟨segmentable.trans continues.1 related, continues.2.trans rest⟩
      · obtain ⟨related, rest⟩ := failed final same_
        exact ⟨segmentable.trans continues.1 related, continues.2.trans rest⟩
    · refine ⟨nofun, ?_⟩
      rintro _ ⟨⟩
      obtain ⟨other, again, related⟩ := segmentable.failed start stepped more
      rw [run_eq, again]
      exact ⟨related, rfl⟩

/-- However a stream is cut into reads, the machine ends as over the whole stream at once. -/
theorem runReads_flatten (segmentable : Segmentable machine valid same) (start : valid state)
    (quiet : machine.step state rest = .wait) (reads : List (List Token)) :
    same (machine.run state (rest ++ reads.flatten)).state
        (machine.runReads state rest reads).state ∧
      (machine.run state (rest ++ reads.flatten)).rest =
        (machine.runReads state rest reads).rest := by
  induction reads generalizing state rest with
  | nil =>
    rw [List.flatten_nil, List.append_nil, run_eq, quiet]
    exact ⟨segmentable.refl _, rfl⟩
  | cons read reads inductionHypothesis =>
    obtain ⟨stopped, failed⟩ := segmentable.run_append start (rest ++ read) reads.flatten
    rw [List.flatten_cons, ← List.append_assoc, runReads]
    rcases first : machine.run state (rest ++ read) with ⟨next, - | left⟩
    · exact failed next first
    · obtain ⟨related, same_⟩ := stopped next left first
      obtain ⟨relatedLater, sameLater⟩ :=
        inductionHypothesis (segmentable.run_valid start first) (run_waits first)
      exact ⟨segmentable.trans related relatedLater, same_.trans sameLater⟩

end Segmentable

/-- A property of states and of the steps made so far that every step keeps holds after any
trace. -/
theorem Trace.keeps {motive : State → List (State × List Token) → Prop}
    {before log : List (State × List Token)} (trace : machine.Trace state rest log last left)
    (start : motive state before) (step : ∀ {state next input taken log}, motive state log →
      machine.step state input = .advance next taken → motive next (log ++ [(state, input)])) :
    motive last (before ++ log) := by
  induction trace generalizing before with
  | nil =>
    rw [List.append_nil]
    exact start
  | arrive more later inductionHypothesis => exact inductionHypothesis start
  | @step state next last rest left log taken advanced later inductionHypothesis =>
    have kept := inductionHypothesis (step start advanced)
    rw [List.append_assoc] at kept
    exact kept

end Machine

end ZeroServer.Lib

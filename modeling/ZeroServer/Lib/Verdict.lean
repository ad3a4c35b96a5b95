/-
This file is about parsers that keep no state: each time more input arrives the whole
buffer is parsed again from its first byte. Such a parser gives one of three answers, and
what makes it usable over a stream is that its answer does not depend on where the stream
was cut: an answer that was given stays given, and a value is read off exactly the bytes
it spans.

`Incremental` is the strong form, met by a parser without limits on its input: the value
depends on the first `extent` bytes alone and a rejection stays the same rejection.
`limited` puts a length limit on such a parser, measured on the parsed value when there is
one and on the received bytes when there is not; `PrefixStable` is what survives of the
strong form under it.
-/

import Mathlib.Data.List.Basic

namespace ZeroServer.Lib

/-- The answer of a parser over a buffer that may still grow. -/
inductive Verdict (Error Value : Type) where
  | complete (value : Value)
  | incomplete
  | reject (error : Error)
  deriving DecidableEq

namespace Verdict

variable {Error Value Result : Type}

/-- Go on with the value of a complete answer; the other two answers stand. -/
def bind (verdict : Verdict Error Value) (next : Value → Verdict Error Result) :
    Verdict Error Result :=
  match verdict with
  | .complete value => next value
  | .incomplete => .incomplete
  | .reject error => .reject error

@[simp] theorem complete_bind (value : Value) (next : Value → Verdict Error Result) :
    (complete value : Verdict Error Value).bind next = next value := rfl

@[simp] theorem incomplete_bind (next : Value → Verdict Error Result) :
    (incomplete : Verdict Error Value).bind next = incomplete := rfl

@[simp] theorem reject_bind (error : Error) (next : Value → Verdict Error Result) :
    (reject error : Verdict Error Value).bind next = reject error := rfl

variable {verdict : Verdict Error Value} {next : Value → Verdict Error Result}

theorem bind_eq_complete {result : Result} :
    verdict.bind next = .complete result ↔
      ∃ value, verdict = .complete value ∧ next value = .complete result := by
  cases verdict <;> simp

theorem bind_eq_reject {error : Error} :
    verdict.bind next = .reject error ↔
      verdict = .reject error ∨ ∃ value, verdict = .complete value ∧ next value = .reject error := by
  cases verdict <;> simp

end Verdict

section Parsers

variable {Token Error Value Result : Type}

/-- A parser whose value is read off the first `extent` tokens alone and whose rejections
no longer input revokes. -/
structure Incremental (parser : List Token → Verdict Error Value) (extent : Value → Nat) :
    Prop where
  bounded : ∀ {input value}, parser input = .complete value → extent value ≤ input.length
  settled : ∀ {input value}, parser input = .complete value → ∀ rest,
    parser (input.take (extent value) ++ rest) = .complete value
  refused : ∀ {input error}, parser input = .reject error → ∀ rest,
    parser (input ++ rest) = .reject error

/-- At one input, an answer no longer input revokes, up to the reason of a rejection. -/
structure StableAt (parser : List Token → Verdict Error Value) (extent : Value → Nat)
    (input : List Token) : Prop where
  bounded : ∀ {value}, parser input = .complete value → extent value ≤ input.length
  settled : ∀ {value}, parser input = .complete value → ∀ rest,
    parser (input ++ rest) = .complete value
  refused : ∀ {error}, parser input = .reject error → ∀ rest,
    ∃ reason, parser (input ++ rest) = .reject reason

/-- A parser whose answers no longer input revokes, up to the reason of a rejection. -/
def PrefixStable (parser : List Token → Verdict Error Value) (extent : Value → Nat) : Prop :=
  ∀ input, StableAt parser extent input

variable {parser : List Token → Verdict Error Value} {extent : Value → Nat} {input : List Token}
  {value : Value}

theorem Incremental.extend (incremental : Incremental parser extent)
    (complete : parser input = .complete value) (rest : List Token) :
    parser (input ++ rest) = .complete value := by
  have settled := incremental.settled complete (input.drop (extent value) ++ rest)
  rwa [← List.append_assoc, List.take_append_drop] at settled

/-- A value that ends inside a shorter input is found in the shorter input too. -/
theorem Incremental.retract (incremental : Incremental parser extent) {rest : List Token}
    (complete : parser (input ++ rest) = .complete value) (inside : extent value ≤ input.length) :
    parser input = .complete value := by
  have settled := incremental.settled complete (input.drop (extent value))
  rwa [List.take_append_of_le_length inside, List.take_append_drop] at settled

/-- A parser at an input that longer input changes only when it is incomplete. -/
theorem StableAt.of_persist
    (bounded : ∀ value, parser input = .complete value → extent value ≤ input.length)
    (persist : parser input ≠ .incomplete → ∀ rest, parser (input ++ rest) = parser input) :
    StableAt parser extent input where
  bounded complete := bounded _ complete
  settled complete rest := by rw [persist (by simp [complete]), complete]
  refused refused rest := ⟨_, by rw [persist (by simp [refused]), refused]⟩

/-- A parser is incremental when longer input changes no answer but `incomplete`, and a value
found only in longer input reaches past the shorter one. -/
theorem Incremental.of_persist
    (bounded : ∀ input value, parser input = .complete value → extent value ≤ input.length)
    (persist : ∀ input rest, parser input ≠ .incomplete → parser (input ++ rest) = parser input)
    (late : ∀ input rest value, parser input = .incomplete →
      parser (input ++ rest) = .complete value → input.length < extent value) :
    Incremental parser extent where
  bounded complete := bounded _ _ complete
  settled {input value} complete rest := by
    have inside := bounded _ _ complete
    have whole : input.take (extent value) ++ input.drop (extent value) = input :=
      List.take_append_drop _ _
    have answered : parser (input.take (extent value)) ≠ .incomplete := by
      intro open_
      have past := late _ (input.drop (extent value)) value open_ (by rw [whole, complete])
      rw [List.length_take] at past
      omega
    rw [persist _ rest answered, ← persist _ (input.drop (extent value)) answered, whole, complete]
  refused refused rest := by
    rw [persist _ rest (by simp [refused]), refused]

/-- One parser after another over the same input: the second sees where the first ended. -/
def andThen (parser : List Token → Verdict Error Value)
    (next : Value → List Token → Verdict Error Result) : List Token → Verdict Error Result :=
  fun input => (parser input).bind fun value => next value input

theorem StableAt.andThen {next : Value → List Token → Verdict Error Result} {extent' : Result → Nat}
    (first : StableAt parser extent input)
    (second : ∀ value, parser input = .complete value → StableAt (next value) extent' input) :
    StableAt (Lib.andThen parser next) extent' input where
  bounded complete := by
    obtain ⟨value, started, ended⟩ := Verdict.bind_eq_complete.mp complete
    exact (second value started).bounded ended
  settled complete rest := by
    obtain ⟨value, started, ended⟩ := Verdict.bind_eq_complete.mp complete
    exact Verdict.bind_eq_complete.mpr
      ⟨value, first.settled started rest, (second value started).settled ended rest⟩
  refused refused rest := by
    rcases Verdict.bind_eq_reject.mp refused with early | ⟨value, started, late⟩
    · obtain ⟨reason, again⟩ := first.refused early rest
      exact ⟨reason, Verdict.bind_eq_reject.mpr (Or.inl again)⟩
    · obtain ⟨reason, again⟩ := (second value started).refused late rest
      exact ⟨reason, Verdict.bind_eq_reject.mpr
        (Or.inr ⟨value, first.settled started rest, again⟩)⟩

/-- A length limit on a parser, counted from `start`: on the value's end when there is a
value, on the received input while there is none. -/
def limited (start limit : Nat) (tooLong : Error) (extent : Value → Nat)
    (parser : List Token → Verdict Error Value) : List Token → Verdict Error Value :=
  fun input =>
    match parser input with
    | .complete value => if extent value - start > limit then .reject tooLong else .complete value
    | .incomplete => if input.length - start > limit then .reject tooLong else .incomplete
    | .reject error => .reject error

variable {tooLong : Error}

theorem limited_eq_complete {start limit : Nat} :
    limited start limit tooLong extent parser input = .complete value ↔
      parser input = .complete value ∧ extent value - start ≤ limit := by
  unfold limited
  rcases parser input with found | - | error
  · by_cases long : extent found - start > limit
    · simp only [if_pos long, reduceCtorEq, false_iff, not_and, Verdict.complete.injEq]
      rintro rfl
      omega
    · simp only [if_neg long, Verdict.complete.injEq]
      exact ⟨fun same => ⟨same, same ▸ by omega⟩, fun both => both.1⟩
  · by_cases long : input.length - start > limit <;> simp [long]
  · simp

/-- A limited parser whose input is already past the limit never completes: a value it
could still find would end past the limit as well. -/
theorem limited_refused_of_incomplete {start limit : Nat} (incremental : Incremental parser extent)
    (open_ : parser input = .incomplete) (long : input.length - start > limit) (rest : List Token) :
    ∃ reason, limited start limit tooLong extent parser (input ++ rest) = .reject reason := by
  unfold limited
  rcases answer : parser (input ++ rest) with value | - | error
  · have past : input.length < extent value := by
      by_contra inside
      have found := incremental.retract answer (Nat.le_of_not_lt inside)
      rw [open_] at found
      cases found
    exact ⟨tooLong, if_pos (by omega)⟩
  · exact ⟨tooLong, if_pos (by rw [List.length_append]; omega)⟩
  · exact ⟨error, rfl⟩

/-- A length limit costs an incremental parser only the reason of its rejections. -/
theorem Incremental.limited (incremental : Incremental parser extent) (start limit : Nat)
    (tooLong : Error) (input : List Token) :
    StableAt (Lib.limited start limit tooLong extent parser) extent input where
  bounded complete := incremental.bounded (limited_eq_complete.mp complete).1
  settled complete rest := by
    obtain ⟨found, short⟩ := limited_eq_complete.mp complete
    exact limited_eq_complete.mpr ⟨incremental.extend found rest, short⟩
  refused {error} refused rest := by
    rcases answer : parser input with value | - | reason
    · have long : extent value - start > limit := by
        by_contra short
        have found : Lib.limited start limit tooLong extent parser input = .complete value :=
          limited_eq_complete.mpr ⟨answer, Nat.le_of_not_lt short⟩
        rw [refused] at found
        cases found
      refine ⟨tooLong, ?_⟩
      simp only [Lib.limited, incremental.extend answer rest, if_pos long]
    · by_cases long : input.length - start > limit
      · exact limited_refused_of_incomplete incremental answer long rest
      · simp only [Lib.limited, answer, if_neg long, reduceCtorEq] at refused
    · refine ⟨reason, ?_⟩
      simp only [Lib.limited, incremental.refused answer rest]

/-- A prefix of a completed input that is shorter than the value's extent is neither
completed nor rejected. -/
theorem PrefixStable.incomplete_of_lt (stable : PrefixStable parser extent) {short : List Token}
    (complete : parser input = .complete value) (prefixed : short <+: input)
    (shorter : short.length < extent value) : parser short = .incomplete := by
  obtain ⟨rest, rfl⟩ := prefixed
  rcases answer : parser short with found | - | error
  · have again := (stable short).settled answer rest
    rw [complete, Verdict.complete.injEq] at again
    have inside := (stable short).bounded answer
    rw [again] at shorter
    omega
  · rfl
  · obtain ⟨reason, again⟩ := (stable short).refused answer rest
    rw [complete] at again
    cases again

end Parsers

end ZeroServer.Lib

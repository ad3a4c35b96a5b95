/-
This file is about parsers that move a state over a text. What a parser says of the text it took is
composed along its binds, and what it refuses is one property of the refusal.
-/

import Mathlib.Data.List.Basic

namespace ZeroServer.Lib

/-- What is taken while a test holds, where it stops to hold. -/
theorem takeWhile_stops {Token : Type} {test : Token → Bool} {taken rest : List Token}
    (all : ∀ token ∈ taken, test token = true)
    (stops : ∀ token, rest.head? = some token → test token = false) :
    (taken ++ rest).takeWhile test = taken := by
  rw [List.takeWhile_append_of_pos all]
  cases rest with
  | nil => exact List.append_nil taken
  | cons token rest =>
    rw [List.takeWhile_cons_of_neg (Bool.not_eq_true _ ▸ stops token rfl), List.append_nil]

/-- A parser answers and moves the state, or refuses. -/
abbrev Parse (State Error Answer : Type) := StateT State (Except Error) Answer

/-- What moving over texts is: nothing stays, and one text behind another is their concatenation. -/
structure Moving {State Token : Type} (Moved : State → List Token → State → Prop) : Prop where
  stay : ∀ state, Moved state [] state
  behind : ∀ {state middle last first second}, Moved state first middle →
    Moved middle second last → Moved state (first ++ second) last

namespace Parse

variable {State Error Token Answer Other : Type}

variable {answer : Answer}

theorem bind_ok {parser : Parse State Error Answer} {next : Answer → Parse State Error Other}
    {state after : State} (ran : parser state = .ok (answer, after)) :
    (parser >>= next) state = next answer after := by
  change (parser state >>= fun result => next result.1 result.2) = _
  rw [ran]
  rfl

variable {error : Error}

theorem bind_error {parser : Parse State Error Answer} {next : Answer → Parse State Error Other}
    {state : State} (ran : parser state = .error error) :
    (parser >>= next) state = .error error := by
  change (parser state >>= fun result => next result.1 result.2) = _
  rw [ran]
  rfl

variable {f : Answer → Other}

theorem map_ok {parser : Parse State Error Answer} {state after : State}
    (ran : parser state = .ok (answer, after)) : (f <$> parser) state = .ok (f answer, after) := by
  change (parser state >>= fun result => _) = _
  rw [ran]
  rfl

theorem map_error {parser : Parse State Error Answer} {state : State}
    (ran : parser state = .error error) : (f <$> parser) state = .error error := by
  change (parser state >>= fun result => _) = _
  rw [ran]
  rfl

variable (Moved : State → List Token → State → Prop) (Refusal : Error → Prop)

/-- A parser answers as it should about the text it took, or refuses as it may. -/
def Sound (parser : Parse State Error Answer) (state : State)
    (Yields : Answer → List Token → State → Prop) : Prop :=
  match parser state with
  | .ok (answer, after) => ∃ text, Moved state text after ∧ Yields answer text after
  | .error error => Refusal error

variable {Moved Refusal} {parser : Parse State Error Answer}
  {next : Answer → Parse State Error Other} {state : State}
  {Yields : Answer → List Token → State → Prop} {Next : Other → List Token → State → Prop}

theorem Sound.pure (moving : Moving Moved) (yields : Yields answer [] state) :
    Sound Moved Refusal (Pure.pure answer) state Yields :=
  ⟨[], moving.stay state, yields⟩

/-- One parser behind another takes both texts. -/
theorem Sound.bind (moving : Moving Moved) (first : Sound Moved Refusal parser state Yields)
    (later : ∀ answer text after, Moved state text after → Yields answer text after →
      Sound Moved Refusal (next answer) after fun other rest last =>
        Next other (text ++ rest) last) : Sound Moved Refusal (parser >>= next) state Next := by
  unfold Sound at first
  rcases ran : parser state with error | ⟨answer, after⟩
  · rw [ran] at first
    unfold Sound
    rw [bind_error ran]
    exact first
  · rw [ran] at first
    obtain ⟨text, moved, yields⟩ := first
    have second := later answer text after moved yields
    unfold Sound at second ⊢
    rw [bind_ok ran]
    revert second
    rcases next answer after with error | ⟨other, last⟩
    · exact id
    · rintro ⟨rest, movedOn, holds⟩
      exact ⟨text ++ rest, moving.behind moved movedOn, holds⟩

theorem Sound.weaken (sound : Sound Moved Refusal parser state Yields)
    {Weaker : Answer → List Token → State → Prop}
    (weaker : ∀ answer text after, Moved state text after → Yields answer text after →
      Weaker answer text after) : Sound Moved Refusal parser state Weaker := by
  unfold Sound at sound ⊢
  revert sound
  rcases parser state with error | ⟨answer, after⟩
  · exact id
  · rintro ⟨text, moved, yields⟩
    exact ⟨text, moved, weaker answer text after moved yields⟩

theorem Sound.map (sound : Sound Moved Refusal parser state Yields)
    (yields : ∀ answer text after, Moved state text after → Yields answer text after →
      Next (f answer) text after) : Sound Moved Refusal (f <$> parser) state Next := by
  unfold Sound at sound ⊢
  rcases ran : parser state with error | ⟨answer, after⟩
  · rw [ran] at sound
    rw [map_error ran]
    exact sound
  · rw [ran] at sound
    obtain ⟨text, moved, holds⟩ := sound
    rw [map_ok ran]
    exact ⟨text, moved, yields answer text after moved holds⟩

theorem Sound.of_ok (sound : Sound Moved Refusal parser state Yields) {after : State}
    (ran : parser state = .ok (answer, after)) :
    ∃ text, Moved state text after ∧ Yields answer text after := by
  unfold Sound at sound
  rwa [ran] at sound

theorem Sound.of_error (sound : Sound Moved Refusal parser state Yields)
    (ran : parser state = .error error) : Refusal error := by
  unfold Sound at sound
  rwa [ran] at sound

end Parse

end ZeroServer.Lib

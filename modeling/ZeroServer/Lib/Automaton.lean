/-
This file is about deterministic automata that may refuse a symbol. A family of languages, one for
each state, that is closed under derivatives is what the automaton accepts from its states.
-/

import Mathlib.Data.List.Basic

namespace ZeroServer.Lib

variable {State Symbol : Type} (next : State → Symbol → Option State)

/-- The state behind a word, if no symbol of it is refused. -/
def follow : State → List Symbol → Option State
  | state, [] => some state
  | state, symbol :: rest =>
    match next state symbol with
    | none => none
    | some state => follow state rest

variable {next}

variable {state : State} {symbol : Symbol}

variable {after : State}

theorem follow_cons (taken : next state symbol = some after) (rest : List Symbol) :
    follow next state (symbol :: rest) = follow next after rest := by
  rw [follow, taken]

theorem follow_cons_none (refused : next state symbol = none) (rest : List Symbol) :
    follow next state (symbol :: rest) = none := by
  rw [follow, refused]

variable {accepted : State → Prop}

theorem exists_taken (taken : next state symbol = some after) :
    (∃ other, next state symbol = some other ∧ accepted other) ↔ accepted after := by
  rw [taken]
  constructor
  · rintro ⟨other, same, holds⟩
    cases same
    exact holds
  · exact fun holds => ⟨after, rfl, holds⟩

theorem not_exists_taken (refused : next state symbol = none) :
    ¬ ∃ other, next state symbol = some other ∧ accepted other := by
  rw [refused]
  exact nofun

theorem follow_append (state : State) (front back : List Symbol) :
    follow next state (front ++ back) =
      (follow next state front).bind fun after => follow next after back := by
  induction front generalizing state with
  | nil => rfl
  | cons symbol rest inductionHypothesis =>
    rw [List.cons_append, follow, follow]
    rcases next state symbol with _ | after
    · rfl
    · exact inductionHypothesis after

/-- A property of states that every symbol of a word keeps. -/
theorem follow_keeps {live : State → Prop} {word : List Symbol}
    (kept : ∀ state symbol after, live state → symbol ∈ word → next state symbol = some after →
      live after) {state after : State} (start : live state)
    (reached : follow next state word = some after) : live after := by
  induction word generalizing state with
  | nil =>
    cases reached
    exact start
  | cons symbol rest inductionHypothesis =>
    rcases taken : next state symbol with _ | middle
    · rw [follow_cons_none taken] at reached
      cases reached
    · rw [follow_cons taken] at reached
      exact inductionHypothesis
        (fun state symbol after lives member =>
          kept state symbol after lives (List.mem_cons_of_mem _ member))
        (kept state symbol middle start List.mem_cons_self taken) reached

/-- A symbol that is refused wherever it stands is refused in every word. -/
theorem follow_refused {live : State → Prop} {word : List Symbol} {bad : Symbol}
    (kept : ∀ state symbol after, live state → symbol ∈ word → next state symbol = some after →
      live after) (refused : ∀ state, live state → next state bad = none) (member : bad ∈ word)
    {state : State} (start : live state) : follow next state word = none := by
  obtain ⟨front, back, rfl⟩ := List.append_of_mem member
  rw [follow_append]
  rcases reached : follow next state front with _ | after
  · rfl
  · have lives := follow_keeps (fun state symbol after lives inside =>
      kept state symbol after lives (List.mem_append_left _ inside)) start reached
    exact follow_cons_none (refused after lives) back

/-- Symbols that never change the state may be left out. -/
theorem follow_filter {live : State → Prop} (keep : Symbol → Bool) {word : List Symbol}
    (kept : ∀ state symbol after, live state → symbol ∈ word → next state symbol = some after →
      live after) (idle : ∀ state symbol, live state → symbol ∈ word → keep symbol = false →
      next state symbol = some state) {state : State} (start : live state) :
    follow next state word = follow next state (word.filter keep) := by
  induction word generalizing state with
  | nil => rfl
  | cons symbol rest inductionHypothesis =>
    have later := fun {after : State} (lives : live after) => @inductionHypothesis
      (fun state symbol after lives member =>
        kept state symbol after lives (List.mem_cons_of_mem _ member))
      (fun state symbol lives member => idle state symbol lives (List.mem_cons_of_mem _ member))
      after lives
    rcases kept_ : keep symbol with _ | _
    · rw [follow_cons (idle state symbol start List.mem_cons_self kept_),
        List.filter_cons_of_neg (by rw [kept_]; decide)]
      exact later start
    · rw [List.filter_cons_of_pos kept_]
      rcases taken : next state symbol with _ | after
      · rw [follow_cons_none taken, follow_cons_none taken]
      · rw [follow_cons taken, follow_cons taken]
        exact later (kept state symbol after start List.mem_cons_self taken)

/-- Languages of the states that are closed under derivatives are what the automaton accepts. -/
theorem follow_language {live accepting : State → Prop} {usable : Symbol → Prop}
    {language : State → List Symbol → Prop}
    (kept : ∀ state symbol after, live state → usable symbol → next state symbol = some after →
      live after) (nil : ∀ state, live state → (language state [] ↔ accepting state))
    (cons : ∀ state symbol rest, live state → usable symbol →
      (language state (symbol :: rest) ↔
        ∃ after, next state symbol = some after ∧ language after rest)) {state : State}
    (start : live state) {word : List Symbol} (allowed : ∀ symbol ∈ word, usable symbol) :
    (∃ after, follow next state word = some after ∧ accepting after) ↔ language state word := by
  induction word generalizing state with
  | nil =>
    rw [nil state start]
    constructor
    · rintro ⟨after, reached, accepted⟩
      cases reached
      exact accepted
    · exact fun accepted => ⟨state, rfl, accepted⟩
  | cons symbol rest inductionHypothesis =>
    have own := allowed symbol List.mem_cons_self
    rw [cons state symbol rest start own]
    have later := fun {after : State} (lives : live after) => @inductionHypothesis after lives
      fun symbol member => allowed symbol (List.mem_cons_of_mem _ member)
    rcases taken : next state symbol with _ | after
    · rw [follow_cons_none taken]
      exact iff_of_false nofun nofun
    · rw [follow_cons taken, later (kept state symbol after start own taken)]
      exact ⟨fun accepted => ⟨after, rfl, accepted⟩, fun ⟨_, same, accepted⟩ => by
        cases same
        exact accepted⟩

end ZeroServer.Lib

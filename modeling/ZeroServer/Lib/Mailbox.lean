/-
This file describes mailboxes. Entries are queued in order and handed over in order; volatile ones
fall away together when too many of them wait, which the next hand-over tells; and a mailbox that
was emptied for good or dropped queues nothing more.
-/

import Mathlib.Data.List.Basic

namespace ZeroServer.Lib.Mailbox

variable {Entry : Type}

/-! ### Histories -/

/-- What happens to a mailbox. -/
inductive Happening (Entry : Type) where
  | queued (entry : Entry)
  | overran (removed : List Entry)
  | handed (entries : List Entry) (told : Bool)
  | emptied (entries : List Entry)
  | dropped (entries : List Entry)
  deriving DecidableEq

namespace Happening

def queues : Happening Entry → List Entry
  | queued entry => [entry]
  | _ => []

def hands : Happening Entry → List Entry
  | handed entries _ | emptied entries => entries
  | _ => []

def drops : Happening Entry → List Entry
  | dropped entries => entries
  | _ => []

def removes : Happening Entry → List Entry
  | overran removed => removed
  | _ => []

/-- Whether nothing is queued afterwards. -/
def closes : Happening Entry → Bool
  | emptied _ | dropped _ => true
  | _ => false

/-- Whether entries fell away. -/
def overruns : Happening Entry → Bool
  | overran _ => true
  | _ => false

/-- Whether it tells or forgets that entries fell away. -/
def settles : Happening Entry → Bool
  | handed _ _ | dropped _ => true
  | _ => false

end Happening

/-- What was queued, in order. -/
def queued (history : List (Happening Entry)) : List Entry := history.flatMap Happening.queues

/-- What was handed over, in order. -/
def handed (history : List (Happening Entry)) : List Entry := history.flatMap Happening.hands

/-- What waited when the mailbox was dropped. -/
def dropped (history : List (Happening Entry)) : List Entry := history.flatMap Happening.drops

/-- What fell away. -/
def removed (history : List (Happening Entry)) : List Entry := history.flatMap Happening.removes

section

variable (volatile : Entry → Bool)

def wait (waiting : List Entry) : Happening Entry → List Entry
  | .queued entry => waiting ++ [entry]
  | .overran _ => waiting.filter fun entry => !volatile entry
  | .handed _ _ | .emptied _ | .dropped _ => []

/-- What waits after a history. -/
def waiting (history : List (Happening Entry)) : List Entry := history.foldl (wait volatile) []

def note (behind : Bool) : Happening Entry → Bool
  | .overran _ => true
  | .handed _ _ | .dropped _ => false
  | .queued _ | .emptied _ => behind

/-- Whether entries fell away and nothing told so yet. -/
def behind (history : List (Happening Entry)) : Bool := history.foldl note false

/-- What may happen next. -/
def Follows (last : Entry → Bool) (history : List (Happening Entry)) : Happening Entry → Prop
  | .queued _ => (∀ entry ∈ queued history, last entry = false) ∧
      ∀ event ∈ history, event.closes = false
  | .overran removed =>
    behind history = false ∧ removed = (waiting volatile history).filter volatile
  | .handed entries told => entries = waiting volatile history ∧ told = behind history
  | .emptied entries | .dropped entries => entries = waiting volatile history

/-- The histories of a mailbox. -/
inductive Legal (last : Entry → Bool) : List (Happening Entry) → Prop
  | nil : Legal last []
  | snoc {history : List (Happening Entry)} {event : Happening Entry} :
    Legal last history → Follows volatile last history event → Legal last (history ++ [event])

end

/-! ### One more event -/

section

variable (history : List (Happening Entry)) (event : Happening Entry)

theorem queued_snoc : queued (history ++ [event]) = queued history ++ event.queues := by
  rw [queued, List.flatMap_append, List.flatMap_singleton]
  rfl

theorem handed_snoc : handed (history ++ [event]) = handed history ++ event.hands := by
  rw [handed, List.flatMap_append, List.flatMap_singleton]
  rfl

theorem dropped_snoc : dropped (history ++ [event]) = dropped history ++ event.drops := by
  rw [dropped, List.flatMap_append, List.flatMap_singleton]
  rfl

theorem removed_snoc : removed (history ++ [event]) = removed history ++ event.removes := by
  rw [removed, List.flatMap_append, List.flatMap_singleton]
  rfl

theorem waiting_snoc (volatile : Entry → Bool) :
    waiting volatile (history ++ [event]) = wait volatile (waiting volatile history) event := by
  rw [waiting, List.foldl_append]
  rfl

theorem behind_snoc : behind (history ++ [event]) = note (behind history) event := by
  rw [behind, List.foldl_append]
  rfl

end

/-! ### What every history keeps -/

variable {volatile last : Entry → Bool} {history : List (Happening Entry)}

variable {event : Happening Entry} {entry : Entry}

/-- Each event of a history may follow those before it. -/
theorem Legal.split (legal : Legal volatile last history) {before after : List (Happening Entry)}
    (parts : history = before ++ event :: after) :
    Legal volatile last before ∧ Follows volatile last before event := by
  induction legal generalizing after with
  | nil => cases before <;> cases parts
  | @snoc earlier final legal follows inductionHypothesis =>
    rcases List.eq_nil_or_concat after with rfl | ⟨later, another, rfl⟩
    · obtain ⟨rfl, same⟩ := List.append_inj' parts rfl
      cases same
      exact ⟨legal, follows⟩
    · rw [List.concat_eq_append, ← List.cons_append, ← List.append_assoc] at parts
      exact inductionHypothesis (List.append_inj' parts rfl).1

/-- Nothing waits in a mailbox that was closed. -/
theorem Legal.closed (legal : Legal volatile last history) :
    (∀ event ∈ history, event.closes = false) ∨ waiting volatile history = [] := by
  induction legal with
  | nil => exact .inr rfl
  | @snoc history event legal follows inductionHypothesis =>
    have grows : event.closes = false → (∀ event ∈ history, event.closes = false) →
        ∀ other ∈ history ++ [event], other.closes = false := by
      intro opened earlier other member
      rcases List.mem_append.mp member with old | new
      · exact earlier other old
      · rw [List.mem_singleton.mp new]
        exact opened
    rw [waiting_snoc]
    cases event with
    | queued entry => exact .inl (grows rfl follows.2)
    | overran removed =>
      rcases inductionHypothesis with opened | empty
      · exact .inl (grows rfl opened)
      · refine .inr ?_
        rw [empty]
        rfl
    | handed entries told => exact .inr rfl
    | emptied entries => exact .inr rfl
    | dropped entries => exact .inr rfl

theorem dropped_of_open (opened : ∀ event ∈ history, event.closes = false) :
    dropped history = [] := by
  refine List.flatMap_eq_nil_iff.mpr fun event member => ?_
  cases event with
  | dropped entries => exact absurd (opened _ member) Bool.true_eq_false.mp
  | queued entry | overran removed | handed entries told | emptied entries => rfl

/-- Where something waits, nothing was dropped. -/
theorem Legal.dropped_or_waiting (legal : Legal volatile last history) :
    dropped history = [] ∨ waiting volatile history = [] :=
  legal.closed.imp_left dropped_of_open

/-- What was handed over, what waits and what was dropped. -/
def line (volatile : Entry → Bool) (history : List (Happening Entry)) : List Entry :=
  handed history ++ waiting volatile history ++ dropped history

theorem line_queued (follows : Follows volatile last history (.queued entry)) :
    line volatile (history ++ [.queued entry]) = line volatile history ++ [entry] := by
  unfold line
  rw [handed_snoc, waiting_snoc, dropped_snoc, dropped_of_open follows.2]
  dsimp only [Happening.hands, Happening.drops, wait]
  rw [List.append_nil, List.append_nil, List.append_nil, List.append_nil, List.append_assoc]

theorem line_overran (removed : List Entry) :
    line volatile (history ++ [.overran removed]) = handed history ++
      (waiting volatile history).filter (fun entry => !volatile entry) ++ dropped history := by
  unfold line
  rw [handed_snoc, waiting_snoc, dropped_snoc]
  dsimp only [Happening.hands, Happening.drops, wait]
  rw [List.append_nil, List.append_nil]

/-- A hand-over, an emptying and a drop take all that waits and leave the line as it is. -/
theorem Legal.line_taken (legal : Legal volatile last history)
    (follows : Follows volatile last history event)
    (taken : event.hands ++ event.drops = waiting volatile history)
    (emptied : wait volatile (waiting volatile history) event = []) :
    line volatile (history ++ [event]) = line volatile history := by
  unfold line
  rw [handed_snoc, waiting_snoc, dropped_snoc, emptied, ← taken]
  cases event with
  | queued entry | overran removed | handed entries told | emptied entries =>
    simp [Happening.hands, Happening.drops]
  | dropped entries =>
    dsimp only [Happening.hands, Happening.drops]
    rw [List.append_nil, List.append_nil, List.nil_append]
    rcases legal.dropped_or_waiting with none | empty
    · rw [none, List.nil_append, List.append_nil]
    · rw [show entries = [] from follows.trans empty, List.append_nil, List.append_nil]

/-- One more event either queues an entry, or lets volatile entries fall away, or leaves the line
of the entries as it is. -/
theorem Legal.line_cases (legal : Legal volatile last history)
    (follows : Follows volatile last history event) :
    (∃ entry, event = .queued entry ∧
      line volatile (history ++ [event]) = line volatile history ++ [entry]) ∨
    (∃ removed, event = .overran removed ∧ removed = (waiting volatile history).filter volatile ∧
      line volatile (history ++ [event]) = handed history ++
        (waiting volatile history).filter (fun entry => !volatile entry) ++ dropped history) ∨
    (event.queues = [] ∧ event.removes = [] ∧
      line volatile (history ++ [event]) = line volatile history) := by
  cases event with
  | queued entry => exact .inl ⟨entry, rfl, line_queued follows⟩
  | overran removed => exact .inr (.inl ⟨removed, rfl, follows.2, line_overran removed⟩)
  | handed entries told =>
    refine .inr (.inr ⟨rfl, rfl, legal.line_taken follows ?_ rfl⟩)
    exact (List.append_nil entries).trans follows.1
  | emptied entries =>
    refine .inr (.inr ⟨rfl, rfl, legal.line_taken follows ?_ rfl⟩)
    exact (List.append_nil entries).trans follows
  | dropped entries =>
    refine .inr (.inr ⟨rfl, rfl, legal.line_taken follows ?_ rfl⟩)
    exact follows

/-- Entries that are not volatile leave in the order they came, and none is lost or doubled. -/
theorem Legal.conserved (legal : Legal volatile last history) :
    (queued history).filter (fun entry => !volatile entry) =
      (line volatile history).filter fun entry => !volatile entry := by
  induction legal with
  | nil => rfl
  | @snoc history event legal follows inductionHypothesis =>
    rw [queued_snoc, List.filter_append, inductionHypothesis]
    rcases legal.line_cases follows with
      ⟨entry, rfl, same⟩ | ⟨removed, rfl, -, same⟩ | ⟨nothing, -, same⟩
    · rw [same, List.filter_append]
      rfl
    · rw [same, line]
      dsimp only [Happening.queues]
      rw [List.filter_nil, List.append_nil, List.filter_append, List.filter_append,
        List.filter_append, List.filter_append, List.filter_filter]
      simp only [Bool.and_self]
    · rw [same, nothing, List.filter_nil, List.append_nil]

/-- Entries leave in the order they came. -/
theorem Legal.ordered (legal : Legal volatile last history) :
    (line volatile history).Sublist (queued history) := by
  induction legal with
  | nil => exact List.Sublist.slnil
  | @snoc history event legal follows inductionHypothesis =>
    rw [queued_snoc]
    rcases legal.line_cases follows with
      ⟨entry, rfl, same⟩ | ⟨removed, rfl, -, same⟩ | ⟨nothing, -, same⟩
    · rw [same]
      exact inductionHypothesis.append (List.Sublist.refl _)
    · rw [same]
      dsimp only [Happening.queues]
      rw [List.append_nil]
      refine List.Sublist.trans ?_ inductionHypothesis
      exact ((List.Sublist.refl _).append List.filter_sublist).append (List.Sublist.refl _)
    · rw [same, nothing, List.append_nil]
      exact inductionHypothesis

/-- Volatile entries that fall away leave the others where they were. -/
theorem perm_fall (volatile : Entry → Bool) (before entries after fallen : List Entry) :
    (before ++ entries ++ after ++ fallen).Perm
      (before ++ entries.filter (fun entry => !volatile entry) ++ after ++
        (fallen ++ entries.filter volatile)) := by
  have parted := (List.filter_append_perm volatile entries).symm.trans List.perm_append_comm
  rw [List.append_assoc, List.append_assoc, List.append_assoc, List.append_assoc]
  refine List.Perm.append_left before ((parted.append_right _).trans ?_)
  rw [List.append_assoc]
  refine List.Perm.append_left _ (List.perm_append_comm.trans ?_)
  rw [List.append_assoc]

/-- Every entry that was queued was handed over, waits, was dropped or fell away, once. -/
theorem Legal.accounted (legal : Legal volatile last history) :
    (queued history).Perm (line volatile history ++ removed history) := by
  induction legal with
  | nil => exact List.Perm.nil
  | @snoc history event legal follows inductionHypothesis =>
    rw [queued_snoc, removed_snoc]
    rcases legal.line_cases follows with
      ⟨entry, rfl, same⟩ | ⟨fallen, rfl, all, same⟩ | ⟨nothing, none, same⟩
    · rw [same]
      dsimp only [Happening.queues, Happening.removes]
      rw [List.append_nil, List.append_assoc]
      refine (inductionHypothesis.append_right _).trans ?_
      rw [List.append_assoc]
      exact List.Perm.append_left _ List.perm_append_comm
    · rw [same, all]
      dsimp only [Happening.queues, Happening.removes]
      rw [List.append_nil]
      refine inductionHypothesis.trans ?_
      exact perm_fall _ _ _ _ _
    · rw [same, nothing, none, List.append_nil, List.append_nil]
      exact inductionHypothesis

/-- Nothing is queued behind a last entry. -/
theorem Legal.ended (legal : Legal volatile last history) {before after : List (Happening Entry)}
    (parts : history = before ++ .queued entry :: after) (isLast : last entry = true) :
    queued after = [] := by
  refine List.flatMap_eq_nil_iff.mpr fun event member => ?_
  obtain ⟨earlier, later, same⟩ := List.append_of_mem member
  cases event with
  | queued another =>
    have whole : history = (before ++ .queued entry :: earlier) ++ .queued another :: later := by
      rw [parts, same, List.append_assoc, List.cons_append]
    have inside : entry ∈ queued (before ++ .queued entry :: earlier) :=
      List.mem_flatMap.mpr
        ⟨_, List.mem_append_right _ List.mem_cons_self, List.mem_singleton_self _⟩
    exact absurd (((legal.split whole).2.1 entry inside).symm.trans isLast) Bool.false_ne_true
  | overran removed | handed entries told | emptied entries | dropped entries => rfl

/-! ### Falling behind -/

/-- What was noted stays noted until it is told or forgotten. -/
theorem behind_until (before : List (Happening Entry)) (removed : List Entry)
    (between : List (Happening Entry)) (quiet : ∀ event ∈ between, event.settles = false) :
    behind (before ++ .overran removed :: between) = true := by
  have later : ∀ events : List (Happening Entry), (∀ event ∈ events, event.settles = false) →
      events.foldl note true = true := by
    intro events
    induction events with
    | nil => exact fun _ => rfl
    | cons event events inductionHypothesis =>
      intro quiet
      have kept : note true event = true := by
        have still := quiet event List.mem_cons_self
        cases event with
        | handed entries told | dropped entries => exact absurd still Bool.true_eq_false.mp
        | queued entry | overran removed | emptied entries => rfl
      rw [List.foldl_cons, kept]
      exact inductionHypothesis fun event member => quiet event (List.mem_cons_of_mem _ member)
  rw [behind, List.foldl_append, List.foldl_cons]
  exact later between quiet

/-- Where something is noted, entries fell away once since it was last told or forgotten. -/
theorem Legal.noted (legal : Legal volatile last history) (noted : behind history = true) :
    ∃ before removed between, history = before ++ .overran removed :: between ∧
      ∀ event ∈ between, event.settles = false ∧ event.overruns = false := by
  induction legal with
  | nil => cases noted
  | @snoc history event legal follows inductionHypothesis =>
    rw [behind_snoc] at noted
    have grows : event.settles = false → event.overruns = false → behind history = true →
        ∃ before removed between, history ++ [event] = before ++ .overran removed :: between ∧
          ∀ event ∈ between, event.settles = false ∧ event.overruns = false := by
      intro still whole noted
      obtain ⟨before, removed, between, parts, quiet⟩ := inductionHypothesis noted
      refine ⟨before, removed, between ++ [event], ?_, fun other member => ?_⟩
      · rw [parts, List.append_assoc, List.cons_append]
      · rcases List.mem_append.mp member with old | new
        · exact quiet other old
        · rw [List.mem_singleton.mp new]
          exact ⟨still, whole⟩
    cases event with
    | queued entry => exact grows rfl rfl noted
    | overran removed => exact ⟨history, removed, [], rfl, nofun⟩
    | handed entries told => cases noted
    | emptied entries => exact grows rfl rfl noted
    | dropped entries => cases noted

end ZeroServer.Lib.Mailbox

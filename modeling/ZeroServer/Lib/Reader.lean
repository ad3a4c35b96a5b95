/-
This file is about readers of a stream of whole items: what is at the start of the input is an item
of some length, is refused, or has to wait. When a verdict does not change with what follows, the
stream is judged alike however it is cut into reads.
-/

import Mathlib.Data.List.Basic

namespace ZeroServer.Lib

/-- What the start of the input is: an item of a length, a fault, or an item not all there. -/
structure Reader (Token Fault : Type) where
  read : List Token → Except Fault (Option Nat)
  inside : ∀ {input taken}, read input = .ok (some taken) → 0 < taken ∧ taken ≤ input.length
  stable : ∀ {input}, read input ≠ .ok none → ∀ more, read (input ++ more) = read input
  exact : ∀ {input taken}, read input = .ok (some taken) →
    read (input.take taken) = .ok (some taken)

namespace Reader

variable {Token Fault : Type} (reader : Reader Token Fault)

/-- Read items until one is not all there, counting what they took. -/
def feedFrom (input : List Token) (consumed : Nat) : Except Fault Nat :=
  match _item : reader.read input with
  | .error fault => .error fault
  | .ok none => .ok consumed
  | .ok (some taken) => feedFrom (input.drop taken) (consumed + taken)
termination_by input.length
decreasing_by
  have := reader.inside _item
  rw [List.length_drop]
  omega

def feed (input : List Token) : Except Fault Nat := reader.feedFrom input 0

/-- Feed reads one after the other, each behind what was not consumed. -/
def feedReads (pending : List Token) (total : Nat) :
    List (List Token) → Except Fault (Nat × List Token)
  | [] => .ok (total, pending)
  | read :: reads =>
    match reader.feed (pending ++ read) with
    | .error fault => .error fault
    | .ok used => feedReads ((pending ++ read).drop used) (total + used) reads

variable {reader}

theorem feedFrom_eq (input : List Token) (consumed : Nat) :
    reader.feedFrom input consumed =
      match reader.read input with
      | .error fault => .error fault
      | .ok none => .ok consumed
      | .ok (some taken) => reader.feedFrom (input.drop taken) (consumed + taken) := by
  rw [feedFrom]
  split <;> rename_i item <;> rw [item]

theorem feedFrom_add (input : List Token) (consumed more : Nat) :
    reader.feedFrom input (consumed + more) =
      (reader.feedFrom input consumed).map fun used => used + more := by
  induction size : input.length using Nat.strongRecOn generalizing input consumed with
  | _ size inductionHypothesis =>
    rw [feedFrom_eq, feedFrom_eq input consumed]
    rcases item : reader.read input with fault | (- | taken)
    · rfl
    · rfl
    · obtain ⟨positive, inside⟩ := reader.inside item
      dsimp only
      rw [Nat.add_right_comm, inductionHypothesis _ (by rw [List.length_drop]; omega) _ _ rfl]

theorem feed_eq (input : List Token) :
    reader.feed input =
      match reader.read input with
      | .error fault => .error fault
      | .ok none => .ok 0
      | .ok (some taken) => (reader.feed (input.drop taken)).map fun used => used + taken := by
  rw [feed, feedFrom_eq]
  rcases item : reader.read input with fault | (- | taken)
  · rfl
  · rfl
  · exact feedFrom_add _ 0 taken

variable {input : List Token}

/-- Feeding stops before an item that is not all there. -/
theorem feed_ok {used : Nat} (fed : reader.feed input = .ok used) :
    used ≤ input.length ∧ reader.read (input.drop used) = .ok none := by
  induction size : input.length using Nat.strongRecOn generalizing input used with
  | _ size inductionHypothesis =>
    rw [feed_eq] at fed
    rcases item : reader.read input with fault | (- | taken)
    · rw [item] at fed
      cases fed
    · rw [item] at fed
      cases fed
      exact ⟨Nat.zero_le _, item⟩
    · obtain ⟨positive, inside⟩ := reader.inside item
      rw [item] at fed
      dsimp only at fed
      rcases later : reader.feed (input.drop taken) with fault | rest
      · rw [later] at fed
        cases fed
      · rw [later] at fed
        obtain rfl : rest + taken = used := Except.ok.inj fed
        obtain ⟨within, stopped⟩ :=
          inductionHypothesis _ (by rw [List.length_drop]; omega) later rfl
        rw [List.drop_drop, Nat.add_comm] at stopped
        rw [List.length_drop] at within
        exact ⟨by omega, stopped⟩

/-- What was consumed is items, one after the other. -/
theorem feed_items {used : Nat} (fed : reader.feed input = .ok used) :
    ∃ items : List (List Token), input.take used = items.flatten ∧
      ∀ item ∈ items, reader.read item = .ok (some item.length) := by
  induction size : input.length using Nat.strongRecOn generalizing input used with
  | _ size inductionHypothesis =>
    rw [feed_eq] at fed
    rcases item : reader.read input with fault | (- | taken)
    · rw [item] at fed
      cases fed
    · rw [item] at fed
      cases fed
      exact ⟨[], rfl, fun item member => absurd member List.not_mem_nil⟩
    · obtain ⟨positive, inside⟩ := reader.inside item
      rw [item] at fed
      dsimp only at fed
      rcases later : reader.feed (input.drop taken) with fault | rest
      · rw [later] at fed
        cases fed
      · rw [later] at fed
        obtain rfl : rest + taken = used := Except.ok.inj fed
        obtain ⟨items, same, whole⟩ :=
          inductionHypothesis _ (by rw [List.length_drop]; omega) later rfl
        refine ⟨input.take taken :: items, ?_, List.forall_mem_cons.mpr ⟨?_, whole⟩⟩
        · rw [Nat.add_comm, List.take_add, same, List.flatten_cons]
        · rw [reader.exact item, List.length_take, Nat.min_eq_left inside]

/-- Longer input is judged as the shorter one, and then the rest of it. -/
theorem feed_append (input more : List Token) :
    reader.feed (input ++ more) =
      match reader.feed input with
      | .error fault => .error fault
      | .ok used => (reader.feed (input.drop used ++ more)).map fun later => later + used := by
  induction size : input.length using Nat.strongRecOn generalizing input with
  | _ size inductionHypothesis =>
    rw [feed_eq input]
    have stable := @reader.stable input
    rcases item : reader.read input with fault | (- | taken)
    · rw [feed_eq, stable (by rw [item]; nofun), item]
    · dsimp only
      rw [List.drop_zero]
      rcases reader.feed (input ++ more) <;> rfl
    · obtain ⟨positive, inside⟩ := reader.inside item
      rw [feed_eq, stable (by rw [item]; nofun), item]
      dsimp only
      rw [List.drop_append_of_le_length inside,
        inductionHypothesis _ (by rw [List.length_drop]; omega) _ rfl]
      rcases reader.feed (input.drop taken) with fault | used
      · rfl
      · dsimp only [Except.map]
        rw [List.drop_drop, Nat.add_comm taken used]
        rcases reader.feed (input.drop (used + taken) ++ more) with fault | later
        · rfl
        · exact congrArg Except.ok (Nat.add_assoc later used taken)

/-- However a stream is cut into reads, it is judged as the whole stream is, and as much of it is
consumed. -/
theorem feedReads_flatten (pending : List Token) (total : Nat)
    (quiet : reader.read pending = .ok none) (reads : List (List Token)) :
    reader.feedReads pending total reads =
      (reader.feed (pending ++ reads.flatten)).map fun used =>
        (total + used, (pending ++ reads.flatten).drop used) := by
  induction reads generalizing pending total with
  | nil =>
    rw [List.flatten_nil, List.append_nil, feed_eq, quiet]
    rfl
  | cons read reads inductionHypothesis =>
    rw [List.flatten_cons, ← List.append_assoc, feed_append, feedReads]
    rcases fed : reader.feed (pending ++ read) with fault | used
    · rfl
    · obtain ⟨inside, stopped⟩ := feed_ok fed
      dsimp only
      rw [inductionHypothesis _ _ stopped]
      rcases later : reader.feed ((pending ++ read).drop used ++ reads.flatten) with fault | more
      · rfl
      · dsimp only [Except.map]
        rw [Nat.add_comm more used, Nat.add_assoc, ← List.drop_append_of_le_length inside,
          List.drop_drop]

end Reader

end ZeroServer.Lib

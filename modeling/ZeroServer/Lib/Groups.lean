/-
This file develops groups of a sorted list: where neighbours of equal names are put together, a
group holds all items of its name, and groups apart hold different names.
-/

import Mathlib.Data.List.SplitBy

namespace ZeroServer.Lib

section Groups

variable {Item Name : Type} [DecidableEq Name] {name : Item → Name} {below : Name → Name → Prop}

/-- The groups of neighbours with equal names. -/
def groups (name : Item → Name) (items : List Item) : List (List Item) :=
  items.splitBy fun left right => name left = name right

theorem flatten_groups (name : Item → Name) (items : List Item) :
    (groups name items).flatten = items := List.flatten_splitBy _ _

/-- The items of one group have one name. -/
theorem name_of_mem_group {items group : List Item} (among : group ∈ groups name items)
    {left right : Item} (first : left ∈ group) (second : right ∈ group) :
    name left = name right := by
  have linked : group.IsChain fun left right => name left = name right := by
    refine (List.isChain_of_mem_splitBy among).imp fun left right same => ?_
    exact of_decide_eq_true same
  have equal : ∀ {group : List Item}, (group.IsChain fun left right => name left = name right) →
      ∀ item ∈ group, ∀ first ∈ group.head?, name item = name first := by
    intro group
    induction group with
    | nil => exact fun _ _ member => absurd member List.not_mem_nil
    | cons head rest inductionHypothesis =>
      intro linked item member first isFirst
      cases isFirst
      rcases List.mem_cons.mp member with rfl | later
      · rfl
      · cases rest with
        | nil => cases later
        | cons next rest =>
          obtain ⟨same, linked⟩ := List.isChain_cons_cons.mp linked
          exact (inductionHypothesis linked item later next rfl).trans same.symm
  cases group with
  | nil => cases first
  | cons head rest =>
    exact (equal linked left first head rfl).trans (equal linked right second head rfl).symm

/-- Names that do not fall along a list rise from each group to those behind it. -/
theorem groups_apart (trans : ∀ {first second third : Name}, below first second →
      below second third → below first third) {items : List Item}
    (sorted : items.Pairwise fun left right =>
      below (name left) (name right) ∨ name left = name right) :
    (groups name items).Pairwise fun front back =>
      ∀ left ∈ front, ∀ right ∈ back, below (name left) (name right) := by
  rw [← flatten_groups name items, List.pairwise_flatten] at sorted
  have cross := sorted.2
  have same : ∀ group ∈ groups name items, ∀ left ∈ group, ∀ right ∈ group,
      name left = name right :=
    fun group among left first right second => name_of_mem_group among first second
  have links := List.isChain_getLast_head_splitBy
    (fun left right => decide (name left = name right)) items
  change (groups name items).IsChain _ at links
  generalize groups name items = all at cross same links
  induction all with
  | nil => exact List.Pairwise.nil
  | cons front rest inductionHypothesis =>
    obtain ⟨crossFront, cross⟩ := List.pairwise_cons.mp cross
    obtain ⟨sameFront, sameRest⟩ := List.forall_mem_cons.mp same
    have later := inductionHypothesis cross sameRest links.tail
    refine List.pairwise_cons.mpr ⟨?_, later⟩
    cases rest with
    | nil => exact fun back among => absurd among List.not_mem_nil
    | cons next rest =>
      obtain ⟨⟨someFront, someNext, differ⟩, -⟩ := List.isChain_cons_cons.mp links
      have apart : below (name (front.getLast someFront)) (name (next.head someNext)) := by
        refine (crossFront next List.mem_cons_self _ (List.getLast_mem someFront) _
          (List.head_mem someNext)).resolve_right ?_
        exact of_decide_eq_false differ
      have toNext : ∀ left ∈ front, below (name left) (name (next.head someNext)) := by
        intro left member
        rw [sameFront left member _ (List.getLast_mem someFront)]
        exact apart
      intro back among left first right second
      rcases List.mem_cons.mp among with rfl | behind
      · rw [sameRest back List.mem_cons_self right second _ (List.head_mem someNext)]
        exact toNext left first
      · exact trans (toNext left first)
          (List.rel_of_pairwise_cons later behind _ (List.head_mem someNext) right second)

end Groups

end ZeroServer.Lib

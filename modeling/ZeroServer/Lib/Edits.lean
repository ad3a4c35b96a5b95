/-
This file collects what editing one item of a list keeps: properties of every item, relations
between earlier and later items, and the items in front of the edited one. It also removes an item
by putting the last one in its place, which keeps all the others.
-/

import Mathlib.Algebra.Ring.Nat
import Mathlib.Data.List.Perm.Basic

namespace ZeroServer.Lib

variable {Item : Type} {items : List Item} {index : Nat} {item : Item}

theorem modify_eq_append (found : items[index]? = some item) (change : Item → Item) :
    items.modify index change = items.take index ++ change item :: items.drop (index + 1) := by
  obtain ⟨inside, rfl⟩ := List.getElem?_eq_some_iff.mp found
  rw [List.modify_eq_set_getElem?, found]
  simp [List.set_eq_take_append_cons_drop, inside]

theorem eq_append_of_getElem? (found : items[index]? = some item) :
    items = items.take index ++ item :: items.drop (index + 1) := by
  obtain ⟨inside, rfl⟩ := List.getElem?_eq_some_iff.mp found
  rw [← List.drop_eq_getElem_cons inside, List.take_append_drop]

theorem modify_concat (items : List Item) (item : Item) (change : Item → Item) :
    (items ++ [item]).modify items.length change = items ++ [change item] := by
  have found : (items ++ [item])[items.length]? = some item := by simp
  rw [modify_eq_append found]
  simp

theorem getElem?_of_concat {before : List Item} (queue : items = before ++ [item]) :
    items[before.length]? = some item := by
  rw [queue]
  simp

variable {place : Nat} {other : Item}

/-- An item of a list with one item more is an old one, or the new one at the end. -/
theorem getElem?_concat (found : (items ++ [item])[place]? = some other) :
    items[place]? = some other ∨ place = items.length ∧ other = item := by
  obtain ⟨inside, same⟩ := List.getElem?_eq_some_iff.mp found
  subst same
  rw [List.length_append, List.length_singleton] at inside
  by_cases early : place < items.length
  · rw [List.getElem_append_left early]
    exact .inl (List.getElem?_eq_getElem early)
  · obtain rfl : place = items.length := by omega
    exact .inr ⟨rfl, List.getElem_concat_length rfl _⟩

variable {change : Item → Item}

/-- What stands in an edited list stood there before, edited or not. -/
theorem getElem?_modify_cases (found : (items.modify index change)[place]? = some other) :
    ∃ before, items[place]? = some before ∧
      other = if index = place then change before else before := by
  rw [List.getElem?_modify] at found
  obtain ⟨before, there, same⟩ := Option.map_eq_some_iff.mp found
  exact ⟨before, there, same.symm⟩

variable {holds : Item → Prop}

/-- An edit that keeps a property keeps it for every item. -/
theorem forall_mem_modify (every : ∀ item ∈ items, holds item) (found : items[index]? = some item)
    (kept : holds (change item)) : ∀ other ∈ items.modify index change, holds other := by
  intro other member
  rw [modify_eq_append found] at member
  rcases List.mem_append.mp member with before | rest
  · exact every other (List.mem_of_mem_take before)
  · rcases List.mem_cons.mp rest with rfl | after
    · exact kept
    · exact every other (List.mem_of_mem_drop after)

variable {count : Nat}

/-- An edit that keeps a property keeps it for the first items. -/
theorem forall_mem_take_modify (every : ∀ item ∈ items.take count, holds item)
    (found : items[index]? = some item) (kept : holds item → holds (change item)) :
    ∀ other ∈ (items.modify index change).take count, holds other := by
  intro other member
  obtain ⟨place, reads⟩ := List.mem_iff_getElem?.mp member
  rw [List.getElem?_take] at reads
  by_cases inside : place < count
  · rw [if_pos inside, List.getElem?_modify] at reads
    obtain ⟨old, here, rfl⟩ := Option.map_eq_some_iff.mp reads
    have listed : old ∈ items.take count :=
      List.mem_iff_getElem?.mpr ⟨place, by rw [List.getElem?_take, if_pos inside, here]⟩
    by_cases same : index = place
    · subst same
      rw [found] at here
      cases here
      rw [if_pos rfl]
      exact kept (every _ listed)
    · rw [if_neg same]
      exact every _ listed
  · rw [if_neg inside] at reads
    cases reads

variable {related : Item → Item → Prop}

/-- An edit that keeps the relation of its item to the earlier and the later items keeps the
relation throughout. -/
theorem pairwise_modify (pairwise : items.Pairwise related) (found : items[index]? = some item)
    (earlier : ∀ other ∈ items.take index, related other item → related other (change item))
    (later : ∀ other ∈ items.drop (index + 1), related item other → related (change item) other) :
    (items.modify index change).Pairwise related := by
  rw [modify_eq_append found]
  rw [eq_append_of_getElem? found, List.pairwise_append, List.pairwise_cons] at pairwise
  obtain ⟨before, ⟨behind, after⟩, across⟩ := pairwise
  rw [List.pairwise_append, List.pairwise_cons]
  refine ⟨before, ⟨fun other member => later other member (behind other member), after⟩, ?_⟩
  intro other member another isLater
  rcases List.mem_cons.mp isLater with rfl | isLater
  · exact earlier other member (across other member item List.mem_cons_self)
  · exact across other member another (List.mem_cons_of_mem _ isLater)

theorem pairwise_concat :
    (items ++ [item]).Pairwise related ↔
      items.Pairwise related ∧ ∀ other ∈ items, related other item := by
  rw [List.pairwise_append]
  simp

/-- The items in front of an edit stay. -/
theorem take_modify (before : count ≤ index) (change : Item → Item) :
    (items.modify index change).take count = items.take count := by
  refine List.ext_getElem? fun place => ?_
  rw [List.getElem?_take, List.getElem?_take]
  by_cases inside : place < count
  · have apart : index ≠ place := by omega
    rw [if_pos inside, if_pos inside, List.getElem?_modify]
    simp [apart]
  · rw [if_neg inside, if_neg inside]

theorem take_concat (before : count ≤ items.length) (item : Item) :
    (items ++ [item]).take count = items.take count :=
  List.take_append_of_le_length before

/-- An edit changes a total by what it changes the item by. -/
theorem sum_modify (found : items[index]? = some item) (change : Item → Item)
    (weight : Item → Nat) :
    ((items.modify index change).map weight).sum + weight item =
      (items.map weight).sum + weight (change item) := by
  rw [modify_eq_append found]
  conv => rhs; rw [eq_append_of_getElem? found]
  simp only [List.map_append, List.map_cons, List.sum_append, List.sum_cons]
  omega

/-- Replacing an item changes a total by the difference of the two. -/
theorem sum_set (found : items[index]? = some item) (other : Item) (weight : Item → Nat) :
    ((items.set index other).map weight).sum + weight item =
      (items.map weight).sum + weight other := by
  have inside := (List.getElem?_eq_some_iff.mp found).1
  rw [List.set_eq_take_append_cons_drop, if_pos inside]
  conv => rhs; rw [eq_append_of_getElem? found]
  simp only [List.map_append, List.map_cons, List.sum_append, List.sum_cons]
  omega

theorem weight_le_sum (found : items[index]? = some item) (weight : Item → Nat) :
    weight item ≤ (items.map weight).sum := by
  rw [eq_append_of_getElem? found]
  simp only [List.map_append, List.map_cons, List.sum_append, List.sum_cons]
  omega

end ZeroServer.Lib

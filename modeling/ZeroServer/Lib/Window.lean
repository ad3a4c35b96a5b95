/-
This file is about windows of a list: a run of items read at a place, and one overwritten. What was
written is read back, and what lies apart from it or in front of a cut stays as it was.
-/

import Mathlib.Data.List.Basic

namespace ZeroServer.Lib

variable {Item : Type} {list part items out more : List Item} {start count place size stop : Nat}

/-- The items from a place on, when the list has as many. -/
def window (list : List Item) (start count : Nat) : Option (List Item) :=
  if start + count ≤ list.length then some ((list.drop start).take count) else none

/-- The list with the items from a place on overwritten, when it has room for them. -/
def overwrite (list : List Item) (start : Nat) (items : List Item) : Option (List Item) :=
  if start + items.length ≤ list.length then
    some (list.take start ++ items ++ list.drop (start + items.length))
  else none

theorem window_iff :
    window list start count = some part ↔
      start + count ≤ list.length ∧ part.length = count ∧
        ∀ index < count, list[start + index]? = part[index]? := by
  unfold window
  constructor
  · intro read
    split at read
    · next inside =>
      obtain rfl := Option.some.inj read
      refine ⟨inside, by rw [List.length_take, List.length_drop]; omega, fun index below => ?_⟩
      rw [List.getElem?_take_of_lt below, List.getElem?_drop]
    · cases read
  · rintro ⟨inside, rfl, same⟩
    rw [if_pos inside]
    refine congrArg some (List.ext_getElem? fun index => ?_)
    rcases Nat.lt_or_ge index part.length with below | beyond
    · rw [List.getElem?_take_of_lt below, List.getElem?_drop, same index below]
    · rw [List.getElem?_take_eq_none beyond, List.getElem?_eq_none beyond]

theorem window_append (read : window list start count = some part) :
    window (list ++ more) start count = some part := by
  obtain ⟨inside, size, same⟩ := window_iff.mp read
  refine window_iff.mpr ⟨by rw [List.length_append]; omega, size, fun index below => ?_⟩
  rw [List.getElem?_append_left (by omega), same index below]

theorem window_take (read : window list start count = some part) (before : start + count ≤ stop) :
    window (list.take stop) start count = some part := by
  obtain ⟨inside, size, same⟩ := window_iff.mp read
  refine window_iff.mpr ⟨by rw [List.length_take]; omega, size, fun index below => ?_⟩
  rw [List.getElem?_take_of_lt (by omega), same index below]

theorem window_infix (read : window list start count = some part) : part <:+: list := by
  unfold window at read
  split at read
  · obtain rfl := Option.some.inj read
    exact (List.take_prefix _ _).isInfix.trans (List.drop_suffix _ _).isInfix
  · cases read

/-! ### Overwriting -/

theorem overwrite_inside (inside : start + items.length ≤ list.length) :
    overwrite list start items =
      some (list.take start ++ items ++ list.drop (start + items.length)) := if_pos inside

theorem exists_overwrite (inside : start + items.length ≤ list.length) :
    ∃ out, overwrite list start items = some out := ⟨_, overwrite_inside inside⟩

theorem overwrite_spec (written : overwrite list start items = some out) :
    start + items.length ≤ list.length ∧
      out = list.take start ++ items ++ list.drop (start + items.length) := by
  unfold overwrite at written
  split at written
  · next inside => exact ⟨inside, (Option.some.inj written).symm⟩
  · cases written

theorem length_overwrite (written : overwrite list start items = some out) :
    out.length = list.length := by
  obtain ⟨inside, rfl⟩ := overwrite_spec written
  rw [List.length_append, List.length_append, List.length_take, List.length_drop]
  omega

theorem getElem?_overwrite (written : overwrite list start items = some out) (index : Nat) :
    out[index]? =
      if start ≤ index ∧ index < start + items.length then items[index - start]?
      else list[index]? := by
  obtain ⟨inside, rfl⟩ := overwrite_spec written
  have front : (list.take start).length = start := by rw [List.length_take]; omega
  rw [List.append_assoc]
  rcases Nat.lt_or_ge index start with before | behind
  · rw [List.getElem?_append_left (by omega), List.getElem?_take_of_lt before,
      if_neg fun both => Nat.not_le_of_lt before both.1]
  · rw [List.getElem?_append_right (by omega), front]
    rcases Nat.lt_or_ge index (start + items.length) with within | beyond
    · rw [List.getElem?_append_left (by omega), if_pos ⟨behind, within⟩]
    · rw [List.getElem?_append_right (by omega), List.getElem?_drop,
        if_neg fun both => Nat.not_lt_of_le beyond both.2]
      congr 1
      omega

/-- What was written is read back. -/
theorem window_overwrite (written : overwrite list start items = some out) :
    window out start items.length = some items := by
  have inside := (overwrite_spec written).1
  refine window_iff.mpr ⟨by rw [length_overwrite written]; exact inside, rfl, fun index below => ?_⟩
  rw [getElem?_overwrite written, if_pos ⟨Nat.le_add_right _ _, by omega⟩, Nat.add_sub_cancel_left]

/-- What lies apart from what was written stays as it was. -/
theorem window_apart (written : overwrite list start items = some out)
    (apart : place + size ≤ start ∨ start + items.length ≤ place)
    (read : window list place size = some part) : window out place size = some part := by
  obtain ⟨inside, size, same⟩ := window_iff.mp read
  refine window_iff.mpr ⟨by rw [length_overwrite written]; exact inside, size, fun index below => ?_⟩
  rw [getElem?_overwrite written, if_neg (by omega), same index below]

end ZeroServer.Lib

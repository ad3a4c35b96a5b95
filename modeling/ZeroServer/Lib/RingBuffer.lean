/-
This file develops the queue kept in a fixed table of cells: the items sit in consecutive
cells from a head position, wrapping at the end of the table. A buffer carries the proof
that exactly the cells of its window are filled, so every reading of a cell is a reading of
the queue: positions and queue indices determine each other, a position keeps its item for as
long as the item stays in the queue, and the operations are those of a list.
-/

import Mathlib.Data.Nat.ModEq
import Mathlib.Data.List.Basic

namespace ZeroServer.Lib

/-- A queue in a table of `capacity` cells: `len` items from `head` on, and nothing in the
other cells. -/
structure RingBuffer (Item : Type) (capacity : Nat) where
  entries : List (Option Item)
  head : Nat
  len : Nat
  size : entries.length = capacity
  headInside : head < capacity
  fits : len ≤ capacity
  occupied : ∀ index, index < capacity →
    ((entries[(head + index) % capacity]?).join.isSome = true ↔ index < len)

namespace RingBuffer

variable {Item : Type} {capacity : Nat}

/-- The position of the `index`th item. -/
def position (buffer : RingBuffer Item capacity) (index : Nat) : Nat :=
  (buffer.head + index) % capacity

/-- What the cell at a position holds. -/
def entry (buffer : RingBuffer Item capacity) (position : Nat) : Option Item :=
  (buffer.entries[position]?).join

/-- How far a position lies behind the head. -/
def offset (buffer : RingBuffer Item capacity) (position : Nat) : Nat :=
  (position + capacity - buffer.head) % capacity

/-- The queue: the items of the window, the head first. -/
def contents (buffer : RingBuffer Item capacity) : List Item :=
  (List.range buffer.len).filterMap fun index => buffer.entry (buffer.position index)

/-! ### Positions and offsets -/

variable {index : Nat}

theorem position_lt (buffer : RingBuffer Item capacity) (index : Nat) :
    buffer.position index < capacity :=
  Nat.mod_lt _ (Nat.lt_of_le_of_lt (Nat.zero_le _) buffer.headInside)

theorem offset_lt (buffer : RingBuffer Item capacity) (position : Nat) :
    buffer.offset position < capacity :=
  Nat.mod_lt _ (Nat.lt_of_le_of_lt (Nat.zero_le _) buffer.headInside)

theorem position_offset (buffer : RingBuffer Item capacity) {position : Nat}
    (inside : position < capacity) : buffer.position (buffer.offset position) = position := by
  have headInside := buffer.headInside
  unfold RingBuffer.position offset
  rw [Nat.add_mod_mod, show buffer.head + (position + capacity - buffer.head) =
    position + capacity by omega, Nat.add_mod_right, Nat.mod_eq_of_lt inside]

theorem position_injective (buffer : RingBuffer Item capacity) {first second : Nat}
    (firstInside : first < capacity) (secondInside : second < capacity)
    (same : buffer.position first = buffer.position second) : first = second :=
  Nat.ModEq.eq_of_lt_of_lt (Nat.ModEq.add_left_cancel' buffer.head same) firstInside secondInside

theorem offset_position (buffer : RingBuffer Item capacity) (inside : index < capacity) :
    buffer.offset (buffer.position index) = index :=
  buffer.position_injective (buffer.offset_lt _) inside
    (buffer.position_offset (buffer.position_lt index))

theorem position_zero (buffer : RingBuffer Item capacity) : buffer.position 0 = buffer.head :=
  Nat.mod_eq_of_lt buffer.headInside

theorem isSome_entry_position (buffer : RingBuffer Item capacity) (inside : index < capacity) :
    (buffer.entry (buffer.position index)).isSome = true ↔ index < buffer.len :=
  buffer.occupied index inside

/-! ### The queue read by index -/

variable {buffer : RingBuffer Item capacity}

theorem map_some_filterMap {Key : Type} (read : Key → Option Item) (keys : List Key)
    (filled : ∀ key ∈ keys, (read key).isSome = true) :
    (keys.filterMap read).map some = keys.map read := by
  induction keys with
  | nil => rfl
  | cons key rest inductionHypothesis =>
    obtain ⟨item, reads⟩ := Option.isSome_iff_exists.mp (filled key List.mem_cons_self)
    rw [List.filterMap_cons_some reads, List.map_cons, List.map_cons, reads,
      inductionHypothesis fun other member => filled other (List.mem_cons_of_mem _ member)]

theorem map_some_contents (buffer : RingBuffer Item capacity) :
    buffer.contents.map some =
      (List.range buffer.len).map fun index => buffer.entry (buffer.position index) := by
  refine map_some_filterMap _ _ fun index member => ?_
  have inside := List.mem_range.mp member
  exact (buffer.isSome_entry_position (Nat.lt_of_lt_of_le inside buffer.fits)).mpr inside

@[simp]
theorem length_contents (buffer : RingBuffer Item capacity) :
    buffer.contents.length = buffer.len := by
  rw [← List.length_map some, map_some_contents, List.length_map, List.length_range]

theorem getElem?_contents (buffer : RingBuffer Item capacity) (inside : index < capacity) :
    buffer.contents[index]? = buffer.entry (buffer.position index) := by
  by_cases held : index < buffer.len
  · have reading : (buffer.contents.map some)[index]? =
        some (buffer.entry (buffer.position index)) := by
      rw [map_some_contents, List.getElem?_map, List.getElem?_range held]
      rfl
    rw [List.getElem?_map] at reading
    obtain ⟨item, found, same⟩ := Option.map_eq_some_iff.mp reading
    rw [found, same]
  · rw [List.getElem?_eq_none (by rw [length_contents]; omega)]
    refine (Option.not_isSome_iff_eq_none.mp fun filled => held ?_).symm
    exact (buffer.isSome_entry_position inside).mp filled

/-- Two buffers agree as queues once they agree index by index. -/
theorem contents_ext {items : List Item} (fits : items.length ≤ capacity)
    (same : ∀ index, index < capacity →
      buffer.entry (buffer.position index) = items[index]?) : buffer.contents = items := by
  refine List.ext_getElem? fun index => ?_
  by_cases inside : index < capacity
  · rw [getElem?_contents _ inside, same index inside]
  · have bound := buffer.fits
    rw [List.getElem?_eq_none (by rw [length_contents]; omega), List.getElem?_eq_none (by omega)]

/-! ### Writing a cell -/

theorem join_getElem?_set (cells : List (Option Item)) {place : Nat}
    (inside : place < cells.length) (value : Option Item) (other : Nat) :
    ((cells.set place value)[other]?).join =
      if other = place then value else (cells[other]?).join := by
  rw [List.getElem?_set]
  by_cases same : place = other
  · subst same
    rw [if_pos rfl, if_pos inside, if_pos rfl]
    rfl
  · rw [if_neg same, if_neg fun equal => same equal.symm]

/-- The empty queue. -/
def empty (positive : 0 < capacity) : RingBuffer Item capacity where
  entries := List.replicate capacity none
  head := 0
  len := 0
  size := List.length_replicate
  headInside := positive
  fits := Nat.zero_le _
  occupied := by
    intro index inside
    rw [List.getElem?_replicate]
    split <;> simp

/-- Change the item at a position, if there is one. -/
def modify (buffer : RingBuffer Item capacity) (position : Nat) (change : Item → Item) :
    RingBuffer Item capacity where
  entries := buffer.entries.set position ((buffer.entry position).map change)
  head := buffer.head
  len := buffer.len
  size := by rw [List.length_set, buffer.size]
  headInside := buffer.headInside
  fits := buffer.fits
  occupied := by
    intro index inside
    rw [← buffer.occupied index inside, List.getElem?_set]
    by_cases same : position = (buffer.head + index) % capacity
    · rw [if_pos same, if_pos (by rw [buffer.size, same]; exact buffer.position_lt index), ← same]
      simp only [Option.join_some, Option.isSome_map]
      rfl
    · rw [if_neg same]

/-- Add an item at the tail; nothing when every cell is filled. -/
def push (buffer : RingBuffer Item capacity) (item : Item) :
    Option (RingBuffer Item capacity) :=
  if room : buffer.len < capacity then
    some {
      entries := buffer.entries.set (buffer.position buffer.len) (some item)
      head := buffer.head
      len := buffer.len + 1
      size := by rw [List.length_set, buffer.size]
      headInside := buffer.headInside
      fits := room
      occupied := by
        intro index inside
        have held := buffer.isSome_entry_position inside
        rw [join_getElem?_set _ (by rw [buffer.size]; exact buffer.position_lt _)]
        change (if buffer.position index = buffer.position buffer.len then some item
          else buffer.entry (buffer.position index)).isSome = true ↔ _
        by_cases same : index = buffer.len
        · subst same
          rw [if_pos rfl]
          simp
        · rw [if_neg fun equal => same (buffer.position_injective inside room equal), held]
          omega }
  else none

/-- Drop the head item; an empty queue stays as it is. -/
def dropFront (buffer : RingBuffer Item capacity) : RingBuffer Item capacity :=
  if held : 0 < buffer.len then
    { entries := buffer.entries.set buffer.head none
      head := (buffer.head + 1) % capacity
      len := buffer.len - 1
      size := by rw [List.length_set, buffer.size]
      headInside := Nat.mod_lt _ (Nat.lt_of_le_of_lt (Nat.zero_le _) buffer.headInside)
      fits := Nat.le_trans (Nat.sub_le _ _) buffer.fits
      occupied := by
        intro index inside
        have fits := buffer.fits
        rw [Nat.mod_add_mod, Nat.add_right_comm, Nat.add_assoc,
          join_getElem?_set _ (by rw [buffer.size]; exact buffer.headInside)]
        by_cases last : index + 1 = capacity
        · rw [last, Nat.add_mod_right, Nat.mod_eq_of_lt buffer.headInside, if_pos rfl]
          simp only [Option.isSome_none, Bool.false_eq_true, false_iff]
          omega
        · have below : index + 1 < capacity := by omega
          rw [if_neg, buffer.occupied (index + 1) below]
          · omega
          · intro equal
            have := buffer.position_injective below (by omega : 0 < capacity)
              (equal.trans buffer.position_zero.symm)
            omega }
  else buffer

/-- Drop the tail item; an empty queue stays as it is. -/
def dropBack (buffer : RingBuffer Item capacity) : RingBuffer Item capacity :=
  if held : 0 < buffer.len then
    { entries := buffer.entries.set (buffer.position (buffer.len - 1)) none
      head := buffer.head
      len := buffer.len - 1
      size := by rw [List.length_set, buffer.size]
      headInside := buffer.headInside
      fits := Nat.le_trans (Nat.sub_le _ _) buffer.fits
      occupied := by
        intro index inside
        have fits := buffer.fits
        have filled := buffer.isSome_entry_position inside
        rw [join_getElem?_set _ (by rw [buffer.size]; exact buffer.position_lt _)]
        change (if buffer.position index = buffer.position (buffer.len - 1) then none
          else buffer.entry (buffer.position index)).isSome = true ↔ _
        by_cases last : index = buffer.len - 1
        · rw [last, if_pos rfl]
          simp
        · rw [if_neg fun equal => last
              (buffer.position_injective inside (by omega) equal), filled]
          omega }
  else buffer

/-! ### The operations on the queue -/

theorem entry_modify (buffer : RingBuffer Item capacity) {position : Nat}
    (inside : position < capacity) (change : Item → Item) (other : Nat) :
    (buffer.modify position change).entry other =
      if other = position then (buffer.entry position).map change else buffer.entry other :=
  join_getElem?_set _ (by rw [buffer.size]; exact inside) _ _

@[simp]
theorem position_modify (buffer : RingBuffer Item capacity) (position index : Nat)
    (change : Item → Item) :
    (buffer.modify position change).position index = buffer.position index := rfl

theorem contents_modify (buffer : RingBuffer Item capacity) {position : Nat}
    (inside : position < capacity) (change : Item → Item) :
    (buffer.modify position change).contents =
      buffer.contents.modify (buffer.offset position) change := by
  refine contents_ext (by rw [List.length_modify, length_contents]; exact buffer.fits)
    fun index below => ?_
  rw [position_modify, entry_modify _ inside, List.getElem?_modify, getElem?_contents _ below]
  by_cases same : buffer.position index = position
  · subst same
    rw [if_pos rfl, buffer.offset_position below]
    simp
  · have apart : buffer.offset position ≠ index := by
      intro equal
      subst equal
      exact same (buffer.position_offset inside)
    rw [if_neg same]
    simp [apart]

/-- A change where there is no item changes nothing. -/
theorem modify_of_none {position : Nat} (vacant : buffer.entry position = none)
    (change : Item → Item) : buffer.modify position change = buffer := by
  have same : buffer.entries.set position none = buffer.entries := by
    refine List.ext_getElem? fun index => ?_
    rw [List.getElem?_set]
    split
    · rename_i here
      subst here
      unfold entry at vacant
      rcases cell : buffer.entries[position]? with - | (- | item)
      · rw [if_neg (Nat.not_lt.mpr (List.getElem?_eq_none_iff.mp cell))]
      · rw [if_pos (List.getElem?_eq_some_iff.mp cell).1]
      · rw [cell] at vacant
        cases vacant
    · rfl
  obtain ⟨entries, head, len, size, headInside, fits, occupied⟩ := buffer
  simp only [modify, vacant, Option.map_none, mk.injEq, and_true]
  exact same

theorem push_eq_none {item : Item} : buffer.push item = none ↔ buffer.len = capacity := by
  have fits := buffer.fits
  unfold push
  split
  · simp only [reduceCtorEq, false_iff]
    omega
  · simp only [true_iff]
    omega

/-- What a successful push did: the item is behind the others and every position holds. -/
theorem push_eq_some {pushed : RingBuffer Item capacity} {item : Item}
    (step : buffer.push item = some pushed) :
    pushed.contents = buffer.contents ++ [item] ∧ pushed.head = buffer.head ∧
      pushed.len = buffer.len + 1 := by
  unfold push at step
  split at step
  case isFalse => cases step
  case isTrue room =>
    cases step
    refine ⟨?_, rfl, rfl⟩
    refine contents_ext (by rw [List.length_append, length_contents]; exact room)
      fun index below => ?_
    refine (join_getElem?_set _ (by rw [buffer.size]; exact buffer.position_lt _) _ _).trans ?_
    change (if buffer.position index = buffer.position buffer.len then some item
      else buffer.entry (buffer.position index)) = _
    by_cases same : index = buffer.len
    · subst same
      rw [if_pos rfl, List.getElem?_append_right (by rw [length_contents]), length_contents,
        Nat.sub_self]
      rfl
    · rw [if_neg fun equal => same (buffer.position_injective below room equal)]
      refine (buffer.getElem?_contents below).symm.trans ?_
      by_cases before : index < buffer.len
      · rw [List.getElem?_append_left (by rw [length_contents]; exact before)]
      · rw [List.getElem?_eq_none (by rw [length_contents]; omega),
          List.getElem?_eq_none (by rw [List.length_append, length_contents, List.length_singleton]
                                    omega)]

theorem head_dropFront (held : 0 < buffer.len) :
    buffer.dropFront.head = (buffer.head + 1) % capacity := by
  unfold dropFront
  rw [dif_pos held]

theorem len_dropFront (buffer : RingBuffer Item capacity) :
    buffer.dropFront.len = buffer.len - 1 := by
  unfold dropFront
  split
  · rfl
  · omega

theorem head_dropBack (buffer : RingBuffer Item capacity) : buffer.dropBack.head = buffer.head := by
  unfold dropBack
  split <;> rfl

theorem len_dropBack (buffer : RingBuffer Item capacity) :
    buffer.dropBack.len = buffer.len - 1 := by
  unfold dropBack
  split
  · rfl
  · omega

/-- Behind a dropped head every other item stays at its position. -/
theorem position_dropFront (held : 0 < buffer.len) (index : Nat) :
    buffer.dropFront.position index = buffer.position (index + 1) := by
  unfold position
  rw [head_dropFront held, Nat.mod_add_mod, Nat.add_right_comm, Nat.add_assoc]

theorem contents_dropFront (buffer : RingBuffer Item capacity) :
    buffer.dropFront.contents = buffer.contents.tail := by
  have fits := buffer.fits
  unfold dropFront
  split
  case isFalse none =>
    have empty : buffer.contents = [] :=
      List.length_eq_zero_iff.mp (by rw [length_contents]; omega)
    rw [empty, List.tail_nil]
  case isTrue held =>
    refine contents_ext (by rw [List.length_tail, length_contents]; omega) fun index below => ?_
    have moved : ((buffer.head + 1) % capacity + index) % capacity =
        (buffer.head + (index + 1)) % capacity := by
      rw [Nat.mod_add_mod, Nat.add_right_comm, Nat.add_assoc]
    refine (join_getElem?_set _ (by rw [buffer.size]; exact buffer.headInside) _ _).trans ?_
    unfold position
    dsimp only
    rw [moved, List.getElem?_tail]
    by_cases last : index + 1 = capacity
    · rw [last, Nat.add_mod_right, Nat.mod_eq_of_lt buffer.headInside, if_pos rfl,
        List.getElem?_eq_none (by rw [length_contents]; omega)]
    · have inside : index + 1 < capacity := by omega
      rw [if_neg, getElem?_contents _ inside]
      · rfl
      · intro equal
        have := buffer.position_injective inside (by omega : 0 < capacity)
          (equal.trans buffer.position_zero.symm)
        omega

theorem contents_dropBack (buffer : RingBuffer Item capacity) :
    buffer.dropBack.contents = buffer.contents.dropLast := by
  have fits := buffer.fits
  unfold dropBack
  split
  case isFalse none =>
    have empty : buffer.contents = [] :=
      List.length_eq_zero_iff.mp (by rw [length_contents]; omega)
    rw [empty, List.dropLast_nil]
  case isTrue held =>
    refine contents_ext (by rw [List.length_dropLast, length_contents]; omega)
      fun index below => ?_
    refine (join_getElem?_set _ (by rw [buffer.size]; exact buffer.position_lt _) _ _).trans ?_
    rw [List.getElem?_dropLast, length_contents]
    change (if buffer.position index = buffer.position (buffer.len - 1) then none
      else buffer.entry (buffer.position index)) = _
    by_cases last : index = buffer.len - 1
    · subst last
      rw [if_pos rfl, if_neg (Nat.lt_irrefl _)]
    · rw [if_neg fun equal => last (buffer.position_injective below (by omega) equal)]
      refine (buffer.getElem?_contents below).symm.trans ?_
      by_cases before : index < buffer.len - 1
      · rw [if_pos before]
      · rw [if_neg before, List.getElem?_eq_none (by rw [length_contents]; omega)]

end RingBuffer

end ZeroServer.Lib

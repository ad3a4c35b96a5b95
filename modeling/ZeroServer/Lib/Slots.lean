/-
This file develops the bookkeeping of reusable slots: a table that only grows, the slots in
use by their owners, and the stack of slots to use again. Whatever the order of claims and
releases, the owned and the free slots together are all slots of the table, each once, and
what is put into a free slot replaces nothing.
-/

import Mathlib.Data.List.Perm.Basic
import Mathlib.Data.List.Nodup
import Mathlib.Data.List.Range

namespace ZeroServer.Lib

/-- The owned and the free slots share out the table, and a free slot holds nothing. -/
structure SlotsShared {Item : Type} (owned free : List Nat) (table : List (Option Item)) :
    Prop where
  partition : (owned ++ free).Perm (List.range table.length)
  idle : ∀ slot ∈ free, table[slot]? = some none

namespace SlotsShared

variable {Item : Type} {owned free before after : List Nat} {table : List (Option Item)}

theorem start : SlotsShared ([] : List Nat) [] ([] : List (Option Item)) :=
  ⟨List.Perm.refl _, by simp⟩

theorem nodup (shared : SlotsShared owned free table) : (owned ++ free).Nodup :=
  shared.partition.nodup_iff.mpr List.nodup_range

variable {slot : Nat}

theorem lt_of_mem (shared : SlotsShared owned free table) (member : slot ∈ owned) :
    slot < table.length :=
  List.mem_range.mp (shared.partition.subset (List.mem_append_left _ member))

theorem not_mem_free (shared : SlotsShared owned free table) (member : slot ∈ owned) :
    slot ∉ free :=
  List.disjoint_of_nodup_append shared.nodup member

/-- The order of the owners does not matter. -/
theorem perm_owned {others : List Nat} (shared : SlotsShared owned free table)
    (perm : others.Perm owned) : SlotsShared others free table :=
  ⟨(perm.append_right free).trans shared.partition, shared.idle⟩

/-- A slot that holds something has an owner. -/
theorem mem_owned (shared : SlotsShared owned free table) {item : Item}
    (holds : table[slot]? = some (some item)) : slot ∈ owned := by
  have inside := List.mem_range.mpr (List.getElem?_eq_some_iff.mp holds).1
  rcases List.mem_append.mp (shared.partition.mem_iff.mpr inside) with member | isFree
  · exact member
  · rw [shared.idle slot isFree] at holds
    cases holds

/-- An owner puts something else into its slot. -/
theorem set_owned (shared : SlotsShared owned free table) (member : slot ∈ owned)
    (item : Option Item) : SlotsShared owned free (table.set slot item) := by
  refine ⟨by rw [List.length_set]; exact shared.partition, fun other isFree => ?_⟩
  rw [List.getElem?_set_ne]
  · exact shared.idle other isFree
  · rintro rfl
    exact shared.not_mem_free member isFree

theorem perm_moved (before after free : List Nat) (slot : Nat) :
    (before ++ after ++ slot :: free).Perm (before ++ slot :: after ++ free) := by
  calc (before ++ after ++ slot :: free).Perm (slot :: (before ++ after ++ free)) :=
        List.perm_middle
    _ = slot :: (before ++ (after ++ free)) := by rw [List.append_assoc]
    List.Perm _ (before ++ slot :: (after ++ free)) := List.perm_middle.symm
    _ = before ++ slot :: after ++ free := by rw [List.append_assoc, List.cons_append]

/-- An owner gives its slot back. -/
theorem release {slot : Nat} (shared : SlotsShared (before ++ slot :: after) free table) :
    SlotsShared (before ++ after) (slot :: free) (table.set slot none) := by
  have member : slot ∈ before ++ slot :: after :=
    List.mem_append_right _ List.mem_cons_self
  have cleared := shared.set_owned member none
  refine ⟨(perm_moved before after free slot).trans cleared.partition, fun other isFree => ?_⟩
  rcases List.mem_cons.mp isFree with rfl | isFree
  · exact List.getElem?_set_self (shared.lt_of_mem member)
  · exact cleared.idle other isFree

/-- An owner takes the top free slot. -/
theorem claim (shared : SlotsShared (before ++ after) (slot :: free) table) (item : Option Item) :
    SlotsShared (before ++ slot :: after) free (table.set slot item) := by
  have taken : SlotsShared (before ++ slot :: after) free table :=
    ⟨(perm_moved before after free slot).symm.trans shared.partition,
      fun other isFree => shared.idle other (List.mem_cons_of_mem _ isFree)⟩
  exact taken.set_owned (List.mem_append_right _ List.mem_cons_self) item

/-- An owner takes a slot the table grows by. -/
theorem grow (shared : SlotsShared (before ++ after) [] table) (item : Option Item) :
    SlotsShared (before ++ table.length :: after) []
      ((table ++ [none]).set table.length item) := by
  have grown : SlotsShared (before ++ after) [table.length] (table ++ [none]) := by
    refine ⟨?_, fun slot isFree => ?_⟩
    · rw [List.length_append, List.length_singleton, List.range_succ]
      refine List.Perm.append_right _ ?_
      simpa only [List.append_nil] using shared.partition
    · rw [List.mem_singleton.mp isFree]
      simp
  exact grown.claim item

end SlotsShared

end ZeroServer.Lib

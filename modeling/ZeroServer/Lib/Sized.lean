/-
This file is about finite maps whose values have sizes: what all of them hold together, and what an
erasure and an insertion change of it.
-/

import Mathlib.Algebra.Ring.Nat
import Mathlib.Data.List.AList

namespace ZeroServer.Lib

variable {Key Value : Type}

/-- The sizes of all values of a map together. -/
def total (size : Value → Nat) (entries : AList fun _ : Key => Value) : Nat :=
  (entries.entries.map fun entry => size entry.2).sum

variable {size : Value → Nat} {entries : AList fun _ : Key => Value} {key : Key} {value : Value}

theorem total_empty : total size (∅ : AList fun _ : Key => Value) = 0 := rfl

theorem total_eq_zero (none_ : ∀ key, key ∉ entries) : total size entries = 0 := by
  have empty : entries.entries = [] := by
    refine List.eq_nil_iff_forall_not_mem.mpr fun entry member => none_ entry.1 ?_
    exact AList.mem_keys.mpr (List.mem_keys_of_mem member)
  unfold total
  rw [empty]
  rfl

variable [DecidableEq Key]

/-- What is erased is what the total loses. -/
theorem total_erase (held : entries.lookup key = some value) :
    total size (entries.erase key) + size value = total size entries := by
  have member : key ∈ entries.entries.keys := by
    have known : (entries.lookup key).isSome = true := by
      rw [held]
      rfl
    exact AList.mem_keys.mp (AList.lookup_isSome.mp known)
  obtain ⟨found, front, behind, fresh, whole, rest⟩ := List.exists_of_kerase member
  have same : found = value := by
    have looked : entries.lookup key = some found :=
      AList.mem_lookup_iff.mpr (by rw [whole]; exact List.mem_append_right _ List.mem_cons_self)
    exact Option.some.inj (looked.symm.trans held)
  show ((entries.entries.kerase key).map fun entry => size entry.2).sum + size value =
    (entries.entries.map fun entry => size entry.2).sum
  rw [rest, whole, same, List.map_append, List.map_append, List.map_cons, List.sum_append,
    List.sum_append, List.sum_cons]
  dsimp only
  omega

theorem total_insert (fresh : entries.lookup key = none) :
    total size (entries.insert key value) = total size entries + size value := by
  unfold total
  rw [AList.entries_insert_of_notMem (AList.lookup_eq_none.mp fresh), List.map_cons, List.sum_cons,
    Nat.add_comm]

/-- A value is no larger than all together. -/
theorem size_le_total (held : entries.lookup key = some value) :
    size value ≤ total size entries := by
  rw [← total_erase held]
  exact Nat.le_add_left _ _

end ZeroServer.Lib

/-
This file develops tables that are kept in the order of a rank, the highest first, with one entry for
each key: what a sequence of insertions leaves does not depend on the order in which entries of
different keys came, and the first match is the highest ranked one.
-/

import Mathlib.Data.List.Induction
import Mathlib.Data.List.Nodup
import Mathlib.Data.List.Perm.Basic

namespace ZeroServer.Lib.Ranked

variable {Entry Key : Type} [DecidableEq Key] (key : Entry → Key) (rank : Key → Nat)

/-! ### Insertion -/

/-- Insert an entry in front of the first one of a lower rank, in the place of any other of its
key. -/
def put (entries : List Entry) (entry : Entry) : List Entry :=
  let others := entries.filter fun other => key other ≠ key entry
  let place := others.findIdx fun other => rank (key other) < rank (key entry)
  others.take place ++ entry :: others.drop place

/-- What insertions one after another leave of nothing. -/
def table (calls : List Entry) : List Entry := calls.foldl (put key rank) []

/-- The last of some entries that has a key. -/
def last (calls : List Entry) (wanted : Key) : Option Entry :=
  (calls.filter fun call => key call = wanted).getLast?

/-- One entry for each key, in the order of the ranks. -/
structure Ordered (entries : List Entry) : Prop where
  falling : entries.Pairwise fun first second => rank (key second) ≤ rank (key first)
  once : (entries.map key).Nodup

variable {key rank} {entries calls : List Entry} {entry other : Entry}

theorem mem_put : other ∈ put key rank entries entry ↔
    other = entry ∨ other ∈ entries ∧ key other ≠ key entry := by
  unfold put
  dsimp only
  generalize List.findIdx _ _ = place
  rw [List.mem_append, List.mem_cons, or_left_comm, ← List.mem_append, List.take_append_drop,
    List.mem_filter, decide_eq_true_eq]

omit [DecidableEq Key] in
/-- What stands in front of the place of a rank is not lower, and what stands behind is. -/
theorem place_splits {bound : Nat}
    (falling : entries.Pairwise fun first second => rank (key second) ≤ rank (key first)) :
    (∀ other ∈ entries.take (entries.findIdx fun other => rank (key other) < bound),
        bound ≤ rank (key other)) ∧
      ∀ other ∈ entries.drop (entries.findIdx fun other => rank (key other) < bound),
        rank (key other) < bound := by
  induction entries with
  | nil => exact ⟨nofun, nofun⟩
  | cons first rest inductionHypothesis =>
    obtain ⟨below, falling⟩ := List.pairwise_cons.mp falling
    rw [List.findIdx_cons]
    by_cases low : rank (key first) < bound
    · rw [decide_eq_true low, cond_true, List.take_zero, List.drop_zero]
      refine ⟨nofun, List.forall_mem_cons.mpr ⟨low, fun other member => ?_⟩⟩
      exact Nat.lt_of_le_of_lt (below other member) low
    · obtain ⟨front, behind⟩ := inductionHypothesis falling
      rw [decide_eq_false low, cond_false, List.take_succ_cons, List.drop_succ_cons]
      exact ⟨List.forall_mem_cons.mpr ⟨Nat.le_of_not_lt low, front⟩, behind⟩

/-- An insertion keeps the order. -/
theorem Ordered.put (ordered : Ordered key rank entries) (entry : Entry) :
    Ordered key rank (Ranked.put key rank entries entry) := by
  unfold Ranked.put
  dsimp only
  have falling := ordered.falling.filter fun other => decide (key other ≠ key entry)
  have once : ((entries.filter fun other => key other ≠ key entry).map key).Nodup :=
    ordered.once.sublist ((List.filter_sublist).map key)
  have apart : key entry ∉ (entries.filter fun other => key other ≠ key entry).map key := by
    intro member
    obtain ⟨other, held, same⟩ := List.mem_map.mp member
    exact of_decide_eq_true (List.mem_filter.mp held).2 same
  revert falling once apart
  generalize (entries.filter fun other => decide (key other ≠ key entry)) = others
  intro falling once apart
  obtain ⟨front, behind⟩ := @place_splits _ _ key rank others (rank (key entry)) falling
  refine ⟨?_, ?_⟩
  · rw [List.pairwise_append, List.pairwise_cons]
    rw [← List.take_append_drop (others.findIdx fun other => rank (key other) < rank (key entry))
      others, List.pairwise_append] at falling
    refine ⟨falling.1, ⟨fun other member => Nat.le_of_lt (behind other member), falling.2.1⟩, fun first member second inside => ?_⟩
    rcases List.mem_cons.mp inside with rfl | later
    · exact front first member
    · exact falling.2.2 first member second later
  · rw [List.map_append, List.map_cons, List.nodup_middle, ← List.map_append,
      List.take_append_drop, List.nodup_cons]
    exact ⟨apart, once⟩

omit [DecidableEq Key] in
theorem ordered_nil : Ordered key rank ([] : List Entry) := ⟨.nil, .nil⟩

/-! ### Sequences of insertions -/

/-- A table after one more insertion. -/
theorem table_concat (calls : List Entry) (entry : Entry) :
    table key rank (calls ++ [entry]) = put key rank (table key rank calls) entry := by
  unfold table
  rw [List.foldl_append]
  rfl

theorem ordered_table (calls : List Entry) : Ordered key rank (table key rank calls) := by
  induction calls using List.reverseRecOn with
  | nil => exact ordered_nil
  | append_singleton calls entry inductionHypothesis =>
    rw [table_concat]
    exact inductionHypothesis.put entry

theorem last_concat (calls : List Entry) (entry : Entry) (wanted : Key) :
    last key (calls ++ [entry]) wanted =
      if key entry = wanted then some entry else last key calls wanted := by
  unfold last
  rw [List.filter_append, List.filter_singleton]
  by_cases same : key entry = wanted
  · rw [decide_eq_true same, cond_true, List.getLast?_concat, if_pos same]
  · rw [decide_eq_false same, cond_false, List.append_nil, if_neg same]

theorem key_of_last {wanted : Key} (found : last key calls wanted = some entry) :
    key entry = wanted :=
  of_decide_eq_true (List.mem_filter.mp (List.mem_of_getLast? found)).2

/-- A table holds for each key what was inserted for it last. -/
theorem mem_table : entry ∈ table key rank calls ↔ last key calls (key entry) = some entry := by
  induction calls using List.reverseRecOn with
  | nil => exact ⟨nofun, nofun⟩
  | append_singleton calls call inductionHypothesis =>
    rw [table_concat, mem_put, last_concat]
    by_cases same : key call = key entry
    · rw [if_pos same]
      refine ⟨fun held => ?_, fun found => .inl (Option.some.inj found).symm⟩
      rcases held with rfl | ⟨-, apart⟩
      · rfl
      · exact absurd same.symm apart
    · rw [if_neg same, ← inductionHypothesis]
      refine ⟨fun held => ?_, fun held => .inr ⟨held, fun other => same other.symm⟩⟩
      rcases held with rfl | ⟨held, -⟩
      · exact absurd rfl same
      · exact held

/-- The last insertion for a key among calls of different keys does not depend on their order. -/
theorem last_perm {others : List Entry} (perm : calls.Perm others) (once : (calls.map key).Nodup) :
    last key calls = last key others := by
  funext wanted
  unfold last
  have kept := perm.filter fun call => decide (key call = wanted)
  have few : (calls.filter fun call => key call = wanted).length ≤ 1 := by
    have single : ((calls.filter fun call => key call = wanted).map key).Nodup :=
      once.sublist (List.filter_sublist.map key)
    revert single
    have all : ∀ call ∈ calls.filter fun call => key call = wanted, key call = wanted :=
      fun call member => of_decide_eq_true (List.mem_filter.mp member).2
    revert all
    cases calls.filter fun call => key call = wanted with
    | nil => exact fun _ _ => Nat.zero_le 1
    | cons first rest =>
      intro all single
      cases rest with
      | nil => exact Nat.le_refl 1
      | cons second rest =>
        have same : key first = key second :=
          (all first List.mem_cons_self).trans
            (all second (List.mem_cons_of_mem _ List.mem_cons_self)).symm
        exact absurd (List.mem_map_of_mem List.mem_cons_self)
          (same ▸ (List.nodup_cons.mp single).1)
  revert kept few
  generalize (calls.filter fun call => decide (key call = wanted)) = kept
  generalize (others.filter fun call => decide (key call = wanted)) = kept'
  intro same few
  cases kept with
  | nil => rw [List.nil_perm.mp same]
  | cons first rest =>
    obtain rfl := List.length_eq_zero_iff.mp (Nat.le_zero.mp (Nat.le_of_succ_le_succ few))
    rw [List.singleton_perm.mp same]

/-! ### The first match -/

variable {covers : Entry → Bool}

/-- Where no two matches of different keys have one rank, the first match is the highest ranked. -/
theorem Ordered.find_eq (ordered : Ordered key rank entries)
    (apart : ∀ first ∈ entries, ∀ second ∈ entries, covers first = true → covers second = true →
      rank (key first) = rank (key second) → key first = key second) :
    entries.find? covers = some entry ↔ entry ∈ entries ∧ covers entry = true ∧
      ∀ other ∈ entries, covers other = true → key other ≠ key entry →
        rank (key other) < rank (key entry) := by
  have highest : ∀ {entry}, entries.find? covers = some entry →
      ∀ other ∈ entries, covers other = true → key other ≠ key entry →
        rank (key other) < rank (key entry) := by
    intro entry found other member matched different
    obtain ⟨here, front, behind, whole, missed⟩ := List.find?_eq_some_iff_append.mp found
    have later : other ∈ behind := by
      rw [whole, List.mem_append, List.mem_cons] at member
      rcases member with before | rfl | later
      · exact absurd matched (by simpa using missed other before)
      · exact absurd rfl different
      · exact later
    have falling := ordered.falling
    rw [whole, List.pairwise_append, List.pairwise_cons] at falling
    refine Nat.lt_of_le_of_ne (falling.2.1.1 other later) fun equal => different ?_
    exact apart other member entry (List.mem_of_find?_eq_some found) matched here equal
  refine ⟨fun found => ⟨List.mem_of_find?_eq_some found, List.find?_some found, highest found⟩, ?_⟩
  rintro ⟨member, matched, above⟩
  rcases found : entries.find? covers with _ | first
  · exact absurd matched (by simpa using List.find?_eq_none.mp found entry member)
  · have held := List.mem_of_find?_eq_some found
    refine congrArg some (List.inj_on_of_nodup_map ordered.once held member ?_)
    by_contra different
    have lower := above first held (List.find?_some found) different
    exact Nat.lt_asymm lower (highest found entry member matched (Ne.symm different))

end ZeroServer.Lib.Ranked

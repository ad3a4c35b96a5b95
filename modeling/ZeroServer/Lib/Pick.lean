/-
This file is about picking from a list the first of the items that rank highest, where an item of
rank zero is never picked. The order of the list matters only between items of the same rank.
-/

import Mathlib.Data.List.Induction

namespace ZeroServer.Lib

variable {Item : Type} {rank : Item → Nat} {items others : List Item} {item : Item}
  {best : Option Item}

/-- Whether an item ranks above what has been picked. -/
def Above (rank : Item → Nat) (best : Option Item) (item : Item) : Prop :=
  best.elim 0 rank < rank item

instance : Decidable (Above rank best item) := inferInstanceAs (Decidable (_ < _))

/-- Keep what has been picked unless an item ranks above it. -/
def better (rank : Item → Nat) (best : Option Item) (item : Item) : Option Item :=
  if Above rank best item then some item else best

/-- The first of the items that rank highest. -/
def pick (rank : Item → Nat) (items : List Item) : Option Item := items.foldl (better rank) none

/-- An item with what stands before it below and what stands behind it not above. -/
structure Picked (rank : Item → Nat) (items : List Item) (item : Item) : Prop where
  positive : 0 < rank item
  splits : ∃ front behind, items = front ++ item :: behind ∧
    (∀ other ∈ front, rank other < rank item) ∧ ∀ other ∈ behind, rank other ≤ rank item

theorem pick_concat (items : List Item) (item : Item) :
    pick rank (items ++ [item]) = better rank (pick rank items) item := by
  rw [pick, List.foldl_append]
  rfl

/-- Nothing is picked of items without a rank; otherwise what is picked comes first among the
highest. -/
theorem pick_spec (rank : Item → Nat) (items : List Item) :
    (pick rank items = none ∧ ∀ item ∈ items, rank item = 0) ∨
      ∃ item, pick rank items = some item ∧ Picked rank items item := by
  induction items using List.reverseRecOn with
  | nil => exact .inl ⟨rfl, fun item member => absurd member List.not_mem_nil⟩
  | append_singleton items last inductionHypothesis =>
    rw [pick_concat]
    rcases inductionHypothesis with ⟨none_, low⟩ | ⟨item, some_, positive, splits⟩
    · rw [none_, better]
      split
      · next above =>
        refine .inr ⟨last, rfl, above, items, [], rfl, fun other member => ?_,
          fun other member => absurd member List.not_mem_nil⟩
        exact Nat.lt_of_le_of_lt (Nat.le_of_eq (low other member)) above
      · next below =>
        refine .inl ⟨rfl, fun item member => ?_⟩
        rcases List.mem_append.mp member with inside | isLast
        · exact low item inside
        · exact List.mem_singleton.mp isLast ▸ Nat.eq_zero_of_not_pos below
    · obtain ⟨front, behind, rfl, before, after⟩ := splits
      rw [some_, better]
      split
      · next above =>
        refine .inr ⟨last, rfl, Nat.lt_trans positive above, _, [], rfl, fun other member => ?_,
          fun other member => absurd member List.not_mem_nil⟩
        rcases List.mem_append.mp member with inFront | inRest
        · exact Nat.lt_trans (before other inFront) above
        · rcases List.mem_cons.mp inRest with rfl | inBehind
          · exact above
          · exact Nat.lt_of_le_of_lt (after other inBehind) above
      · next below =>
        refine .inr ⟨item, rfl, positive, front, behind ++ [last], ?_, before,
          fun other member => ?_⟩
        · rw [List.append_assoc, List.cons_append]
        · rcases List.mem_append.mp member with inBehind | isLast
          · exact after other inBehind
          · exact List.mem_singleton.mp isLast ▸ Nat.le_of_not_lt below

theorem pick_none_iff : pick rank items = none ↔ ∀ item ∈ items, rank item = 0 := by
  rcases pick_spec rank items with ⟨none_, low⟩ | ⟨item, some_, positive, front, behind, rfl, -⟩
  · exact ⟨fun _ => low, fun _ => none_⟩
  · rw [some_]
    refine ⟨nofun, fun low => absurd (low item ?_) (Nat.ne_of_gt positive)⟩
    exact List.mem_append_right _ List.mem_cons_self

/-- What is picked is in the list, and nothing in it ranks higher. -/
theorem Picked.highest (picked : Picked rank items item) :
    item ∈ items ∧ ∀ other ∈ items, rank other ≤ rank item := by
  obtain ⟨front, behind, rfl, before, after⟩ := picked.splits
  refine ⟨List.mem_append_right _ List.mem_cons_self, fun other member => ?_⟩
  rcases List.mem_append.mp member with inFront | inRest
  · exact Nat.le_of_lt (before other inFront)
  · rcases List.mem_cons.mp inRest with rfl | inBehind
    · exact Nat.le_refl _
    · exact after other inBehind

/-- Two items that come first among the highest are one. -/
theorem Picked.unique {other : Item} (one : Picked rank items item)
    (two : Picked rank items other) : item = other := by
  obtain ⟨front, behind, rfl, before, after⟩ := one.splits
  obtain ⟨front', behind', same, before', after'⟩ := two.splits
  rcases List.append_eq_append_iff.mp same with ⟨gap, rfl, rest⟩ | ⟨gap, rfl, rest⟩
  · rcases gap with - | ⟨first, gap⟩
    · exact (List.cons.inj rest).1
    · obtain ⟨rfl, rfl⟩ := List.cons.inj rest
      have := before' item (List.mem_append_right _ List.mem_cons_self)
      have := after other (List.mem_append_right _ List.mem_cons_self)
      omega
  · rcases gap with - | ⟨first, gap⟩
    · exact (List.cons.inj rest).1.symm
    · obtain ⟨rfl, rfl⟩ := List.cons.inj rest
      have := before other (List.mem_append_right _ List.mem_cons_self)
      have := after' item (List.mem_append_right _ List.mem_cons_self)
      omega

theorem pick_iff : pick rank items = some item ↔ Picked rank items item := by
  rcases pick_spec rank items with ⟨none_, low⟩ | ⟨other, some_, picked⟩
  · rw [none_]
    refine ⟨nofun, fun ⟨positive, front, behind, same, _⟩ => ?_⟩
    refine absurd (low item ?_) (Nat.ne_of_gt positive)
    exact same ▸ List.mem_append_right _ List.mem_cons_self
  · rw [some_, Option.some_inj]
    exact ⟨fun same => same ▸ picked, fun other => picked.unique other⟩

/-- Picking commutes with a map. -/
theorem pick_map {Source : Type} (place : Source → Item) (sources : List Source) :
    pick rank (sources.map place) = (pick (fun source => rank (place source)) sources).map place := by
  induction sources using List.reverseRecOn with
  | nil => rfl
  | append_singleton sources source inductionHypothesis =>
    rw [List.map_append, List.map_singleton, pick_concat, pick_concat, inductionHypothesis]
    generalize pick (fun source => rank (place source)) sources = held
    have same : Above rank (held.map place) (place source) ↔
        Above (fun source => rank (place source)) held source := by
      rcases held with - | held <;> exact Iff.rfl
    by_cases above : Above (fun source => rank (place source)) held source
    · rw [better, better, if_pos (same.mpr above), if_pos above]
      rfl
    · rw [better, better, if_neg (mt same.mp above), if_neg above]

/-- Where no two items have one rank, the order does not matter. -/
theorem pick_perm (perm : items.Perm others)
    (apart : ∀ one ∈ items, ∀ two ∈ items, 0 < rank one → rank one = rank two → one = two) :
    pick rank items = pick rank others := by
  rcases pick_spec rank others with ⟨none_, low⟩ | ⟨item, some_, picked⟩
  · rw [none_, pick_none_iff]
    exact fun item member => low item (perm.subset member)
  · obtain ⟨member, highest⟩ := picked.highest
    have inside : item ∈ items := perm.symm.subset member
    rcases pick_spec rank items with ⟨-, low⟩ | ⟨other, found, first⟩
    · exact absurd (low item inside) (Nat.ne_of_gt picked.positive)
    · obtain ⟨member', highest'⟩ := first.highest
      rw [some_, found, apart other member' item inside first.positive]
      exact Nat.le_antisymm (highest other (perm.subset member')) (highest' item inside)

end ZeroServer.Lib

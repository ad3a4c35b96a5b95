/-
This file gives binary search over a list its meaning: with the items ordered towards the key, the
search finds the item that is equal to it, or the place where one would stand. On top of it stand
association lists kept in the order of their keys, with lookup, insertion and replacement.
-/

import Mathlib.Data.List.Basic
import Mathlib.Data.List.InsertIdx
import Mathlib.Order.Defs.LinearOrder

namespace ZeroServer.Lib

/-! ### The search -/

variable {place : Nat}

section Search

variable {Item : Type} (order : Item → Ordering) (items : List Item)

/-- Search between two places: the place of an item that answers equal, or else the place where
it would stand. The first argument bounds the halvings. -/
def searchBetween : Nat → Nat → Nat → Except Nat Nat
  | 0, low, _ => .error low
  | steps + 1, low, high =>
    if low < high then
      let middle := low + (high - low) / 2
      match items[middle]?.map order with
      | some .lt => searchBetween steps (middle + 1) high
      | some .gt => searchBetween steps low middle
      | some .eq => .ok middle
      | none => .error low
    else .error low

/-- Binary search with a comparison of an item to the key. -/
def binarySearchBy : Except Nat Nat := searchBetween order items items.length 0 items.length

variable {order items}

/-- Items below the key stand in front of it, items above it behind, and at most one is equal. -/
def Ranked (order : Item → Ordering) (items : List Item) : Prop :=
  items.Pairwise fun earlier later => order earlier ≠ .lt → order later = .gt

theorem Ranked.before (ranked : Ranked order items) {place : Nat} {item : Item}
    (found : items[place]? = some item) (below : order item ≠ .gt) :
    ∀ other ∈ items.take place, order other = .lt := by
  intro other member
  obtain ⟨inside, rfl⟩ := List.getElem?_eq_some_iff.mp found
  obtain ⟨index, early, rfl⟩ := List.mem_take_iff_getElem.mp member
  by_contra above
  exact below ((List.pairwise_iff_getElem.mp ranked) index place (by omega) inside (by omega) above)

theorem Ranked.after (ranked : Ranked order items) {item : Item} (found : items[place]? = some item)
    (above : order item ≠ .lt) : ∀ other ∈ items.drop (place + 1), order other = .gt := by
  intro other member
  obtain ⟨inside, rfl⟩ := List.getElem?_eq_some_iff.mp found
  obtain ⟨index, late, rfl⟩ := List.mem_drop_iff_getElem.mp member
  exact (List.pairwise_iff_getElem.mp ranked) place (place + 1 + index) inside (by omega)
    (by omega) above

/-- What a search answers about the items. -/
def Answers (order : Item → Ordering) (items : List Item) : Except Nat Nat → Prop
  | .ok place => ∃ item, items[place]? = some item ∧ order item = .eq
  | .error place => place ≤ items.length ∧ (∀ item ∈ items.take place, order item = .lt) ∧
      ∀ item ∈ items.drop place, order item = .gt

theorem searchBetween_answers (ranked : Ranked order items) (steps low high : Nat)
    (enough : high - low ≤ steps) (ordered : low ≤ high) (inside : high ≤ items.length)
    (front : ∀ item ∈ items.take low, order item = .lt)
    (back : ∀ item ∈ items.drop high, order item = .gt) :
    Answers order items (searchBetween order items steps low high) := by
  induction steps generalizing low high with
  | zero =>
    have same : low = high := by omega
    subst same
    exact ⟨inside, front, back⟩
  | succ steps inductionHypothesis =>
    unfold searchBetween
    by_cases open_ : low < high
    · rw [if_pos open_]
      dsimp only
      have within : low + (high - low) / 2 < items.length := by omega
      have found := List.getElem?_eq_getElem within
      rw [found, Option.map_some]
      rcases answer : order items[low + (high - low) / 2] with _ | _ | _
      · refine inductionHypothesis _ high (by omega) (by omega) inside ?_ back
        intro item member
        rw [List.take_add_one, found] at member
        rcases List.mem_append.mp member with early | here
        · exact ranked.before found (by rw [answer]; decide) item early
        · rw [Option.mem_toList.mp here |> Option.some.inj |>.symm]
          exact answer
      · exact ⟨_, found, answer⟩
      · refine inductionHypothesis low _ (by omega) (by omega) (by omega) front ?_
        intro item member
        rw [List.drop_eq_getElem_cons within] at member
        rcases List.mem_cons.mp member with rfl | late
        · exact answer
        · exact ranked.after found (by rw [answer]; decide) item late
    · rw [if_neg open_]
      have same : low = high := by omega
      subst same
      exact ⟨inside, front, back⟩

theorem binarySearchBy_answers (ranked : Ranked order items) :
    Answers order items (binarySearchBy order items) :=
  searchBetween_answers ranked _ _ _ (Nat.le_of_eq (Nat.sub_zero _)) (Nat.zero_le _) (Nat.le_refl _)
    (fun item member => by rw [List.take_zero] at member; cases member)
    (fun item member => by rw [List.drop_length] at member; cases member)

end Search

/-! ### Keyed lists -/

section Keyed

variable {Key Value : Type} [Ord Key]

/-- Entries in the order of their keys, each key once. -/
def Keyed (entries : List (Key × Value)) : Prop :=
  entries.Pairwise fun earlier later => compare earlier.1 later.1 = .lt

/-- The place of a key, or where it would stand. -/
def position (entries : List (Key × Value)) (key : Key) : Except Nat Nat :=
  binarySearchBy (fun entry => compare entry.1 key) entries

/-- The value a key has. -/
def valueAt (entries : List (Key × Value)) (key : Key) : Option Value :=
  match position entries key with
  | .ok place => entries[place]?.map Prod.snd
  | .error _ => none

variable [Std.TransOrd Key] [Std.LawfulEqOrd Key] {entries : List (Key × Value)} {key : Key}
  {value : Value}

theorem Keyed.ranked (keyed : Keyed entries) (key : Key) :
    Ranked (fun entry : Key × Value => compare entry.1 key) entries := by
  refine keyed.imp fun {earlier later} below reached => ?_
  rw [Std.OrientedCmp.gt_iff_lt]
  rcases order : compare earlier.1 key with _ | _ | _
  · exact absurd order reached
  · rw [← Std.LawfulEqOrd.compare_eq_iff_eq.mp order]
    exact below
  · exact Std.TransCmp.lt_trans (Std.OrientedCmp.gt_iff_lt.mp order) below

omit [Std.TransOrd Key] in
theorem Keyed.unique (keyed : Keyed entries) {first second : Value}
    (left : (key, first) ∈ entries) (right : (key, second) ∈ entries) : first = second := by
  obtain ⟨i, insideLeft, atLeft⟩ := List.mem_iff_getElem.mp left
  obtain ⟨j, insideRight, atRight⟩ := List.mem_iff_getElem.mp right
  have apart : ∀ {i j : Nat} (insideLeft : i < entries.length) (insideRight : j < entries.length),
      i < j → entries[i].1 ≠ entries[j].1 := by
    intro i j insideLeft insideRight early same
    have below := (List.pairwise_iff_getElem.mp keyed) i j insideLeft insideRight early
    rw [same] at below
    have equal : compare entries[j].1 entries[j].1 = .eq := Std.ReflCmp.compare_self
    cases equal.symm.trans below
  rcases Nat.lt_trichotomy i j with early | rfl | late
  · exact absurd (by rw [atLeft, atRight]) (apart insideLeft insideRight early)
  · exact congrArg Prod.snd (atLeft.symm.trans atRight)
  · exact absurd (by rw [atLeft, atRight]) (apart insideRight insideLeft late)

/-- On a keyed list the search finds exactly the entries. -/
theorem valueAt_eq_some (keyed : Keyed entries) :
    valueAt entries key = some value ↔ (key, value) ∈ entries := by
  have answers := binarySearchBy_answers (keyed.ranked key)
  unfold valueAt position
  revert answers
  rcases binarySearchBy (fun entry : Key × Value => compare entry.1 key) entries with place | place
  all_goals intro answers
  · obtain ⟨-, front, back⟩ := answers
    refine ⟨nofun, fun member => ?_⟩
    rw [← List.take_append_drop place entries] at member
    have equal : compare key key = .eq := Std.ReflCmp.compare_self
    rcases List.mem_append.mp member with early | late
    · cases equal.symm.trans (front _ early)
    · cases equal.symm.trans (back _ late)
  · obtain ⟨entry, found, equal⟩ := answers
    dsimp only
    rw [found, Option.map_some, Option.some.injEq]
    have known : (key, entry.2) ∈ entries := by
      rw [← Std.LawfulEqOrd.compare_eq_iff_eq.mp equal]
      exact List.mem_of_getElem? found
    exact ⟨fun same => same ▸ known, keyed.unique known⟩

theorem valueAt_of_mem_iff {other : List (Key × Value)} (keyed : Keyed entries)
    (keyedOther : Keyed other) (same : ∀ value, (key, value) ∈ other ↔ (key, value) ∈ entries) :
    valueAt other key = valueAt entries key := by
  refine Option.ext fun value => ?_
  rw [valueAt_eq_some keyed, valueAt_eq_some keyedOther]
  exact same value

theorem insertIdx_eq_append {Item : Type} (items : List Item) (item : Item)
    (inside : place ≤ items.length) :
    items.insertIdx place item = items.take place ++ item :: items.drop place := by
  induction items generalizing place with
  | nil =>
    cases Nat.le_zero.mp inside
    rfl
  | cons first rest inductionHypothesis =>
    cases place with
    | zero => rfl
    | succ place =>
      rw [List.insertIdx_succ_cons, List.take_succ_cons, List.drop_succ_cons, List.cons_append,
        inductionHypothesis (Nat.le_of_succ_le_succ inside)]

/-- Inserting a key where the search says keeps the order. -/
theorem Keyed.insert [DecidableEq Key] (keyed : Keyed entries)
    (missing : position entries key = .error place) (value : Value) :
    Keyed (entries.insertIdx place (key, value)) ∧
      ∀ other, valueAt (entries.insertIdx place (key, value)) other =
        if other = key then some value else valueAt entries other := by
  have answers := binarySearchBy_answers (keyed.ranked key)
  unfold position at missing
  rw [missing] at answers
  obtain ⟨inside, front, back⟩ := answers
  have inserted : Keyed (entries.insertIdx place (key, value)) := by
    unfold Keyed at keyed ⊢
    rw [← List.take_append_drop place entries, List.pairwise_append] at keyed
    obtain ⟨early, late, across⟩ := keyed
    rw [insertIdx_eq_append _ _ inside, List.pairwise_append, List.pairwise_cons]
    refine ⟨early, ⟨fun entry member => Std.OrientedCmp.gt_iff_lt.mp (back entry member), late⟩,
      fun entry member other memberOther => ?_⟩
    rcases List.mem_cons.mp memberOther with rfl | behind
    · exact front entry member
    · exact across entry member other behind
  refine ⟨inserted, fun other => ?_⟩
  split
  · rename_i same
    subst same
    exact (valueAt_eq_some inserted).mpr ((List.mem_insertIdx inside).mpr (.inl rfl))
  · rename_i apart
    refine valueAt_of_mem_iff keyed inserted fun found => ?_
    rw [List.mem_insertIdx inside]
    refine ⟨fun member => member.resolve_left fun same => apart (congrArg Prod.fst same), .inr⟩

/-- Replacing the value of a key the search found keeps the order. -/
theorem Keyed.replace [DecidableEq Key] (keyed : Keyed entries) {entry : Key × Value}
    (known : position entries key = .ok place) (found : entries[place]? = some entry)
    (value : Value) : entry.1 = key ∧ Keyed (entries.set place (key, value)) ∧
      ∀ other, valueAt (entries.set place (key, value)) other =
        if other = key then some value else valueAt entries other := by
  have answers := binarySearchBy_answers (keyed.ranked key)
  unfold position at known
  rw [known] at answers
  obtain ⟨reached, here, equal⟩ := answers
  rw [found] at here
  cases here
  have same := Std.LawfulEqOrd.compare_eq_iff_eq.mp equal
  obtain ⟨inside, rfl⟩ := List.getElem?_eq_some_iff.mp found
  have replaced : Keyed (entries.set place (key, value)) := by
    have keys : (entries.set place (key, value)).map Prod.fst = entries.map Prod.fst := by
      rw [List.map_set]
      refine List.ext_getElem? fun index => ?_
      rw [List.getElem?_set]
      split
      · rename_i here
        subst here
        rw [if_pos (by rw [List.length_map]; exact inside), List.getElem?_map, found,
          Option.map_some, same]
      · rfl
    unfold Keyed at keyed ⊢
    rw [← List.pairwise_map (f := Prod.fst) (R := fun left right => compare left right = .lt),
      keys, List.pairwise_map]
    exact keyed
  refine ⟨same, replaced, fun other => ?_⟩
  split
  · rename_i equal
    subst equal
    exact (valueAt_eq_some replaced).mpr (List.mem_set inside _)
  · rename_i apart
    refine valueAt_of_mem_iff keyed replaced fun kept => ?_
    constructor
    · intro member
      rcases List.mem_or_eq_of_mem_set member with old | new
      · exact old
      · exact absurd (congrArg Prod.fst new) apart
    · intro member
      obtain ⟨index, at_⟩ := List.mem_iff_getElem?.mp member
      refine List.mem_iff_getElem?.mpr ⟨index, ?_⟩
      rw [List.getElem?_set_ne, at_]
      rintro rfl
      have here := Option.some.inj (found.symm.trans at_)
      exact apart ((congrArg Prod.fst here).symm.trans same)

end Keyed

end ZeroServer.Lib

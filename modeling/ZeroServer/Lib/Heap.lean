/-
This file develops binary heaps in a list: an item moves toward the root while it ranks below its
parent, and toward the leaves while a child ranks below it. Where all other pairs of a parent and a
child are in order, moving one item puts the heap in order, also when the item was put into the
middle.
-/

import Mathlib.Data.List.Basic
import Mathlib.Logic.Equiv.Basic
import Mathlib.Order.Lattice

namespace ZeroServer.Lib

namespace Heap

def parent (place : Nat) : Nat := (place - 1) / 2

variable {Item Rank : Type}

/-- Two items change places. -/
def exchange (heap : List Item) (one two : Nat) : List Item :=
  match heap[one]?, heap[two]? with
  | some first, some second => (heap.set one second).set two first
  | _, _ => heap

section Exchange

variable {heap : List Item} {one two : Nat}

theorem exchange_eq (inside : one < heap.length) (inside' : two < heap.length) :
    exchange heap one two = (heap.set one heap[two]).set two heap[one] := by
  unfold exchange
  rw [List.getElem?_eq_getElem inside, List.getElem?_eq_getElem inside']

@[simp] theorem length_exchange (heap : List Item) (one two : Nat) :
    (exchange heap one two).length = heap.length := by
  unfold exchange
  split
  · rw [List.length_set, List.length_set]
  · rfl

theorem exchange_perm (heap : List Item) (one two : Nat) : (exchange heap one two).Perm heap := by
  by_cases inside : one < heap.length ∧ two < heap.length
  · rw [exchange_eq inside.1 inside.2]
    exact List.set_set_perm inside.1 inside.2
  · unfold exchange
    split
    · next first second =>
      exact absurd ⟨(List.getElem?_eq_some_iff.mp first).1,
        (List.getElem?_eq_some_iff.mp second).1⟩ inside
    · exact List.Perm.refl _

/-- What stands at a place behind an exchange. -/
theorem getElem?_exchange (inside : one < heap.length) (inside' : two < heap.length)
    (place : Nat) : (exchange heap one two)[place]? = heap[Equiv.swap one two place]? := by
  rw [exchange_eq inside inside', Equiv.swap_apply_def]
  by_cases second : two = place
  · subst second
    rw [List.getElem?_set_self (by rw [List.length_set]; exact inside')]
    by_cases same : two = one
    · subst same
      rw [if_pos rfl, List.getElem?_eq_getElem inside]
    · rw [if_neg same, if_pos rfl, List.getElem?_eq_getElem inside]
  · rw [List.getElem?_set_ne second]
    by_cases first : one = place
    · subst first
      rw [List.getElem?_set_self inside, if_pos rfl, List.getElem?_eq_getElem inside']
    · rw [List.getElem?_set_ne first, if_neg (Ne.symm first), if_neg (Ne.symm second)]

end Exchange

variable [LinearOrder Rank] (rank : Item → Rank)

/-- Move the item at a place toward the root while it ranks below its parent. -/
def siftUp (heap : List Item) (place : Nat) : List Item :=
  if 0 < place then
    match heap[place]?, heap[parent place]? with
    | some item, some above =>
      if rank above ≤ rank item then heap
      else siftUp (exchange heap place (parent place)) (parent place)
    | _, _ => heap
  else heap
termination_by place
decreasing_by
  unfold parent
  omega

/-- The place of the lowest of an item and its children. -/
def lowest (heap : List Item) (place : Nat) : Nat :=
  [2 * place + 1, 2 * place + 2].foldl (fun low child =>
    match heap[child]?, heap[low]? with
    | some candidate, some current => if rank candidate < rank current then child else low
    | _, _ => low) place

variable {heap : List Item} {place : Nat}

/-- A place ranks at most as high as another, where both hold an item. -/
def InOrder (heap : List Item) (above below : Nat) : Prop :=
  ∀ high, heap[above]? = some high → ∀ low, heap[below]? = some low → rank high ≤ rank low

variable {rank}

theorem InOrder.refl (heap : List Item) (place : Nat) : InOrder rank heap place place :=
  fun _ high _ low => by rw [Option.some.inj (high.symm.trans low)]

theorem InOrder.trans {above middle below : Nat} (inside : middle < heap.length)
    (first : InOrder rank heap above middle) (second : InOrder rank heap middle below) :
    InOrder rank heap above below := fun high here low there =>
  le_trans (first high here _ (List.getElem?_eq_getElem inside))
    (second _ (List.getElem?_eq_getElem inside) low there)

theorem inOrder_exchange {one two above below : Nat} (inside : one < heap.length)
    (inside' : two < heap.length) :
    InOrder rank (exchange heap one two) above below ↔
      InOrder rank heap (Equiv.swap one two above) (Equiv.swap one two below) := by
  unfold InOrder
  rw [getElem?_exchange inside inside', getElem?_exchange inside inside']

/-- One turn of the search for the lowest. -/
theorem lowest_turn (low child : Nat) (here : low < heap.length) :
    ∃ next, (match heap[child]?, heap[low]? with
        | some candidate, some current => if rank candidate < rank current then child else low
        | _, _ => low) = next ∧ next < heap.length ∧ (next = low ∨ next = child) ∧
      InOrder rank heap next low ∧ InOrder rank heap next child := by
  rw [List.getElem?_eq_getElem here]
  rcases found : heap[child]? with - | candidate
  · refine ⟨low, rfl, here, .inl rfl, InOrder.refl heap low, ?_⟩
    intro high _ other there
    cases found.symm.trans there
  · have inside := (List.getElem?_eq_some_iff.mp found).1
    dsimp only
    split
    · next below =>
      refine ⟨child, rfl, inside, .inr rfl, ?_, InOrder.refl heap child⟩
      intro high here' other there
      cases found.symm.trans here'
      cases (List.getElem?_eq_getElem here).symm.trans there
      exact le_of_lt below
    · next above =>
      refine ⟨low, rfl, here, .inl rfl, InOrder.refl heap low, ?_⟩
      intro high here' other there
      cases found.symm.trans there
      cases (List.getElem?_eq_getElem here).symm.trans here'
      exact not_lt.mp above

/-- The lowest is the item or a child, and ranks below none of them. -/
theorem lowest_spec (inside : place < heap.length) :
    lowest rank heap place < heap.length ∧
      (lowest rank heap place = place ∨ lowest rank heap place = 2 * place + 1 ∨
        lowest rank heap place = 2 * place + 2) ∧
      InOrder rank heap (lowest rank heap place) place ∧
      InOrder rank heap (lowest rank heap place) (2 * place + 1) ∧
      InOrder rank heap (lowest rank heap place) (2 * place + 2) := by
  obtain ⟨first, same, within, which, low, left⟩ :=
    @lowest_turn _ _ _ rank _ place (2 * place + 1) inside
  obtain ⟨second, same', within', which', low', right⟩ :=
    @lowest_turn _ _ _ rank _ first (2 * place + 2) within
  have whole : lowest rank heap place = second := by
    unfold lowest
    rw [List.foldl_cons, same, List.foldl_cons, same', List.foldl_nil]
  rw [whole]
  refine ⟨within', ?_, low'.trans within low, low'.trans within left, right⟩
  rcases which' with rfl | rfl
  · exact which.imp_right .inl
  · exact .inr (.inr rfl)

theorem lowest_outside (outside : heap.length ≤ place) : lowest rank heap place = place := by
  have none_ : heap[place]? = none := List.getElem?_eq_none outside
  unfold lowest
  rw [List.foldl_cons, none_]
  have first : (match heap[2 * place + 1]?, (none : Option Item) with
      | some candidate, some current =>
        if rank candidate < rank current then 2 * place + 1 else place
      | _, _ => place) = place := by split <;> first | rfl | contradiction
  rw [first, List.foldl_cons, none_, List.foldl_nil]
  split <;> first | rfl | contradiction

theorem lowest_moves (moves : lowest rank heap place ≠ place) :
    place < heap.length ∧ place < lowest rank heap place ∧
      lowest rank heap place < heap.length ∧ parent (lowest rank heap place) = place := by
  rcases Nat.lt_or_ge place heap.length with inside | outside
  · obtain ⟨within, which, -⟩ := @lowest_spec _ _ _ rank _ _ inside
    refine ⟨inside, ?_, within, ?_⟩
    · omega
    · unfold parent
      omega
  · exact absurd (lowest_outside outside) moves

variable (rank) in
/-- Move the item at a place toward the leaves while a child ranks below it. -/
def siftDown (heap : List Item) (place : Nat) : List Item :=
  if _stays : lowest rank heap place = place then heap
  else siftDown (exchange heap place (lowest rank heap place)) (lowest rank heap place)
termination_by heap.length - place
decreasing_by
  have := lowest_moves _stays
  rw [length_exchange]
  omega

/-! ### Nothing is lost -/

theorem siftUp_perm (heap : List Item) (place : Nat) : (siftUp rank heap place).Perm heap := by
  induction place using Nat.strongRecOn generalizing heap with
  | ind place inductionHypothesis =>
    rw [siftUp]
    split
    · next more =>
      split
      · split
        · exact List.Perm.refl _
        · exact (inductionHypothesis (parent place) (by unfold parent; omega) _).trans
            (exchange_perm _ _ _)
      · exact List.Perm.refl _
    · exact List.Perm.refl _

theorem siftDown_perm (heap : List Item) (place : Nat) : (siftDown rank heap place).Perm heap := by
  fun_induction siftDown rank heap place with
  | case1 => exact List.Perm.refl _
  | case2 heap place moves inductionHypothesis =>
    exact inductionHypothesis.trans (exchange_perm _ _ _)

@[simp] theorem length_siftUp (heap : List Item) (place : Nat) :
    (siftUp rank heap place).length = heap.length := (siftUp_perm heap place).length_eq

@[simp] theorem length_siftDown (heap : List Item) (place : Nat) :
    (siftDown rank heap place).length = heap.length := (siftDown_perm heap place).length_eq

/-! ### Order -/

variable (rank) in
/-- No child ranks below its parent. -/
def Ordered (heap : List Item) : Prop :=
  ∀ child, 0 < child → InOrder rank heap (parent child) child

variable (rank) in
/-- In order where a place has no part, and the children of the place are in order with what is
above it. -/
structure Around (heap : List Item) (hole : Nat) : Prop where
  others : ∀ child, 0 < child → child ≠ hole → parent child ≠ hole →
    InOrder rank heap (parent child) child
  grand : ∀ child, 0 < child → parent child = hole → 0 < hole →
    InOrder rank heap (parent hole) child

variable (rank) in
/-- In order, but for a place with its parent. -/
structure Rising (heap : List Item) (hole : Nat) : Prop where
  others : ∀ child, 0 < child → child ≠ hole → InOrder rank heap (parent child) child
  grand : ∀ child, 0 < child → parent child = hole → 0 < hole →
    InOrder rank heap (parent hole) child

variable (rank) in
/-- In order, but for a place with its children. -/
structure Sinking (heap : List Item) (hole : Nat) : Prop where
  others : ∀ child, 0 < child → parent child ≠ hole → InOrder rank heap (parent child) child
  grand : ∀ child, 0 < child → parent child = hole → 0 < hole →
    InOrder rank heap (parent hole) child

variable {hole : Nat}

theorem Rising.around (rising : Rising rank heap hole) : Around rank heap hole :=
  ⟨fun child positive apart _ => rising.others child positive apart, rising.grand⟩

theorem parent_lt (positive : 0 < place) : parent place < place := by
  unfold parent
  omega

/-- An item that ranks below its parent takes its place. -/
theorem Around.rise (around : Around rank heap hole) (positive : 0 < hole)
    (inside : hole < heap.length) {item above : Item} (here : heap[hole]? = some item)
    (there : heap[parent hole]? = some above) (below : rank item < rank above) :
    Rising rank (exchange heap hole (parent hole)) (parent hole) := by
  have lower := parent_lt positive
  have inside' : parent hole < heap.length := Nat.lt_trans lower inside
  have under : InOrder rank heap hole (parent hole) := by
    intro high first low second
    cases here.symm.trans first
    cases there.symm.trans second
    exact le_of_lt below
  have fixed : ∀ {place : Nat}, place ≠ hole → place ≠ parent hole →
      Equiv.swap hole (parent hole) place = place := fun one two =>
    Equiv.swap_apply_of_ne_of_ne one two
  constructor
  · intro child some_ apart
    rw [inOrder_exchange inside inside']
    rcases eq_or_ne child hole with rfl | other
    · rw [Equiv.swap_apply_right, Equiv.swap_apply_left]
      exact under
    · rw [fixed other apart]
      rcases eq_or_ne (parent child) hole with isHole | notHole
      · rw [isHole, Equiv.swap_apply_left]
        exact around.grand child some_ isHole positive
      · rcases eq_or_ne (parent child) (parent hole) with sibling | stranger
        · rw [sibling, Equiv.swap_apply_right]
          refine under.trans inside' ?_
          rw [← sibling]
          exact around.others child some_ other notHole
        · rw [fixed notHole stranger]
          exact around.others child some_ other notHole
  · intro child some_ isChild positive'
    have grand := parent_lt positive'
    have upper : InOrder rank heap (parent (parent hole)) (parent hole) :=
      around.others _ positive' (Nat.ne_of_lt lower) (by omega)
    rw [inOrder_exchange inside inside', fixed (by omega) (by omega)]
    rcases eq_or_ne child hole with rfl | other
    · rw [Equiv.swap_apply_left]
      exact upper
    · have notParent : child ≠ parent hole := by
        rintro rfl
        exact absurd isChild (Nat.ne_of_lt grand)
      rw [fixed other notParent]
      refine upper.trans inside' ?_
      rw [← isChild]
      exact around.others child some_ other (by omega)

/-- Moving an item toward the root puts the heap in order. -/
theorem Rising.siftUp (rising : Rising rank heap hole) (inside : hole < heap.length) :
    Ordered rank (siftUp rank heap hole) := by
  induction hole using Nat.strongRecOn generalizing heap with
  | ind hole inductionHypothesis =>
    rw [Heap.siftUp]
    rcases Nat.eq_zero_or_pos hole with rfl | positive
    · rw [if_neg (Nat.lt_irrefl 0)]
      exact fun child some_ => rising.others child some_ (Nat.ne_of_gt some_)
    · have lower := parent_lt positive
      have here := List.getElem?_eq_getElem inside
      have there := List.getElem?_eq_getElem (Nat.lt_trans lower inside)
      rw [if_pos positive, here, there]
      dsimp only
      split
      · next above =>
        intro child some_
        rcases eq_or_ne child hole with rfl | other
        · intro high first low second
          cases there.symm.trans first
          cases here.symm.trans second
          exact above
        · exact rising.others child some_ other
      · next below =>
        refine inductionHypothesis _ lower
          (rising.around.rise positive inside here there (not_le.mp below)) ?_
        rw [length_exchange]
        exact Nat.lt_trans lower inside

/-- The lowest child takes the place of its parent. -/
theorem Sinking.sink (sinking : Sinking rank heap hole) (moves : lowest rank heap hole ≠ hole) :
    Sinking rank (exchange heap hole (lowest rank heap hole)) (lowest rank heap hole) := by
  obtain ⟨inside, later, inside', isChild⟩ := lowest_moves moves
  obtain ⟨-, -, own, left, right⟩ := @lowest_spec _ _ _ rank _ _ inside
  have children : ∀ child, 0 < child → parent child = hole →
      InOrder rank heap (lowest rank heap hole) child := by
    intro child positive isParent
    have which : child = 2 * hole + 1 ∨ child = 2 * hole + 2 := by
      unfold parent at isParent
      omega
    rcases which with rfl | rfl
    · exact left
    · exact right
  generalize lowest rank heap hole = low at *
  have fixed : ∀ {place : Nat}, place ≠ hole → place ≠ low → Equiv.swap hole low place = place :=
    fun one two => Equiv.swap_apply_of_ne_of_ne one two
  constructor
  · intro child positive apart
    rw [inOrder_exchange inside inside']
    rcases eq_or_ne child hole with rfl | other
    · have lower := parent_lt positive
      rw [Equiv.swap_apply_left, fixed (Nat.ne_of_lt lower) apart]
      exact sinking.grand low (by omega) isChild positive
    · rcases eq_or_ne child low with rfl | other'
      · rw [isChild, Equiv.swap_apply_left, Equiv.swap_apply_right]
        exact own
      · rw [fixed other other']
        rcases eq_or_ne (parent child) hole with isHole | notHole
        · rw [isHole, Equiv.swap_apply_left]
          exact children child positive isHole
        · rw [fixed notHole apart]
          exact sinking.others child positive notHole
  · intro child positive isGrand some_
    have lower := parent_lt positive
    rw [inOrder_exchange inside inside', isChild, Equiv.swap_apply_left,
      fixed (by omega) (by omega), ← isGrand]
    exact sinking.others child positive (by omega)

/-- Moving an item toward the leaves puts the heap in order. -/
theorem Sinking.siftDown (sinking : Sinking rank heap hole) (inside : hole < heap.length) :
    Ordered rank (siftDown rank heap hole) := by
  fun_induction Heap.siftDown rank heap hole with
  | case1 heap hole stays =>
    obtain ⟨-, -, -, left, right⟩ := @lowest_spec _ _ _ rank _ _ inside
    rw [stays] at left right
    intro child positive
    rcases eq_or_ne (parent child) hole with isHole | notHole
    · have which : child = 2 * hole + 1 ∨ child = 2 * hole + 2 := by
        unfold parent at isHole
        omega
      rw [isHole]
      rcases which with rfl | rfl
      · exact left
      · exact right
    · exact sinking.others child positive notHole
  | case2 heap hole moves inductionHypothesis =>
    refine inductionHypothesis (sinking.sink moves) ?_
    rw [length_exchange]
    exact (lowest_moves moves).2.2.1

theorem Ordered.sinking (ordered : Ordered rank heap) (inside : place < heap.length) :
    Sinking rank heap place := by
  refine ⟨fun child positive _ => ordered child positive, fun child positive isChild some_ => ?_⟩
  refine (ordered place some_).trans inside ?_
  rw [← isChild]
  exact ordered child positive

/-- Whichever way the item at a place has to move, the heap is in order behind both. -/
theorem Around.settle (around : Around rank heap hole) (inside : hole < heap.length) :
    Ordered rank (siftDown rank (siftUp rank heap hole) hole) := by
  have inside' : hole < (siftUp rank heap hole).length := by rwa [length_siftUp]
  rcases Nat.eq_zero_or_pos hole with rfl | positive
  · have stays : siftUp rank heap 0 = heap := by rw [siftUp, if_neg (Nat.lt_irrefl 0)]
    rw [stays]
    exact Sinking.siftDown ⟨fun child some_ apart =>
      around.others child some_ (Nat.ne_of_gt some_) apart, around.grand⟩ inside
  · have lower := parent_lt positive
    have here := List.getElem?_eq_getElem inside
    have there := List.getElem?_eq_getElem (Nat.lt_trans lower inside)
    by_cases above : rank heap[parent hole] ≤ rank heap[hole]
    · have stays : siftUp rank heap hole = heap := by
        rw [siftUp, if_pos positive, here, there]
        exact if_pos above
      rw [stays]
      refine Sinking.siftDown ⟨fun child some_ apart => ?_, around.grand⟩ inside
      rcases eq_or_ne child hole with rfl | other
      · intro high first low second
        cases there.symm.trans first
        cases here.symm.trans second
        exact above
      · exact around.others child some_ other apart
    · have moves : siftUp rank heap hole =
          siftUp rank (exchange heap hole (parent hole)) (parent hole) := by
        rw [siftUp, if_pos positive, here, there]
        exact if_neg above
      have ordered : Ordered rank (siftUp rank heap hole) := by
        rw [moves]
        refine (around.rise positive inside here there (not_le.mp above)).siftUp ?_
        rw [length_exchange]
        exact Nat.lt_trans lower inside
      exact (ordered.sinking inside').siftDown inside'

/-- The root ranks above nothing. -/
theorem Ordered.root (ordered : Ordered rank heap) (place : Nat) : InOrder rank heap 0 place := by
  induction place using Nat.strongRecOn with
  | ind place inductionHypothesis =>
    rcases Nat.eq_zero_or_pos place with rfl | positive
    · exact InOrder.refl heap 0
    · have lower := parent_lt positive
      rcases Nat.lt_or_ge place heap.length with inside | outside
      · exact (inductionHypothesis _ lower).trans (Nat.lt_trans lower inside)
          (ordered place positive)
      · intro _ _ low there
        cases (List.getElem?_eq_none outside).symm.trans there

/-- A new item stands behind the others. -/
theorem Ordered.push (ordered : Ordered rank heap) (item : Item) :
    Rising rank (heap ++ [item]) heap.length := by
  constructor
  · intro child positive apart high here low there
    have bound := (List.getElem?_eq_some_iff.mp there).1
    rw [List.length_append, List.length_singleton] at bound
    have lower := parent_lt positive
    rw [List.getElem?_append_left (by omega)] at here there
    exact ordered child positive high here low there
  · intro child positive isChild _ _ _ low there
    have bound := (List.getElem?_eq_some_iff.mp there).1
    rw [List.length_append, List.length_singleton] at bound
    have := parent_lt positive
    omega

/-- The heap without the item at a place, which the last one takes. -/
def vacate (heap : List Item) (place : Nat) : List Item :=
  (exchange heap place (heap.length - 1)).dropLast

theorem getElem?_vacate (inside : place < heap.length) (other : Nat) :
    (vacate heap place)[other]? =
      if other < heap.length - 1 then
        if other = place then heap[heap.length - 1]? else heap[other]?
      else none := by
  unfold vacate
  rw [List.getElem?_dropLast, length_exchange]
  split
  · next within =>
    rw [getElem?_exchange inside (by omega), Equiv.swap_apply_def]
    split
    · rfl
    · rw [if_neg (Nat.ne_of_lt within)]
  · rfl

theorem Ordered.vacate (ordered : Ordered rank heap) (inside : place < heap.length) :
    Around rank (vacate heap place) place := by
  have same : ∀ {other : Nat} {item : Item}, other ≠ place →
      (Heap.vacate heap place)[other]? = some item → heap[other]? = some item := by
    intro other item apart here
    rw [getElem?_vacate inside, if_neg apart] at here
    split at here
    · exact here
    · cases here
  constructor
  · intro child positive apart apart' high here low there
    exact ordered child positive high (same apart' here) low (same apart there)
  · intro child positive isChild some_ high here low there
    have lower := parent_lt some_
    have higher := parent_lt positive
    have through : InOrder rank heap (parent place) child := by
      refine (ordered place some_).trans inside ?_
      rw [← isChild]
      exact ordered child positive
    exact through high (same (Nat.ne_of_lt lower) here) low (same (by omega) there)

theorem Ordered.vacate_last (ordered : Ordered rank heap) (last : place = heap.length - 1)
    (inside : place < heap.length) : Ordered rank (Heap.vacate heap place) := by
  have same : ∀ {other : Nat} {item : Item}, (Heap.vacate heap place)[other]? = some item →
      heap[other]? = some item := by
    intro other item here
    rw [getElem?_vacate inside] at here
    split at here
    · next within =>
      rw [if_neg (by omega)] at here
      exact here
    · cases here
  intro child positive high here low there
  exact ordered child positive high (same here) low (same there)

/-- What is left behind and what stood at the place are the heap. -/
theorem vacate_perm (inside : place < heap.length) :
    (heap[place] :: vacate heap place).Perm heap := by
  have some_ : exchange heap place (heap.length - 1) ≠ [] := by
    refine List.ne_nil_of_length_pos ?_
    rw [length_exchange]
    omega
  have last : (exchange heap place (heap.length - 1)).getLast some_ = heap[place] := by
    have here := getElem?_exchange inside (show heap.length - 1 < heap.length by omega)
      (heap.length - 1)
    rw [Equiv.swap_apply_right, List.getElem?_eq_getElem inside] at here
    refine Option.some.inj (Eq.trans ?_ here)
    rw [← List.getLast?_eq_some_getLast some_, List.getLast?_eq_getElem?, length_exchange]
  calc (heap[place] :: vacate heap place).Perm (vacate heap place ++ [heap[place]]) :=
        (List.perm_append_singleton _ _).symm
    _ = exchange heap place (heap.length - 1) := by
        rw [← last]
        exact List.dropLast_append_getLast some_
    List.Perm _ heap := exchange_perm _ _ _

theorem exchange_self (inside : place < heap.length) : exchange heap place place = heap := by
  rw [exchange_eq inside inside, List.set_set, List.set_getElem_self]

/-! ### Other ranks -/

variable {rank' : Item → Rank}

theorem inOrder_congr (same : ∀ item ∈ heap, rank item = rank' item) {above below : Nat} :
    InOrder rank heap above below ↔ InOrder rank' heap above below := by
  refine forall_congr' fun high => forall_congr' fun here => forall_congr' fun low =>
    forall_congr' fun there => ?_
  rw [same high (List.mem_of_getElem? here), same low (List.mem_of_getElem? there)]

theorem Ordered.congr (same : ∀ item ∈ heap, rank item = rank' item) (ordered : Ordered rank heap) :
    Ordered rank' heap := fun child positive => (inOrder_congr same).mp (ordered child positive)

theorem Around.congr (same : ∀ item ∈ heap, rank item = rank' item)
    (around : Around rank heap hole) : Around rank' heap hole :=
  ⟨fun child positive apart apart' =>
    (inOrder_congr same).mp (around.others child positive apart apart'),
    fun child positive isChild some_ =>
      (inOrder_congr same).mp (around.grand child positive isChild some_)⟩

end Heap

end ZeroServer.Lib

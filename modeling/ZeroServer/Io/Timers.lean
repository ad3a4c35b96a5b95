/-
This file models the clock of a core: the deadlines in a binary heap of slots whose entries know
their position, and the keys that sleeps hold. Each call keeps the heap in order, the positions
exact, and the slots shared out between the heap and the stack of free ones.
-/

import Mathlib.Algebra.Ring.Nat
import Mathlib.Order.Bounds.Basic
import Mathlib.Order.WithBot
import ZeroServer.Lib.Heap
import ZeroServer.Lib.Slots

namespace ZeroServer.Io

open Lib

/-- One registered sleep. The ghost `serial` counts registrations without wrapping. -/
structure Entry where
  deadline : Nat
  waker : Nat
  position : Nat
  sequence : Nat
  serial : Nat

/-- What a sleep holds while it is registered. -/
structure Key where
  slot : Nat
  sequence : Nat

/-- The deadlines of a core. The top of the stack of free slots is its head. The ghost `registered`
counts the registrations. -/
structure Timers where
  slots : List (Option Entry)
  free : List Nat
  heap : List Nat
  nextSequence : Nat
  registered : Nat

def deadlineOf (slots : List (Option Entry)) (slot : Nat) : WithBot Nat :=
  match slots[slot]? with
  | some (some entry) => .some entry.deadline
  | _ => ⊥

def setPosition (slots : List (Option Entry)) (slot position : Nat) : List (Option Entry) :=
  match slots[slot]? with
  | some (some entry) => slots.set slot (some { entry with position })
  | _ => slots

namespace Timers

def new : Timers := ⟨[], [], [], 0, 0⟩

/-- Two slots change their places in the heap. -/
def exchange (timers : Timers) (one two slot other : Nat) : Timers :=
  { timers with
    heap := Heap.exchange timers.heap one two
    slots := setPosition (setPosition timers.slots slot two) other one }

/-- Move the entry at a position toward the root while it is earlier than its parent. -/
def siftUp (timers : Timers) (position : Nat) : Timers :=
  if 0 < position then
    match timers.heap[position]?, timers.heap[Heap.parent position]? with
    | some slot, some above =>
      if deadlineOf timers.slots above ≤ deadlineOf timers.slots slot then timers
      else
        siftUp (timers.exchange position (Heap.parent position) slot above) (Heap.parent position)
    | _, _ => timers
  else timers
termination_by position
decreasing_by exact Heap.parent_lt ‹_›

/-- Move the entry at a position toward the leaves while a child is earlier. -/
def siftDown (timers : Timers) (position : Nat) : Timers :=
  if _stays : Heap.lowest (deadlineOf timers.slots) timers.heap position = position then timers
  else
    match timers.heap[position]?,
      timers.heap[Heap.lowest (deadlineOf timers.slots) timers.heap position]? with
    | some slot, some below =>
      siftDown
        (timers.exchange position (Heap.lowest (deadlineOf timers.slots) timers.heap position)
          slot below)
        (Heap.lowest (deadlineOf timers.slots) timers.heap position)
    | _, _ => timers
termination_by timers.heap.length - position
decreasing_by
  have := Heap.lowest_moves _stays
  show (Heap.exchange _ _ _).length - _ < _
  rw [Heap.length_exchange]
  omega

/-- Register a sleep; the key identifies it from then on. -/
def insert (timers : Timers) (deadline waker : Nat) : Key × Timers :=
  let position := timers.heap.length
  let sequence := timers.nextSequence
  let entry : Entry := ⟨deadline, waker, position, sequence, timers.registered⟩
  let (slot, slots, free) :=
    match timers.free with
    | slot :: free => (slot, timers.slots.set slot (some entry), free)
    | [] => (timers.slots.length, timers.slots ++ [some entry], [])
  (⟨slot, sequence⟩,
    siftUp {
      slots, free
      heap := timers.heap ++ [slot]
      nextSequence := (sequence + 1) % 2 ^ 64
      registered := timers.registered + 1 } position)

/-- The entry a key registered, while it is still in its slot. -/
def entryOf (timers : Timers) (key : Key) : Option Entry :=
  (timers.slots[key.slot]?.join).filter fun entry => entry.sequence == key.sequence

/-- Replace the waker of a registered sleep. -/
def refresh (timers : Timers) (key : Key) (waker : Nat) : Timers :=
  match timers.entryOf key with
  | none => timers
  | some entry =>
    if entry.waker = waker then timers
    else { timers with slots := timers.slots.set key.slot (some { entry with waker }) }

/-- Take the entry in a slot out of the heap and free the slot. -/
def take (timers : Timers) (slot : Nat) : Option (Entry × Timers) :=
  (timers.slots[slot]?.join).map fun entry =>
    let position := entry.position
    let last := timers.heap.length - 1
    let freed := { timers with slots := timers.slots.set slot none, free := slot :: timers.free }
    let swapped :=
      if position ≠ last then
        let heap := Heap.exchange freed.heap position last
        { freed with
          heap
          slots := heap[position]?.elim freed.slots fun moved =>
            setPosition freed.slots moved position }
      else freed
    let popped := { swapped with heap := swapped.heap.dropLast }
    (entry,
      if position < popped.heap.length then (popped.siftUp position).siftDown position else popped)

/-- Take a sleep out; nothing once its entry has fired or been removed. -/
def remove (timers : Timers) (key : Key) : Option Entry × Timers :=
  match timers.entryOf key with
  | none => (none, timers)
  | some _ =>
    match timers.take key.slot with
    | none => (none, timers)
    | some (entry, timers) => (some entry, timers)

/-- How long until the first deadline. -/
def nextTimeout (timers : Timers) (now : Nat) : Option Nat :=
  (timers.heap.head?.bind fun slot => timers.slots[slot]?.join).map fun entry =>
    entry.deadline - now

/-! ### Positions -/

/-- What an entry registers, apart from its place in the heap. -/
structure Registration where
  deadline : Nat
  waker : Nat
  sequence : Nat
  serial : Nat

end Timers

def Entry.registration (entry : Entry) : Timers.Registration :=
  ⟨entry.deadline, entry.waker, entry.sequence, entry.serial⟩

namespace Timers

/-- The registrations by slot. -/
def held (slots : List (Option Entry)) : List (Option Registration) :=
  slots.map (Option.map Entry.registration)

theorem getElem?_setPosition (slots : List (Option Entry)) (slot position other : Nat) :
    (setPosition slots slot position)[other]? =
      if other = slot then slots[other]?.map (Option.map fun entry => { entry with position })
      else slots[other]? := by
  unfold setPosition
  split
  · next entry here =>
    split
    · next same =>
      rw [same, here, List.getElem?_set_self (List.getElem?_eq_some_iff.mp here).1]
      rfl
    · next apart => rw [List.getElem?_set_ne (Ne.symm apart)]
  · next missing =>
    split
    · next same =>
      rw [same]
      rcases here : slots[slot]? with - | - | entry
      · rfl
      · rfl
      · exact absurd here (missing entry)
    · rfl

@[simp] theorem held_setPosition (slots : List (Option Entry)) (slot position : Nat) :
    held (setPosition slots slot position) = held slots := by
  refine List.ext_getElem? fun other => ?_
  unfold held
  rw [List.getElem?_map, List.getElem?_map, getElem?_setPosition]
  split
  · rcases slots[other]? with - | - | entry <;> rfl
  · rfl

theorem deadlineOf_eq (slots : List (Option Entry)) (slot : Nat) :
    deadlineOf slots slot = ((held slots)[slot]?.join.elim ⊥ fun registration =>
      WithBot.some registration.deadline) := by
  unfold deadlineOf held
  rw [List.getElem?_map]
  rcases slots[slot]? with - | - | entry <;> rfl

variable {slots : List (Option Entry)}

variable {others : List (Option Entry)}

theorem deadlineOf_congr (same : held slots = held others) :
    deadlineOf slots = deadlineOf others := by
  funext slot
  rw [deadlineOf_eq, deadlineOf_eq, same]

/-- Each slot of the heap holds an entry that knows its place. -/
def Placed (slots : List (Option Entry)) (heap : List Nat) : Prop :=
  ∀ position slot, heap[position]? = some slot →
    ∃ entry : Entry, slots[slot]? = some (some entry) ∧ entry.position = position

/-- What moving entries in the heap leaves as it is. -/
structure Kept (before after : Timers) : Prop where
  held : held after.slots = held before.slots
  free : after.free = before.free
  nextSequence : after.nextSequence = before.nextSequence
  registered : after.registered = before.registered
  placed : before.heap.Nodup → Placed before.slots before.heap → Placed after.slots after.heap

theorem Kept.refl (timers : Timers) : Kept timers timers := ⟨rfl, rfl, rfl, rfl, fun _ => id⟩

theorem Kept.trans {one two three : Timers} (first : Kept one two) (second : Kept two three)
    (perm : two.heap.Perm one.heap) : Kept one three :=
  ⟨second.held.trans first.held, second.free.trans first.free,
    second.nextSequence.trans first.nextSequence, second.registered.trans first.registered,
    fun nodup placed => second.placed (perm.nodup_iff.mpr nodup) (first.placed nodup placed)⟩

variable {timers : Timers} {position slot other one two : Nat}

theorem kept_exchange (apart : one ≠ two) (here : timers.heap[one]? = some slot)
    (there : timers.heap[two]? = some other) :
    Kept timers (timers.exchange one two slot other) := by
  refine ⟨?_, rfl, rfl, rfl, fun nodup placed => ?_⟩
  · show held (setPosition (setPosition timers.slots slot two) other one) = _
    rw [held_setPosition, held_setPosition]
  · intro place found at_
    have inside := (List.getElem?_eq_some_iff.mp here).1
    have inside' := (List.getElem?_eq_some_iff.mp there).1
    have different : slot ≠ other := by
      rintro rfl
      exact apart ((List.getElem?_inj inside nodup).mp (here.trans there.symm))
    change (Heap.exchange timers.heap one two)[place]? = some found at at_
    rw [Heap.getElem?_exchange inside inside', Equiv.swap_apply_def] at at_
    show ∃ entry : Entry, (setPosition (setPosition timers.slots slot two) other one)[found]? =
      some (some entry) ∧ entry.position = place
    rw [getElem?_setPosition, getElem?_setPosition]
    split at at_
    · next first =>
      cases there.symm.trans at_
      obtain ⟨entry, holds, -⟩ := placed two other there
      rw [if_pos rfl, if_neg (Ne.symm different), holds]
      exact ⟨_, rfl, first.symm⟩
    · split at at_
      · next second =>
        cases here.symm.trans at_
        obtain ⟨entry, holds, -⟩ := placed one slot here
        rw [if_neg different, if_pos rfl, holds]
        exact ⟨_, rfl, second.symm⟩
      · next notOne notTwo =>
        obtain ⟨entry, holds, same⟩ := placed place found at_
        have notOther : found ≠ other := by
          rintro rfl
          exact notTwo ((List.getElem?_inj (List.getElem?_eq_some_iff.mp at_).1 nodup).mp
            (at_.trans there.symm))
        have notSlot : found ≠ slot := by
          rintro rfl
          exact notOne ((List.getElem?_inj (List.getElem?_eq_some_iff.mp at_).1 nodup).mp
            (at_.trans here.symm))
        rw [if_neg notOther, if_neg notSlot]
        exact ⟨entry, holds, same⟩

/-- Moving an entry toward the root moves its slot in the heap and keeps the positions exact. -/
theorem siftUp_spec (timers : Timers) (position : Nat) :
    (timers.siftUp position).heap =
        Heap.siftUp (deadlineOf timers.slots) timers.heap position ∧
      Kept timers (timers.siftUp position) := by
  induction position using Nat.strongRecOn generalizing timers with
  | ind position inductionHypothesis =>
    rw [siftUp, Heap.siftUp]
    rcases Nat.eq_zero_or_pos position with rfl | positive
    · exact ⟨rfl, Kept.refl timers⟩
    · have lower := Heap.parent_lt positive
      rw [if_pos positive, if_pos positive]
      rcases here : timers.heap[position]? with - | slot
      · exact ⟨rfl, Kept.refl timers⟩
      · rcases there : timers.heap[Heap.parent position]? with - | above
        · exact ⟨rfl, Kept.refl timers⟩
        · dsimp only
          split
          · exact ⟨rfl, Kept.refl timers⟩
          · have kept := kept_exchange (Nat.ne_of_gt lower) here there
            obtain ⟨same, later⟩ := inductionHypothesis _ lower
              (timers.exchange position (Heap.parent position) slot above)
            rw [deadlineOf_congr kept.held] at same
            exact ⟨same, kept.trans later (Heap.exchange_perm _ _ _)⟩

/-- Moving an entry toward the leaves moves its slot in the heap and keeps the positions exact. -/
theorem siftDown_spec (timers : Timers) (position : Nat) :
    (timers.siftDown position).heap =
        Heap.siftDown (deadlineOf timers.slots) timers.heap position ∧
      Kept timers (timers.siftDown position) := by
  fun_induction siftDown timers position with
  | case1 timers position stays =>
    rw [Heap.siftDown, dif_pos stays]
    exact ⟨rfl, Kept.refl timers⟩
  | case2 timers position moves slot below there here inductionHypothesis =>
    have later := (Heap.lowest_moves moves).2.1
    have kept := kept_exchange (Nat.ne_of_lt later) here there
    obtain ⟨same, after⟩ := inductionHypothesis
    rw [deadlineOf_congr kept.held] at same
    rw [Heap.siftDown, dif_neg moves]
    exact ⟨same, kept.trans after (Heap.exchange_perm _ _ _)⟩
  | case3 timers position moves missing =>
    obtain ⟨inside, -, inside', -⟩ := Heap.lowest_moves moves
    exact (missing _ _ (List.getElem?_eq_getElem inside) (List.getElem?_eq_getElem inside')).elim

/-! ### The invariant -/

variable {entry : Entry} {registration : Registration}

/-- What holds of the clock apart from the order of the heap. -/
structure Tidy (timers : Timers) : Prop where
  placed : Placed timers.slots timers.heap
  shared : SlotsShared timers.heap timers.free (held timers.slots)
  next : timers.nextSequence = timers.registered % 2 ^ 64
  numbered : ∀ (slot : Nat) (registration : Registration),
    (held timers.slots)[slot]? = some (some registration) →
    registration.sequence = registration.serial % 2 ^ 64 ∧
      registration.serial < timers.registered
  apart : ∀ (one two : Nat) (first second : Registration),
    (held timers.slots)[one]? = some (some first) →
    (held timers.slots)[two]? = some (some second) → first.serial = second.serial → one = two

/-- What holds of the clock between calls. -/
structure Sound (timers : Timers) : Prop extends Tidy timers where
  ordered : Heap.Ordered (deadlineOf timers.slots) timers.heap

theorem Tidy.nodup (tidy : Tidy timers) : timers.heap.Nodup :=
  (List.nodup_append.mp tidy.shared.nodup).1

theorem Tidy.kept {before after : Timers} (tidy : Tidy before) (kept : Kept before after)
    (perm : after.heap.Perm before.heap) : Tidy after := by
  refine ⟨kept.placed tidy.nodup tidy.placed, ?_, ?_, ?_, ?_⟩
  · rw [kept.free, kept.held]
    exact tidy.shared.perm_owned perm
  · rw [kept.nextSequence, kept.registered]
    exact tidy.next
  · rw [kept.held, kept.registered]
    exact tidy.numbered
  · rw [kept.held]
    exact tidy.apart

theorem getElem?_held {slot : Nat} (here : slots[slot]? = some (some entry)) :
    (held slots)[slot]? = some (some entry.registration) := by
  rw [held, List.getElem?_map, here]
  rfl

theorem of_getElem?_held {slot : Nat} (here : (held slots)[slot]? = some (some registration)) :
    ∃ entry : Entry, slots[slot]? = some (some entry) ∧ entry.registration = registration := by
  rw [held, List.getElem?_map] at here
  rcases found : slots[slot]? with - | - | entry
  · rw [found] at here
    cases here
  · rw [found] at here
    cases here
  · rw [found] at here
    cases here
    exact ⟨entry, rfl, rfl⟩

/-- An occupied slot stands in the heap where its entry says. -/
theorem Tidy.at_position (tidy : Tidy timers) (here : timers.slots[slot]? = some (some entry)) :
    timers.heap[entry.position]? = some slot := by
  have member := tidy.shared.mem_owned (getElem?_held here)
  obtain ⟨place, found⟩ := List.mem_iff_getElem?.mp member
  obtain ⟨other, holds, same⟩ := tidy.placed place slot found
  cases here.symm.trans holds
  rw [same]
  exact found

/-! ### Registering -/

theorem deadlineOf_of_getElem? {slot : Nat} (same : slots[slot]? = others[slot]?) :
    deadlineOf slots slot = deadlineOf others slot := by
  unfold deadlineOf
  rw [same]

/-- A registration in a slot that none of the others is in. -/
theorem sound_registered {free : List Nat} (sound : Sound timers) (fresh : slot ∉ timers.heap)
    (position_ : entry.position = timers.heap.length)
    (sequence_ : entry.sequence = timers.nextSequence) (serial_ : entry.serial = timers.registered)
    (others : ∀ place, place ≠ slot → slots[place]? = timers.slots[place]? ∨
      slots[place]? = none) (members : ∀ place ∈ timers.heap, slots[place]? = timers.slots[place]?)
    (here : slots[slot]? = some (some entry))
    (shared : SlotsShared (timers.heap ++ [slot]) free (held slots)) :
    Sound (siftUp {
      slots, free
      heap := timers.heap ++ [slot]
      nextSequence := (timers.nextSequence + 1) % 2 ^ 64
      registered := timers.registered + 1 } timers.heap.length) := by
  have holder : ∀ {place : Nat} {registration : Registration},
      (held slots)[place]? = some (some registration) →
        (place = slot ∧ registration = entry.registration) ∨
          (held timers.slots)[place]? = some (some registration) := by
    intro place registration holds
    obtain ⟨found, at_, rfl⟩ := of_getElem?_held holds
    rcases eq_or_ne place slot with rfl | apart
    · cases here.symm.trans at_
      exact .inl ⟨rfl, rfl⟩
    · rcases others place apart with same | none_
      · exact .inr (getElem?_held (same.symm.trans at_))
      · cases none_.symm.trans at_
  have tidy : Tidy {
      slots, free
      heap := timers.heap ++ [slot]
      nextSequence := (timers.nextSequence + 1) % 2 ^ 64
      registered := timers.registered + 1 } := by
    refine ⟨?_, shared, ?_, ?_, ?_⟩
    · intro place found at_
      dsimp only at at_ ⊢
      rcases Nat.lt_or_ge place timers.heap.length with inside | outside
      · rw [List.getElem?_append_left inside] at at_
        rw [members found (List.mem_of_getElem? at_)]
        exact sound.placed place found at_
      · rw [List.getElem?_append_right outside, List.getElem?_singleton] at at_
        split at at_
        · next last =>
          cases at_
          exact ⟨entry, here, by omega⟩
        · cases at_
    · dsimp only
      rw [sound.next]
      omega
    · intro place registration holds
      rcases holder holds with ⟨rfl, rfl⟩ | old
      · refine ⟨?_, ?_⟩
        · show entry.sequence = entry.serial % 2 ^ 64
          rw [sequence_, serial_, sound.next]
        · show entry.serial < timers.registered + 1
          omega
      · obtain ⟨numbered, below⟩ := sound.numbered place registration old
        exact ⟨numbered, Nat.lt_succ_of_lt below⟩
    · intro one two first second holds holds' same
      rcases holder holds with ⟨rfl, rfl⟩ | old
      · rcases holder holds' with ⟨rfl, rfl⟩ | old'
        · rfl
        · have := (sound.numbered two second old').2
          change entry.serial = second.serial at same
          omega
      · rcases holder holds' with ⟨rfl, rfl⟩ | old'
        · have := (sound.numbered one first old).2
          change first.serial = entry.serial at same
          omega
        · exact sound.apart one two first second old old' same
  obtain ⟨heap, kept⟩ := siftUp_spec {
      slots, free
      heap := timers.heap ++ [slot]
      nextSequence := (timers.nextSequence + 1) % 2 ^ 64
      registered := timers.registered + 1 } timers.heap.length
  have perm := @Heap.siftUp_perm _ _ _ (deadlineOf slots) (timers.heap ++ [slot])
    timers.heap.length
  rw [← show _ = _ from heap] at perm
  refine ⟨tidy.kept kept perm, ?_⟩
  rw [deadlineOf_congr kept.held, heap]
  have ordered : Heap.Ordered (deadlineOf slots) timers.heap :=
    sound.ordered.congr fun place member => deadlineOf_of_getElem? (members place member).symm
  refine (ordered.push slot).siftUp ?_
  rw [List.length_append, List.length_singleton]
  exact Nat.lt_succ_self _

/-- The sleep registered in a slot. -/
def asleep (timers : Timers) (slot : Nat) : Option Registration := (held timers.slots)[slot]?.join

theorem asleep_eq_some :
    timers.asleep slot = some registration ↔
      (held timers.slots)[slot]? = some (some registration) := by
  unfold asleep
  rw [Option.join_eq_some_iff]

theorem asleep_congr {before after : Timers} (same : held after.slots = held before.slots) :
    after.asleep = before.asleep := by
  funext slot
  unfold asleep
  rw [same]

theorem held_set (slots : List (Option Entry)) (slot : Nat) (entry : Option Entry) :
    held (slots.set slot entry) = (held slots).set slot (entry.map Entry.registration) :=
  List.map_set

theorem join_set {table : List (Option Registration)} (inside : slot < table.length)
    (registration : Option Registration) :
    (fun other => (table.set slot registration)[other]?.join) =
      Function.update (fun other => table[other]?.join) slot registration := by
  funext other
  rcases eq_or_ne other slot with rfl | apart
  · rw [Function.update_self, List.getElem?_set_self inside]
    rfl
  · rw [Function.update_of_ne apart, List.getElem?_set_ne (Ne.symm apart)]

/-- A registration takes a slot that no sleep is in, and the clock is sound with it. -/
theorem insert_spec (sound : Sound timers) (deadline waker : Nat) :
    Sound (timers.insert deadline waker).2 ∧
      (timers.insert deadline waker).1.sequence = timers.nextSequence ∧
      timers.asleep (timers.insert deadline waker).1.slot = none ∧
      (timers.insert deadline waker).2.asleep =
        Function.update timers.asleep (timers.insert deadline waker).1.slot
          (some ⟨deadline, waker, timers.nextSequence, timers.registered⟩) ∧
      (timers.insert deadline waker).2.registered = timers.registered + 1 := by
  have length_held : (held timers.slots).length = timers.slots.length := List.length_map _
  unfold insert
  rcases vacant : timers.free with - | ⟨slot, free⟩
  · dsimp only
    have shared := sound.shared
    rw [vacant, ← List.append_nil timers.heap] at shared
    have grown := shared.grow (some (Entry.registration
      ⟨deadline, waker, timers.heap.length, timers.nextSequence, timers.registered⟩))
    have same : held (timers.slots ++ [some
        ⟨deadline, waker, timers.heap.length, timers.nextSequence, timers.registered⟩]) =
        (held timers.slots ++ [none]).set (held timers.slots).length (some (Entry.registration
          ⟨deadline, waker, timers.heap.length, timers.nextSequence, timers.registered⟩)) := by
      rw [List.set_append_right _ _ (Nat.le_refl _), Nat.sub_self]
      exact List.map_append
    have inside : (held timers.slots).length < (held timers.slots ++ [none]).length := by
      rw [List.length_append]
      exact Nat.lt_succ_self _
    have here : (timers.slots ++ [some ⟨deadline, waker, timers.heap.length, timers.nextSequence,
        timers.registered⟩])[timers.slots.length]? = some (some (Entry.mk deadline waker
          timers.heap.length timers.nextSequence timers.registered)) :=
      List.getElem?_concat_length
    rw [← same, length_held] at grown
    refine ⟨?_, rfl, ?_, ?_, ?_⟩
    · refine sound_registered sound ?_ (by rfl) (by rfl) (by rfl) ?_ ?_ here grown
      · intro member
        exact absurd (sound.shared.lt_of_mem member) (by rw [length_held]; exact Nat.lt_irrefl _)
      · intro place apart
        rcases Nat.lt_or_gt_of_ne apart with below | above
        · exact .inl (List.getElem?_append_left below)
        · refine .inr (List.getElem?_eq_none ?_)
          rw [List.length_append]
          exact above
      · intro place member
        refine List.getElem?_append_left ?_
        rw [← length_held]
        exact sound.shared.lt_of_mem member
    · unfold asleep
      rw [List.getElem?_eq_none (Nat.le_of_eq length_held)]
      rfl
    · rw [asleep_congr (siftUp_spec _ _).2.held]
      unfold asleep
      dsimp only
      rw [same, ← length_held]
      refine (join_set inside _).trans ?_
      congr 1
      funext other
      rcases Nat.lt_or_ge other (held timers.slots).length with below | above
      · rw [List.getElem?_append_left below]
      · rw [List.getElem?_append_right above, List.getElem?_eq_none above, List.getElem?_singleton]
        split <;> rfl
    · exact (siftUp_spec _ _).2.registered
  · dsimp only
    have shared := sound.shared
    rw [vacant, ← List.append_nil timers.heap] at shared
    have idle := shared.idle slot List.mem_cons_self
    have inside := (List.getElem?_eq_some_iff.mp idle).1
    have claimed := shared.claim (some (Entry.registration
      ⟨deadline, waker, timers.heap.length, timers.nextSequence, timers.registered⟩))
    have fresh : slot ∉ timers.heap := fun member =>
      shared.not_mem_free (List.mem_append_left _ member) List.mem_cons_self
    have here : (timers.slots.set slot (some ⟨deadline, waker, timers.heap.length,
        timers.nextSequence, timers.registered⟩))[slot]? = some (some (Entry.mk deadline waker
          timers.heap.length timers.nextSequence timers.registered)) :=
      List.getElem?_set_self (length_held ▸ inside)
    have same := held_set timers.slots slot (some
      ⟨deadline, waker, timers.heap.length, timers.nextSequence, timers.registered⟩)
    refine ⟨?_, rfl, ?_, ?_, ?_⟩
    · refine sound_registered sound fresh (by rfl) (by rfl) (by rfl) ?_ ?_ here (same ▸ claimed)
      · exact fun place apart => .inl (List.getElem?_set_ne (Ne.symm apart))
      · intro place member
        refine List.getElem?_set_ne ?_
        rintro rfl
        exact fresh member
    · unfold asleep
      rw [idle]
      rfl
    · rw [asleep_congr (siftUp_spec _ _).2.held]
      unfold asleep
      dsimp only
      rw [same]
      exact join_set inside _
    · exact (siftUp_spec _ _).2.registered

/-! ### Taking out -/

/-- The clock behind the removal of an entry, before the one that took its place has moved. -/
def popped (timers : Timers) (slot position : Nat) : Timers :=
  { timers with
    slots :=
      if position ≠ timers.heap.length - 1 then
        (Heap.exchange timers.heap position (timers.heap.length - 1))[position]?.elim
          (timers.slots.set slot none)
          fun moved => setPosition (timers.slots.set slot none) moved position
      else timers.slots.set slot none
    free := slot :: timers.free
    heap := Heap.vacate timers.heap position }

theorem take_eq (here : timers.slots[slot]? = some (some entry))
    (inside : entry.position < timers.heap.length) :
    timers.take slot = some (entry,
      if entry.position < (timers.popped slot entry.position).heap.length then
        ((timers.popped slot entry.position).siftUp entry.position).siftDown entry.position
      else timers.popped slot entry.position) := by
  unfold take popped Heap.vacate
  rw [here]
  by_cases apart : entry.position ≠ timers.heap.length - 1
  · simp only [Option.join_some, Option.map_some, if_pos apart]
  · have last := not_not.mp apart
    simp only [Option.join_some, Option.map_some, if_neg apart]
    rw [← last, Heap.exchange_self inside]

theorem held_popped (timers : Timers) (slot position : Nat) :
    held (timers.popped slot position).slots = (held timers.slots).set slot none := by
  unfold popped
  dsimp only
  split
  · rcases (Heap.exchange timers.heap position (timers.heap.length - 1))[position]? with - | moved
    · exact held_set _ _ _
    · exact (held_setPosition _ _ _).trans (held_set _ _ _)
  · exact held_set _ _ _

theorem placed_popped (tidy : Tidy timers) (here : timers.slots[slot]? = some (some entry)) :
    Placed (timers.popped slot entry.position).slots (timers.popped slot entry.position).heap := by
  have stands := tidy.at_position here
  have inside := (List.getElem?_eq_some_iff.mp stands).1
  have apart : ∀ {place found : Nat}, place ≠ entry.position →
      timers.heap[place]? = some found → found ≠ slot := by
    rintro place _ different at_ rfl
    exact different ((List.getElem?_inj (List.getElem?_eq_some_iff.mp at_).1 tidy.nodup).mp
      (at_.trans stands.symm))
  intro place found at_
  change (Heap.vacate timers.heap entry.position)[place]? = some found at at_
  rw [Heap.getElem?_vacate inside] at at_
  split at at_
  · next within =>
    unfold popped
    dsimp only
    split at at_
    · next same =>
      subst same
      have notLast : entry.position ≠ timers.heap.length - 1 := Nat.ne_of_lt within
      have different := apart (Ne.symm notLast) at_
      obtain ⟨moved, holds, -⟩ := tidy.placed _ found at_
      rw [if_pos notLast, Heap.getElem?_exchange inside (by omega), Equiv.swap_apply_left, at_,
        Option.elim, getElem?_setPosition, if_pos rfl, List.getElem?_set_ne (Ne.symm different),
        holds]
      exact ⟨_, rfl, rfl⟩
    · next other =>
      have different := apart other at_
      obtain ⟨entry', holds, same⟩ := tidy.placed place found at_
      refine ⟨entry', ?_, same⟩
      have kept : (timers.slots.set slot none)[found]? = some (some entry') :=
        (List.getElem?_set_ne (Ne.symm different)).trans holds
      split
      · rw [Heap.getElem?_exchange inside (by omega), Equiv.swap_apply_left]
        rcases last : timers.heap[timers.heap.length - 1]? with - | moved
        · exact kept
        · have notMoved : found ≠ moved := by
            rintro rfl
            have := (List.getElem?_inj (List.getElem?_eq_some_iff.mp at_).1 tidy.nodup).mp
              (at_.trans last.symm)
            omega
          rw [Option.elim, getElem?_setPosition, if_neg notMoved]
          exact kept
      · exact kept
  · cases at_

theorem tidy_popped (tidy : Tidy timers) (here : timers.slots[slot]? = some (some entry)) :
    Tidy (timers.popped slot entry.position) := by
  have stands := tidy.at_position here
  obtain ⟨inside, at_⟩ := List.getElem?_eq_some_iff.mp stands
  have old : ∀ {place : Nat} {registration : Registration},
      (held (timers.popped slot entry.position).slots)[place]? = some (some registration) →
        (held timers.slots)[place]? = some (some registration) := by
    intro place registration holds
    rw [held_popped, List.getElem?_set] at holds
    split at holds
    · split at holds
      · cases holds
      · cases holds
    · exact holds
  refine ⟨placed_popped tidy here, ?_, tidy.next, ?_, ?_⟩
  · have perm := Heap.vacate_perm inside
    rw [at_] at perm
    have shared := tidy.shared.perm_owned perm
    rw [held_popped]
    exact @SlotsShared.release _ _ [] _ _ _ shared
  · exact fun place registration holds => tidy.numbered place registration (old holds)
  · exact fun one two first second holds holds' same =>
      tidy.apart one two first second (old holds) (old holds') same

/-- Taking out a registration leaves the others, and the clock sound. -/
theorem take_spec (sound : Sound timers) (here : timers.asleep slot = some registration) :
    ∃ entry after, timers.take slot = some (entry, after) ∧ entry.registration = registration ∧
      Sound after ∧ after.asleep = Function.update timers.asleep slot none ∧
      after.registered = timers.registered ∧ after.heap.length + 1 = timers.heap.length := by
  have holds := asleep_eq_some.mp here
  obtain ⟨entry, found, rfl⟩ := of_getElem?_held holds
  have stands := sound.at_position found
  have inside := (List.getElem?_eq_some_iff.mp stands).1
  have tidy := tidy_popped sound.toTidy found
  have shorter : (timers.popped slot entry.position).heap.length + 1 = timers.heap.length :=
    (Heap.vacate_perm inside).length_eq
  have same : (timers.popped slot entry.position).asleep =
      Function.update timers.asleep slot none := by
    unfold asleep
    rw [held_popped]
    exact join_set (List.getElem?_eq_some_iff.mp holds).1 none
  have ranks : ∀ place ∈ (timers.popped slot entry.position).heap, deadlineOf timers.slots place =
        deadlineOf (timers.popped slot entry.position).slots place := by
    intro place member
    rw [deadlineOf_eq, deadlineOf_eq, held_popped, List.getElem?_set_ne]
    rintro rfl
    exact tidy.shared.not_mem_free member List.mem_cons_self
  rw [take_eq found inside]
  refine ⟨entry, _, rfl, rfl, ?_⟩
  split
  · next within =>
    obtain ⟨heapUp, keptUp⟩ := siftUp_spec (timers.popped slot entry.position) entry.position
    obtain ⟨heapDown, keptDown⟩ :=
      siftDown_spec ((timers.popped slot entry.position).siftUp entry.position) entry.position
    have permUp := @Heap.siftUp_perm _ _ _
      (deadlineOf (timers.popped slot entry.position).slots)
      (timers.popped slot entry.position).heap entry.position
    rw [← heapUp] at permUp
    have permDown := @Heap.siftDown_perm _ _ _
      (deadlineOf ((timers.popped slot entry.position).siftUp entry.position).slots)
      ((timers.popped slot entry.position).siftUp entry.position).heap entry.position
    rw [← heapDown] at permDown
    have kept := keptUp.trans keptDown permUp
    refine ⟨⟨tidy.kept kept (permDown.trans permUp), ?_⟩, ?_, kept.registered, ?_⟩
    · rw [deadlineOf_congr kept.held, heapDown, deadlineOf_congr keptUp.held, heapUp]
      exact ((sound.ordered.vacate inside).congr ranks).settle within
    · rw [asleep_congr kept.held]
      exact same
    · rw [(permDown.trans permUp).length_eq]
      exact shorter
  · next last =>
    refine ⟨⟨tidy, ?_⟩, same, rfl, shorter⟩
    exact (sound.ordered.vacate_last (by omega) inside).congr ranks

/-! ### Firing -/

theorem length_siftUp (timers : Timers) (position : Nat) :
    (timers.siftUp position).heap.length = timers.heap.length := by
  rw [(siftUp_spec timers position).1, Heap.length_siftUp]

theorem length_siftDown (timers : Timers) (position : Nat) :
    (timers.siftDown position).heap.length = timers.heap.length := by
  rw [(siftDown_spec timers position).1, Heap.length_siftDown]

theorem length_take {after : Timers} (taken : timers.take slot = some (entry, after)) :
    after.heap.length = timers.heap.length - 1 := by
  obtain ⟨found, -, made⟩ := Option.map_eq_some_iff.mp taken
  obtain ⟨-, rfl⟩ := Prod.ext_iff.mp made
  dsimp only
  split <;> split <;>
    simp only [length_siftDown, length_siftUp, List.length_dropLast, Heap.length_exchange]

/-- Wake every sleep whose deadline has passed; returned is who was woken, in order. -/
def fire (timers : Timers) (now : Nat) : List Entry × Timers :=
  match _root : timers.heap.head? with
  | none => ([], timers)
  | some slot =>
    match timers.slots[slot]?.join with
    | none => ([], timers)
    | some first =>
      if first.deadline ≤ now then
        match _taken : timers.take slot with
        | none => ([], timers)
        | some (entry, after) => (entry :: (after.fire now).1, (after.fire now).2)
      else ([], timers)
termination_by timers.heap.length
decreasing_by
  all_goals
    rw [length_take _taken]
    have := List.length_pos_of_mem (List.mem_of_head? _root)
    omega

/-- The root of the heap is a sleep with the least deadline. -/
theorem root_least (sound : Sound timers) (root : timers.heap.head? = some slot) :
    ∃ entry : Entry, timers.slots[slot]? = some (some entry) ∧
      timers.asleep slot = some entry.registration ∧
      ∀ other registration, timers.asleep other = some registration →
        entry.deadline ≤ registration.deadline := by
  rw [List.head?_eq_getElem?] at root
  obtain ⟨entry, here, -⟩ := sound.placed 0 slot root
  refine ⟨entry, here, asleep_eq_some.mpr (getElem?_held here), fun other registration later => ?_⟩
  obtain ⟨found, there, rfl⟩ := of_getElem?_held (asleep_eq_some.mp later)
  have ranked := sound.ordered.root found.position slot root other (sound.at_position there)
  unfold deadlineOf at ranked
  rw [here, there] at ranked
  exact WithBot.coe_le_coe.mp ranked

theorem none_asleep (sound : Sound timers) (empty : timers.heap.head? = none) (slot : Nat) :
    timers.asleep slot = none := by
  refine Option.eq_none_iff_forall_ne_some.mpr fun registration here => ?_
  have member := sound.shared.mem_owned (asleep_eq_some.mp here)
  rw [List.head?_eq_none_iff.mp empty] at member
  cases member

/-- A registration is of one sleep only. -/
theorem asleep_inj (sound : Sound timers) {first second : Registration}
    (here : timers.asleep one = some first) (there : timers.asleep two = some second)
    (same : first.serial = second.serial) : one = two :=
  sound.apart one two first second (asleep_eq_some.mp here) (asleep_eq_some.mp there) same

/-- Fired are the sleeps whose deadline has passed, each once and the earlier first; the others
sleep on. -/
structure Fired (before : Timers) (now : Nat) (woken : List Registration) (after : Timers) :
    Prop where
  sound : Sound after
  left : ∀ slot, after.asleep slot = (before.asleep slot).filter fun registration =>
    decide (now < registration.deadline)
  due : ∀ registration, registration ∈ woken ↔
    (∃ slot, before.asleep slot = some registration) ∧ registration.deadline ≤ now
  once : (woken.map Registration.serial).Nodup
  sorted : woken.Pairwise fun first second => first.deadline ≤ second.deadline
  registered : after.registered = before.registered

/-- A clock that no sleep has to be woken of. -/
theorem Fired.nothing (sound : Sound timers) {now : Nat}
    (late : ∀ slot registration, timers.asleep slot = some registration →
      now < registration.deadline) : Fired timers now [] timers := by
  refine ⟨sound, fun slot => ?_, fun registration => ?_, List.nodup_nil, List.Pairwise.nil, rfl⟩
  · rcases here : timers.asleep slot with - | registration
    · rfl
    · rw [Option.filter_some, if_pos (decide_eq_true (late slot registration here))]
  · refine iff_of_false List.not_mem_nil ?_
    rintro ⟨⟨slot, here⟩, due⟩
    exact absurd (late slot registration here) (Nat.not_lt.mpr due)

theorem fire_spec (sound : Sound timers) (now : Nat) :
    Fired timers now ((timers.fire now).1.map Entry.registration) (timers.fire now).2 := by
  fun_induction fire timers now with
  | case1 timers empty =>
    exact Fired.nothing sound fun slot registration here => by
      rw [none_asleep sound empty slot] at here
      cases here
  | case2 timers slot root vacant =>
    obtain ⟨entry, here, -⟩ := root_least sound root
    rw [here] at vacant
    cases vacant
  | case3 timers slot root first holds due refused =>
    obtain ⟨entry, -, here, -⟩ := root_least sound root
    obtain ⟨taken, after, made, -⟩ := take_spec sound here
    exact absurd (made.symm.trans refused) (Option.some_ne_none _)
  | case4 timers slot root first holds due entry after taken inductionHypothesis =>
    obtain ⟨least, found, here, lowest⟩ := root_least sound root
    obtain ⟨entry', after', made, registration, sound', rest, registered, -⟩ :=
      take_spec sound here
    rw [taken] at made
    cases made
    rw [found] at holds
    cases holds
    have fired := inductionHypothesis sound'
    have other : ∀ {place : Nat} {remaining : Registration}, after.asleep place = some remaining ↔
          place ≠ slot ∧ timers.asleep place = some remaining := by
      intro place remaining
      rw [rest]
      rcases eq_or_ne place slot with rfl | apart
      · rw [Function.update_self]
        exact iff_of_false (by nofun) fun both => both.1 rfl
      · rw [Function.update_of_ne apart]
        exact ⟨fun same => ⟨apart, same⟩, And.right⟩
    have due' : entry.registration.deadline ≤ now := registration ▸ due
    refine ⟨fired.sound, fun place => ?_, fun remaining => ?_, ?_, ?_, ?_⟩
    · rw [fired.left place, rest]
      rcases eq_or_ne place slot with rfl | apart
      · rw [Function.update_self, here]
        have notLater : ¬now < first.registration.deadline := Nat.not_lt.mpr due
        rw [Option.filter_some, if_neg (fun later => notLater (of_decide_eq_true later))]
        rfl
      · rw [Function.update_of_ne apart]
    · rw [List.map_cons, List.mem_cons, fired.due]
      constructor
      · rintro (rfl | ⟨⟨place, there⟩, early⟩)
        · exact ⟨⟨slot, registration ▸ here⟩, due'⟩
        · exact ⟨⟨place, (other.mp there).2⟩, early⟩
      · rintro ⟨⟨place, there⟩, early⟩
        rcases eq_or_ne place slot with rfl | apart
        · rw [here] at there
          cases there
          exact .inl registration.symm
        · exact .inr ⟨⟨place, other.mpr ⟨apart, there⟩⟩, early⟩
    · rw [List.map_cons, List.map_cons, List.nodup_cons]
      refine ⟨fun again => ?_, fired.once⟩
      obtain ⟨remaining, member, same⟩ := List.mem_map.mp again
      obtain ⟨⟨place, there⟩, -⟩ := (fired.due remaining).mp member
      obtain ⟨apart, there⟩ := other.mp there
      exact apart (asleep_inj sound there (registration ▸ here) same)
    · rw [List.map_cons, List.pairwise_cons]
      refine ⟨fun remaining member => ?_, fired.sorted⟩
      obtain ⟨⟨place, there⟩, -⟩ := (fired.due remaining).mp member
      rw [registration]
      exact lowest place remaining (other.mp there).2
    · rw [fired.registered, registered]
  | case5 timers slot root first holds late =>
    obtain ⟨least, found, -, lowest⟩ := root_least sound root
    rw [found] at holds
    cases holds
    exact Fired.nothing sound fun place registration there =>
      Nat.lt_of_lt_of_le (Nat.lt_of_not_le late) (lowest place registration there)

/-! ### The first deadline -/

theorem nextTimeout_eq_none (sound : Sound timers) (now : Nat) :
    timers.nextTimeout now = none ↔ ∀ slot, timers.asleep slot = none := by
  rcases root : timers.heap.head? with - | slot
  · refine iff_of_true ?_ (none_asleep sound root)
    unfold nextTimeout
    rw [root]
    rfl
  · obtain ⟨entry, found, here, -⟩ := root_least sound root
    refine iff_of_false ?_ fun every => ?_
    · unfold nextTimeout
      rw [root, Option.bind_some, found]
      nofun
    · rw [every slot] at here
      cases here

theorem nextTimeout_least (sound : Sound timers) (now : Nat) {least : Nat}
    (first : IsLeast {deadline | ∃ slot registration, timers.asleep slot = some registration ∧
      registration.deadline = deadline} least) : timers.nextTimeout now = some (least - now) := by
  obtain ⟨⟨slot, registration, here, rfl⟩, lowest⟩ := first
  rcases root : timers.heap.head? with - | top
  · rw [none_asleep sound root slot] at here
    cases here
  · obtain ⟨entry, found, there, lowest'⟩ := root_least sound root
    have same : entry.deadline = registration.deadline :=
      Nat.le_antisymm (lowest' slot registration here) (lowest ⟨top, _, there, rfl⟩)
    unfold nextTimeout
    rw [root, Option.bind_some, found, ← same]
    rfl

/-! ### Keys -/

variable {key : Key}

theorem entryOf_eq_some :
    timers.entryOf key = some entry ↔
      timers.slots[key.slot]? = some (some entry) ∧ entry.sequence = key.sequence := by
  unfold entryOf
  rw [Option.filter_eq_some_iff, Option.join_eq_some_iff, beq_iff_eq]

/-- A key of the sleep in its slot. -/
theorem entryOf_asleep (here : timers.asleep key.slot = some registration)
    (same : registration.sequence = key.sequence) :
    ∃ entry, timers.entryOf key = some entry ∧ entry.registration = registration := by
  obtain ⟨entry, found, rfl⟩ := of_getElem?_held (asleep_eq_some.mp here)
  exact ⟨entry, entryOf_eq_some.mpr ⟨found, same⟩, rfl⟩

theorem entryOf_none (apart : ∀ registration, timers.asleep key.slot = some registration →
      registration.sequence ≠ key.sequence) : timers.entryOf key = none := by
  refine Option.eq_none_iff_forall_ne_some.mpr fun entry found => ?_
  obtain ⟨here, same⟩ := entryOf_eq_some.mp found
  exact apart _ (asleep_eq_some.mpr (getElem?_held here)) same

theorem refresh_none (none_ : timers.entryOf key = none) (waker : Nat) :
    timers.refresh key waker = timers := by
  unfold refresh
  rw [none_]

theorem remove_none (none_ : timers.entryOf key = none) : timers.remove key = (none, timers) := by
  unfold remove
  rw [none_]

/-- A refreshed sleep keeps its place and its deadline. -/
theorem refresh_spec (sound : Sound timers) (found : timers.entryOf key = some entry)
    (waker : Nat) :
    Sound (timers.refresh key waker) ∧
      (timers.refresh key waker).asleep = Function.update timers.asleep key.slot
        (some { entry.registration with waker }) ∧
      (timers.refresh key waker).registered = timers.registered := by
  obtain ⟨here, -⟩ := entryOf_eq_some.mp found
  have holds := getElem?_held here
  have inside := (List.getElem?_eq_some_iff.mp holds).1
  unfold refresh
  rw [found]
  dsimp only
  split
  · next same =>
    refine ⟨sound, ?_, rfl⟩
    have again : ({ entry.registration with waker } : Registration) = entry.registration := by
      rw [← same]
      rfl
    rw [again, ← asleep_eq_some.mpr holds, Function.update_eq_self]
  · have rewritten : held (timers.slots.set key.slot (some { entry with waker })) =
        (held timers.slots).set key.slot (some { entry.registration with waker }) :=
      held_set _ _ _
    have effect : asleep { timers with
        slots := timers.slots.set key.slot (some { entry with waker }) } =
        Function.update timers.asleep key.slot (some { entry.registration with waker }) := by
      unfold asleep
      dsimp only
      rw [rewritten]
      exact join_set inside _
    have old : ∀ {place : Nat} {registration : Registration},
        (held (timers.slots.set key.slot (some { entry with waker })))[place]? =
            some (some registration) →
          ∃ before, (held timers.slots)[place]? = some (some before) ∧
            before.sequence = registration.sequence ∧ before.serial = registration.serial := by
      intro place registration there
      rw [rewritten, List.getElem?_set] at there
      split at there
      · next same =>
        subst same
        cases there
        exact ⟨_, holds, rfl, rfl⟩
      · exact ⟨registration, there, rfl, rfl⟩
    refine ⟨⟨⟨?_, ?_, sound.next, ?_, ?_⟩, ?_⟩, effect, rfl⟩
    · intro place slot at_
      obtain ⟨other, there, same⟩ := sound.placed place slot at_
      rcases eq_or_ne slot key.slot with rfl | apart
      · cases here.symm.trans there
        exact ⟨_, List.getElem?_set_self (List.getElem?_eq_some_iff.mp here).1, same⟩
      · exact ⟨other, (List.getElem?_set_ne (Ne.symm apart)).trans there, same⟩
    · dsimp only
      rw [rewritten]
      exact sound.shared.set_owned (sound.shared.mem_owned holds) _
    · intro place registration there
      obtain ⟨before, there', sequence, serial⟩ := old there
      rw [← sequence, ← serial]
      exact sound.numbered place before there'
    · intro one two first second there there' same
      obtain ⟨before, was, -, serial⟩ := old there
      obtain ⟨before', was', -, serial'⟩ := old there'
      exact sound.apart one two before before' was was' (by rw [serial, serial', same])
    · refine sound.ordered.congr fun place _ => ?_
      rw [deadlineOf_eq, deadlineOf_eq, rewritten, List.getElem?_set]
      split
      · next same =>
        subst same
        rw [holds]
        rfl
      · rfl

theorem remove_spec (sound : Sound timers) (found : timers.entryOf key = some entry) :
    ∃ after, timers.remove key = (some entry, after) ∧ Sound after ∧
      after.asleep = Function.update timers.asleep key.slot none ∧
      after.registered = timers.registered := by
  obtain ⟨here, -⟩ := entryOf_eq_some.mp found
  obtain ⟨taken, after, made, -, sound', rest, registered, -⟩ :=
    take_spec sound (asleep_eq_some.mpr (getElem?_held here))
  have same : taken = entry := by
    obtain ⟨first, holds, pair⟩ := Option.map_eq_some_iff.mp made
    rw [here] at holds
    cases holds
    exact (congrArg Prod.fst pair).symm
  subst same
  refine ⟨after, ?_, sound', rest, registered⟩
  unfold remove
  rw [found, made]

end Timers

end ZeroServer.Io

/-
This file models the pipelining ring of a connection: the requests in flight in a circular
table, and the slots the running handlers live in. The ring is read through its queue: each
operation is given as what it does to the queue, to the slots and to the future it drops.
-/

import ZeroServer.Lib.Edits
import ZeroServer.Lib.RingBuffer
import ZeroServer.Lib.Slots
import ZeroServer.Http1.Chunked
import ZeroServer.Http.Record

namespace ZeroServer.Http

open Http1

/-- The most requests one connection holds in flight. -/
def cap : Nat := 32

/-- How a pending body is delimited. -/
inductive Framing where
  | length (remaining : Nat)
  | chunked (decoder : ChunkedDecoder)
  deriving DecidableEq

/-- Where a request is on its way through the ring. -/
inductive Stage where
  | body (framing : Framing) (continuePending : Bool) (maxBody : Nat)
  | waiting
  | running
  | done
  deriving DecidableEq

namespace Stage

def isBody : Stage → Bool
  | body .. => true
  | _ => false

/-- Whether the handler was started or the response is there. -/
def isStarted : Stage → Bool
  | running | done => true
  | body .. | waiting => false

end Stage

/-- One request in the ring. The last three fields are ghosts, which no operation reads: the
number of requests the ring took before this one, the position it was put at, and whether its
handler was ever started. -/
structure Entry where
  record : Option Record
  stage : Stage
  accepted : Nat
  lastByte : Nat
  safe : Bool
  upgrade : Bool
  bodyBytes : Nat
  slot : Option Nat
  serial : Nat := 0
  place : Nat := 0
  started : Bool := false

/-- An entry for a request whose head just completed. -/
def Entry.new (record : Record) (stage : Stage) (now : Nat) : Entry where
  record := some record
  stage := stage
  accepted := now
  lastByte := now
  safe := record.safe
  upgrade := record.parsed.any Head.upgrade
  bodyBytes := 0
  slot := none

/-- The entries in request order and the slots the running handlers live in; `pushed` is a
ghost that counts the requests. -/
structure Ring (Future : Type) extends Lib.RingBuffer Entry cap where
  futures : List (Option Future) := []
  freeSlots : List Nat := []
  pushed : Nat := 0

namespace Ring

variable {Future : Type}

def new : Ring Future := { toRingBuffer := Lib.RingBuffer.empty (by decide) }

def isEmpty (ring : Ring Future) : Bool := ring.len == 0

/-- Add a request at the tail; nothing when the ring is full. -/
def push (ring : Ring Future) (entry : Entry) : Option (Ring Future) :=
  (ring.toRingBuffer.push
      { entry with serial := ring.pushed, place := ring.position ring.len }).map fun buffer =>
    { ring with toRingBuffer := buffer, pushed := ring.pushed + 1 }

/-- Change the entry at a position, if there is one. -/
def entryMut (ring : Ring Future) (position : Nat) (change : Entry → Entry) : Ring Future :=
  { ring with toRingBuffer := ring.toRingBuffer.modify position change }

/-- The entry at the head. -/
def first (ring : Ring Future) : Option Entry :=
  if ring.len = 0 then none else ring.entry ring.head

/-- The entry at the tail. -/
def last (ring : Ring Future) : Option Entry :=
  if ring.len = 0 then none else ring.entry (ring.position (ring.len - 1))

/-- Change the entry at the tail. -/
def lastMut (ring : Ring Future) (change : Entry → Entry) : Ring Future :=
  if ring.len = 0 then ring else ring.entryMut (ring.position (ring.len - 1)) change

/-- Whether the tail entry is still reading its body. -/
def bodyPending (ring : Ring Future) : Bool := ring.last.any fun entry => entry.stage.isBody

/-- Whether the tail entry asked to switch protocols and its body is in. -/
def upgradePending (ring : Ring Future) : Bool :=
  ring.last.any fun entry => entry.upgrade && !entry.stage.isBody

/-- The index from the head of the entry at a position, if one is there. -/
def indexOf (ring : Ring Future) (position : Nat) : Option Nat :=
  let index := (position + cap - ring.head) % cap
  if index < ring.len then some index else none

/-- Drop the future of the entry at a position, if one is set, and free its slot: the future
dropped and the ring without it. -/
def clearFuture (ring : Ring Future) (position : Nat) : Option Future × Ring Future :=
  match (ring.entry position).bind Entry.slot with
  | none => (none, ring)
  | some slot =>
    ((ring.futures[slot]?).join,
      { ring.entryMut position (fun entry => { entry with slot := none }) with
        futures := ring.futures.set slot none
        freeSlots := slot :: ring.freeSlots })

/-- Remove the head entry: the entry, its future if it had one, and the ring left. -/
def popFront (ring : Ring Future) : Option Entry × Option Future × Ring Future :=
  if ring.len = 0 then (none, none, ring)
  else
    let (future, cleared) := ring.clearFuture ring.head
    (cleared.entry ring.head, future, { cleared with toRingBuffer := cleared.dropFront })

/-- Remove the tail entry: the entry, its future if it had one, and the ring left. -/
def popBack (ring : Ring Future) : Option Entry × Option Future × Ring Future :=
  if ring.len = 0 then (none, none, ring)
  else
    let position := ring.position (ring.len - 1)
    let (future, cleared) := ring.clearFuture position
    (cleared.entry position, future, { cleared with toRingBuffer := cleared.dropBack })

/-- Put the entry at a position to running with a future in a free slot; the flag says
whether a slot was found. -/
def start (ring : Ring Future) (position : Nat) (future : Future) : Bool × Ring Future :=
  let (slot, futures, freeSlots) :=
    match ring.freeSlots with
    | slot :: rest => (slot, ring.futures, rest)
    | [] => (ring.futures.length, ring.futures ++ [none], [])
  match ring.entry position with
  | none => (false, { ring with futures := futures, freeSlots := slot :: freeSlots })
  | some _ =>
    if slot < futures.length then
      (true,
        { ring.entryMut position (fun entry =>
            { entry with slot := some slot, stage := .running, started := true }) with
          futures := futures.set slot (some future)
          freeSlots := freeSlots })
    else (false, { ring with futures := futures, freeSlots := freeSlots })

/-- The future of a running entry. -/
def future (ring : Ring Future) (entry : Entry) : Option Future :=
  entry.slot.bind fun slot => (ring.futures[slot]?).join

/-! ### The operations on the queue -/

variable {index : Nat}

theorem cap_pos : 0 < cap := by decide

theorem len_le (ring : Ring Future) : ring.len ≤ cap := ring.fits

theorem first_eq (ring : Ring Future) : ring.first = ring.contents.head? := by
  unfold first
  rw [List.head?_eq_getElem?, Lib.RingBuffer.getElem?_contents _ cap_pos]
  by_cases empty : ring.len = 0
  · rw [if_pos empty]
    refine (Option.not_isSome_iff_eq_none.mp fun filled => ?_).symm
    have := (ring.isSome_entry_position cap_pos).mp filled
    omega
  · rw [if_neg empty, Lib.RingBuffer.position_zero]

theorem last_eq (ring : Ring Future) : ring.last = ring.contents.getLast? := by
  have fits := ring.len_le
  unfold last
  rw [List.getLast?_eq_getElem?, Lib.RingBuffer.length_contents]
  by_cases empty : ring.len = 0
  · rw [if_pos empty, List.getElem?_eq_none (by rw [Lib.RingBuffer.length_contents]; omega)]
  · rw [if_neg empty, Lib.RingBuffer.getElem?_contents _ (by omega)]

theorem entry_position (ring : Ring Future) (inside : index < ring.len) :
    ring.entry (ring.position index) = ring.contents[index]? :=
  (ring.getElem?_contents (Nat.lt_of_lt_of_le inside ring.len_le)).symm

theorem isEmpty_eq (ring : Ring Future) : ring.isEmpty = ring.contents.isEmpty := by
  unfold isEmpty
  rw [← Lib.RingBuffer.length_contents]
  cases ring.contents <;> rfl

@[simp]
theorem contents_entryMut (ring : Ring Future) {position : Nat} (inside : position < cap)
    (change : Entry → Entry) :
    (ring.entryMut position change).contents =
      ring.contents.modify (ring.offset position) change :=
  ring.contents_modify inside change

theorem contents_entryMut_position (ring : Ring Future) (inside : index < ring.len)
    (change : Entry → Entry) :
    (ring.entryMut (ring.position index) change).contents =
      ring.contents.modify index change := by
  rw [contents_entryMut _ (ring.position_lt index),
    Lib.RingBuffer.offset_position _ (Nat.lt_of_lt_of_le inside ring.len_le)]

theorem contents_lastMut (ring : Ring Future) (change : Entry → Entry) :
    (ring.lastMut change).contents = ring.contents.modify (ring.len - 1) change := by
  unfold lastMut
  by_cases empty : ring.len = 0
  · have nil : ring.contents = [] :=
      List.length_eq_zero_iff.mp (by rw [Lib.RingBuffer.length_contents, empty])
    rw [if_pos empty, nil, List.modify_nil]
  · rw [if_neg empty, contents_entryMut_position _ (by omega)]

theorem last_lastMut (ring : Ring Future) (change : Entry → Entry) :
    (ring.lastMut change).last = ring.last.map change := by
  rw [last_eq, last_eq, contents_lastMut, List.getLast?_eq_getElem?, List.length_modify,
    Lib.RingBuffer.length_contents, List.getElem?_modify_eq, List.getLast?_eq_getElem?,
    Lib.RingBuffer.length_contents]
  rfl

/-- A push fails on a full ring only, and else adds the stamped entry behind the others. -/
theorem push_cases (ring : Ring Future) (entry : Entry) :
    (ring.push entry = none ∧ ring.len = cap) ∨
      ∃ pushed, ring.push entry = some pushed ∧ ring.len < cap ∧
        pushed.contents = ring.contents ++
          [{ entry with serial := ring.pushed, place := ring.position ring.len }] ∧
        pushed.head = ring.head ∧ pushed.len = ring.len + 1 ∧
        pushed.futures = ring.futures ∧ pushed.freeSlots = ring.freeSlots ∧
        pushed.pushed = ring.pushed + 1 := by
  unfold push
  rcases step : ring.toRingBuffer.push
      { entry with serial := ring.pushed, place := ring.position ring.len } with - | buffer
  · exact .inl ⟨rfl, Lib.RingBuffer.push_eq_none.mp step⟩
  · obtain ⟨items, head, len⟩ := Lib.RingBuffer.push_eq_some step
    refine .inr ⟨_, rfl, ?_, items, head, len, rfl, rfl, rfl⟩
    have := buffer.fits
    omega

/-! ### Futures and slots -/

variable {ring : Ring Future} {entry : Entry}

variable {other : Entry} {items : List Entry}

/-- The entry once its slot is free again. -/
def freed (entry : Entry) : Entry := { entry with slot := none }

/-- What a ring is once the future of one of its entries was cleared: the slot's future is gone
and the slot is free. -/
structure Cleared (ring cleared : Ring Future) (entry : Entry) : Prop where
  pushed : cleared.pushed = ring.pushed
  futures : cleared.futures =
    entry.slot.elim ring.futures fun slot => ring.futures.set slot none
  freeSlots : cleared.freeSlots = entry.slot.toList ++ ring.freeSlots

theorem join_getElem?_set_none {Item : Type} (table : List (Option Item)) (slot other : Nat)
    (gone : (table[other]?).join = none) : ((table.set slot none)[other]?).join = none := by
  rw [List.getElem?_set]
  split
  · split <;> rfl
  · exact gone

/-- A future that is gone stays gone when another slot is emptied. -/
theorem future_none_of_emptied (slot : Nat) (gone : ring.future other = none) :
    ({ ring with futures := ring.futures.set slot none } : Ring Future).future other = none := by
  unfold future at gone ⊢
  revert gone
  rcases other.slot with - | place
  · exact id
  · exact join_getElem?_set_none _ _ _

/-- A future that is gone stays gone when another future is replaced. -/
theorem future_none_of_replaced {slot : Nat} {present : Future}
    (runs : ring.futures[slot]? = some (some present)) (item : Option Future)
    (gone : ring.future other = none) :
    ({ ring with futures := ring.futures.set slot item } : Ring Future).future other = none := by
  unfold future at gone ⊢
  revert gone
  rcases other.slot with - | place
  · exact id
  · intro gone
    rw [Option.bind_some] at gone ⊢
    by_cases same : slot = place
    · subst same
      rw [runs] at gone
      cases gone
    · rw [List.getElem?_set_ne same]
      exact gone

theorem Cleared.future_none {cleared : Ring Future} (facts : Cleared ring cleared entry)
    (gone : ring.future other = none) : cleared.future other = none := by
  have table := facts.futures
  revert table
  rcases entry.slot with - | slot <;> intro table
  · unfold future at gone ⊢
    rw [table]
    exact gone
  · have emptied := future_none_of_emptied slot gone
    unfold future at emptied ⊢
    rw [table]
    exact emptied

/-- Clearing the future of the `index`th entry. -/
theorem clearFuture_position (found : ring.contents[index]? = some entry) :
    ∃ cleared, ring.clearFuture (ring.position index) = (ring.future entry, cleared) ∧
      cleared.contents = ring.contents.modify index freed ∧ cleared.head = ring.head ∧
      cleared.len = ring.len ∧ Cleared ring cleared entry := by
  have inside : index < ring.len := by
    have := (List.getElem?_eq_some_iff.mp found).1
    rwa [Lib.RingBuffer.length_contents] at this
  have reads : ring.entry (ring.position index) = some entry := by
    rw [ring.entry_position inside, found]
  unfold clearFuture future
  rw [reads, Option.bind_some]
  rcases slot : entry.slot with - | slot
  · have same : freed entry = entry := by
      unfold freed
      rw [← slot]
    refine ⟨ring, rfl, ?_, rfl, rfl, rfl, by rw [slot]; rfl, by rw [slot]; rfl⟩
    rw [Lib.modify_eq_append found, same, ← Lib.eq_append_of_getElem? found]
  · exact ⟨_, rfl, contents_entryMut_position _ inside _, rfl, rfl, rfl, by rw [slot]; rfl,
      by rw [slot]; rfl⟩

theorem position_of_head {other : Ring Future} (same : other.head = ring.head) (index : Nat) :
    other.position index = ring.position index := by
  unfold Lib.RingBuffer.position
  rw [same]

theorem popBack_empty (empty : ring.contents = []) : ring.popBack = (none, none, ring) := by
  unfold popBack
  rw [if_pos]
  rw [← Lib.RingBuffer.length_contents, empty, List.length_nil]

/-- Removing the tail entry. -/
theorem popBack_concat (queue : ring.contents = items ++ [entry]) :
    ∃ left, ring.popBack = (some (freed entry), ring.future entry, left) ∧
      left.contents = items ∧ left.head = ring.head ∧ left.len = ring.len - 1 ∧
      Cleared ring left entry := by
  have length : ring.len = items.length + 1 := by
    rw [← Lib.RingBuffer.length_contents, queue, List.length_append, List.length_singleton]
  have found : ring.contents[ring.len - 1]? = some entry := by
    rw [queue, length, Nat.add_sub_cancel, List.getElem?_append_right (Nat.le_refl _), Nat.sub_self]
    rfl
  obtain ⟨cleared, step, contents, head, len, facts⟩ := clearFuture_position found
  have queueCleared : cleared.contents = items ++ [freed entry] := by
    rw [contents, Lib.modify_eq_append found, queue, length, Nat.add_sub_cancel, List.take_left,
      List.drop_eq_nil_of_le (by rw [List.length_append, List.length_singleton])]
  have reads : cleared.entry (ring.position (ring.len - 1)) = some (freed entry) := by
    rw [← position_of_head head, cleared.entry_position (by omega), queueCleared, length,
      Nat.add_sub_cancel, List.getElem?_append_right (Nat.le_refl _), Nat.sub_self]
    rfl
  refine ⟨{ cleared with toRingBuffer := cleared.dropBack }, ?_, ?_, ?_, ?_, facts.pushed,
    facts.futures, facts.freeSlots⟩
  · unfold popBack
    rw [if_neg (by omega)]
    dsimp only
    rw [step]
    dsimp only
    rw [reads]
  · exact (Lib.RingBuffer.contents_dropBack _).trans (by rw [queueCleared, List.dropLast_concat])
  · exact (Lib.RingBuffer.head_dropBack _).trans head
  · exact (Lib.RingBuffer.len_dropBack _).trans (by rw [len])

theorem popFront_empty (empty : ring.contents = []) : ring.popFront = (none, none, ring) := by
  unfold popFront
  rw [if_pos]
  rw [← Lib.RingBuffer.length_contents, empty, List.length_nil]

/-- Removing the head entry. -/
theorem popFront_cons (queue : ring.contents = entry :: items) :
    ∃ left, ring.popFront = (some (freed entry), ring.future entry, left) ∧
      left.contents = items ∧ (∀ index, left.position index = ring.position (index + 1)) ∧
      left.len = ring.len - 1 ∧ Cleared ring left entry := by
  have length : ring.len = items.length + 1 := by
    rw [← Lib.RingBuffer.length_contents, queue, List.length_cons]
  have found : ring.contents[0]? = some entry := by rw [queue]; rfl
  obtain ⟨cleared, step, contents, head, len, facts⟩ := clearFuture_position found
  have queueCleared : cleared.contents = freed entry :: items := by
    rw [contents, queue]
    rfl
  have reads : cleared.entry ring.head = some (freed entry) := by
    rw [← head, ← Lib.RingBuffer.position_zero, cleared.entry_position (by omega), queueCleared]
    rfl
  refine ⟨{ cleared with toRingBuffer := cleared.dropFront }, ?_, ?_, ?_, ?_, facts.pushed,
    facts.futures, facts.freeSlots⟩
  · unfold popFront
    rw [if_neg (by omega)]
    dsimp only
    rw [← Lib.RingBuffer.position_zero, step, Lib.RingBuffer.position_zero]
    dsimp only
    rw [reads]
  · exact (Lib.RingBuffer.contents_dropFront _).trans (by rw [queueCleared, List.tail_cons])
  · intro index
    refine (Lib.RingBuffer.position_dropFront (by omega) index).trans ?_
    exact position_of_head head (index + 1)
  · exact (Lib.RingBuffer.len_dropFront _).trans (by rw [len])

/-! ### Soundness of the slots -/

variable {entries : List Entry}

/-- The slots the entries of a queue live in. -/
def owned (entries : List Entry) : List Nat := entries.filterMap Entry.slot

/-- The slots of the entries and the free slots share out the allocated ones. -/
def Sound (ring : Ring Future) : Prop :=
  Lib.SlotsShared (owned ring.contents) ring.freeSlots ring.futures

theorem owned_append (first second : List Entry) :
    owned (first ++ second) = owned first ++ owned second :=
  List.filterMap_append

theorem owned_cons (entry : Entry) (rest : List Entry) :
    owned (entry :: rest) = entry.slot.toList ++ owned rest := by
  unfold owned
  rcases slot : entry.slot with - | slot
  · rw [List.filterMap_cons_none slot]
    rfl
  · rw [List.filterMap_cons_some slot]
    rfl

theorem owned_of_getElem? (found : entries[index]? = some entry) :
    owned entries = owned (entries.take index) ++
      (entry.slot.toList ++ owned (entries.drop (index + 1))) := by
  rw [← owned_cons, ← owned_append, ← Lib.eq_append_of_getElem? found]

theorem owned_modify (found : entries[index]? = some entry) (change : Entry → Entry) :
    owned (entries.modify index change) = owned (entries.take index) ++
      ((change entry).slot.toList ++ owned (entries.drop (index + 1))) := by
  rw [Lib.modify_eq_append found, owned_append, owned_cons]

/-- A change that leaves the slot alone leaves the owned slots alone. -/
theorem owned_modify_of_slot (entries : List Entry) (index : Nat) {change : Entry → Entry}
    (same : ∀ entry, (change entry).slot = entry.slot) :
    owned (entries.modify index change) = owned entries := by
  rcases found : entries[index]? with - | entry
  · rw [List.modify_eq_set_getElem?, found]
    rfl
  · rw [owned_modify found, same, ← owned_of_getElem? found]

/-- Clearing the future of an entry, and dropping the entry or keeping it without its slot,
keeps the slots sound. -/
theorem Sound.cleared {cleared : Ring Future} {before after : List Entry} (sound : ring.Sound)
    (queue : ring.contents = before ++ entry :: after) (facts : Cleared ring cleared entry)
    (left : owned cleared.contents = owned before ++ owned after) : cleared.Sound := by
  unfold Sound at sound ⊢
  rw [queue, owned_append, owned_cons] at sound
  rw [left, facts.freeSlots, facts.futures]
  rcases slot : entry.slot with - | slot
  · rw [slot] at sound
    exact sound
  · rw [slot] at sound
    exact sound.release

theorem Sound.congr {other : Ring Future} (sound : ring.Sound)
    (same : owned other.contents = owned ring.contents) (futures : other.futures = ring.futures)
    (freeSlots : other.freeSlots = ring.freeSlots) : other.Sound := by
  unfold Sound
  rw [same, futures, freeSlots]
  exact sound

/-- Starting the `index`th entry, which has no slot yet: a slot is always found, it held
nothing, and it now holds the future. -/
theorem start_position (sound : ring.Sound) (found : ring.contents[index]? = some entry)
    (idle : entry.slot = none) (future : Future) :
    ∃ started slot, ring.start (ring.position index) future = (true, started) ∧
      started.contents = ring.contents.modify index (fun entry =>
        { entry with slot := some slot, stage := .running, started := true }) ∧
      started.head = ring.head ∧ started.len = ring.len ∧ started.pushed = ring.pushed ∧
      started.Sound ∧
      (started.futures = ring.futures.set slot (some future) ∧ ring.futures[slot]? = some none ∨
        started.futures = ring.futures ++ [some future] ∧ slot = ring.futures.length) := by
  have inside : index < ring.len := by
    have := (List.getElem?_eq_some_iff.mp found).1
    rwa [Lib.RingBuffer.length_contents] at this
  have reads : ring.entry (ring.position index) = some entry := by
    rw [ring.entry_position inside, found]
  have shared : Lib.SlotsShared (owned (ring.contents.take index) ++
      owned (ring.contents.drop (index + 1))) ring.freeSlots ring.futures := by
    have sound := sound
    unfold Sound at sound
    rwa [owned_of_getElem? found, idle] at sound
  have ownedAfter (slot : Nat) : owned (ring.contents.modify index fun entry =>
        { entry with slot := some slot, stage := .running, started := true }) =
      owned (ring.contents.take index) ++
        slot :: owned (ring.contents.drop (index + 1)) :=
    owned_modify found _
  unfold start
  rw [reads]
  rcases free : ring.freeSlots with - | ⟨slot, rest⟩
  · rw [free] at shared
    dsimp only
    rw [if_pos (by rw [List.length_append, List.length_singleton]; omega)]
    refine ⟨_, ring.futures.length, rfl, contents_entryMut_position _ inside _, rfl, rfl, rfl,
      ?_, .inr ⟨?_, rfl⟩⟩
    · unfold Sound
      rw [contents_entryMut_position _ inside, ownedAfter]
      exact shared.grow _
    · dsimp only
      rw [List.set_append_right _ _ (Nat.le_refl _), Nat.sub_self]
      rfl
  · rw [free] at shared
    have vacant := shared.idle slot List.mem_cons_self
    dsimp only
    rw [if_pos (List.getElem?_eq_some_iff.mp vacant).1]
    refine ⟨_, slot, rfl, contents_entryMut_position _ inside _, rfl, rfl, rfl, ?_,
      .inl ⟨rfl, vacant⟩⟩
    unfold Sound
    rw [contents_entryMut_position _ inside, ownedAfter]
    exact shared.claim _

end Ring

end ZeroServer.Http

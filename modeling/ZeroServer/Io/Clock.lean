/-
This file runs the clock of a core: registrations, refreshes, removals and firings in any order and
with any keys. A key acts on the sleep it was handed out for and on no other, as long as the counter
of registrations has not come back to it.
-/

import ZeroServer.Io.Timers

namespace ZeroServer.Io

open Lib Timers

/-- A call to the clock. -/
inductive Call where
  | insert (deadline waker : Nat)
  | refresh (key : Key) (waker : Nat)
  | remove (key : Key)
  | fire (now : Nat)

/-- A clock with the keys it has handed out, in order. -/
structure Clock where
  timers : Timers
  keys : List Key

namespace Clock

def new : Clock := ⟨Timers.new, []⟩

def perform (clock : Clock) : Call → Clock
  | .insert deadline waker =>
    ⟨(clock.timers.insert deadline waker).2,
      clock.keys ++ [(clock.timers.insert deadline waker).1]⟩
  | .refresh key waker => { clock with timers := clock.timers.refresh key waker }
  | .remove key => { clock with timers := (clock.timers.remove key).2 }
  | .fire now => { clock with timers := (clock.timers.fire now).2 }

def run (calls : List Call) : Clock := calls.foldl perform new

theorem run_append (calls : List Call) (call : Call) :
    run (calls ++ [call]) = (run calls).perform call := by
  unfold run
  rw [List.foldl_append]
  rfl

/-- What the keys of a clock say of its sleeps. The key of a sleep names its slot, and no sleep in
the slot of a key is older than the key. -/
structure Keyed (clock : Clock) : Prop where
  sound : Sound clock.timers
  counted : clock.timers.registered = clock.keys.length
  sequence : ∀ (serial : Nat) (key : Key), clock.keys[serial]? = some key →
    key.sequence = serial % 2 ^ 64
  own : ∀ (serial : Nat) (key : Key), clock.keys[serial]? = some key →
    ∀ (slot : Nat) (registration : Registration),
      clock.timers.asleep slot = some registration → registration.serial = serial →
        slot = key.slot
  later : ∀ (serial : Nat) (key : Key), clock.keys[serial]? = some key →
    ∀ registration : Registration, clock.timers.asleep key.slot = some registration →
      serial ≤ registration.serial

theorem sound_new : Sound Timers.new := by
  refine ⟨⟨?_, SlotsShared.start, rfl, ?_, ?_⟩, ?_⟩
  · intro place slot at_
    cases at_
  · intro slot registration here
    cases here
  · intro one two first second here
    cases here
  · intro child _ high here
    cases here

theorem keyed_new : Keyed new := by
  refine ⟨sound_new, rfl, ?_, ?_, ?_⟩ <;> intro serial key held <;> cases held

variable {clock : Clock}

/-- A call that registers nothing. -/
theorem Keyed.fewer (keyed : Keyed clock) {after : Timers} (sound : Sound after)
    (registered : after.registered = clock.timers.registered)
    (old : ∀ slot registration, after.asleep slot = some registration →
      ∃ before, clock.timers.asleep slot = some before ∧ before.serial = registration.serial) :
    Keyed { clock with timers := after } := by
  refine ⟨sound, registered.trans keyed.counted, keyed.sequence, ?_, ?_⟩
  · intro serial key held slot registration here same
    obtain ⟨before, was, serial'⟩ := old slot registration here
    exact keyed.own serial key held slot before was (serial'.trans same)
  · intro serial key held registration here
    obtain ⟨before, was, serial'⟩ := old key.slot registration here
    exact serial' ▸ keyed.later serial key held before was

theorem Keyed.insert (keyed : Keyed clock) (deadline waker : Nat) :
    Keyed (clock.perform (.insert deadline waker)) := by
  obtain ⟨sound, sequence, vacant, effect, registered⟩ := insert_spec keyed.sound deadline waker
  unfold perform
  dsimp only
  generalize clock.timers.insert deadline waker = made at *
  obtain ⟨fresh, after⟩ := made
  dsimp only at sequence vacant effect registered sound
  have cases_ : ∀ {serial : Nat} {key : Key}, (clock.keys ++ [fresh])[serial]? = some key →
      clock.keys[serial]? = some key ∧ serial < clock.timers.registered ∨
        key = fresh ∧ serial = clock.timers.registered := by
    intro serial key held
    rw [keyed.counted]
    rcases Nat.lt_or_ge serial clock.keys.length with inside | outside
    · rw [List.getElem?_append_left inside] at held
      exact .inl ⟨held, inside⟩
    · rw [List.getElem?_append_right outside, List.getElem?_singleton] at held
      split at held
      · cases held
        exact .inr ⟨rfl, by omega⟩
      · cases held
  have holder : ∀ {slot : Nat} {registration : Registration},
      after.asleep slot = some registration →
        slot = fresh.slot ∧ registration.serial = clock.timers.registered ∨
          slot ≠ fresh.slot ∧ clock.timers.asleep slot = some registration := by
    intro slot registration here
    rw [effect] at here
    rcases eq_or_ne slot fresh.slot with rfl | apart
    · rw [Function.update_self] at here
      cases here
      exact .inl ⟨rfl, rfl⟩
    · rw [Function.update_of_ne apart] at here
      exact .inr ⟨apart, here⟩
  have below : ∀ {slot : Nat} {registration : Registration},
      clock.timers.asleep slot = some registration →
        registration.serial < clock.timers.registered := fun here =>
    (keyed.sound.numbered _ _ (asleep_eq_some.mp here)).2
  refine ⟨sound, ?_, ?_, ?_, ?_⟩
  · rw [registered, keyed.counted, List.length_append]
    rfl
  · intro serial key held
    rcases cases_ held with ⟨was, -⟩ | ⟨rfl, rfl⟩
    · exact keyed.sequence serial key was
    · rw [sequence, keyed.sound.next]
  · intro serial key held slot registration here same
    rcases cases_ held with ⟨was, inside⟩ | ⟨rfl, rfl⟩
    · rcases holder here with ⟨-, new_⟩ | ⟨-, here⟩
      · omega
      · exact keyed.own serial key was slot registration here same
    · rcases holder here with ⟨slot_, -⟩ | ⟨-, here⟩
      · exact slot_
      · exact absurd same (Nat.ne_of_lt (below here))
  · intro serial key held registration here
    rcases cases_ held with ⟨was, inside⟩ | ⟨rfl, rfl⟩
    · rcases holder here with ⟨-, new_⟩ | ⟨-, here⟩
      · omega
      · exact keyed.later serial key was registration here
    · rcases holder here with ⟨-, new_⟩ | ⟨apart, -⟩
      · exact Nat.le_of_eq new_.symm
      · exact absurd rfl apart

variable {registration : Registration}

/-- What sleeps behind a change of one slot slept before, or was put there. -/
theorem of_update {sleeps : Nat → Option Registration} {place slot : Nat}
    {put : Option Registration} (here : Function.update sleeps place put slot = some registration) :
    slot = place ∧ put = some registration ∨ slot ≠ place ∧ sleeps slot = some registration := by
  rcases eq_or_ne slot place with rfl | apart
  · rw [Function.update_self] at here
    exact .inl ⟨rfl, here⟩
  · rw [Function.update_of_ne apart] at here
    exact .inr ⟨apart, here⟩

theorem Keyed.perform (keyed : Keyed clock) (call : Call) : Keyed (clock.perform call) := by
  cases call with
  | insert deadline waker => exact keyed.insert deadline waker
  | refresh key waker =>
    unfold Clock.perform
    dsimp only
    rcases found : clock.timers.entryOf key with - | entry
    · rw [refresh_none found]
      exact keyed
    · obtain ⟨sound, effect, registered⟩ := refresh_spec keyed.sound found waker
      refine keyed.fewer sound registered fun slot registration here => ?_
      rw [effect] at here
      rcases of_update here with ⟨rfl, put⟩ | ⟨-, here⟩
      · cases put
        exact ⟨_, asleep_eq_some.mpr (getElem?_held (entryOf_eq_some.mp found).1), rfl⟩
      · exact ⟨registration, here, rfl⟩
  | remove key =>
    unfold Clock.perform
    dsimp only
    rcases found : clock.timers.entryOf key with - | entry
    · rw [remove_none found]
      exact keyed
    · obtain ⟨after, made, sound, effect, registered⟩ := remove_spec keyed.sound found
      rw [made]
      refine keyed.fewer sound registered fun slot registration here => ?_
      rw [effect] at here
      rcases of_update here with ⟨-, put⟩ | ⟨-, here⟩
      · cases put
      · exact ⟨registration, here, rfl⟩
  | fire now =>
    have fired := fire_spec keyed.sound now
    refine keyed.fewer fired.sound fired.registered fun slot registration here => ?_
    rw [fired.left] at here
    exact ⟨registration, (Option.filter_eq_some_iff.mp here).1, rfl⟩

theorem keyed_run (calls : List Call) : Keyed (run calls) := by
  unfold run
  refine List.foldlRecOn calls perform keyed_new fun clock keyed call _ => keyed.perform call

/-! ### The clock is exact -/

/-- A key whose sleep is registered acts on it. -/
theorem Keyed.live (keyed : Keyed clock) {serial : Nat} {key : Key}
    (held : clock.keys[serial]? = some key) {slot : Nat}
    (here : clock.timers.asleep slot = some registration) (same : registration.serial = serial) :
    slot = key.slot ∧
      (clock.timers.remove key).1.map Entry.registration = some registration ∧
      (clock.timers.remove key).2.asleep = Function.update clock.timers.asleep slot none ∧
      ∀ waker, (clock.timers.refresh key waker).asleep =
        Function.update clock.timers.asleep slot (some { registration with waker }) := by
  have slot_ := keyed.own serial key held slot registration here same
  subst slot_
  have sequence : registration.sequence = key.sequence := by
    rw [keyed.sequence serial key held, ← same]
    exact (keyed.sound.numbered _ _ (asleep_eq_some.mp here)).1
  obtain ⟨entry, found, rfl⟩ := entryOf_asleep here sequence
  obtain ⟨after, made, -, effect, -⟩ := remove_spec keyed.sound found
  refine ⟨rfl, ?_, ?_, fun waker => (refresh_spec keyed.sound found waker).2.1⟩
  · rw [made]
    rfl
  · rw [made]
    exact effect

/-- A key whose sleep is not registered any more does nothing, unless the counter has come back to
it. -/
theorem Keyed.stale (keyed : Keyed clock) {serial : Nat} {key : Key}
    (held : clock.keys[serial]? = some key)
    (gone : ∀ slot registration, clock.timers.asleep slot = some registration →
      registration.serial ≠ serial)
    (notAround : ∀ registration, clock.timers.asleep key.slot = some registration →
      ∀ turns, registration.serial ≠ serial + (turns + 1) * 2 ^ 64) :
    clock.timers.remove key = (none, clock.timers) ∧
      ∀ waker, clock.timers.refresh key waker = clock.timers := by
  have none_ : clock.timers.entryOf key = none := by
    refine entryOf_none fun registration here same => ?_
    have numbered := (keyed.sound.numbered _ _ (asleep_eq_some.mp here)).1
    have apart := gone key.slot registration here
    have later := keyed.later serial key held registration here
    have further := notAround registration here ((registration.serial - serial) / 2 ^ 64 - 1)
    rw [numbered, keyed.sequence serial key held] at same
    omega
  exact ⟨remove_none none_, refresh_none none_⟩

/-- Over any calls the heap is in order by deadline, every entry knows its place in it, and the heap
and the free slots share out the slots. A key acts on its own sleep, and on nothing when that is
gone and the counter of registrations has not come back to the key. A firing wakes the sleeps whose
deadline has passed, each once and the earlier first, and leaves the others; the time returned is
the one to the least deadline. -/
theorem timers_exact (calls : List Call) :
    let clock := run calls
    let timers := clock.timers
    Heap.Ordered (deadlineOf timers.slots) timers.heap ∧
    (∀ (slot : Nat) (entry : Entry), timers.slots[slot]? = some (some entry) →
      timers.heap[entry.position]? = some slot) ∧
    (timers.heap ++ timers.free).Perm (List.range timers.slots.length) ∧
    (∀ slot, (timers.slots[slot]?.join).isSome = true ↔ slot ∈ timers.heap) ∧
    (∀ (serial : Nat) (key : Key), clock.keys[serial]? = some key →
      (∀ slot registration, timers.asleep slot = some registration →
        registration.serial = serial →
          slot = key.slot ∧
          (timers.remove key).1.map Entry.registration = some registration ∧
          (timers.remove key).2.asleep = Function.update timers.asleep slot none ∧
          ∀ waker, (timers.refresh key waker).asleep =
            Function.update timers.asleep slot (some { registration with waker })) ∧
      ((∀ slot registration, timers.asleep slot = some registration →
          registration.serial ≠ serial) →
        (∀ registration, timers.asleep key.slot = some registration →
          ∀ turns, registration.serial ≠ serial + (turns + 1) * 2 ^ 64) →
        timers.remove key = (none, timers) ∧ ∀ waker, timers.refresh key waker = timers)) ∧
    (∀ now, Fired timers now ((timers.fire now).1.map Entry.registration) (timers.fire now).2) ∧
    (∀ now, timers.nextTimeout now = none ↔ ∀ slot, timers.asleep slot = none) ∧
    ∀ now least, IsLeast {deadline | ∃ slot registration,
        timers.asleep slot = some registration ∧ registration.deadline = deadline} least →
      timers.nextTimeout now = some (least - now) := by
  have keyed := keyed_run calls
  have sound := keyed.sound
  refine ⟨sound.ordered, fun slot entry here => sound.at_position here, ?_, fun slot => ?_,
    fun serial key held => ⟨fun slot registration here same => keyed.live held here same,
      fun gone notAround => keyed.stale held gone notAround⟩,
    fire_spec sound, nextTimeout_eq_none sound, fun now least => nextTimeout_least sound now⟩
  · have shared := sound.shared.partition
    rw [show (held (run calls).timers.slots).length = _ from List.length_map _] at shared
    exact shared
  · constructor
    · intro some_
      obtain ⟨entry, here⟩ := Option.isSome_iff_exists.mp some_
      exact List.mem_of_getElem? (sound.at_position (Option.join_eq_some_iff.mp here))
    · intro member
      obtain ⟨place, at_⟩ := List.mem_iff_getElem?.mp member
      obtain ⟨entry, here, -⟩ := sound.placed place slot at_
      rw [here]
      rfl

/-! ### The counter comes back -/

/-- One sleep registered and fired. -/
def round : List Call := [.insert 0 0, .fire 0]

def rounds (count : Nat) : List Call := (List.replicate count round).flatten

/-- A clock of one free slot. -/
def idle (registered : Nat) : Timers := ⟨[none], [0], [], registered % 2 ^ 64, registered⟩

theorem insert_idle (registered : Nat) :
    (idle registered).insert 0 0 = (⟨0, registered % 2 ^ 64⟩,
      ⟨[some ⟨0, 0, 0, registered % 2 ^ 64, registered⟩], [], [0],
        (registered % 2 ^ 64 + 1) % 2 ^ 64, registered + 1⟩) := by
  unfold Timers.insert idle
  dsimp only
  rw [Timers.siftUp]
  rfl

theorem fire_one (sequence next serial registered : Nat) :
    (Timers.fire ⟨[some ⟨0, 0, 0, sequence, serial⟩], [], [0], next, registered⟩ 0).2 =
      ⟨[none], [0], [], next, registered⟩ := by
  rw [Timers.fire]
  show (Timers.fire ⟨[none], [0], [], next, registered⟩ 0).2 = _
  rw [Timers.fire]
  rfl

theorem run_rounds (count : Nat) : ∃ keys, keys[0]? = some ⟨0, 0⟩ ∧
    run (rounds (count + 1)) = ⟨idle (count + 1), keys⟩ := by
  induction count with
  | zero =>
    refine ⟨[⟨0, 0⟩], rfl, ?_⟩
    show (Clock.new.perform (.insert 0 0)).perform (.fire 0) = _
    unfold perform Clock.new Timers.new Timers.insert
    dsimp only
    rw [Timers.siftUp]
    exact congrArg (Clock.mk · _) (fire_one 0 1 0 1)
  | succ count inductionHypothesis =>
    obtain ⟨keys, first, same⟩ := inductionHypothesis
    refine ⟨keys ++ [⟨0, (count + 1) % 2 ^ 64⟩], ?_, ?_⟩
    · rw [List.getElem?_append_left (List.getElem?_eq_some_iff.mp first).1]
      exact first
    · have split_ : rounds (count + 1 + 1) = rounds (count + 1) ++ round := by
        unfold rounds
        rw [List.replicate_succ', List.flatten_append, List.flatten_singleton]
      unfold run at same ⊢
      rw [split_, List.foldl_append, same]
      show perform (perform ⟨idle (count + 1), keys⟩ (.insert 0 0)) (.fire 0) = _
      unfold perform
      dsimp only
      rw [insert_idle, fire_one]
      unfold idle
      rw [Nat.mod_add_mod]

/-- After as many registrations as the counter has values, a key whose sleep has fired takes out
the sleep that has its slot now. -/
theorem stale_key_removes : ∃ (calls : List Call) (serial : Nat) (key : Key),
    (run calls).keys[serial]? = some key ∧
    (∀ slot registration, (run calls).timers.asleep slot = some registration →
      registration.serial ≠ serial) ∧
    (run calls).timers.remove key ≠ (none, (run calls).timers) := by
  obtain ⟨keys, first, same⟩ := run_rounds (2 ^ 64 - 1)
  rw [show 2 ^ 64 - 1 + 1 = 2 ^ 64 from by omega] at same
  have whole : run (rounds (2 ^ 64) ++ [.insert 0 0]) =
      ⟨⟨[some ⟨0, 0, 0, 0, 2 ^ 64⟩], [], [0], 1, 2 ^ 64 + 1⟩, keys ++ [⟨0, 0⟩]⟩ := by
    rw [run_append, same]
    have inserted := insert_idle (2 ^ 64)
    rw [Nat.mod_self, Nat.zero_add, Nat.mod_eq_of_lt (show 1 < 2 ^ 64 by decide)] at inserted
    unfold perform
    dsimp only
    rw [inserted]
  refine ⟨rounds (2 ^ 64) ++ [.insert 0 0], 0, ⟨0, 0⟩, ?_, ?_, ?_⟩
  · rw [whole, List.getElem?_append_left (List.getElem?_eq_some_iff.mp first).1]
    exact first
  · intro slot registration here
    rw [whole] at here
    rcases slot with - | slot
    · cases here
      nofun
    · cases here
  · rw [whole]
    intro refused
    cases congrArg (Option.isSome ∘ Prod.fst) refused

end Clock

end ZeroServer.Io

/-
This file proves how pipelined requests run. A request whose method is not safe runs alone and
first; the requests whose handlers were started form the front of the queue, those answered
without running its end; and the ring is a queue of bounded length in which every request keeps
the position it was put at and the running handlers share out the slots.
-/

import ZeroServer.Http.Written

namespace ZeroServer.Http

open Http1

/-! ### The ring as a queue -/

/-- The ring's operations are those of a queue of at most `cap` requests, and none of them moves
a request that stays. -/
structure Ring.AsDeque {Future : Type} (ring : Ring Future) : Prop where
  bounded : ring.contents.length ≤ cap
  length : ring.len = ring.contents.length
  reads : ∀ index, index < ring.len → ring.entry (ring.position index) = ring.contents[index]?
  apart : ∀ first second, first < ring.len → second < ring.len →
    ring.position first = ring.position second → first = second
  push : ∀ entry, (ring.push entry = none ↔ ring.contents.length = cap) ∧
    ∀ pushed, ring.push entry = some pushed →
      pushed.contents = ring.contents ++
        [{ entry with serial := ring.pushed, place := ring.position ring.len }] ∧
      ∀ index, pushed.position index = ring.position index
  popFront : ring.popFront.1 = ring.contents.head?.map freed ∧
    ring.popFront.2.2.contents = ring.contents.tail ∧
    (0 < ring.len → ∀ index, ring.popFront.2.2.position index = ring.position (index + 1))
  popBack : ring.popBack.1 = ring.contents.getLast?.map freed ∧
    ring.popBack.2.2.contents = ring.contents.dropLast ∧
    ∀ index, ring.popBack.2.2.position index = ring.position index
  edit : ∀ index change, index < ring.len →
    (ring.entryMut (ring.position index) change).contents = ring.contents.modify index change ∧
    ∀ other, (ring.entryMut (ring.position index) change).position other = ring.position other
  clear : ∀ index, index < ring.len →
    (ring.clearFuture (ring.position index)).2.contents = ring.contents.modify index freed ∧
    ∀ other, (ring.clearFuture (ring.position index)).2.position other = ring.position other

namespace Ring

variable {Future : Type}

theorem push_none_iff (ring : Ring Future) (entry : Entry) :
    ring.push entry = none ↔ ring.contents.length = cap := by
  rw [Lib.RingBuffer.length_contents]
  rcases ring.push_cases entry with ⟨none_, full⟩ | ⟨pushed, some_, room, -⟩
  · exact iff_of_true none_ full
  · refine iff_of_false ?_ (Nat.ne_of_lt room)
    rw [some_]
    simp

theorem popFront_spec (ring : Ring Future) :
    ring.popFront.1 = ring.contents.head?.map freed ∧
      ring.popFront.2.2.contents = ring.contents.tail ∧
      (0 < ring.len → ∀ index, ring.popFront.2.2.position index = ring.position (index + 1)) := by
  rcases queue : ring.contents with - | ⟨entry, items⟩
  · rw [popFront_empty queue]
    refine ⟨rfl, queue, fun held => ?_⟩
    rw [← Lib.RingBuffer.length_contents, queue] at held
    cases held
  · obtain ⟨left, popped, contents, position, -, -⟩ := popFront_cons queue
    rw [popped]
    exact ⟨rfl, contents, fun _ => position⟩

theorem popBack_spec (ring : Ring Future) :
    ring.popBack.1 = ring.contents.getLast?.map freed ∧
      ring.popBack.2.2.contents = ring.contents.dropLast ∧
      ∀ index, ring.popBack.2.2.position index = ring.position index := by
  rcases List.eq_nil_or_concat ring.contents with queue | ⟨items, entry, queue⟩
  · rw [popBack_empty queue]
    refine ⟨?_, ?_, fun _ => rfl⟩
    · rw [queue]
      rfl
    · dsimp only
      rw [queue]
      rfl
  · rw [List.concat_eq_append] at queue
    obtain ⟨left, popped, contents, head, -, -⟩ := popBack_concat queue
    rw [popped, queue, List.getLast?_concat, List.dropLast_concat]
    exact ⟨rfl, contents, position_of_head head⟩

theorem asDeque (ring : Ring Future) : ring.AsDeque := by
  have found {index : Nat} (inside : index < ring.len) :
      ∃ entry, ring.contents[index]? = some entry :=
    ⟨_, List.getElem?_eq_getElem (by rw [Lib.RingBuffer.length_contents]; exact inside)⟩
  refine ⟨?_, ?_, fun index => ring.entry_position, ?_, fun entry => ⟨?_, ?_⟩, ring.popFront_spec,
    ring.popBack_spec, fun index change inside => ⟨?_, fun _ => rfl⟩, fun index inside => ?_⟩
  · rw [Lib.RingBuffer.length_contents]
    exact ring.len_le
  · rw [Lib.RingBuffer.length_contents]
  · intro first second firstInside secondInside same
    have fits := ring.len_le
    exact ring.position_injective (by omega) (by omega) same
  · exact ring.push_none_iff entry
  · intro pushed step
    rcases ring.push_cases entry with ⟨none_, -⟩ | ⟨grown, some_, -, contents, head, -⟩
    · rw [none_] at step
      cases step
    · rw [some_] at step
      cases step
      exact ⟨contents, position_of_head head⟩
  · exact ring.contents_entryMut_position inside change
  · obtain ⟨entry, here⟩ := found inside
    obtain ⟨cleared, step, contents, head, -, -⟩ := clearFuture_position here
    rw [step]
    exact ⟨contents, position_of_head head⟩

end Ring

/-! ### The order requests run in -/

/-- What holds of the requests in flight. -/
structure Ring.Pipelined {Future : Type} (ring : Ring Future) : Prop where
  alone : ∀ (index : Nat) (entry : Entry), ring.contents[index]? = some entry → entry.safe = false →
    entry.stage = .running → index = 0 ∧
      ∀ (other : Nat) (later : Entry), ring.contents[other]? = some later → later.stage = .running → other = 0
  front : ∃ ran still answered, ring.contents = ran ++ still ++ answered ∧
    (∀ entry ∈ ran, entry.stage.isStarted = true ∧ entry.started = true) ∧
    (∀ entry ∈ still, entry.stage.isStarted = false ∧ entry.started = false) ∧
    ∀ entry ∈ answered, entry.stage = .done ∧ entry.started = false
  behind : ∀ (first second : Nat) (entry later : Entry), ring.contents[first]? = some entry →
    ring.contents[second]? = some later → first < second → entry.safe = false →
    entry.stage ≠ .done → later.started = false
  slots : (Ring.owned ring.contents ++ ring.freeSlots).Perm (List.range ring.futures.length) ∧
    (Ring.owned ring.contents ++ ring.freeSlots).Nodup
  runs : ∀ entry ∈ ring.contents,
    (∃ slot, entry.slot = some slot ∧ slot < ring.futures.length) ↔ entry.stage = .running
  stays : ∀ (index : Nat) (entry : Entry), ring.contents[index]? = some entry →
    entry.place = ring.position index

theorem Entry.Before.of_indices {entries : List Entry} (pairwise : entries.Pairwise Entry.Before)
    {first second : Nat} {entry later : Entry} (here : entries[first]? = some entry)
    (there : entries[second]? = some later) (order : first < second) : entry.Before later := by
  obtain ⟨inside, rfl⟩ := List.getElem?_eq_some_iff.mp here
  obtain ⟨insideLater, rfl⟩ := List.getElem?_eq_some_iff.mp there
  exact List.pairwise_iff_getElem.mp pairwise first second inside insideLater order

/-- A queue in which what follows an entry that was not started was not started either splits
where the started ones end, and again where the answered ones begin. -/
theorem split_started {entries : List Entry} (pairwise : entries.Pairwise Entry.Before)
    (begun : ∀ entry ∈ entries, entry.stage = .running → entry.started = true)
    (runs : ∀ entry ∈ entries, entry.started = true → entry.stage.isStarted = true) :
    ∃ ran still answered, entries = ran ++ still ++ answered ∧
      (∀ entry ∈ ran, entry.stage.isStarted = true ∧ entry.started = true) ∧
      (∀ entry ∈ still, entry.stage.isStarted = false ∧ entry.started = false) ∧
      ∀ entry ∈ answered, entry.stage = .done ∧ entry.started = false := by
  induction entries with
  | nil => exact ⟨[], [], [], rfl, by simp, by simp, by simp⟩
  | cons entry rest inductionHypothesis =>
    rw [List.pairwise_cons] at pairwise
    rw [List.forall_mem_cons] at begun runs
    obtain ⟨ran, still, answered, split, ranOk, stillOk, answeredOk⟩ :=
      inductionHypothesis pairwise.2 begun.2 runs.2
    rcases started : entry.started with - | -
    · have unstarted : ∀ later ∈ rest, entry.stage = .done ∨ later.started = false := by
        intro later member
        rcases ran : later.started with - | -
        · exact .inr rfl
        · obtain ⟨-, isStarted, -⟩ := (pairwise.1 later member).ran ran
          rcases stage : entry.stage with ⟨_, _, _⟩ | - | - | -
          · rw [stage] at isStarted
            cases isStarted
          · rw [stage] at isStarted
            cases isStarted
          · have := begun.1 stage
            rw [started] at this
            cases this
          · exact .inl rfl
      by_cases done : entry.stage = .done
      · refine ⟨[], [], entry :: rest, rfl, by simp, by simp, ?_⟩
        rw [List.forall_mem_cons]
        exact ⟨⟨done, started⟩, fun later member =>
          (pairwise.1 later member).answered done started⟩
      · have none_ : ran = [] := by
          rcases ran with - | ⟨first, others⟩
          · rfl
          · have member : first ∈ rest := by rw [split]; simp
            rcases unstarted first member with isDone | fresh
            · exact absurd isDone done
            · rw [(ranOk first List.mem_cons_self).2] at fresh
              cases fresh
        subst none_
        refine ⟨[], entry :: still, answered, by rw [split]; rfl, by simp, ?_, answeredOk⟩
        rw [List.forall_mem_cons]
        refine ⟨⟨?_, started⟩, stillOk⟩
        rcases stage : entry.stage with ⟨_, _, _⟩ | - | - | -
        · rfl
        · rfl
        · have := begun.1 stage
          rw [started] at this
          cases this
        · exact absurd stage done
    · refine ⟨entry :: ran, still, answered, by rw [split]; rfl, ?_, stillOk, answeredOk⟩
      rw [List.forall_mem_cons]
      exact ⟨⟨runs.1 started, started⟩, ranOk⟩

theorem Conn.Wf.pipelined {conn : Conn} (wf : conn.Wf) : conn.ring.Pipelined := by
  have related {first second : Nat} {entry later : Entry} :=
    @Entry.Before.of_indices conn.ring.contents wf.before first second entry later
  have started {entry : Entry} (member : entry ∈ conn.ring.contents)
      (running : entry.stage = .running) : entry.started = true :=
    (wf.ok entry member).started running
  refine ⟨?_, ?_, ?_, ⟨wf.sound.partition, wf.sound.nodup⟩, ?_, wf.places⟩
  · intro index entry here risky running
    have first : index = 0 := by
      by_contra later
      have front : (0 : Nat) < conn.ring.contents.length :=
        Nat.lt_of_le_of_lt (Nat.zero_le index) (List.getElem?_eq_some_iff.mp here).1
      have before := related (List.getElem?_eq_getElem front) here (by omega)
      have safe := (before.ran (started (List.mem_of_getElem? here) running)).2.2
      rw [risky] at safe
      cases safe
    refine ⟨first, fun other later there runs => ?_⟩
    by_contra behind
    have before := related here there (by omega)
    have safe := (before.ran (started (List.mem_of_getElem? there) runs)).1
    rw [risky] at safe
    cases safe
  · exact split_started wf.before (fun entry member => started member)
      fun entry member => (wf.ok entry member).begun
  · intro first second entry later here there order risky open_
    rcases ran : later.started with - | -
    · rfl
    · have safe := ((related here there order).ran ran).1
      rw [risky] at safe
      cases safe
  · intro entry member
    rw [← (wf.ok entry member).slot, Option.isSome_iff_exists]
    constructor
    · rintro ⟨slot, owned, -⟩
      exact ⟨slot, owned⟩
    · rintro ⟨slot, owned⟩
      exact ⟨slot, owned, wf.sound.lt_of_mem (List.mem_filterMap.mpr ⟨entry, member, owned⟩)⟩

/-! ### Every run -/

namespace Conn

/-- The write in progress does not matter for dropping requests. -/
theorem discardBack_writing (conn : Conn) (writing : Option Writing) :
    discardBack { conn with writing := writing } = { conn.discardBack with writing := writing } := by
  unfold discardBack
  dsimp only
  rcases conn.ring.popBack with ⟨- | entry, - | charged, ring⟩ <;> rfl

theorem discardTimes_writing (times : Nat) (conn : Conn) (writing : Option Writing) :
    discardTimes times { conn with writing := writing } =
      { discardTimes times conn with writing := writing } := by
  induction times generalizing conn with
  | zero => rfl
  | succ times inductionHypothesis =>
    unfold discardTimes
    rw [discardBack_writing, inductionHypothesis]

/-- What the end of a connection leaves: an empty queue with its slots in order. -/
theorem finish_wf {conn : Conn} (wf : conn.Wf) :
    conn.finish.ring.contents = [] ∧ conn.finish.ring.Pipelined := by
  have ring : conn.finish.ring = (discardTimes (conn.ring.len - 0) { conn with
      writing := none, input := [], next := none
      shared := conn.next.elim conn.shared fun record => conn.shared.giveRecord record.1 }).ring := by
    have same := discardTimes_writing (conn.ring.len - 0) { conn with
      input := [], next := none
      shared := conn.next.elim conn.shared fun record => conn.shared.giveRecord record.1 } none
    dsimp only at same
    rw [same]
    unfold finish
    dsimp only
    split <;> rfl
  have left : Wf { conn with
      writing := none, input := [], next := none
      shared := conn.next.elim conn.shared fun record => conn.shared.giveRecord record.1 } :=
    wf.unwritten rfl rfl rfl rfl rfl
  obtain ⟨emptied, shared, holds, discarded, moves, contents, -⟩ :=
    @discardFrom_moves { conn with
      writing := none, input := [], next := none
      shared := conn.next.elim conn.shared fun record => conn.shared.giveRecord record.1 }
      0 (Nat.zero_le _) fun writing planned => by cases planned
  unfold discardFrom at discarded moves
  rw [ring]
  refine ⟨?_, (moves.wf left).pipelined⟩
  rw [discarded]
  exact contents

end Conn

namespace Driver

theorem Step.pipelined {driver next : Driver} (step : Step driver next) (sane : driver.Sane)
    (pipelined : driver.conn.ring.Pipelined) : next.conn.ring.Pipelined := by
  have after := step.sane sane
  by_cases ended : next.phase = .ended
  · cases step with
    | turn phase now later =>
      obtain ⟨wf, idle⟩ := sane (by rw [phase]; simp)
      obtain ⟨mid, settles, ticked⟩ := Conn.tick_eq wf idle now later
      unfold Driver.turn at ended ⊢
      dsimp only at ended ⊢
      split
      · rw [ticked]
        exact (Conn.finish_wf (Conn.planWrite_wf (settles.wf wf) later)).2
      · rename_i going
        rw [if_neg going] at ended
        cases ended
    | wake => cases ended
    | work phase =>
      change driver.phase = .ended at ended
      rw [phase] at ended
      cases ended
    | exports phase =>
      change driver.phase = .ended at ended
      rw [phase] at ended
      cases ended
    | core kin => exact pipelined
  · exact (after ended).1.pipelined

/-- In every state a connection can reach, also while completed futures wait for their responses
to be taken, the requests in flight run as pipelining allows and the ring is a queue. -/
theorem reachable_pipelined {driver : Driver} (reachable : Reachable driver) :
    driver.conn.ring.Pipelined ∧ driver.conn.ring.AsDeque ∧
      ∀ outcome, driver.phase = .waiting →
        (driver.conn.pollRunning outcome).ring.Pipelined ∧
        (driver.conn.pollRunning outcome).ring.AsDeque := by
  have sane := reachable.sane
  have pipelined : driver.conn.ring.Pipelined := by
    obtain ⟨shared, authorities, now, run⟩ := reachable
    clear sane
    have every : driver.Sane ∧ driver.conn.ring.Pipelined := by
      induction run with
      | refl =>
        have fresh := new_sane shared authorities now
        exact ⟨fresh, (fresh (by simp [new])).1.pipelined⟩
      | tail _ step inductionHypothesis =>
        exact ⟨step.sane inductionHypothesis.1,
          step.pipelined inductionHypothesis.1 inductionHypothesis.2⟩
    exact every.2
  refine ⟨pipelined, Ring.asDeque _, fun outcome phase => ⟨?_, Ring.asDeque _⟩⟩
  obtain ⟨wf, -⟩ := sane (by rw [phase]; simp)
  exact ((driver.conn.pollRunning_moves outcome).wf wf).pipelined

/-- A `POST` runs while the `GET` pipelined behind it waits. -/
theorem reachable_pipelined_post :
    let driver := readPlain
      (ascii "POST /a HTTP/1.1\r\nHost: h\r\n\r\nGET /b HTTP/1.1\r\nHost: h\r\n\r\n")
    driver.conn.ring.contents.map Entry.stage = [.running, .waiting] ∧
      driver.conn.ring.Pipelined :=
  ⟨by decide +kernel, (reachable_pipelined (readPlain_reachable _)).1⟩

end Driver

end ZeroServer.Http

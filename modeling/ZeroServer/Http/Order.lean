/-
This file proves what every move keeps about the requests in flight: how an entry's stage, slot
and record go together, what an earlier entry says about a later one, that only the last body is
being read and only done responses are being written, and that the slots are shared out.
-/

import ZeroServer.Http.Moves

namespace ZeroServer.Http

open Http1

/-! ### The invariant -/

/-- What the stage of an entry says about the rest of it. -/
structure Entry.Ok (close : Bool) (entry : Entry) : Prop where
  slot : entry.slot.isSome = true ↔ entry.stage = .running
  record : entry.record.isSome = true ↔ entry.stage ≠ .running
  started : entry.stage = .running → entry.started = true
  early : entry.stage = .done → entry.started = true ∨ close = true
  begun : entry.started = true → entry.stage.isStarted = true

/-- What holds between an entry and a later one: the earlier one is older and read to its end;
where the later one was ever started, both are safe and the earlier one is started or done; and
behind one answered without running there are only such. -/
structure Entry.Before (entry later : Entry) : Prop where
  serial : entry.serial < later.serial
  read : entry.stage.isBody = false
  ran : later.started = true →
    entry.safe = true ∧ entry.stage.isStarted = true ∧ later.safe = true
  answered : entry.stage = .done → entry.started = false →
    later.stage = .done ∧ later.started = false

namespace Conn

/-- What holds of a connection between any two moves. -/
structure Wf (conn : Conn) : Prop where
  sound : conn.ring.Sound
  ok : ∀ entry ∈ conn.ring.contents, entry.Ok conn.close
  before : conn.ring.contents.Pairwise Entry.Before
  pushed : ∀ entry ∈ conn.ring.contents, entry.serial < conn.ring.pushed
  places : ∀ (index : Nat) (entry : Entry), conn.ring.contents[index]? = some entry →
    entry.place = conn.ring.position index
  batch : ∀ writing, conn.writing = some writing →
    writing.count ≤ conn.ring.contents.length ∧
      ∀ entry ∈ conn.ring.contents.take writing.count, entry.stage = .done
  reading : conn.headSince.isSome = true →
    ∀ entry ∈ conn.ring.contents, entry.stage.isBody = false
  completed : ∀ done ∈ conn.completed, ∀ entry ∈ conn.ring.contents,
    entry.place = done.1 → entry.stage = .running ∧ conn.ring.future entry = none
  distinct : (conn.completed.map Prod.fst).Nodup

end Conn

/-! ### Edits -/

variable {entry : Entry}

variable {close : Bool} {other : Entry}

/-- A change of an entry that no invariant sees. -/
structure Entry.Alike (entry other : Entry) : Prop where
  slot : other.slot = entry.slot
  record : other.record.isSome = entry.record.isSome
  running : (other.stage = .running) = (entry.stage = .running)
  done : (other.stage = .done) = (entry.stage = .done)
  body : other.stage.isBody = entry.stage.isBody
  begun : other.stage.isStarted = entry.stage.isStarted
  safe : other.safe = entry.safe
  serial : other.serial = entry.serial
  place : other.place = entry.place
  started : other.started = entry.started

theorem Entry.Ok.alike (ok : entry.Ok close) (alike : entry.Alike other) : other.Ok close := by
  refine ⟨?_, ?_, ?_, ?_, ?_⟩
  · rw [alike.slot, alike.running]
    exact ok.slot
  · rw [alike.record, ne_eq, alike.running]
    exact ok.record
  · rw [alike.running, alike.started]
    exact ok.started
  · rw [alike.done, alike.started]
    exact ok.early
  · rw [alike.started, alike.begun]
    exact ok.begun

theorem Entry.Ok.mono {closed : Bool} (ok : entry.Ok close) (kept : close = true → closed = true) :
    entry.Ok closed :=
  ⟨ok.slot, ok.record, ok.started, fun done => (ok.early done).imp_right kept, ok.begun⟩

namespace Entry.Before

variable {entry other later : Entry}

theorem alike_later (before : entry.Before later) (alike : later.Alike other) :
    entry.Before other := by
  refine ⟨?_, before.read, ?_, ?_⟩
  · rw [alike.serial]
    exact before.serial
  · rw [alike.started, alike.safe]
    exact before.ran
  · rw [alike.done, alike.started]
    exact before.answered

theorem alike_earlier (before : entry.Before later) (alike : entry.Alike other) :
    other.Before later := by
  refine ⟨?_, ?_, ?_, ?_⟩
  · rw [alike.serial]
    exact before.serial
  · rw [alike.body]
    exact before.read
  · rw [alike.safe, alike.begun]
    exact before.ran
  · rw [alike.done, alike.started]
    exact before.answered

/-- An entry that is not done yet may take any later stage and record: nothing in front of it was
answered without running. -/
theorem open_later (before : entry.Before later) (open_ : later.stage ≠ .done)
    (serial : other.serial = later.serial) (safe : other.safe = later.safe)
    (started : other.started = later.started) : entry.Before other := by
  refine ⟨?_, before.read, ?_, fun done unstarted => ?_⟩
  · rw [serial]
    exact before.serial
  · rw [started, safe]
    exact before.ran
  · exact absurd (before.answered done unstarted).1 open_

end Entry.Before

variable {record : Record}

namespace Conn.Wf

variable {conn next : Conn}

/-- Entries sit at different positions. -/
theorem place_injective (wf : conn.Wf) {first second : Nat}
    (here : conn.ring.contents[first]? = some entry)
    (there : conn.ring.contents[second]? = some other) (same : entry.place = other.place) :
    first = second := by
  have firstInside := (List.getElem?_eq_some_iff.mp here).1
  have secondInside := (List.getElem?_eq_some_iff.mp there).1
  have fits := conn.ring.len_le
  rw [Lib.RingBuffer.length_contents] at firstInside secondInside
  rw [wf.places _ _ here, wf.places _ _ there] at same
  exact conn.ring.position_injective (by omega) (by omega) same

/-- A move that leaves the ring, the write and the completed responses alone. -/
theorem congr (wf : conn.Wf) (ring : next.ring = conn.ring) (writing : next.writing = conn.writing)
    (completed : next.completed = conn.completed) (close : conn.close = true → next.close = true)
    (reading : next.headSince.isSome = true →
      ∀ entry ∈ conn.ring.contents, entry.stage.isBody = false) : next.Wf := by
  refine ⟨?_, ?_, ?_, ?_, ?_, ?_, ?_, ?_, ?_⟩
  · rw [ring]
    exact wf.sound
  · rw [ring]
    exact fun entry member => (wf.ok entry member).mono close
  · rw [ring]
    exact wf.before
  · rw [ring]
    exact wf.pushed
  · rw [ring]
    exact wf.places
  · rw [ring, writing]
    exact wf.batch
  · rw [ring]
    exact reading
  · rw [ring, completed]
    exact wf.completed
  · rw [completed]
    exact wf.distinct

variable {index : Nat} {change : Entry → Entry}

/-- A move that changes one entry in place. -/
theorem edit (wf : conn.Wf) (found : conn.ring.contents[index]? = some entry)
    (edited : conn.ring.Edited next.ring index change) (sound : next.ring.Sound)
    (writing : next.writing = conn.writing)
    (since : next.headSince.isSome = true → conn.headSince.isSome = true)
    (close : conn.close = true → next.close = true) (serial : (change entry).serial = entry.serial)
    (place : (change entry).place = entry.place) (ok : (change entry).Ok next.close)
    (earlier : ∀ other ∈ conn.ring.contents.take index,
      other.Before entry → other.Before (change entry))
    (later : ∀ other ∈ conn.ring.contents.drop (index + 1),
      entry.Before other → (change entry).Before other)
    (done : entry.stage = .done → (change entry).stage = .done)
    (body : (change entry).stage.isBody = true → entry.stage.isBody = true)
    (completed : ∀ done ∈ next.completed, ∀ entry ∈ next.ring.contents,
      entry.place = done.1 → entry.stage = .running ∧ next.ring.future entry = none)
    (distinct : (next.completed.map Prod.fst).Nodup) : next.Wf := by
  refine ⟨sound, ?_, ?_, ?_, ?_, ?_, ?_, completed, distinct⟩
  · rw [edited.contents]
    exact Lib.forall_mem_modify (fun other member => (wf.ok other member).mono close) found ok
  · rw [edited.contents]
    exact Lib.pairwise_modify wf.before found earlier later
  · rw [edited.contents, edited.pushed]
    refine Lib.forall_mem_modify wf.pushed found ?_
    rw [serial]
    exact wf.pushed entry (List.mem_of_getElem? found)
  · intro other item reads
    rw [edited.contents, List.getElem?_modify] at reads
    rw [Ring.position_of_head edited.head]
    obtain ⟨old, atOther, rfl⟩ := Option.map_eq_some_iff.mp reads
    by_cases same : index = other
    · subst same
      rw [found] at atOther
      cases atOther
      rw [if_pos rfl, place]
      exact wf.places _ _ found
    · rw [if_neg same]
      exact wf.places _ _ atOther
  · intro batch planned
    rw [writing] at planned
    obtain ⟨fits, every⟩ := wf.batch batch planned
    rw [edited.contents, List.length_modify]
    exact ⟨fits, Lib.forall_mem_take_modify every found done⟩
  · intro reading
    rw [edited.contents]
    refine Lib.forall_mem_modify (wf.reading (since reading)) found ?_
    rcases value : (change entry).stage.isBody with - | -
    · rfl
    · rw [← wf.reading (since reading) entry (List.mem_of_getElem? found), body value]

/-- A move that adds a request. -/
theorem grow (wf : conn.Wf) {entry : Entry} (grown : conn.ring.Grown next.ring entry)
    (writing : next.writing = conn.writing) (since : next.headSince = none)
    (close : conn.close = true → next.close = true) (slot : entry.slot = none)
    (ok : entry.Ok next.close) (fresh : entry.started = false)
    (read : ∀ other ∈ conn.ring.contents, other.stage.isBody = false)
    (behind : entry.stage = .done ∨ conn.close = false) (idle : next.completed = []) : next.Wf := by
  have length : conn.ring.contents.length = conn.ring.len := Lib.RingBuffer.length_contents _
  refine ⟨?_, ?_, ?_, ?_, ?_, ?_, ?_, ?_, ?_⟩
  · refine wf.sound.congr ?_ grown.futures grown.freeSlots
    rw [grown.contents, Ring.owned_append, Ring.owned_cons]
    simp [slot, Ring.owned]
  · rw [grown.contents]
    intro other member
    rcases List.mem_append.mp member with old | new
    · exact (wf.ok other old).mono close
    · rw [List.mem_singleton.mp new]
      exact ⟨ok.slot, ok.record, ok.started, ok.early, ok.begun⟩
  · rw [grown.contents]
    refine Lib.pairwise_concat.mpr ⟨wf.before, fun other member => ?_⟩
    refine ⟨wf.pushed other member, read other member, fun ran => ?_, fun done unstarted => ?_⟩
    · rw [show _ = entry.started from rfl, fresh] at ran
      cases ran
    · refine ⟨?_, fresh⟩
      rcases behind with answered | opened
      · exact answered
      · rcases (wf.ok other member).early done with started | closed
        · rw [unstarted] at started
          cases started
        · rw [opened] at closed
          cases closed
  · rw [grown.contents, grown.pushed]
    intro other member
    rcases List.mem_append.mp member with old | new
    · exact Nat.lt_succ_of_lt (wf.pushed other old)
    · rw [List.mem_singleton.mp new]
      exact Nat.lt_succ_self _
  · intro index other reads
    rw [grown.contents] at reads
    rw [Ring.position_of_head grown.head]
    by_cases old : index < conn.ring.contents.length
    · rw [List.getElem?_append_left old] at reads
      exact wf.places index other reads
    · obtain ⟨rfl, rfl⟩ : index = conn.ring.contents.length ∧
          { entry with serial := conn.ring.pushed, place := conn.ring.position conn.ring.len } =
            other := by
        rw [List.getElem?_append_right (by omega), List.getElem?_singleton] at reads
        split at reads
        · cases reads
          exact ⟨by omega, rfl⟩
        · cases reads
      rw [length]
  · intro batch planned
    rw [writing] at planned
    obtain ⟨fits, every⟩ := wf.batch batch planned
    rw [grown.contents]
    refine ⟨by rw [List.length_append]; omega, ?_⟩
    rw [Lib.take_concat fits]
    exact every
  · rw [since]
    intro reading
    cases reading
  · rw [idle]
    intro done member
    cases member
  · rw [idle]
    exact List.nodup_nil

variable {items : List Entry}

/-- A move that drops the last request. -/
theorem shrink (wf : conn.Wf) (queue : conn.ring.contents = items ++ [entry])
    (beyond : conn.Beyond items.length) (left : next.ring.contents = items)
    (head : next.ring.head = conn.ring.head) (cleared : conn.ring.Cleared next.ring entry)
    (writing : next.writing = conn.writing) (since : next.headSince = conn.headSince)
    (close : next.close = conn.close) (completed : next.completed = conn.completed) : next.Wf := by
  have listed : ∀ other ∈ items, other ∈ conn.ring.contents := fun other member => by
    rw [queue]
    exact List.mem_append_left _ member
  refine ⟨?_, ?_, ?_, ?_, ?_, ?_, ?_, ?_, ?_⟩
  · refine wf.sound.cleared queue cleared ?_
    rw [left]
    simp [Ring.owned]
  · rw [left, close]
    exact fun other member => wf.ok other (listed other member)
  · have before := wf.before
    rw [queue] at before
    rw [left]
    exact (Lib.pairwise_concat.mp before).1
  · rw [left, cleared.pushed]
    exact fun other member => wf.pushed other (listed other member)
  · intro index other reads
    rw [Ring.position_of_head head]
    refine wf.places index other ?_
    rw [left] at reads
    rw [queue, List.getElem?_append_left (List.getElem?_eq_some_iff.mp reads).1]
    exact reads
  · intro batch planned
    rw [writing] at planned
    have fits := beyond batch planned
    have every := (wf.batch batch planned).2
    rw [queue, Lib.take_concat fits] at every
    rw [left]
    exact ⟨fits, every⟩
  · rw [since, left]
    exact fun reading other member => wf.reading reading other (listed other member)
  · rw [completed, left]
    intro done member other there here
    obtain ⟨running, gone⟩ := wf.completed done member other (listed other there) here
    exact ⟨running, cleared.future_none gone⟩
  · rw [completed]
    exact wf.distinct

/-- A move that changes an entry as no invariant sees. -/
theorem alike (wf : conn.Wf) (found : conn.ring.contents[index]? = some entry)
    (edited : conn.ring.Edited next.ring index change) (same : entry.Alike (change entry))
    (futures : next.ring.futures = conn.ring.futures)
    (freeSlots : next.ring.freeSlots = conn.ring.freeSlots) (writing : next.writing = conn.writing)
    (since : next.headSince = conn.headSince) (close : next.close = conn.close)
    (idle : next.completed = []) : next.Wf := by
  refine wf.edit found edited ?_ writing ?_ ?_ same.serial same.place ?_ ?_ ?_ ?_ ?_ ?_ ?_
  · refine wf.sound.congr ?_ futures freeSlots
    rw [edited.contents, Ring.owned_modify found, same.slot, ← Ring.owned_of_getElem? found]
  · rw [since]
    exact id
  · rw [close]
    exact id
  · rw [close]
    exact (wf.ok entry (List.mem_of_getElem? found)).alike same
  · exact fun other _ before => before.alike_later same
  · exact fun other _ before => before.alike_earlier same
  · rw [same.done]
    exact id
  · rw [same.body]
    exact id
  · rw [idle]
    intro done member
    cases member
  · rw [idle]
    exact List.nodup_nil

/-- A move that changes the last entry, which is not done and stays without a slot or gives its
slot up. -/
theorem editLast (wf : conn.Wf) (queue : conn.ring.contents = items ++ [entry])
    (edited : conn.ring.Edited next.ring items.length change)
    (cleared : conn.ring.Cleared next.ring entry) (open_ : entry.stage ≠ .done)
    (slot : (change entry).slot = none) (serial : (change entry).serial = entry.serial)
    (place : (change entry).place = entry.place) (safe : (change entry).safe = entry.safe)
    (started : (change entry).started = entry.started) (ok : (change entry).Ok next.close)
    (body : (change entry).stage.isBody = true → entry.stage.isBody = true)
    (writing : next.writing = conn.writing) (since : next.headSince = conn.headSince)
    (close : conn.close = true → next.close = true) (idle : next.completed = []) : next.Wf := by
  have found := Lib.getElem?_of_concat queue
  refine wf.edit found edited ?_ writing ?_ close serial place ok ?_ ?_ ?_ body ?_ ?_
  · refine wf.sound.cleared queue cleared ?_
    rw [edited.contents, queue, Lib.modify_concat, Ring.owned_append, Ring.owned_cons, slot]
    rfl
  · rw [since]
    exact id
  · exact fun other _ before => before.open_later open_ serial safe started
  · intro other later
    rw [queue, List.drop_eq_nil_of_le (by rw [List.length_append, List.length_singleton])]
      at later
    cases later
  · exact fun done => absurd done open_
  · rw [idle]
    intro done member
    cases member
  · rw [idle]
    exact List.nodup_nil

/-- A move of the futures only, in slots that are owned. -/
theorem refuture (wf : conn.Wf) {slot : Nat} {item : Option Charged} {futures}
    (owned : slot ∈ Ring.owned conn.ring.contents) (set : futures = conn.ring.futures.set slot item)
    (ring : next.ring = { conn.ring with futures := futures })
    (writing : next.writing = conn.writing) (since : next.headSince = conn.headSince)
    (close : next.close = conn.close)
    (completed : ∀ done ∈ next.completed, ∀ entry ∈ conn.ring.contents,
      entry.place = done.1 → entry.stage = .running ∧ next.ring.future entry = none)
    (distinct : (next.completed.map Prod.fst).Nodup) : next.Wf := by
  have queue : next.ring.contents = conn.ring.contents := by rw [ring]
  refine ⟨?_, ?_, ?_, ?_, ?_, ?_, ?_, ?_, distinct⟩
  · rw [ring, set]
    exact wf.sound.set_owned owned item
  · rw [queue, close]
    exact wf.ok
  · rw [queue]
    exact wf.before
  · rw [ring]
    exact wf.pushed
  · rw [ring]
    exact wf.places
  · rw [queue, writing]
    exact wf.batch
  · rw [queue, since]
    exact wf.reading
  · rw [queue]
    exact completed

/-- A running handler replaces what it holds. -/
theorem setFuture (wf : conn.Wf) {slot : Nat} {charged held : Charged}
    (runs : conn.ring.futures[slot]? = some (some charged))
    (ring : next.ring = { conn.ring with futures := conn.ring.futures.set slot (some held) })
    (writing : next.writing = conn.writing) (since : next.headSince = conn.headSince)
    (close : next.close = conn.close) (completed : next.completed = conn.completed) : next.Wf := by
  refine wf.refuture (wf.sound.mem_owned runs) rfl ring writing since close ?_ ?_
  · rw [completed, ring]
    intro done member entry there here
    obtain ⟨running, gone⟩ := wf.completed done member entry there here
    exact ⟨running, Ring.future_none_of_replaced runs _ gone⟩
  · rw [completed]
    exact wf.distinct

theorem slot_none (wf : conn.Wf) (member : entry ∈ conn.ring.contents)
    (still : entry.stage ≠ .running) : entry.slot = none := by
  rcases slot : entry.slot with - | slot
  · rfl
  · exact absurd ((wf.ok entry member).slot.mp (by rw [slot]; rfl)) still

/-- An entry that runs nothing has nothing to clear. -/
theorem cleared_idle (wf : conn.Wf) (member : entry ∈ conn.ring.contents)
    (still : entry.stage ≠ .running) {ring : Ring Charged} (pushed : ring.pushed = conn.ring.pushed)
    (futures : ring.futures = conn.ring.futures)
    (freeSlots : ring.freeSlots = conn.ring.freeSlots) : conn.ring.Cleared ring entry := by
  have slot := wf.slot_none member still
  exact ⟨pushed, by rw [slot]; exact futures, by rw [slot]; exact freeSlots⟩

/-- The entry a completed response belongs to is still running. -/
theorem running_of_completed (wf : conn.Wf) {rest : List (Nat × Record)} {position : Nat}
    (took : conn.completed = rest ++ [(position, record)])
    (found : conn.ring.contents[index]? = some entry) (here : conn.ring.position index = position) :
    entry.stage = .running := by
  have member : (position, record) ∈ conn.completed := by rw [took]; simp
  exact (wf.completed _ member entry (List.mem_of_getElem? found)
    ((wf.places _ _ found).trans here)).1

/-- The write in progress stops short of an entry that is not done. -/
theorem beyond (wf : conn.Wf) (found : conn.ring.contents[index]? = some entry)
    (open_ : entry.stage ≠ .done) : conn.Beyond index := by
  intro writing planned
  by_contra past
  refine open_ ((wf.batch writing planned).2 entry (List.mem_iff_getElem?.mpr ⟨index, ?_⟩))
  rw [List.getElem?_take, if_pos (by omega), found]

theorem read_of_open (wf : conn.Wf) (read : conn.ring.bodyPending = false) :
    ∀ entry ∈ conn.ring.contents, entry.stage.isBody = false := by
  intro entry member
  rcases List.eq_nil_or_concat conn.ring.contents with empty | ⟨items, last, queue⟩
  · rw [empty] at member
    cases member
  · have before := wf.before
    rw [queue, List.concat_eq_append] at before
    rw [queue, List.concat_eq_append] at member
    rcases List.mem_append.mp member with early | isLast
    · exact ((Lib.pairwise_concat.mp before).2 entry early).read
    · rw [List.mem_singleton.mp isLast]
      unfold Ring.bodyPending at read
      rw [Ring.last_eq, queue, List.concat_eq_append, List.getLast?_concat] at read
      exact read

end Conn.Wf

/-! ### The moves keep the invariant -/

variable {stage : Stage}

variable {maxBody : Nat}

theorem Entry.Ok.new {now : Nat} (still : stage ≠ .running) (early : stage = .done → close = true) :
    (Entry.new record stage now).Ok close where
  slot := by
    constructor
    · intro slot
      cases slot
    · exact fun running => absurd running still
  record := ⟨fun _ => still, fun _ => rfl⟩
  started running := absurd running still
  early done := .inr (early done)
  begun started := by cases started

theorem Stage.reads.not_running (reads : stage.reads maxBody) : stage ≠ .running := by
  rcases reads with rfl | ⟨framing, pending, rfl⟩ <;> simp

theorem Stage.reads.not_done (reads : stage.reads maxBody) : stage ≠ .done := by
  rcases reads with rfl | ⟨framing, pending, rfl⟩ <;> simp

open Conn in
/-- The invariant holds along every move. -/
theorem Conn.Move.wf {conn next : Conn} (move : conn.Move next) (wf : conn.Wf) : next.Wf := by
  cases move with
  | aside => exact wf.congr rfl rfl rfl id wf.reading
  | clock => exact wf.congr rfl rfl rfl id wf.reading
  | lend => exact wf.congr rfl rfl rfl id wf.reading
  | skip => exact wf.congr rfl rfl rfl id wf.reading
  | forget =>
    refine wf.congr rfl rfl rfl id fun reading => ?_
    cases reading
  | postpone since reading => exact wf.congr rfl rfl rfl id fun _ => wf.reading reading
  | restamp found idle now edited futures freeSlots =>
    exact wf.alike found edited ⟨rfl, rfl, rfl, rfl, rfl, rfl, rfl, rfl, rfl, rfl⟩ futures
      freeSlots rfl rfl rfl idle
  | await opened same record since =>
    exact wf.congr rfl rfl rfl id fun _ => wf.read_of_open opened.read
  | enlist opened same charge body parsed reads fits now requests used close grown =>
    refine wf.grow grown rfl rfl ?_ rfl (.new reads.not_running ?_) rfl
      (wf.read_of_open opened.read) (.inr opened.close) opened.completed
    · rw [opened.close]
      intro closed
      cases closed
    · exact fun done => absurd done reads.not_done
  | refuse opened same charge body closes now requests grown =>
    exact wf.grow grown rfl rfl (fun _ => rfl) rfl (.new (by simp) fun _ => rfl) rfl
      (wf.read_of_open opened.read) (.inl rfl) opened.completed
  | overdue reading idle same charge body closes now grown =>
    exact wf.grow grown rfl rfl (fun _ => rfl) rfl (.new (by simp) fun _ => rfl) rfl
      (wf.reading reading) (.inl rfl) idle
  | shut => exact wf.congr rfl rfl rfl (fun _ => rfl) wf.reading
  | seize => exact wf.congr rfl rfl rfl id wf.reading
  | reclose closed idle queue beyond done held edited futures freeSlots =>
    refine wf.alike (Lib.getElem?_of_concat queue) edited
      ⟨rfl, ?_, rfl, rfl, rfl, rfl, rfl, rfl, rfl, rfl⟩ futures freeSlots rfl rfl rfl idle
    rw [held]
    rfl
  | discard queue beyond left head cleared returned holds =>
    exact wf.shrink queue beyond left head cleared rfl rfl rfl rfl
  | fail queue open_ closes charge body idle edited cleared returned holds =>
    refine wf.editLast queue edited cleared open_ rfl rfl rfl rfl rfl ?_ ?_ rfl rfl
      (fun _ => rfl) idle
    · exact ⟨by simp, by simp, by simp, fun _ => .inr rfl, fun _ => rfl⟩
    · intro isBody
      cases isBody
  | feed queue idle reading held fed share fits now edited futures freeSlots =>
    rename_i entry _ _ _ _ _ _ _
    have member : entry ∈ conn.ring.contents := by rw [queue]; simp
    have still : entry.stage ≠ .running := by rw [reading]; simp
    have slot := wf.slot_none member still
    have reads := fed.reads
    refine wf.editLast queue edited
      (wf.cleared_idle member still edited.pushed futures freeSlots) (by rw [reading]; simp) slot
      rfl rfl rfl rfl ?_ (fun _ => by rw [reading]; rfl) rfl rfl id idle
    exact ⟨by simp [slot, reads.not_running], by simp [reads.not_running],
      fun running => absurd running reads.not_running, fun done => absurd done reads.not_done,
      fun started => absurd ((wf.ok entry member).begun started)
        (by rw [reading]; simp [Stage.isStarted])⟩
  | frame queue idle reading held fed fits trailers now edited futures freeSlots =>
    rename_i entry _ _ _ _ _ _
    have member : entry ∈ conn.ring.contents := by rw [queue]; simp
    have still : entry.stage ≠ .running := by rw [reading]; simp
    have slot := wf.slot_none member still
    have reads := fed.reads
    refine wf.editLast queue edited
      (wf.cleared_idle member still edited.pushed futures freeSlots) (by rw [reading]; simp) slot
      rfl rfl rfl rfl ?_ (fun _ => by rw [reading]; rfl) rfl rfl id idle
    exact ⟨by simp [slot, reads.not_running], by simp [reads.not_running],
      fun running => absurd running reads.not_running, fun done => absurd done reads.not_done,
      fun started => absurd ((wf.ok entry member).begun started)
        (by rw [reading]; simp [Stage.isStarted])⟩
  | start found waiting held runs idle sound edited futures =>
    refine wf.edit found edited sound rfl id id rfl rfl ?_ ?_ ?_ ?_ ?_ ?_ ?_
    · exact ⟨by simp, by simp, fun _ => rfl, by simp, fun _ => rfl⟩
    · intro other earlier before
      refine ⟨before.serial, before.read, fun _ => ?_, fun done unstarted => ?_⟩
      · rcases runs with rfl | ⟨safe, every⟩
        · cases earlier
        · exact ⟨(every other earlier).1, (every other earlier).2, safe⟩
      · have done := (before.answered done unstarted).1
        rw [waiting] at done
        cases done
    · intro other _ before
      refine ⟨before.serial, rfl, fun ran => ?_, fun done => ?_⟩
      · have started := (before.ran ran).2.1
        rw [waiting] at started
        cases started
      · cases done
    · intro done
      rw [waiting] at done
      cases done
    · intro isBody
      cases isBody
    · dsimp only
      rw [idle]
      intro done member
      cases member
    · dsimp only
      rw [idle]
      exact List.nodup_nil
  | ready found running owned runs answer holds =>
    rename_i index slot entry charged
    have listed : entry ∈ conn.ring.contents := List.mem_of_getElem? found
    have present : conn.ring.future entry = some charged := by
      unfold Ring.future
      rw [owned, Option.bind_some, runs]
      rfl
    refine wf.refuture (wf.sound.mem_owned runs) rfl rfl rfl rfl rfl ?_ ?_
    · intro done member other there here
      rcases List.mem_append.mp member with old | new
      · obtain ⟨runs, gone⟩ := wf.completed done old other there here
        exact ⟨runs, Ring.future_none_of_emptied slot gone⟩
      · obtain ⟨place, reads⟩ := List.mem_iff_getElem?.mp there
        rw [List.mem_singleton.mp new, ← wf.places _ _ found] at here
        obtain rfl := wf.place_injective reads found here
        rw [found] at reads
        cases reads
        refine ⟨running, ?_⟩
        unfold Ring.future
        rw [owned, Option.bind_some, List.getElem?_set_self (List.getElem?_eq_some_iff.mp runs).1]
        rfl
    · rw [List.map_append, List.nodup_append]
      refine ⟨wf.distinct, List.nodup_singleton _, ?_⟩
      intro position old other new same
      obtain ⟨done, member, rfl⟩ := List.mem_map.mp old
      rw [List.mem_map] at new
      obtain ⟨added, isNew, rfl⟩ := new
      rw [List.mem_singleton.mp isNew, ← wf.places _ _ found] at same
      have gone := (wf.completed done member entry listed same.symm).2
      rw [present] at gone
      cases gone
  | finish took found here answer edited cleared =>
    rename_i ring index position entry record rest closing
    have listed : entry ∈ conn.ring.contents := List.mem_of_getElem? found
    have place : entry.place = position := (wf.places _ _ found).trans here
    have running := wf.running_of_completed took found here
    have started := (wf.ok entry listed).started running
    have distinct := wf.distinct
    rw [took, List.map_append, List.nodup_append] at distinct
    refine wf.edit found edited ?_ rfl id id rfl rfl ?_ ?_ ?_ ?_ ?_ ?_ distinct.1
    · refine wf.sound.cleared (Lib.eq_append_of_getElem? found) cleared ?_
      rw [edited.contents, Ring.owned_modify found]
      rfl
    · exact ⟨by simp, by simp, by simp, fun _ => .inl started, fun _ => rfl⟩
    · intro other _ before
      exact before.open_later (by rw [running]; simp) rfl rfl rfl
    · intro other _ before
      refine ⟨before.serial, rfl, fun ran => ?_, fun _ unstarted => ?_⟩
      · obtain ⟨safe, -, laterSafe⟩ := before.ran ran
        exact ⟨safe, rfl, laterSafe⟩
      · rw [show _ = entry.started from rfl, started] at unstarted
        cases unstarted
    · exact fun _ => rfl
    · intro isBody
      cases isBody
    · intro done member
      have apart : done.1 ≠ position := by
        refine distinct.2.2 _ (List.mem_map_of_mem member) _ ?_
        simp
      have every : ∀ other ∈ ring.contents, other.place = done.1 →
          other.stage = .running ∧ ring.future other = none := by
        rw [edited.contents]
        refine Lib.forall_mem_modify (fun other there same => ?_) found fun same => ?_
        · obtain ⟨runs, gone⟩ :=
            wf.completed done (by rw [took]; simp [member]) other there same
          exact ⟨runs, cleared.future_none gone⟩
        · exact absurd (same.symm.trans place) apart
      exact every
  | strand took returned =>
    have kept : ∀ done ∈ _, done ∈ conn.completed := fun done member => by
      rw [took]
      exact List.mem_append_left _ member
    have distinct := wf.distinct
    rw [took, List.map_append, List.nodup_append] at distinct
    exact { wf with
      completed := fun done member => wf.completed done (kept done member)
      distinct := distinct.1 }
  | work works =>
    cases works with
    | hold runs => exact wf.setFuture runs rfl rfl rfl rfl rfl
    | unhold runs => exact wf.setFuture runs rfl rfl rfl rfl rfl
    | passOn runs => exact wf.setFuture runs rfl rfl rfl rfl rfl
    | release => exact wf.congr rfl rfl rfl id wf.reading
  | exports runs => exact wf.setFuture runs rfl rfl rfl rfl rfl

theorem Conn.Moves.wf {conn next : Conn} (moves : conn.Moves next) (wf : conn.Wf) : next.Wf := by
  induction moves with
  | refl => exact wf
  | tail _ move inductionHypothesis => exact move.wf inductionHypothesis

end ZeroServer.Http

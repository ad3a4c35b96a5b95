/-
This file follows a write from its plan to its last byte: what a planned write covers, what a
partial write leaves alone, and how a whole one takes its responses off the front of the queue.
Together with the moves this gives the invariant along every run.
-/

import ZeroServer.Http.Reaction

namespace ZeroServer.Http

open Http1

/-! ### Planning -/

/-- The bytes of a sequence of blocks. -/
def blockBytes (blocks : List Block) : Bytes := blocks.flatMap Block.bytes

theorem blockBytes_append (first second : List Block) :
    blockBytes (first ++ second) = blockBytes first ++ blockBytes second :=
  List.flatMap_append

variable {conn : Conn}

namespace Conn

/-- The done responses at the front of the queue. -/
theorem doneAhead_spec (ring : Ring Charged) (left : Nat) {index : Nat}
    (inside : index + left = ring.len) :
    (doneAhead ring left index).1 ≤ left ∧
      (∀ entry ∈ (ring.contents.drop index).take (doneAhead ring left index).1,
        entry.stage = .done ∧ entry.record.isSome = true) ∧
      (doneAhead ring left index).2 = (blockBytes (responseBlocks (ring.contents.drop index)
        (doneAhead ring left index).1)).length := by
  have nothing (count : Nat) (items : List Entry) : 0 ≤ count ∧
      (∀ entry ∈ items.take 0, entry.stage = .done ∧ entry.record.isSome = true) ∧
      0 = (blockBytes (responseBlocks items 0)).length := by
    refine ⟨Nat.zero_le count, fun entry member => ?_, rfl⟩
    cases member
  induction left generalizing index with
  | zero => exact nothing 0 _
  | succ left inductionHypothesis =>
    obtain ⟨entry, found⟩ : ∃ entry, ring.contents[index]? = some entry :=
      ⟨_, List.getElem?_eq_getElem (by rw [Lib.RingBuffer.length_contents]; omega)⟩
    have rest : ring.contents.drop index = entry :: ring.contents.drop (index + 1) := by
      obtain ⟨here, rfl⟩ := List.getElem?_eq_some_iff.mp found
      exact List.drop_eq_getElem_cons here
    unfold doneAhead
    rw [ring.entry_position (by omega), found]
    dsimp only
    split
    · rename_i record done held
      have behind : index + 1 + left = ring.len := by omega
      obtain ⟨few, every, total⟩ := inductionHypothesis behind
      refine ⟨Nat.succ_le_succ few, ?_, ?_⟩
      · rw [rest, List.take_succ_cons]
        intro other member
        rcases List.mem_cons.mp member with here | later
        · rw [here, held]
          exact ⟨done, rfl⟩
        · exact every other later
      · unfold responseBlocks at total ⊢
        rw [rest, List.take_succ_cons, List.filterMap_cons_some (b := .response entry.serial record)
          (by unfold Entry.block; rw [held]; rfl)]
        change responseLen record + _ = (record.responseBytes ++ blockBytes _).length
        rw [List.length_append, length_responseBytes, total]
    · exact nothing _ _

/-- The next write is what it was, or every done response from the head, or the interim response
the head owes. -/
inductive Planned (conn : Conn) (now : Nat) (next : Conn) : Prop
  | same (result : next = conn)
  | responses {count : Nat} (unwritten : conn.writing = none) (positive : 0 < count)
      (fits : count ≤ conn.ring.contents.length)
      (done : ∀ entry ∈ conn.ring.contents.take count,
        entry.stage = .done ∧ entry.record.isSome = true)
      (result : next = { conn with
        writing := some ⟨count, false, 0,
          (blockBytes (responseBlocks conn.ring.contents count)).length⟩
        sentAt := now })
  | interim {entry : Entry} {items : List Entry} (unwritten : conn.writing = none)
      (queue : conn.ring.contents = entry :: items) (owed : owes entry = true)
      (result : next = { conn with
        writing := some ⟨0, true, 0, continueBlock.length⟩, sentAt := now })

theorem planWrite_planned (conn : Conn) (now : Nat) : Planned conn now (conn.planWrite now) := by
  unfold planWrite
  split
  · exact .same rfl
  rename_i free
  simp only [Bool.or_eq_true, not_or, Bool.not_eq_true, Option.isSome_eq_false_iff,
    Option.isNone_iff_eq_none] at free
  obtain ⟨few, every, total⟩ := doneAhead_spec conn.ring conn.ring.len (Nat.zero_add _)
  rcases ahead : doneAhead conn.ring conn.ring.len 0 with ⟨count, bytes⟩
  rw [ahead] at few every total
  rw [List.drop_zero] at every total
  dsimp only at few every total ⊢
  split
  · rename_i positive
    rw [total]
    refine .responses free.1 positive ?_ every rfl
    rw [Lib.RingBuffer.length_contents]
    exact few
  split
  · rename_i owed
    rw [Ring.first_eq] at owed
    rcases queue : conn.ring.contents with - | ⟨entry, items⟩
    · rw [queue] at owed
      cases owed
    · rw [queue] at owed
      exact .interim free.1 queue owed rfl
  · exact .same rfl

theorem Wf.unwritten (wf : conn.Wf) {next : Conn} (ring : next.ring = conn.ring)
    (writing : next.writing = none) (completed : next.completed = conn.completed)
    (since : next.headSince = conn.headSince) (close : next.close = conn.close) : next.Wf := by
  refine ⟨?_, ?_, ?_, ?_, ?_, ?_, ?_, ?_, ?_⟩
  · rw [ring]
    exact wf.sound
  · rw [ring, close]
    exact wf.ok
  · rw [ring]
    exact wf.before
  · rw [ring]
    exact wf.pushed
  · rw [ring]
    exact wf.places
  · rw [writing]
    intro batch planned
    cases planned
  · rw [ring, since]
    exact wf.reading
  · rw [ring, completed]
    exact wf.completed
  · rw [completed]
    exact wf.distinct

theorem planWrite_wf (wf : conn.Wf) (now : Nat) : (conn.planWrite now).Wf := by
  rcases conn.planWrite_planned now with
    result | ⟨unwritten, positive, fits, done, result⟩ | ⟨unwritten, queue, owed, result⟩
  · rw [result]
    exact wf
  · rw [result]
    refine { wf with batch := fun writing planned => ?_ }
    cases planned
    exact ⟨fits, fun entry member => (done entry member).1⟩
  · rw [result]
    refine { wf with batch := fun writing planned => ?_ }
    cases planned
    refine ⟨Nat.zero_le _, fun entry member => ?_⟩
    cases member

end Conn

/-- The ring once requests without a slot were taken off its front. -/
structure Ring.Dropped {Future : Type} (ring left : Ring Future) (count : Nat) : Prop where
  contents : left.contents = ring.contents.drop count
  position : ∀ index, left.position index = ring.position (index + count)
  futures : left.futures = ring.futures
  freeSlots : left.freeSlots = ring.freeSlots
  pushed : left.pushed = ring.pushed

/-- What taking a written response off returns to the core; a claimed record stays. -/
def Entry.returned (entry : Entry) : Nat :=
  entry.bodyBytes +
    recordCharge (if entry.record.any (·.claim.isSome) then none else entry.record)

/-- Whether a response ends the connection once it is written. -/
def Entry.ends (entry : Entry) : Bool := entry.record.any (·.close)

namespace Conn

/-- Taking one written response off. -/
theorem popWritten_step {entry : Entry} {items : List Entry}
    (queue : conn.ring.contents = entry :: items) (idle : entry.slot = none) (count : Nat)
    (closed : Bool) :
    ∃ ring shared taken,
      popWritten (count + 1) closed conn = popWritten count (closed || entry.ends)
        { conn with ring := ring, shared := shared, taken := taken } ∧
      conn.ring.Dropped ring 1 ∧ conn.shared.Uncounted shared entry.returned ∧
      (taken = conn.taken ∨ taken = entry.record) := by
  obtain ⟨ring, popped, contents, position, len, cleared⟩ := Ring.popFront_cons queue
  have freed : Ring.freed entry = entry := by
    unfold Ring.freed
    rw [← idle]
  have gone : conn.ring.future entry = none := by
    unfold Ring.future
    rw [idle]
    rfl
  have dropped : conn.ring.Dropped ring 1 := by
    refine ⟨?_, position, ?_, ?_, cleared.pushed⟩
    · rw [contents, queue]
      rfl
    · rw [cleared.futures, idle]
      rfl
    · rw [cleared.freeSlots, idle]
      rfl
  rw [freed, gone] at popped
  have step : popWritten (count + 1) closed conn = popWritten count (closed || entry.ends)
      (releaseEntry
        (if entry.record.any (·.claim.isSome) then { conn with ring := ring, taken := entry.record }
          else { conn with ring := ring })
        (if entry.record.any (·.claim.isSome) then { entry with record := none } else entry)) := by
    rw [popWritten, popped]
    rfl
  by_cases claimed : entry.record.any (·.claim.isSome) = true
  · rw [if_pos claimed, if_pos claimed] at step
    obtain ⟨shared, released, uncounted⟩ := releaseEntry_eq
      { conn with ring := ring, taken := entry.record } { entry with record := none }
    rw [released] at step
    refine ⟨ring, shared, entry.record, step, dropped, ?_, .inr rfl⟩
    unfold Entry.returned
    rw [if_pos claimed]
    exact uncounted
  · rw [if_neg claimed, if_neg claimed] at step
    obtain ⟨shared, released, uncounted⟩ := releaseEntry_eq { conn with ring := ring } entry
    rw [released] at step
    refine ⟨ring, shared, conn.taken, step, dropped, ?_, .inl rfl⟩
    unfold Entry.returned
    rw [if_neg claimed]
    exact uncounted

/-- Taking the written responses off. -/
theorem popWritten_eq (count : Nat) {conn : Conn} {closed : Bool}
    (fits : count ≤ conn.ring.contents.length)
    (idle : ∀ entry ∈ conn.ring.contents.take count, entry.slot = none) :
    ∃ ring shared taken,
      popWritten count closed conn = (closed || (conn.ring.contents.take count).any Entry.ends,
        { conn with ring := ring, shared := shared, taken := taken }) ∧
      conn.ring.Dropped ring count ∧
      conn.shared.Uncounted shared ((conn.ring.contents.take count).map Entry.returned).sum ∧
      (taken = conn.taken ∨ ∃ entry ∈ conn.ring.contents.take count, taken = entry.record) := by
  induction count generalizing conn closed with
  | zero =>
    refine ⟨conn.ring, conn.shared, conn.taken, ?_, ⟨rfl, fun _ => rfl, rfl, rfl, rfl⟩,
      .none conn.shared, .inl rfl⟩
    rw [popWritten, List.take_zero, List.any_nil, Bool.or_false]
  | succ count inductionHypothesis =>
    rcases queue : conn.ring.contents with - | ⟨entry, items⟩
    · rw [queue] at fits
      cases fits
    · rw [queue, List.take_succ_cons] at idle
      obtain ⟨ring, shared, taken, step, dropped, uncounted, first⟩ :=
        popWritten_step queue (idle entry List.mem_cons_self) count closed
      have items_eq : ring.contents = items := by
        rw [dropped.contents, queue]
        rfl
      rw [queue, List.length_cons] at fits
      obtain ⟨left, returned, claimed, rest, more, counted, later⟩ :=
        @inductionHypothesis { conn with ring := ring, shared := shared, taken := taken }
          (closed || entry.ends) (by rw [items_eq]; omega)
          (by rw [items_eq]; exact fun other member => idle other (List.mem_cons_of_mem _ member))
      dsimp only at rest more counted later
      rw [items_eq] at rest counted later
      refine ⟨left, returned, claimed, ?_, ⟨?_, fun index => ?_, ?_, ?_, ?_⟩, ?_, ?_⟩
      · rw [step, rest, List.take_succ_cons, List.any_cons, Bool.or_assoc]
      · rw [more.contents, items_eq, queue, List.drop_succ_cons]
      · rw [more.position, dropped.position, Nat.add_assoc]
      · rw [more.futures, dropped.futures]
      · rw [more.freeSlots, dropped.freeSlots]
      · rw [more.pushed, dropped.pushed]
      · rw [List.take_succ_cons, List.map_cons, List.sum_cons]
        exact uncounted.trans counted
      · rw [List.take_succ_cons]
        rcases later with same | ⟨other, member, same⟩
        · rcases first with kept | taken
          · exact .inl (same.trans kept)
          · exact .inr ⟨entry, List.mem_cons_self, same.trans taken⟩
        · exact .inr ⟨other, List.mem_cons_of_mem _ member, same⟩

variable {count : Nat}

/-- Taking requests without a slot off the front keeps the invariant while nothing is being
written. -/
theorem Wf.dropFront {next : Conn} (wf : conn.Wf)
    (idle : ∀ entry ∈ conn.ring.contents.take count, entry.slot = none)
    (dropped : conn.ring.Dropped next.ring count) (writing : next.writing = none)
    (since : next.headSince = conn.headSince) (close : next.close = conn.close)
    (completed : next.completed = []) : next.Wf := by
  have listed : ∀ entry ∈ next.ring.contents, entry ∈ conn.ring.contents := by
    rw [dropped.contents]
    exact fun entry member => List.mem_of_mem_drop member
  refine ⟨?_, ?_, ?_, ?_, ?_, ?_, ?_, ?_, ?_⟩
  · refine wf.sound.congr ?_ dropped.futures dropped.freeSlots
    have front : Ring.owned (conn.ring.contents.take count) = [] := by
      unfold Ring.owned
      rw [List.filterMap_eq_nil_iff]
      exact idle
    rw [dropped.contents]
    conv => rhs; rw [← List.take_append_drop count conn.ring.contents, Ring.owned_append, front]
    rfl
  · rw [close]
    exact fun entry member => wf.ok entry (listed entry member)
  · rw [dropped.contents]
    exact wf.before.sublist (List.drop_sublist _ _)
  · rw [dropped.pushed]
    exact fun entry member => wf.pushed entry (listed entry member)
  · intro index entry found
    rw [dropped.contents, List.getElem?_drop, Nat.add_comm] at found
    rw [dropped.position]
    exact wf.places _ entry found
  · rw [writing]
    intro batch planned
    cases planned
  · rw [since]
    exact fun reading entry member => wf.reading reading entry (listed entry member)
  · rw [completed]
    intro done member
    cases member
  · rw [completed]
    exact List.nodup_nil

/-- The queue once the interim response of a write, if it is one, is out. -/
def continuedContents (conn : Conn) (writing : Writing) : List Entry :=
  if writing.continues then conn.ring.contents.modify 0 continuedEntry else conn.ring.contents

theorem continuedEntry_alike (entry : Entry) : entry.Alike (continuedEntry entry) := by
  unfold continuedEntry
  refine ⟨rfl, ?_, ?_, ?_, ?_, ?_, rfl, rfl, rfl, rfl⟩
  · cases entry.record <;> rfl
  all_goals
    dsimp only
    split
    · rename_i framing pending maxBody stage
      rw [stage]
      simp [Stage.isBody, Stage.isStarted]
    · rfl

/-- Noting that the interim response of the head is out. -/
theorem continued_wf (wf : conn.Wf) (idle : conn.completed = []) :
    ∃ ring, conn.ring.entryMut (conn.ring.position 0) continuedEntry = ring ∧
      ring.contents = conn.ring.contents.modify 0 continuedEntry ∧ ring.head = conn.ring.head ∧
      ring.futures = conn.ring.futures ∧ ring.pushed = conn.ring.pushed ∧
      Wf { conn with ring := ring } := by
  rcases queue : conn.ring.contents with - | ⟨entry, items⟩
  · have vacant : conn.ring.entry (conn.ring.position 0) = none := by
      rw [← conn.ring.getElem?_contents Ring.cap_pos, queue]
      rfl
    have same : conn.ring.entryMut (conn.ring.position 0) continuedEntry = conn.ring := by
      unfold Ring.entryMut
      rw [Lib.RingBuffer.modify_of_none vacant]
    exact ⟨conn.ring, same, queue, rfl, rfl, rfl, wf⟩
  · have found : conn.ring.contents[0]? = some entry := by rw [queue]; rfl
    have inside : 0 < conn.ring.len := by
      rw [← Lib.RingBuffer.length_contents, queue]
      exact Nat.succ_pos _
    have contents := conn.ring.contents_entryMut_position inside continuedEntry
    rw [← queue]
    exact ⟨_, rfl, contents, rfl, rfl, rfl, wf.alike found ⟨contents, rfl, rfl⟩
      (continuedEntry_alike entry) rfl rfl rfl rfl rfl idle⟩

theorem length_continuedContents (conn : Conn) (writing : Writing) :
    (conn.continuedContents writing).length = conn.ring.contents.length := by
  unfold continuedContents
  split
  · rw [List.length_modify]
  · rfl

variable {writing : Writing}

theorem continuedContents_done
    (done : ∀ entry ∈ conn.ring.contents.take count, entry.stage = .done) :
    ∀ entry ∈ (conn.continuedContents writing).take count, entry.stage = .done := by
  unfold continuedContents
  split
  · rcases found : conn.ring.contents[0]? with - | entry
    · rw [List.modify_eq_set_getElem?, found]
      exact done
    · refine Lib.forall_mem_take_modify done found fun isDone => ?_
      rw [(continuedEntry_alike entry).done]
      exact isDone
  · exact done

theorem endWritten_settles {conn : Conn} (idle : conn.completed = [])
    (unwritten : conn.writing = none) (closed : Bool) (now : Nat) :
    conn.Settles (conn.endWritten closed now) ∧
      (closed = true → (conn.endWritten closed now).ring.contents = [] ∧
        (conn.endWritten closed now).close = true) := by
  have stamped (next : Conn) (settles : conn.Settles next) :
      conn.Settles (if next.ring.isEmpty then { next with idleSince := now } else next) := by
    split
    · exact settles.trans (.single (.clock now next.sentAt) settles.idle)
    · exact settles
  unfold endWritten
  rcases closed with - | -
  · refine ⟨stamped conn (.refl idle), fun closes => ?_⟩
    cases closes
  · obtain ⟨ring, shared, holds, discarded, moves, contents, -, -, -⟩ :=
      conn.discardFrom_moves (Nat.zero_le _) fun writing planned => by
        rw [unwritten] at planned
        cases planned
    rw [discarded] at moves
    rw [List.take_zero] at contents
    have empty : ring.isEmpty = true := by
      rw [Ring.isEmpty_eq, contents]
      rfl
    dsimp only
    rw [if_pos rfl, discarded]
    refine ⟨stamped _ ⟨.tail moves .shut, idle⟩, fun _ => ?_⟩
    rw [if_pos empty]
    exact ⟨contents, rfl⟩

theorem wrote_part (planned : conn.writing = some writing)
    (part : writing.written + count < writing.total) (now : Nat) :
    conn.wrote count now =
      { conn with
        sentAt := now, writing := some { writing with written := writing.written + count } } := by
  unfold wrote
  rw [planned]
  dsimp only
  rw [if_pos part]

/-- The last bytes of a write: its responses leave the queue, and where one of them ends the
connection the rest of the queue is dropped. -/
theorem wrote_whole (wf : conn.Wf) (idle : conn.completed = [])
    (planned : conn.writing = some writing) (whole : writing.total ≤ writing.written + count)
    (now : Nat) :
    ∃ ring shared taken, Wf { conn with
        sentAt := now, writing := none, ring := ring, shared := shared, taken := taken } ∧
      Settles { conn with
          sentAt := now, writing := none, ring := ring, shared := shared, taken := taken }
        (conn.wrote count now) ∧
      ring.contents = (conn.continuedContents writing).drop writing.count ∧
      (∀ index, ring.position index = conn.ring.position (index + writing.count)) ∧
      ring.futures = conn.ring.futures ∧ ring.pushed = conn.ring.pushed ∧
      conn.shared.Uncounted shared
        (((conn.continuedContents writing).take writing.count).map Entry.returned).sum ∧
      (taken = conn.taken ∨
        ∃ entry ∈ (conn.continuedContents writing).take writing.count, taken = entry.record) ∧
      (((conn.continuedContents writing).take writing.count).any Entry.ends = true →
        (conn.wrote count now).ring.contents = [] ∧ (conn.wrote count now).close = true) := by
  have unwritten : Wf { conn with sentAt := now, writing := none } :=
    wf.unwritten rfl rfl rfl rfl rfl
  have noted : ∃ ring, (if writing.continues then { conn with
        sentAt := now, writing := none
        ring := conn.ring.entryMut (conn.ring.position 0) continuedEntry }
        else { conn with sentAt := now, writing := none }) =
          { conn with sentAt := now, writing := none, ring := ring } ∧
      ring.contents = conn.continuedContents writing ∧ ring.head = conn.ring.head ∧
      ring.futures = conn.ring.futures ∧ ring.pushed = conn.ring.pushed ∧
      Wf { conn with sentAt := now, writing := none, ring := ring } := by
    unfold continuedContents
    split
    · obtain ⟨ring, same, contents, head, futures, pushed, kept⟩ := continued_wf unwritten idle
      dsimp only at same
      rw [same]
      exact ⟨ring, rfl, contents, head, futures, pushed, kept⟩
    · exact ⟨conn.ring, rfl, rfl, rfl, rfl, rfl, unwritten⟩
  obtain ⟨noticed, result, contents, head, futures, pushed, noticedWf⟩ := noted
  obtain ⟨fits, done⟩ := wf.batch writing planned
  have still : ∀ entry ∈ noticed.contents.take writing.count, entry.slot = none := by
    intro entry member
    refine noticedWf.slot_none (List.mem_of_mem_take member) ?_
    rw [contents] at member
    rw [continuedContents_done done entry member]
    simp
  have enough : writing.count ≤ noticed.contents.length := by
    rw [contents, length_continuedContents]
    exact fits
  obtain ⟨ring, shared, taken, popped, dropped, uncounted, claimed⟩ :=
    @popWritten_eq writing.count { conn with sentAt := now, writing := none, ring := noticed }
      false enough still
  dsimp only at popped dropped uncounted claimed
  rw [contents, Bool.false_or] at popped
  rw [contents] at uncounted claimed
  have poppedWf : Wf { conn with
      sentAt := now, writing := none, ring := ring, shared := shared, taken := taken } :=
    noticedWf.dropFront still dropped rfl rfl rfl idle
  refine ⟨ring, shared, taken, poppedWf, ?_⟩
  have ended := @endWritten_settles { conn with
      sentAt := now, writing := none, ring := ring, shared := shared, taken := taken } idle rfl
    (((conn.continuedContents writing).take writing.count).any Entry.ends) now
  have final : conn.wrote count now = endWritten { conn with
        sentAt := now, writing := none, ring := ring, shared := shared, taken := taken }
      (((conn.continuedContents writing).take writing.count).any Entry.ends) now := by
    unfold wrote
    rw [planned]
    dsimp only
    rw [if_neg (by omega), result, popped]
  rw [final]
  refine ⟨ended.1, by rw [dropped.contents, contents], fun index => ?_,
    dropped.futures.trans futures, dropped.pushed.trans pushed, uncounted, claimed, ended.2⟩
  rw [dropped.position]
  exact Ring.position_of_head head _

theorem wrote_wf (wf : conn.Wf) (idle : conn.completed = []) (count now : Nat) :
    (conn.wrote count now).Wf ∧ (conn.wrote count now).completed = [] := by
  rcases planned : conn.writing with - | writing
  · unfold wrote
    rw [planned]
    exact ⟨wf, idle⟩
  by_cases part : writing.written + count < writing.total
  · rw [wrote_part planned part]
    refine ⟨{ wf with batch := fun batch same => ?_ }, idle⟩
    cases same
    exact wf.batch writing planned
  · obtain ⟨ring, shared, taken, poppedWf, settles, -⟩ :=
      wrote_whole wf idle planned (Nat.le_of_not_lt part) now
    exact ⟨settles.wf poppedWf, settles.idle⟩

end Conn

/-! ### Every run -/

namespace Driver

/-- What holds of a driver whose connection has not ended. -/
def Sane (driver : Driver) : Prop :=
  driver.phase ≠ .ended → driver.conn.Wf ∧ driver.conn.completed = []

theorem new_sane (shared : Shared) (authorities : Option (List Bytes)) (now : Nat) :
    (new shared authorities now).Sane := by
  intro _
  have empty : (new shared authorities now).conn.ring.contents = [] := rfl
  refine ⟨⟨Lib.SlotsShared.start, ?_, ?_, ?_, ?_, ?_, ?_, ?_, List.nodup_nil⟩, rfl⟩
  · rw [empty]
    simp
  · rw [empty]
    exact List.Pairwise.nil
  · rw [empty]
    simp
  · rw [empty]
    simp
  · intro writing planned
    cases planned
  · intro reading
    cases reading
  · intro done member
    cases member

theorem Step.sane {driver next : Driver} (step : Step driver next) (sane : driver.Sane) :
    next.Sane := by
  cases step with
  | turn phase now later =>
    obtain ⟨wf, idle⟩ := sane (by rw [phase]; simp)
    obtain ⟨mid, settles, ticked⟩ := Conn.tick_eq wf idle now later
    intro going
    unfold Driver.turn at going ⊢
    dsimp only at going ⊢
    split at going
    · exact absurd rfl going
    · rename_i unfinished
      rw [if_neg unfinished, ticked]
      refine ⟨Conn.planWrite_wf (settles.wf wf) later, ?_⟩
      rcases mid.planWrite_planned later with result | ⟨-, -, -, -, result⟩ | ⟨-, -, -, result⟩
      all_goals
        rw [result]
        exact settles.idle
  | wake phase outcome event now admitted =>
    obtain ⟨wf, idle⟩ := sane (by rw [phase]; simp)
    intro _
    unfold Driver.wake
    dsimp only
    rcases Conn.wake_reaction wf idle outcome event now with
      ⟨-, settles⟩ | ⟨-, settles, result⟩ | ⟨-, settles, result⟩
    · exact ⟨settles.wf wf, settles.idle⟩
    · rw [result]
      exact ⟨(settles.wf wf).congr rfl rfl rfl id (settles.wf wf).reading, settles.idle⟩
    · rw [result]
      exact Conn.wrote_wf (settles.wf wf) settles.idle _ now
  | work phase works =>
    obtain ⟨wf, idle⟩ := sane (by rw [phase]; simp)
    refine fun _ => ⟨(Conn.Move.work works).wf wf, ?_⟩
    cases works <;> exact idle
  | exports phase runs =>
    obtain ⟨wf, idle⟩ := sane (by rw [phase]; simp)
    exact fun _ => ⟨(Conn.Move.exports runs).wf wf, idle⟩
  | core kin =>
    intro going
    obtain ⟨wf, idle⟩ := sane going
    exact ⟨wf.congr rfl rfl rfl id wf.reading, idle⟩

/-- The invariant holds in every state a connection can reach. -/
theorem Reachable.sane {driver : Driver} (reachable : Reachable driver) : driver.Sane := by
  obtain ⟨shared, authorities, now, run⟩ := reachable
  induction run with
  | refl => exact new_sane shared authorities now
  | tail _ step inductionHypothesis => exact step.sane inductionHypothesis

end Driver

end ZeroServer.Http

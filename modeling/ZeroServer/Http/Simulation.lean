/-
This file proves that a turn of the connection driver makes nothing but moves until it plans the
next write: each operation is followed through its loops and written as a sequence of moves, with
the conditions they ask for drawn from the invariant.
-/

import ZeroServer.Http.Order

namespace ZeroServer.Http

open Http1

/-! ### Counting -/

namespace Shared

theorem Kin.refl (shared : Shared) : Kin shared shared := ⟨rfl, rfl, rfl, rfl⟩

theorem Kin.trans {first second third : Shared} (kin : Kin first second)
    (more : Kin second third) : Kin first third :=
  ⟨more.handler.trans kin.handler, more.limits.trans kin.limits, more.server.trans kin.server,
    more.secure.trans kin.secure⟩

namespace Uncounted

theorem none (shared : Shared) : Uncounted shared shared 0 := by
  refine ⟨Kin.refl shared, rfl, rfl, ?_⟩
  simp

/-- Records and the parsed head left behind are not counted. -/
theorem lent (shared : Shared) (records : List FreshRecord) (canceled : Option Head)
    (dropped : List Nat) :
    Uncounted shared
      { shared with records := records, canceled := canceled, dropped := dropped } 0 := by
  refine ⟨⟨rfl, rfl, rfl, rfl⟩, rfl, rfl, ?_⟩
  simp

theorem uncountBody (shared : Shared) (amount : Nat) :
    Uncounted shared (shared.uncountBody amount) amount :=
  ⟨⟨rfl, rfl, rfl, rfl⟩, rfl, rfl, rfl⟩

theorem trans {first second third : Shared} {amount more : Nat}
    (uncounted : Uncounted first second amount) (again : Uncounted second third more) :
    Uncounted first third (amount + more) := by
  refine ⟨uncounted.kin.trans again.kin, again.date.trans uncounted.date, ?_, ?_⟩
  · rw [again.bodies, uncounted.bodies]
    omega
  · rw [again.clipped, uncounted.clipped, uncounted.bodies, Bool.or_assoc]
    congr 1
    rw [← Bool.decide_or, decide_eq_decide]
    omega

theorem takeRecord (shared : Shared) : Uncounted shared shared.takeRecord.2 0 := by
  unfold Shared.takeRecord
  split
  · exact none shared
  · exact lent shared _ shared.canceled shared.dropped

theorem giveRecord (shared : Shared) (record : Record) :
    Uncounted shared (shared.giveRecord record) record.charge := by
  have reported (dropped : List Nat) :
      Uncounted shared ({ shared with dropped := dropped }.uncountBody record.charge)
        record.charge := by
    have both := (lent shared shared.records shared.canceled dropped).trans
      (uncountBody { shared with dropped := dropped } record.charge)
    rwa [Nat.zero_add] at both
  have kept (base : Shared) (records : List FreshRecord)
      (uncounted : Uncounted shared base record.charge) :
      Uncounted shared { base with records := records } record.charge :=
    uncounted.trans (lent base records base.canceled base.dropped)
  unfold Shared.giveRecord
  dsimp only
  rcases record.claim with - | claim
  · split
    · exact kept _ _ (reported shared.dropped)
    · exact reported shared.dropped
  · split
    · exact kept _ _ (reported (shared.dropped ++ [claim.token]))
    · exact reported (shared.dropped ++ [claim.token])

end Uncounted

end Shared

/-! ### Dropping requests -/

namespace Conn

theorem dropFuture_eq (conn : Conn) (future : Option Charged) :
    ∃ shared holds, conn.dropFuture future = { conn with shared := shared, holds := holds } ∧
      conn.shared.Uncounted shared (heldCharge future) := by
  rcases future with - | charged
  · exact ⟨conn.shared, conn.holds, rfl, .none conn.shared⟩
  · refine ⟨_, _, rfl, ?_⟩
    have both := (Shared.Uncounted.uncountBody conn.shared charged.record.charge).trans
      (.lent (conn.shared.uncountBody charged.record.charge) conn.shared.records
        charged.record.parsed conn.shared.dropped)
    exact both

theorem releaseEntry_eq (conn : Conn) (entry : Entry) :
    ∃ shared, conn.releaseEntry entry = { conn with shared := shared } ∧
      conn.shared.Uncounted shared (entry.bodyBytes + recordCharge entry.record) := by
  refine ⟨_, rfl, ?_⟩
  have first := Shared.Uncounted.uncountBody conn.shared entry.bodyBytes
  rcases entry.record with - | record
  · exact first
  · exact first.trans (.giveRecord _ record)

variable {conn : Conn} {items : List Entry} {entry : Entry}

/-- Dropping the last request is a move. -/
theorem discardBack_move (queue : conn.ring.contents = items ++ [entry])
    (beyond : conn.Beyond items.length) :
    ∃ ring shared holds,
      conn.discardBack = { conn with ring := ring, shared := shared, holds := holds } ∧
      conn.Move conn.discardBack ∧ ring.contents = items ∧ ring.head = conn.ring.head ∧
      conn.shared.Uncounted shared
        (heldCharge (conn.ring.future entry) + entry.bodyBytes + recordCharge entry.record) := by
  obtain ⟨left, popped, contents, head, len, cleared⟩ := Ring.popBack_concat queue
  obtain ⟨shared, holds, dropped, first⟩ :=
    dropFuture_eq { conn with ring := left } (conn.ring.future entry)
  obtain ⟨returned, released, second⟩ := releaseEntry_eq
    { conn with ring := left, shared := shared, holds := holds } (Ring.freed entry)
  have result : conn.discardBack =
      { conn with ring := left, shared := returned, holds := holds } := by
    unfold discardBack
    rw [popped]
    dsimp only
    rw [dropped]
    exact released
  have uncounted := first.trans second
  rw [← Nat.add_assoc] at uncounted
  refine ⟨left, returned, holds, result, ?_, contents, head, uncounted⟩
  rw [result]
  exact .discard queue beyond contents head cleared uncounted holds

/-- Dropping every request from one on. -/
theorem discardTimes_moves (times : Nat) {start : Nat}
    (length : conn.ring.contents.length = start + times) (beyond : conn.Beyond start) :
    ∃ ring shared holds,
      discardTimes times conn = { conn with ring := ring, shared := shared, holds := holds } ∧
      conn.Moves (discardTimes times conn) ∧ ring.contents = conn.ring.contents.take start ∧
      ring.head = conn.ring.head ∧ Shared.Kin conn.shared shared ∧
      shared.date = conn.shared.date := by
  induction times generalizing conn with
  | zero =>
    refine ⟨conn.ring, conn.shared, conn.holds, rfl, .refl, ?_, rfl, .refl _, rfl⟩
    rw [List.take_of_length_le (by omega)]
  | succ times inductionHypothesis =>
    rcases List.eq_nil_or_concat conn.ring.contents with empty | ⟨items, entry, queue⟩
    · rw [empty] at length
      simp at length
    · rw [List.concat_eq_append] at queue
      have size : items.length = start + times := by
        rw [queue, List.length_append, List.length_singleton] at length
        omega
      obtain ⟨ring, shared, holds, result, move, contents, head, uncounted⟩ :=
        discardBack_move queue fun writing planned => by
          have := beyond writing planned
          omega
      obtain ⟨left, returned, kept, more, moves, taken, sameHead, kin, date⟩ :=
        @inductionHypothesis conn.discardBack (by rw [result, contents]; exact size)
          (by rw [result]; exact beyond)
      refine ⟨left, returned, kept, ?_, .head move moves, ?_, ?_, ?_, ?_⟩
      · unfold discardTimes
        rw [more, result]
      · rw [taken, result]
        dsimp only
        rw [contents, queue, Lib.take_concat (by omega)]
      · rw [sameHead, result]
        exact head
      · rw [result] at kin
        exact uncounted.kin.trans kin
      · rw [date, result]
        exact uncounted.date

theorem discardFrom_moves {conn : Conn} {start : Nat} (fits : start ≤ conn.ring.len)
    (beyond : conn.Beyond start) :
    ∃ ring shared holds,
      conn.discardFrom start = { conn with ring := ring, shared := shared, holds := holds } ∧
      conn.Moves (conn.discardFrom start) ∧ ring.contents = conn.ring.contents.take start ∧
      ring.head = conn.ring.head ∧ Shared.Kin conn.shared shared ∧
      shared.date = conn.shared.date :=
  discardTimes_moves _ (by rw [Lib.RingBuffer.length_contents]; omega) beyond

/-- Moves behind which no completed response waits for its entry. -/
structure Settles (conn next : Conn) : Prop where
  moves : conn.Moves next
  idle : next.completed = []

namespace Settles

variable {first second third : Conn}

theorem refl (idle : first.completed = []) : first.Settles first := ⟨.refl, idle⟩

theorem trans (settles : first.Settles second) (again : second.Settles third) :
    first.Settles third :=
  ⟨settles.moves.trans again.moves, again.idle⟩

theorem single (move : first.Move second) (idle : second.completed = []) : first.Settles second :=
  ⟨.single move, idle⟩

theorem wf (settles : first.Settles second) (wf : first.Wf) : second.Wf := settles.moves.wf wf

end Settles

/-! ### Closing -/

/-- Marking the connection to close: the last response is serialized again where it is done and
not being written. -/
theorem markClose_settles (wf : conn.Wf) (idle : conn.completed = []) :
    conn.Settles conn.markClose := by
  have first : conn.Move { conn with close := true } := .shut
  unfold markClose
  dsimp only
  rcases List.eq_nil_or_concat conn.ring.contents with empty | ⟨items, entry, queue⟩
  · rw [if_pos (by rw [Ring.isEmpty_eq, empty]; rfl)]
    exact .single first idle
  rw [List.concat_eq_append] at queue
  have length : conn.ring.len = items.length + 1 := by
    rw [← Lib.RingBuffer.length_contents, queue, List.length_append, List.length_singleton]
  rw [if_neg (by rw [Ring.isEmpty_eq, queue]; simp), length, Nat.add_sub_cancel]
  split
  · exact .single first idle
  rename_i outside
  have contents (change : Entry → Entry) :
      (conn.ring.entryMut (conn.ring.position items.length) change).contents =
        conn.ring.contents.modify items.length change :=
    Ring.contents_entryMut_position _ (by omega) change
  by_cases done : entry.stage = .done
  · have listed : entry ∈ conn.ring.contents := by rw [queue]; simp
    obtain ⟨record, held⟩ := Option.isSome_iff_exists.mp
      ((wf.ok entry listed).record.mpr (by rw [done]; simp))
    refine ⟨.tail (.single first)
      (.reclose rfl idle queue ?_ done held ⟨?_, rfl, rfl⟩ rfl rfl), idle⟩
    · intro writing planned
      dsimp only at planned
      rw [planned] at outside
      simpa using outside
    · dsimp only
      rw [contents, queue, Lib.modify_concat, Lib.modify_concat]
      unfold closingEntry
      rw [if_pos done, held]
      rfl
  · refine ⟨.tail (.single first)
      (.restamp (Lib.getElem?_of_concat queue) idle entry.lastByte ⟨?_, rfl, rfl⟩ rfl rfl), idle⟩
    dsimp only
    rw [contents, queue, Lib.modify_concat, Lib.modify_concat]
    unfold closingEntry
    rw [if_neg done]

/-! ### The driver's own answers -/

variable {index : Nat}

theorem lastAnswer_request (conn : Conn) (record : Record) (status : StatusCode) :
    (conn.lastAnswer record status).charge = record.charge ∧
      (conn.lastAnswer record status).body = record.body ∧
      (conn.lastAnswer record status).head = record.head ∧
      (conn.lastAnswer record status).parsed = record.parsed ∧
      (conn.lastAnswer record status).close = true := by
  unfold lastAnswer
  simp

theorem cancelAt_eq (queue : conn.ring.contents = items ++ [entry]) :
    ∃ canceled ring shared holds, conn.cancelAt (conn.ring.position items.length) =
        (canceled, { conn with ring := ring, shared := shared, holds := holds }) ∧
      ring.contents = items ++ [Ring.freed entry] ∧ ring.head = conn.ring.head ∧
      ring.len = conn.ring.len ∧ conn.ring.Cleared ring entry ∧
      conn.shared.Uncounted shared (heldCharge (conn.ring.future entry)) := by
  obtain ⟨ring, step, contents, head, len, cleared⟩ :=
    Ring.clearFuture_position (Lib.getElem?_of_concat queue)
  obtain ⟨shared, holds, dropped, uncounted⟩ := dropFuture_eq
    { conn with ring := ring, shared := { conn.shared with canceled := none } }
    (conn.ring.future entry)
  refine ⟨shared.canceled, ring, { shared with canceled := none }, holds, ?_, ?_, head, len,
    cleared, ?_⟩
  · unfold cancelAt
    rw [step]
    dsimp only
    rw [dropped]
  · rw [contents, queue, Lib.modify_concat]
  · have forgotten := Shared.Uncounted.lent conn.shared conn.shared.records none
      conn.shared.dropped
    have all := (forgotten.trans uncounted).trans (.lent shared shared.records none shared.dropped)
    rwa [Nat.zero_add] at all

theorem failedRecord_eq (conn : Conn) {position : Nat}
    (reads : conn.ring.entry position = some entry) (canceled : Option Head) :
    ∃ record shared, conn.failedRecord position canceled = (record, shared) ∧
      conn.shared.Uncounted shared 0 ∧ record.charge = recordCharge entry.record ∧
      (record.body = [] ∨ ∃ kept, entry.record = some kept ∧ record = kept) := by
  unfold failedRecord
  rw [reads, Option.bind_some]
  rcases entry.record with - | kept
  · refine ⟨_, _, rfl, .takeRecord conn.shared, ?_, .inl ?_⟩
    · exact conn.shared.takeRecord.1.charge_eq
    · exact conn.shared.takeRecord.1.body_eq
  · exact ⟨kept, conn.shared, rfl, .none conn.shared, rfl, .inr ⟨kept, rfl, rfl⟩⟩

/-- Answering the last request, which is not done, in place of its handler. -/
theorem answerAt_settles (wf : conn.Wf) (idle : conn.completed = [])
    (queue : conn.ring.contents = items ++ [entry]) (open_ : entry.stage ≠ .done)
    (status : StatusCode) : conn.Settles (conn.answerAt items.length status) := by
  obtain ⟨canceled, ring, shared, holds, step, contents, head, len, cleared, uncounted⟩ :=
    cancelAt_eq queue
  have length : conn.ring.len = items.length + 1 := by
    rw [← Lib.RingBuffer.length_contents, queue, List.length_append, List.length_singleton]
  have reads : ring.entry (conn.ring.position items.length) = some (Ring.freed entry) := by
    rw [← Ring.position_of_head head, ring.entry_position (by omega)]
    exact Lib.getElem?_of_concat contents
  obtain ⟨record, lent, failed, same, charge, body⟩ := failedRecord_eq
    { conn with ring := ring, shared := shared, holds := holds } reads canceled
  have request := lastAnswer_request
    { conn with ring := ring, shared := lent, holds := holds } record status
  unfold answerAt
  dsimp only
  rw [step]
  dsimp only
  rw [failed]
  dsimp only
  generalize answer : lastAnswer { conn with ring := ring, shared := lent, holds := holds }
    record status = last at request ⊢
  have answered : conn.Move { conn with
      ring := ring.entryMut (conn.ring.position items.length) fun entry =>
        { entry with record := some last, stage := .done }
      shared := lent, holds := holds, input := [], close := true } := by
    refine @Move.fail conn lent (ring.entryMut (conn.ring.position items.length) fun entry =>
        { entry with record := some last, stage := .done })
      items entry last queue open_ request.2.2.2.2 ?_ ?_ idle ⟨?_, head, cleared.pushed⟩
      ⟨cleared.pushed, cleared.futures, cleared.freeSlots⟩ (uncounted.trans same) holds
    · rw [request.1, charge]
      rfl
    · rw [request.2.1, request.2.2.1, request.2.2.2.1]
      rcases body with none | ⟨kept, held, rfl⟩
      · exact .inl none
      · exact .inr ⟨record, held, rfl, rfl, rfl⟩
    · rw [← Ring.position_of_head head, Ring.contents_entryMut_position _ (by omega), contents,
        queue, Lib.modify_concat, Lib.modify_concat]
      rfl
  exact (Settles.single answered idle).trans (markClose_settles (answered.wf wf) idle)

/-- Answering the `index`th request, which is not done, in place of its handler. -/
theorem failAt_settles (wf : conn.Wf) (idle : conn.completed = [])
    (found : conn.ring.contents[index]? = some entry) (open_ : entry.stage ≠ .done)
    (status : StatusCode) : conn.Settles (conn.failAt index status) := by
  have inside : index < conn.ring.len := by
    have := (List.getElem?_eq_some_iff.mp found).1
    rwa [Lib.RingBuffer.length_contents] at this
  have beyond := wf.beyond found open_
  obtain ⟨ring, shared, holds, discarded, moves, contents, -, -, -⟩ :=
    conn.discardFrom_moves (by omega : index + 1 ≤ conn.ring.len)
      fun writing planned => Nat.le_succ_of_le (beyond writing planned)
  have discardedWf := moves.wf wf
  have queue : ring.contents = conn.ring.contents.take index ++ [entry] := by
    rw [contents, List.take_add_one, found]
    rfl
  have size : (conn.ring.contents.take index).length = index := by
    rw [List.length_take, Lib.RingBuffer.length_contents]
    omega
  unfold failAt
  rw [discarded] at moves discardedWf ⊢
  have answered := answerAt_settles discardedWf idle queue open_ status
  rw [size] at answered
  exact ⟨moves.trans answered.moves, answered.idle⟩

/-! ### Queueing -/

variable {shared : Shared}

theorem queue_cases (conn : Conn) (entry : Entry) :
    (conn.ring.len < cap ∧ ∃ ring, conn.queue entry = { conn with ring := ring } ∧
        conn.ring.Grown ring entry) ∨
      conn.ring.len = cap ∧ conn.queue entry = { conn.releaseEntry entry with aborted := true } := by
  unfold queue
  rcases conn.ring.push_cases entry with
    ⟨full, len⟩ | ⟨ring, pushed, room, contents, head, -, futures, freeSlots, count⟩
  · rw [full]
    exact .inr ⟨len, rfl⟩
  · rw [pushed]
    exact .inl ⟨room, ring, rfl, contents, head, count, futures, freeSlots⟩

theorem queue_grown {conn : Conn} (room : conn.ring.len < cap) (entry : Entry) :
    ∃ ring, conn.queue entry = { conn with ring := ring } ∧ conn.ring.Grown ring entry := by
  rcases conn.queue_cases entry with ⟨-, grown⟩ | ⟨full, -⟩
  · exact grown
  · omega

/-- Refusing a request as its head arrives. -/
theorem refuse_settles (wf : conn.Wf) (opened : conn.Open) (room : conn.ring.len < cap)
    (same : conn.shared.Uncounted shared 0) {record : Record} (charge : record.charge = 0)
    (body : record.body = []) (requests : Nat) (input : Bytes) (close : Bool) (status : StatusCode)
    (now : Nat) :
    conn.Settles (answerNow { conn with
      shared := shared, next := none, headSince := none, parses := conn.parses + 1,
      requests := requests, input := input, close := close } record status now) := by
  unfold answerNow
  dsimp only
  have request := lastAnswer_request { conn with
    shared := shared, next := none, headSince := none, parses := conn.parses + 1,
    requests := requests, input := input, close := close } record status
  generalize lastAnswer _ record status = last at request ⊢
  obtain ⟨ring, queued, grown⟩ := @queue_grown { conn with
    shared := shared, next := none, headSince := none, parses := conn.parses + 1,
    requests := requests, input := input, close := close } room (Entry.new last .done now)
  rw [queued]
  have refused := @Move.refuse conn shared ring last opened same (request.1.trans charge)
    (request.2.1.trans body) request.2.2.2.2 now requests grown
  exact (Settles.single refused opened.completed).trans
    (markClose_settles (refused.wf wf) opened.completed)

/-- Taking a request in. -/
theorem accept_settles (wf : conn.Wf) (opened : conn.Open) (room : conn.ring.len < cap)
    (same : conn.shared.Uncounted shared 0) (record : FreshRecord) (head : Head) (now : Nat) :
    conn.Settles (accept { conn with
      shared := shared, next := none, headSince := none, parses := conn.parses + 1 }
      record.1 head now) := by
  unfold accept
  generalize filled : headRecord _ record.1 head = taken
  have charge : taken.charge = 0 := by
    rw [← filled]
    exact record.charge_eq
  have body : taken.body = [] := by
    rw [← filled]
    exact record.body_eq
  have parsed : taken.parsed = some head := by
    rw [← filled]
    rfl
  have admitted (stage : Stage) (reads : stage.reads (bodyLimit shared taken head))
      (fits : stage.lacking ≤ bodyLimit shared taken head) :
      conn.Settles (queue (countRequest { conn with
        shared := shared, next := none, headSince := none, parses := conn.parses + 1 } head)
        (Entry.new taken stage now)) := by
    obtain ⟨ring, queued, grown⟩ := @queue_grown (countRequest { conn with
      shared := shared, next := none, headSince := none, parses := conn.parses + 1 } head) room
      (Entry.new taken stage now)
    rw [queued]
    exact .single (.enlist opened same charge body parsed reads fits now _ head.len _ grown)
      opened.completed
  have refused (status : StatusCode) := refuse_settles wf opened room same charge body
    (min (conn.requests + 1) (2 ^ 32 - 1)) (conn.input.drop head.len) (conn.close ||
      !head.keepAlive || decide (shared.limits.maxRequestsPerConnection ≤
        min (conn.requests + 1) (2 ^ 32 - 1))) status now
  dsimp only
  split
  · exact refused _
  split
  · exact admitted .waiting (.inl rfl) (Nat.zero_le _)
  · exact admitted .waiting (.inl rfl) (Nat.zero_le _)
  · split
    · exact refused _
    · rename_i small
      exact admitted _ (.inr ⟨_, _, rfl⟩) (Nat.le_of_not_gt small)
  · exact admitted _ (.inr ⟨_, _, rfl⟩) (Nat.zero_le _)

theorem nextRecord_uncounted (conn : Conn) : conn.shared.Uncounted conn.nextRecord.2 0 := by
  unfold nextRecord
  split
  · exact .none conn.shared
  · exact .takeRecord conn.shared

/-- Parsing a head. -/
theorem parseHead_settles (wf : conn.Wf) (opened : conn.Open) (room : conn.ring.len < cap)
    (now : Nat) : conn.Settles (conn.parseHead now).1 := by
  have same := conn.nextRecord_uncounted
  unfold parseHead
  dsimp only
  generalize conn.nextRecord = pair at same ⊢
  rcases parseRequest conn.input pair.1.1.fields conn.limits with ⟨head | - | reject, fields⟩
  · exact accept_settles wf opened room same (pair.1.withFields fields) head now
  · dsimp only
    rcases conn.headSince with - | since
    · exact .single (.await opened same (pair.1.withFields fields) now) opened.completed
    · exact .single (.await opened same (pair.1.withFields fields) since) opened.completed
  · exact refuse_settles wf opened room same (pair.1.withFields fields).charge_eq
      (pair.1.withFields fields).body_eq conn.requests conn.input conn.close reject.status now

/-! ### Deadlines -/

variable {status : StatusCode}

theorem Move.flush (conn : Conn) : conn.Move { conn with input := [] } := by
  have skipped := @Move.skip conn conn.input.length
  rwa [List.drop_length] at skipped

/-- Answering a head that took too long; a full ring aborts the connection instead. -/
theorem timeOutHead_settles (wf : conn.Wf) (idle : conn.completed = [])
    (reading : conn.headSince.isSome = true) (now : Nat) : conn.Settles (conn.timeOutHead now) := by
  have same := conn.nextRecord_uncounted
  unfold timeOutHead
  dsimp only
  generalize conn.nextRecord = pair at same ⊢
  obtain ⟨record, shared⟩ := pair
  dsimp only at same ⊢
  unfold answerNow
  dsimp only
  have request := lastAnswer_request { conn with
    shared := shared, next := none, headSince := none, input := [] } record.1 .requestTimeout
  generalize lastAnswer _ record.1 .requestTimeout = last at request ⊢
  have charge := request.1.trans record.charge_eq
  rcases queue_cases { conn with
      shared := shared, next := none, headSince := none, input := [] }
      (Entry.new last .done now) with ⟨-, ring, queued, grown⟩ | ⟨-, aborted⟩
  · rw [queued]
    have late := @Move.overdue conn shared ring last reading idle same charge
      (request.2.1.trans record.body_eq) request.2.2.2.2 now grown
    exact (Settles.single late idle).trans (markClose_settles (late.wf wf) idle)
  · obtain ⟨returned, released, uncounted⟩ := releaseEntry_eq { conn with
      shared := shared, next := none, headSince := none, input := [] } (Entry.new last .done now)
    rw [aborted, released]
    have nothing : (Entry.new last .done now).bodyBytes + recordCharge (Entry.new last .done
        now).record = 0 := (Nat.zero_add _).trans charge
    rw [nothing] at uncounted
    have given : conn.Moves { conn with
        shared := returned, next := none, headSince := none, input := [], aborted := true } :=
      .tail (.tail (.tail (.single .forget) (.lend (same.trans uncounted))) (.flush _))
        (.aside conn.retryReadAt conn.draining conn.readHeld true conn.holds)
    exact (Settles.mk given idle).trans (markClose_settles (given.wf wf) idle)

theorem firstExpired_found {now left found : Nat} (inside : index + left ≤ conn.ring.len)
    (expired : conn.firstExpired now left index = some (found, status)) :
    ∃ entry, conn.ring.contents[found]? = some entry ∧ entry.stage ≠ .done := by
  induction left generalizing index with
  | zero => cases expired
  | succ left inductionHypothesis =>
    unfold firstExpired at expired
    rw [conn.ring.entry_position (by omega)] at expired
    rcases reads : conn.ring.contents[index]? with - | entry
    · rw [reads] at expired
      exact inductionHypothesis (by omega) expired
    · rw [reads, Option.bind_some] at expired
      rcases fires : conn.expired entry now with - | answer
      · rw [fires] at expired
        exact inductionHypothesis (by omega) expired
      · rw [fires] at expired
        cases expired
        refine ⟨entry, reads, fun done => ?_⟩
        unfold Conn.expired at fires
        rw [done] at fires
        cases fires

/-- Firing the deadlines that passed. -/
theorem expire_settles (wf : conn.Wf) (idle : conn.completed = []) (now : Nat) :
    conn.Settles (conn.expire now) := by
  have retried : conn.Settles (if conn.retryReadAt.any (· ≤ now) then
      { conn with retryReadAt := none } else conn) := by
    split
    · exact .single
        (.aside none conn.draining conn.readHeld conn.aborted conn.holds) idle
    · exact .refl idle
  unfold expire
  dsimp only
  generalize (if conn.retryReadAt.any (· ≤ now) then
    { conn with retryReadAt := none } else conn) = retry at retried ⊢
  have retryWf := retried.wf wf
  refine retried.trans ?_
  split
  · exact .single (.aside retry.retryReadAt retry.draining retry.readHeld true retry.holds)
      retried.idle
  split
  · exact .single .shut retried.idle
  split
  · rename_i late
    refine timeOutHead_settles retryWf retried.idle ?_ now
    unfold headExpired at late
    rcases since : retry.headSince with - | since
    · rw [since] at late
      simp at late
    · rfl
  split
  · rename_i index status fires
    obtain ⟨entry, found, open_⟩ := firstExpired_found (by omega) fires
    exact failAt_settles retryWf retried.idle found open_ status
  · exact .refl retried.idle

theorem restartBodies_settles (now left : Nat) (idle : conn.completed = [])
    (inside : index + left ≤ conn.ring.len) :
    conn.Settles { conn with ring := restartBodies now left index conn.ring } := by
  induction left generalizing conn index with
  | zero => exact .refl idle
  | succ left inductionHypothesis =>
    unfold restartBodies
    obtain ⟨entry, found⟩ : ∃ entry, conn.ring.contents[index]? = some entry :=
      ⟨_, List.getElem?_eq_getElem (by rw [Lib.RingBuffer.length_contents]; omega)⟩
    have first : conn.Move { conn with
        ring := conn.ring.entryMut (conn.ring.position index) fun entry =>
          if entry.stage.isBody then { entry with lastByte := now } else entry } := by
      refine .restamp found idle (if entry.stage.isBody then now else entry.lastByte)
        ⟨?_, rfl, rfl⟩ rfl rfl
      rw [Ring.contents_entryMut_position _ (by omega), Lib.modify_eq_append found,
        Lib.modify_eq_append found]
      split <;> rfl
    refine (Settles.single first idle).trans (inductionHypothesis idle ?_)
    rw [← Lib.RingBuffer.length_contents]
    dsimp only
    rw [Ring.contents_entryMut_position _ (by omega), List.length_modify,
      Lib.RingBuffer.length_contents]
    omega

/-- Restarting the read deadlines. -/
theorem resumeReading_settles (idle : conn.completed = []) (now : Nat) :
    conn.Settles (conn.resumeReading now) := by
  unfold resumeReading
  dsimp only
  have restarted : conn.Settles (if (conn.readHeld && !conn.held) = true then
      { conn with
        headSince := conn.headSince.map fun _ => now
        ring := restartBodies now conn.ring.len 0 conn.ring }
      else conn) := by
    split
    · have stamped := restartBodies_settles now conn.ring.len idle (Nat.le_of_eq (Nat.zero_add _))
      refine stamped.trans ?_
      rcases since : conn.headSince with - | since
      · have same := Settles.refl stamped.idle
        rw [since] at same
        exact same
      · exact .single (.postpone now rfl) idle
    · exact .refl idle
  refine restarted.trans ?_
  generalize (if (conn.readHeld && !conn.held) = true then
      { conn with
        headSince := conn.headSince.map fun _ => now
        ring := restartBodies now conn.ring.len 0 conn.ring }
      else conn) = restart at restarted ⊢
  exact .single (.aside restart.retryReadAt restart.draining conn.held restart.aborted
    restart.holds) restarted.idle

/-! ### The input loop -/

theorem concat_of_last (tail : conn.ring.last = some entry) :
    ∃ items, conn.ring.contents = items ++ [entry] ∧ conn.ring.len = items.length + 1 := by
  rw [Ring.last_eq] at tail
  obtain ⟨items, queue⟩ := List.getLast?_eq_some_iff.mp tail
  refine ⟨items, queue, ?_⟩
  rw [← Lib.RingBuffer.length_contents, queue, List.length_append, List.length_singleton]

theorem last_of_bodyPending {ring : Ring Charged} (pending : ring.bodyPending = true) :
    ∃ entry, ring.last = some entry ∧ entry.stage.isBody = true := by
  unfold Ring.bodyPending at pending
  rcases tail : ring.last with - | entry
  · rw [tail] at pending
    cases pending
  · rw [tail] at pending
    exact ⟨entry, rfl, pending⟩

theorem edited_lastMut (queue : conn.ring.contents = items ++ [entry]) {change edit : Entry → Entry}
    (same : edit entry = change entry) :
    conn.ring.Edited (conn.ring.lastMut change) items.length edit := by
  have length : conn.ring.len = items.length + 1 := by
    rw [← Lib.RingBuffer.length_contents, queue, List.length_append, List.length_singleton]
  have changed : conn.ring.lastMut change =
      conn.ring.entryMut (conn.ring.position (conn.ring.len - 1)) change := by
    unfold Ring.lastMut
    rw [if_neg (by omega)]
  refine ⟨?_, ?_, ?_⟩
  · rw [Ring.contents_lastMut, length, Nat.add_sub_cancel, queue, Lib.modify_concat,
      Lib.modify_concat, same]
  · rw [changed]
    rfl
  · rw [changed]
    rfl

theorem futures_lastMut (ring : Ring Charged) (change : Entry → Entry) :
    (ring.lastMut change).futures = ring.futures ∧
      (ring.lastMut change).freeSlots = ring.freeSlots := by
  unfold Ring.lastMut
  split <;> exact ⟨rfl, rfl⟩

section Feed

variable {conn : Conn} {items : List Entry} {entry : Entry} {record : Record} {pending : Bool}
  {maxBody : Nat}

/-- Feeding a body of known length. -/
theorem feedLength_settles {remaining : Nat} (idle : conn.completed = [])
    (queue : conn.ring.contents = items ++ [entry])
    (reading : entry.stage = .body (.length remaining) pending maxBody)
    (held : entry.record = some record) (now : Nat) :
    conn.Settles (conn.feedLength entry record remaining maxBody now).1 := by
  have emitted : (conn.input.take (min remaining conn.input.length)).length =
      min remaining conn.input.length := by
    rw [List.length_take]
    omega
  have fed := @Move.feed conn (conn.ring.lastMut fun _ =>
      { entry with
        record := some { record with
          body := record.body ++ conn.input.take (min remaining conn.input.length) }
        lastByte := now
        bodyBytes := saturatingAdd entry.bodyBytes (min remaining conn.input.length)
        stage :=
          if remaining - min remaining conn.input.length = 0 then .waiting
          else .body (.length (remaining - min remaining conn.input.length)) false maxBody })
    items entry record _ pending maxBody (min remaining conn.input.length)
    (conn.input.take (min remaining conn.input.length))
    (if remaining - min remaining conn.input.length = 0 then .waiting
      else .body (.length (remaining - min remaining conn.input.length)) false maxBody)
    queue idle reading held ?_ ?_ ?_ now (edited_lastMut queue ?_) (futures_lastMut _ _).1
    (futures_lastMut _ _).2
  · rw [emitted] at fed
    exact .single fed idle
  · split
    · exact .inl rfl
    · exact .inr ⟨_, rfl⟩
  · rw [emitted, List.length_drop]
    omega
  · rw [emitted, reading]
    change record.body.length + remaining ≤ maxBody → _
    split
    · change _ → _ + _ + 0 ≤ maxBody
      omega
    · change _ → _ + _ + (remaining - min remaining conn.input.length) ≤ maxBody
      omega
  · rw [emitted]

/-- A decoder step that only moves the framing on. -/
theorem frame_settles {decoder next : ChunkedDecoder} (idle : conn.completed = [])
    (queue : conn.ring.contents = items ++ [entry])
    (reading : entry.stage = .body (.chunked decoder) pending maxBody)
    (held : entry.record = some record) (used now : Nat) :
    conn.Settles { conn with
      ring := conn.ring.lastMut fun _ => decodedEntry entry next maxBody now
      input := conn.input.drop used } := by
  refine .single (@Move.frame conn _ items entry record _ pending maxBody used
    (.body (.chunked next) false maxBody) queue idle reading held (.inr ⟨_, rfl⟩)
    (Nat.zero_le _) record.trailers now (edited_lastMut queue ?_) (futures_lastMut _ _).1
    (futures_lastMut _ _).2) idle
  unfold decodedEntry
  rw [held]

/-- Feeding a chunked body. -/
theorem feedChunked_settles {decoder : ChunkedDecoder} (idle : conn.completed = [])
    (queue : conn.ring.contents = items ++ [entry])
    (reading : entry.stage = .body (.chunked decoder) pending maxBody)
    (held : entry.record = some record) (now : Nat) :
    conn.Settles (conn.feedChunked entry record decoder maxBody now).1 := by
  have stuck (next : ChunkedDecoder) : conn.Settles { conn with
      ring := conn.ring.lastMut fun _ => decodedEntry entry next maxBody now } :=
    frame_settles idle queue reading held 0 now
  unfold feedChunked
  rcases decoded : decoder.decode conn.input conn.limits with
    ⟨next, reject | ⟨data, consumed⟩ | consumed | ⟨trailers, consumed⟩⟩
  · exact stuck next
  · dsimp only
    split
    · exact stuck next
    · rename_i small
      obtain ⟨emitted, inside⟩ := ChunkedDecoder.decode_data_length decoded
      refine .single (@Move.feed conn _ items entry record _ pending maxBody consumed data
        (.body (.chunked next) false maxBody) queue idle reading held (.inr ⟨_, rfl⟩) ?_ ?_ now
        (edited_lastMut queue rfl) (futures_lastMut _ _).1 (futures_lastMut _ _).2) idle
      · rw [List.length_drop]
        omega
      · change _ → _ + _ + 0 ≤ maxBody
        omega
  · exact frame_settles idle queue reading held consumed now
  · dsimp only
    split
    · exact stuck next
    · exact .single (@Move.frame conn _ items entry record _ pending maxBody consumed .waiting
        queue idle reading held (.inl rfl) (Nat.zero_le _)
        (record.trailers ++ trailers.of conn.input) now (edited_lastMut queue rfl)
        (futures_lastMut _ _).1 (futures_lastMut _ _).2) idle

end Feed

/-- Feeding the body of the last request. -/
theorem feedBody_settles (idle : conn.completed = []) (now : Nat) :
    conn.Settles (conn.feedBody now).1 := by
  unfold feedBody
  split
  · exact .refl idle
  rename_i entry tail
  obtain ⟨items, queue, -⟩ := concat_of_last tail
  split
  · rename_i framing pending maxBody record reading held
    split
    · exact .refl idle
    · rcases framing with remaining | decoder
      · exact feedLength_settles idle queue reading held now
      · exact feedChunked_settles idle queue reading held now
  · exact .refl idle

/-- A rejected body is still the last request's. -/
theorem feedBody_reject {next : Conn} {now : Nat}
    (fed : conn.feedBody now = (next, .reject status)) :
    ∃ entry, next.ring.last = some entry ∧ entry.stage.isBody = true := by
  unfold feedBody at fed
  split at fed
  · cases fed
  rename_i entry tail
  split at fed
  · split at fed
    · cases fed
    · split at fed
      · cases fed
      · rename_i decoder reading
        have decoded (after : ChunkedDecoder) (limit : Nat) : ∃ last,
            (conn.ring.lastMut fun _ => decodedEntry entry after limit now).last = some last ∧
              last.stage.isBody = true := by
          rw [Ring.last_lastMut, tail]
          exact ⟨_, rfl, rfl⟩
        unfold feedChunked at fed
        split at fed
        · split at fed
          · cases fed
            exact decoded _ _
          · cases fed
        · simp only [Prod.mk.injEq] at fed
          obtain ⟨-, impossible⟩ := fed
          split at impossible <;> cases impossible
        · split at fed
          · cases fed
            exact decoded _ _
          · cases fed
        · cases fed
          exact decoded _ _
  · cases fed

/-- One turn of the input loop. -/
theorem inputTurn_settles (wf : conn.Wf) (idle : conn.completed = []) (now : Nat) :
    conn.Settles (conn.inputTurn now).1 := by
  unfold inputTurn
  split
  · exact .refl idle
  split
  · have settles := feedBody_settles idle now
    rcases fed : conn.feedBody now with ⟨next, - | - | status⟩
    · rw [fed] at settles
      exact settles
    · rw [fed] at settles
      exact settles
    · rw [fed] at settles
      obtain ⟨entry, tail, reading⟩ := feedBody_reject fed
      obtain ⟨items, queue, length⟩ := concat_of_last tail
      have found : next.ring.contents[next.ring.len - 1]? = some entry := by
        rw [length, Nat.add_sub_cancel]
        exact Lib.getElem?_of_concat queue
      refine settles.trans (failAt_settles (settles.wf wf) settles.idle found ?_ status)
      intro done
      rw [done] at reading
      cases reading
  rename_i read
  split
  · exact .refl idle
  rename_i free
  split
  · exact .single (.flush conn) idle
  rename_i opened
  split
  · exact .refl idle
  rename_i room
  have small : conn.ring.len < cap := by
    have fewer : conn.maxPipelined ≤ cap := Nat.min_le_right _ _
    simp only [Bool.or_eq_true, decide_eq_true_eq, not_or, Nat.not_le] at room
    omega
  refine parseHead_settles wf ⟨?_, ?_, ?_, idle⟩ small now
  · simpa using opened
  · simp only [Bool.or_eq_true, not_or, Bool.not_eq_true] at free
    exact free.1
  · simpa using read

/-- Parsing heads and reading bodies. -/
theorem processInput_settles (wf : conn.Wf) (idle : conn.completed = []) (now : Nat) :
    conn.Settles (conn.processInput now) := by
  fun_induction processInput conn now with
  | case1 conn next step inductionHypothesis =>
    have turned := inputTurn_settles wf idle now
    rw [step] at turned
    exact turned.trans (inductionHypothesis (turned.wf wf) turned.idle)
  | case2 conn next step =>
    have turned := inputTurn_settles wf idle now
    rw [step] at turned
    exact turned

/-! ### Starting -/

/-- Starting a request that waits and may run. -/
theorem startAt_settles (wf : conn.Wf) (idle : conn.completed = [])
    (found : conn.ring.contents[index]? = some entry) (waiting : entry.stage = .waiting)
    (runs : index = 0 ∨ entry.safe = true ∧ ∀ earlier ∈ conn.ring.contents.take index,
      earlier.safe = true ∧ earlier.stage.isStarted = true) :
    conn.Settles (conn.startAt index entry) ∧
      ∃ slot, (conn.startAt index entry).ring.contents =
        conn.ring.contents.modify index fun entry =>
          { entry with
            record := none, bodyBytes := 0, slot := some slot, stage := .running
            started := true } := by
  have listed : entry ∈ conn.ring.contents := List.mem_of_getElem? found
  have inside : index < conn.ring.len := by
    have := (List.getElem?_eq_some_iff.mp found).1
    rwa [Lib.RingBuffer.length_contents] at this
  obtain ⟨record, held⟩ := Option.isSome_iff_exists.mp
    ((wf.ok entry listed).record.mpr (by rw [waiting]; simp))
  have idleSlot := wf.slot_none listed (by rw [waiting]; simp)
  unfold startAt
  rw [held]
  dsimp only
  have contents := conn.ring.contents_entryMut_position inside fun entry =>
    { entry with record := none, bodyBytes := 0 }
  have here : (conn.ring.entryMut (conn.ring.position index) fun entry =>
      { entry with record := none, bodyBytes := 0 }).position index = conn.ring.position index :=
    rfl
  have sound : (conn.ring.entryMut (conn.ring.position index) fun entry =>
      { entry with record := none, bodyBytes := 0 }).Sound := by
    refine wf.sound.congr ?_ rfl rfl
    rw [contents]
    exact Ring.owned_modify_of_slot _ _ fun _ => rfl
  have taken : (conn.ring.entryMut (conn.ring.position index) fun entry =>
      { entry with record := none, bodyBytes := 0 }).contents[index]? =
        some { entry with record := none, bodyBytes := 0 } := by
    rw [contents, List.getElem?_modify_eq, found]
    rfl
  obtain ⟨ring, slot, started, after, head, -, pushed, fits, futures⟩ := Ring.start_position sound
    taken idleSlot
    (⟨{ record with charge := saturatingAdd record.charge entry.bodyBytes }, 0⟩ : Charged)
  have both : ring.contents = conn.ring.contents.modify index fun entry =>
      { entry with
        record := none, bodyBytes := 0, slot := some slot, stage := .running
        started := true } := by
    rw [after, contents, List.modify_modify_eq]
    rfl
  rw [here] at started
  rw [started]
  refine ⟨.single (.start found waiting held runs idle fits ⟨both, head, pushed⟩ ?_) idle, slot,
    both⟩
  rcases futures with ⟨set, vacant⟩ | ⟨appended, -⟩
  · exact .inl ⟨set, vacant⟩
  · exact .inr appended

/-- The start loop: everything in front of the turn is safe and started as long as the flag
says so. -/
theorem startFrom_settles (left : Nat) {allSafeBefore : Bool} (wf : conn.Wf)
    (idle : conn.completed = []) (inside : index + left = conn.ring.len)
    (before : allSafeBefore = true → ∀ earlier ∈ conn.ring.contents.take index,
      earlier.safe = true ∧ earlier.stage.isStarted = true) :
    conn.Settles (startFrom left index allSafeBefore conn) := by
  induction left generalizing conn index allSafeBefore with
  | zero => exact .refl idle
  | succ left inductionHypothesis =>
    obtain ⟨entry, found⟩ : ∃ entry, conn.ring.contents[index]? = some entry :=
      ⟨_, List.getElem?_eq_getElem (by rw [Lib.RingBuffer.length_contents]; omega)⟩
    unfold startFrom
    rw [conn.ring.entry_position (by omega), found]
    dsimp only
    have turned : ∃ next, (if (entry.stage == .waiting &&
          (index == 0 || allSafeBefore && entry.safe)) = true then conn.startAt index entry
          else conn) = next ∧ conn.Settles next ∧ next.ring.len = conn.ring.len ∧
        next.ring.contents.take index = conn.ring.contents.take index ∧
        ∃ after, next.ring.contents[index]? = some after ∧ after.safe = entry.safe := by
      split
      · rename_i may
        simp only [Bool.and_eq_true, beq_iff_eq, Bool.or_eq_true] at may
        obtain ⟨waiting, runs⟩ := may
        obtain ⟨settles, slot, contents⟩ := startAt_settles wf idle found waiting
          (runs.imp_right fun safe => ⟨safe.2, before safe.1⟩)
        refine ⟨_, rfl, settles, ?_, ?_, ?_⟩
        · rw [← Lib.RingBuffer.length_contents, contents, List.length_modify,
            Lib.RingBuffer.length_contents]
        · rw [contents, Lib.take_modify (Nat.le_refl _)]
        · rw [contents, List.getElem?_modify_eq, found]
          exact ⟨_, rfl, rfl⟩
      · exact ⟨conn, rfl, .refl idle, rfl, rfl, entry, found, rfl⟩
    obtain ⟨next, ran, settles, length, same, after, there, safe⟩ := turned
    rw [ran, next.ring.entry_position (by omega), there]
    refine settles.trans (inductionHypothesis (settles.wf wf) settles.idle (by omega) ?_)
    intro every earlier member
    simp only [Option.any_some, Bool.and_eq_true] at every
    obtain ⟨⟨all, entrySafe⟩, started⟩ := every
    rw [List.take_add_one, there, same] at member
    rcases List.mem_append.mp member with old | new
    · exact before all earlier old
    · rw [Option.toList_some, List.mem_singleton] at new
      rw [new, safe]
      exact ⟨entrySafe, started⟩

/-- Starting every request that may run. -/
theorem startRunnable_settles (wf : conn.Wf) (idle : conn.completed = []) :
    conn.Settles conn.startRunnable := by
  refine startFrom_settles _ wf idle (Nat.zero_add _) ?_
  intro _ earlier member
  cases member

/-! ### The turn -/

/-- What a turn does before it plans the next write. -/
theorem tick_eq (wf : conn.Wf) (idle : conn.completed = []) (now later : Nat) :
    ∃ mid, conn.Settles mid ∧ conn.tick now later = mid.planWrite later := by
  have resumed := resumeReading_settles idle now
  have expired := expire_settles (resumed.wf wf) resumed.idle now
  have processed := processInput_settles (expired.wf (resumed.wf wf)) expired.idle now
  have early := (resumed.trans expired).trans processed
  exact ⟨_, early.trans (startRunnable_settles (early.wf wf) early.idle), rfl⟩

end Conn

end ZeroServer.Http

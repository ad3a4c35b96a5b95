/-
This file proves that the reaction to an event makes nothing but moves as well, apart from the
input it adds and the bytes it notes as written: completed responses are put on their entries,
the last one first, and the requests behind one that ends the connection are dropped.
-/

import ZeroServer.Http.Simulation

namespace ZeroServer.Http

open Http1

namespace Conn

/-! ### Completed responses -/

variable {conn : Conn}

variable {index : Nat}

/-- Polling the running futures. -/
theorem pollFrom_moves (outcome : Nat → Option Record.Answer) (left : Nat)
    (inside : index + left ≤ conn.ring.len) : conn.Moves (pollFrom outcome left index conn) := by
  induction left generalizing conn index with
  | zero => exact .refl
  | succ left inductionHypothesis =>
    obtain ⟨entry, found⟩ : ∃ entry, conn.ring.contents[index]? = some entry :=
      ⟨_, List.getElem?_eq_getElem (by rw [Lib.RingBuffer.length_contents]; omega)⟩
    have inRing : index < conn.ring.len := by omega
    unfold pollFrom
    dsimp only
    rw [conn.ring.entry_position inRing, found]
    dsimp only
    split
    · rename_i slot charged answer running owned present ready
      refine .head (.ready found running owned ?_ answer (conn.holds - charged.holds))
        (inductionHypothesis (by dsimp only; omega))
      unfold Ring.future at present
      rw [owned, Option.bind_some, Option.join_eq_some_iff] at present
      exact present
    · exact inductionHypothesis (by omega)

theorem pollRunning_moves (conn : Conn) (outcome : Nat → Option Record.Answer) :
    conn.Moves (conn.pollRunning outcome) :=
  pollFrom_moves outcome _ (Nat.le_of_eq (Nat.zero_add _))

/-- Completed responses name positions of the ring. -/
theorem Move.inside {conn next : Conn} (move : conn.Move next)
    (inside : ∀ done ∈ conn.completed, done.1 < cap) : ∀ done ∈ next.completed, done.1 < cap := by
  cases move with
  | ready =>
    intro done member
    rcases List.mem_append.mp member with old | new
    · exact inside done old
    · rw [List.mem_singleton.mp new]
      exact conn.ring.position_lt _
  | finish took =>
    exact fun done member => inside done (by rw [took]; exact List.mem_append_left _ member)
  | strand took =>
    exact fun done member => inside done (by rw [took]; exact List.mem_append_left _ member)
  | work works => cases works <;> exact inside
  | _ => exact inside

theorem Moves.inside {conn next : Conn} (moves : conn.Moves next)
    (inside : ∀ done ∈ conn.completed, done.1 < cap) : ∀ done ∈ next.completed, done.1 < cap := by
  induction moves with
  | refl => exact inside
  | tail _ move inductionHypothesis => exact move.inside inductionHypothesis

/-- The completed responses do not matter for dropping requests. -/
theorem discardBack_completed (conn : Conn) (rest : List (Nat × Record)) :
    discardBack { conn with completed := rest } = { conn.discardBack with completed := rest } := by
  unfold discardBack
  dsimp only
  rcases conn.ring.popBack with ⟨- | entry, - | charged, ring⟩ <;> rfl

theorem discardTimes_completed (times : Nat) (conn : Conn) (rest : List (Nat × Record)) :
    discardTimes times { conn with completed := rest } =
      { discardTimes times conn with completed := rest } := by
  induction times generalizing conn with
  | zero => rfl
  | succ times inductionHypothesis =>
    unfold discardTimes
    rw [discardBack_completed, inductionHypothesis]

theorem flags_moves (conn : Conn) (taking close : Bool) :
    conn.Moves { conn with taking := conn.taking || taking, close := conn.close || close } := by
  rcases taking with - | - <;> rcases close with - | -
  · simp only [Bool.or_false]
    exact .refl
  · simp only [Bool.or_false, Bool.or_true]
    exact .single .shut
  · simp only [Bool.or_false, Bool.or_true]
    exact .single .seize
  · simp only [Bool.or_true]
    exact .tail (.single .seize) .shut

theorem serialize_congr {shared other : Shared} (date : other.date = shared.date)
    (server : other.server = shared.server) (record : Record) (close : Bool) :
    serialize other record close = serialize shared record close := by
  have parts : record.headParts other close = record.headParts shared close := by
    unfold Record.headParts Shared.dateLine Shared.serverLine
    rw [date, server]
  unfold serialize Record.grownHead
  rw [parts]

theorem indexOf_eq (ring : Ring Charged) (inside : index < cap) :
    ring.indexOf (ring.position index) = if index < ring.len then some index else none := by
  have offset := Lib.RingBuffer.offset_position ring.toRingBuffer inside
  unfold Lib.RingBuffer.offset at offset
  unfold Ring.indexOf
  rw [offset]

/-- Dropping what is behind a response that ends the connection. -/
theorem endBehind_moves {entry : Entry} (found : conn.ring.contents[index]? = some entry)
    (beyond : conn.Beyond (index + 1)) (done : Record) (rest : List (Nat × Record)) :
    ∃ ring shared holds taking close,
      endBehind { conn with completed := rest } (conn.ring.position index) done =
        { conn with
          ring := ring, shared := shared, holds := holds, taking := taking, close := close
          completed := rest } ∧
      conn.Moves { conn with
        ring := ring, shared := shared, holds := holds, taking := taking, close := close } ∧
      ring.contents[index]? = some entry ∧ ring.head = conn.ring.head ∧
      Shared.Kin conn.shared shared ∧ shared.date = conn.shared.date ∧
      (conn.close = true → close = true) ∧
      (index + 1 = conn.ring.len → index + 1 = ring.len) ∧
      (done.claim.isSome = true → taking = true ∧ index + 1 = ring.len) ∧
      (done.close = true → close = true ∧ index + 1 = ring.len) := by
  have inside : index < conn.ring.len := by
    have := (List.getElem?_eq_some_iff.mp found).1
    rwa [Lib.RingBuffer.length_contents] at this
  unfold endBehind
  split
  · have flagged := conn.flags_moves done.claim.isSome done.close
    obtain ⟨ring, shared, holds, discarded, moves, contents, head, kin, date⟩ :=
      @discardFrom_moves { conn with
        taking := conn.taking || done.claim.isSome, close := conn.close || done.close }
        (index + 1) inside beyond
    have length : ring.len = index + 1 := by
      rw [← Lib.RingBuffer.length_contents, contents, List.length_take,
        Lib.RingBuffer.length_contents]
      dsimp only
      omega
    refine ⟨ring, shared, holds, conn.taking || done.claim.isSome, conn.close || done.close, ?_,
      ?_, ?_, head, kin, date, ?_, ?_, ?_, ?_⟩
    · dsimp only
      rw [indexOf_eq _ (Nat.lt_of_lt_of_le inside conn.ring.len_le), if_pos inside]
      unfold discardFrom at discarded
      have same := discardTimes_completed (conn.ring.len - (index + 1)) { conn with
        taking := conn.taking || done.claim.isSome, close := conn.close || done.close } rest
      rw [discarded] at same
      exact same
    · rw [discarded] at moves
      exact flagged.trans moves
    · rw [contents, List.getElem?_take, if_pos (Nat.lt_succ_self _)]
      exact found
    · intro closed
      rw [closed]
      rfl
    · exact fun _ => length.symm
    · intro claimed
      rw [claimed]
      exact ⟨Bool.or_true _, length.symm⟩
    · intro closes
      rw [closes]
      exact ⟨Bool.or_true _, length.symm⟩
  · rename_i plain
    simp only [Bool.or_eq_true, not_or, Bool.not_eq_true] at plain
    refine ⟨conn.ring, conn.shared, conn.holds, conn.taking, conn.close, rfl, .refl, found, rfl,
      .refl _, rfl, id, id, ?_, ?_⟩
    · rw [plain.1]
      intro claimed
      cases claimed
    · rw [plain.2]
      intro closes
      cases closes

/-- Putting a response on its entry, whose future is gone. -/
theorem putResponse_move {conn : Conn} {index position : Nat} {entry : Entry} {record : Record}
    {rest : List (Nat × Record)} {closing : Bool}
    (took : conn.completed = rest ++ [(position, record)])
    (found : conn.ring.contents[index]? = some entry)
    (here : conn.ring.position index = position) (gone : conn.ring.future entry = none)
    (answer : let done := serialize conn.shared record (record.close || closing)
      (closing = true → conn.close = true ∧ index + 1 = conn.ring.len) ∧
      (done.claim.isSome = true → conn.taking = true ∧ index + 1 = conn.ring.len) ∧
      (record.close = true → conn.close = true ∧ index + 1 = conn.ring.len)) :
    conn.Move (putResponse { conn with completed := rest } position
        (serialize conn.shared record (record.close || closing))) ∧
      (putResponse { conn with completed := rest } position
        (serialize conn.shared record (record.close || closing))).completed = rest := by
  obtain ⟨ring, step, contents, head, len, cleared⟩ := Ring.clearFuture_position found
  have inside : index < ring.len := by
    have := (List.getElem?_eq_some_iff.mp found).1
    rwa [Lib.RingBuffer.length_contents, ← len] at this
  have reads : ring.entry position = some (Ring.freed entry) := by
    rw [← here, ← Ring.position_of_head head, ring.entry_position inside, contents,
      List.getElem?_modify_eq, found]
    rfl
  unfold putResponse
  rw [here, gone] at step
  dsimp only
  rw [step]
  dsimp only [dropFuture, Option.elim_none]
  rw [reads]
  dsimp only
  rw [charge_serialize]
  refine ⟨@Move.finish conn _ index position entry record rest closing took found here answer
    ⟨?_, head, cleared.pushed⟩ ⟨cleared.pushed, cleared.futures, cleared.freeSlots⟩, rfl⟩
  rw [← here, ← Ring.position_of_head head, Ring.contents_entryMut_position _ inside, contents,
    List.modify_modify_eq]
  rfl

/-- Completing a response. -/
theorem complete_moves (wf : conn.Wf) {position : Nat} {record : Record}
    {rest : List (Nat × Record)} (inside : position < cap)
    (took : conn.completed = rest ++ [(position, record)]) :
    conn.Moves (complete { conn with completed := rest } position record) ∧
      (complete { conn with completed := rest } position record).completed = rest := by
  have here := Lib.RingBuffer.position_offset conn.ring.toRingBuffer inside
  have below := Lib.RingBuffer.offset_lt conn.ring.toRingBuffer position
  have member : (position, record) ∈ conn.completed := by rw [took]; simp
  generalize conn.ring.offset position = index at here below
  unfold complete
  dsimp only
  generalize last : (!conn.ring.isEmpty &&
    conn.ring.position (conn.ring.len - 1) == position) = isLast
  rcases found : conn.ring.contents[index]? with - | entry
  · have outside : conn.ring.len ≤ index := by
      rw [← Lib.RingBuffer.length_contents]
      exact List.getElem?_eq_none_iff.mp found
    have absent : conn.ring.entry position = none := by
      rw [← here, ← conn.ring.getElem?_contents below, found]
    have elsewhere : conn.ring.indexOf position = none := by
      rw [← here, indexOf_eq _ below, if_neg (by omega)]
    generalize done : serialize conn.shared record (record.close || conn.close && isLast) = answer
    have stranded (flags : Conn) (ring : flags.ring = conn.ring)
        (same : flags.shared = conn.shared) (completed : flags.completed = conn.completed) :
        flags.Move (putResponse { flags with completed := rest } position answer) ∧
          (putResponse { flags with completed := rest } position answer).completed = rest := by
      rw [← ring] at absent
      unfold putResponse Ring.clearFuture
      dsimp only
      rw [absent]
      dsimp only [dropFuture, Option.elim_none, Option.bind_none]
      rw [absent]
      refine ⟨.strand (completed.trans took) ?_, rfl⟩
      have returned := Shared.Uncounted.giveRecord flags.shared answer
      rw [← done, charge_serialize] at returned
      rw [← done]
      exact returned
    unfold endBehind
    dsimp only
    rw [elsewhere]
    split
    · have put := stranded { conn with
        taking := conn.taking || answer.claim.isSome, close := conn.close || answer.close }
        rfl rfl rfl
      exact ⟨.tail (conn.flags_moves answer.claim.isSome answer.close) put.1, put.2⟩
    · have put := stranded conn rfl rfl rfl
      exact ⟨.single put.1, put.2⟩
  · have listed : entry ∈ conn.ring.contents := List.mem_of_getElem? found
    have place : entry.place = position := (wf.places _ _ found).trans here
    have running := (wf.completed _ member entry listed place).1
    have beyond : conn.Beyond (index + 1) := fun writing planned =>
      Nat.le_succ_of_le (wf.beyond found (by rw [running]; simp) writing planned)
    obtain ⟨ring, shared, holds, taking, close, ended, moves, there, head, kin, date, closed,
      stays, claims, closes⟩ := endBehind_moves found beyond
        (serialize conn.shared record (record.close || conn.close && isLast)) rest
    rw [here] at ended
    rw [ended]
    have movedWf := moves.wf wf
    have gone := (movedWf.completed _ member entry (List.mem_of_getElem? there) place).2
    have same := serialize_congr date kin.server record (record.close || conn.close && isLast)
    have put := @putResponse_move { conn with
        ring := ring, shared := shared, holds := holds, taking := taking, close := close }
      index position entry record rest (conn.close && isLast) took there
      ((Ring.position_of_head head index).trans here) gone
    dsimp only at put
    rw [same] at put
    refine (put ⟨?_, claims, ?_⟩).imp_left moves.tail
    · intro closing
      rw [Bool.and_eq_true] at closing
      refine ⟨closed closing.1, stays ?_⟩
      have isLast := closing.2
      rw [← last, Bool.and_eq_true, beq_iff_eq, ← here] at isLast
      have nonempty : 0 < conn.ring.len := by
        have := (List.getElem?_eq_some_iff.mp found).1
        rw [Lib.RingBuffer.length_contents] at this
        omega
      have fits := conn.ring.len_le
      have := conn.ring.position_injective (by omega) below isLast.2
      omega
    · rw [close_serialize] at closes
      exact closes

/-- Taking every completed response, the last one first. -/
theorem drainTimes_settles (times : Nat) (wf : conn.Wf)
    (inside : ∀ done ∈ conn.completed, done.1 < cap) (all : conn.completed.length = times) :
    conn.Settles (drainTimes times conn) := by
  induction times generalizing conn with
  | zero => exact .refl (List.length_eq_zero_iff.mp all)
  | succ times inductionHypothesis =>
    rcases List.eq_nil_or_concat conn.completed with empty | ⟨rest, ⟨position, record⟩, took⟩
    · rw [empty] at all
      cases all
    · rw [List.concat_eq_append] at took
      unfold drainTimes
      rw [took, List.getLast?_concat, List.dropLast_concat]
      dsimp only
      obtain ⟨moves, left⟩ :=
        complete_moves wf (inside (position, record) (by rw [took]; simp)) took
      have drained := inductionHypothesis (moves.wf wf) (moves.inside inside) (by
        rw [left]
        rw [took, List.length_append, List.length_singleton] at all
        omega)
      exact ⟨moves.trans drained.moves, drained.idle⟩

theorem drainCompleted_settles (wf : conn.Wf) (inside : ∀ done ∈ conn.completed, done.1 < cap) :
    conn.Settles conn.drainCompleted :=
  drainTimes_settles _ wf inside rfl

/-! ### Events -/

/-- Dropping a request whose body is incomplete. -/
theorem dropBody_settles (wf : conn.Wf) (idle : conn.completed = []) :
    conn.Settles (if conn.ring.bodyPending then conn.discardBack else conn) := by
  split
  · rename_i pending
    obtain ⟨entry, tail, reading⟩ := last_of_bodyPending pending
    obtain ⟨items, queue, -⟩ := concat_of_last tail
    have open_ : entry.stage ≠ .done := by
      intro done
      rw [done] at reading
      cases reading
    obtain ⟨ring, shared, holds, result, move, -, -, -⟩ :=
      discardBack_move queue (wf.beyond (Lib.getElem?_of_concat queue) open_)
    refine .single move ?_
    rw [result]
    exact idle
  · exact .refl idle

/-- The peer closed its side. -/
theorem eof_settles (wf : conn.Wf) (idle : conn.completed = []) : conn.Settles conn.eof := by
  have forgotten : conn.Settles { conn with
      input := [], headSince := none, next := none
      shared := conn.next.elim conn.shared fun record => conn.shared.giveRecord record.1 } := by
    refine ⟨.tail (.tail (.single (.flush conn)) .forget) (.lend ?_), idle⟩
    dsimp only
    rcases conn.next with - | record
    · exact .none conn.shared
    · have given := Shared.Uncounted.giveRecord conn.shared record.1
      rw [record.charge_eq] at given
      exact given
  have dropped := dropBody_settles (forgotten.wf wf) forgotten.idle
  have left := forgotten.trans dropped
  exact left.trans (markClose_settles (left.wf wf) left.idle)

/-- What the reaction to an event comes to once the completed responses are on their entries:
more input, written bytes, or moves. -/
inductive Reaction (conn next : Conn) (event : Event) (now : Nat) : Prop
  | moves (unwritten : ∀ count, event ≠ .wrote (count + 1)) (settles : conn.Settles next)
  | read {bytes : Bytes} {drained : Conn} (reported : event = .read bytes)
      (settles : conn.Settles drained)
      (result : next = { drained with input := drained.input ++ bytes })
  | wrote {count : Nat} {drained : Conn} (reported : event = .wrote (count + 1))
      (settles : conn.Settles drained) (result : next = drained.wrote (count + 1) now)

/-- Waking up for an event. -/
theorem wake_reaction (wf : conn.Wf) (idle : conn.completed = [])
    (outcome : Nat → Option Record.Answer) (event : Event) (now : Nat) :
    Reaction conn ((conn.pollRunning outcome).apply event now) event now := by
  have polled := conn.pollRunning_moves outcome
  have drained := drainCompleted_settles (polled.wf wf) (polled.inside (by
    rw [idle]
    intro done member
    cases member))
  have settled : conn.Settles (conn.pollRunning outcome).drainCompleted :=
    ⟨polled.trans drained.moves, drained.idle⟩
  have settledWf := settled.wf wf
  unfold apply
  dsimp only
  generalize (conn.pollRunning outcome).drainCompleted = after at settled settledWf
  have set (retryReadAt : Option Nat) (draining aborted : Bool) : conn.Settles { after with
      retryReadAt := retryReadAt, draining := draining, aborted := aborted } :=
    settled.trans (.single
      (.aside retryReadAt draining after.readHeld aborted after.holds) settled.idle)
  split
  · exact .read rfl settled rfl
  · exact .moves (by simp) (settled.trans (eof_settles settledWf settled.idle))
  · exact .moves (by simp) (set _ _ _)
  · exact .moves (by simp) (set _ _ _)
  · exact .moves (by simp) (set _ _ _)
  · exact .moves (by simp) (set _ _ _)
  · rename_i count positive
    rcases count with - | count
    · exact absurd rfl positive
    · exact .wrote rfl settled rfl
  · exact .moves (by simp) settled
  · exact .moves (by simp) settled
  · have marked := set after.retryReadAt true after.aborted
    exact .moves (by simp)
      (marked.trans (markClose_settles (marked.wf wf) marked.idle))

end Conn

end ZeroServer.Http

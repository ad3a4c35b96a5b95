/-
This file proves that the octets of the outboxes of a worker are conserved: whatever calls
interleave, the total is what the outboxes count, with the pushes and the releases under way, it
stays within its limit, and no subtraction from it clips.
-/

import ZeroServer.Realtime.Outbox

namespace ZeroServer.Realtime

open Lib
open Ws (saturating)

/-! ### What an outbox accounts for -/

/-- The octets a push under way has reserved and not yet counted. -/
def Progress.reservation : Progress → Nat
  | .reserved command _ => command.octets
  | _ => 0

/-- The octets a close or a release under way no longer counts and has not yet released. -/
def Progress.departing : Progress → Nat
  | .dropping octets _ | .leaving octets _ => octets
  | _ => 0

/-- Whether the count of the outbox changed and the mirror did not yet. -/
def Progress.storing : Progress → Bool
  | .counted _ | .dropping _ _ => true
  | _ => false

namespace Outbox

/-- What an outbox stands for in the total. -/
def account (outbox : Outbox) : Nat :=
  outbox.queue.bytes + outbox.progress.reservation + outbox.progress.departing

/-- What the call that holds the lock has established. -/
def Established (outbox : Outbox) : Prop :=
  match outbox.progress with
  | .admitted command bytes =>
    bytes = saturating 64 (outbox.queue.bytes + command.octets) ∧
      bytes ≤ outbox.highWater * limitFactor ∧ outbox.queue.closed = false
  | .reserved command bytes =>
    bytes = outbox.queue.bytes + command.octets ∧
      bytes ≤ outbox.highWater * limitFactor ∧ outbox.queue.closed = false
  | .counted _ => outbox.queue.closed = false
  | .dropping _ closing | .leaving _ closing =>
    closing = true → outbox.queue.closed = true ∧ outbox.queue.bytes = 0
  | .idle => True

/-- What holds of an outbox between any two steps. -/
structure Sound (outbox : Outbox) : Prop where
  established : outbox.Established
  mirrored : outbox.progress.storing = false → outbox.mirror = outbox.queue.bytes
  capped : outbox.queue.bytes ≤ outbox.highWater * limitFactor
  finished : outbox.finished = true → outbox.queue.closed = true ∧ outbox.queue.bytes = 0 ∧
    outbox.progress.departing = 0

variable {outbox : Outbox}

theorem sound_new (highWater : Nat) : Sound { highWater } :=
  ⟨trivial, fun _ => rfl, Nat.zero_le _, nofun⟩

variable {queue : Queue}

/-- A call that changes neither the count nor the progress. -/
theorem Sound.requeue (sound : outbox.Sound) (idle : outbox.progress = .idle)
    (bytes : queue.bytes = outbox.queue.bytes)
    (closed : outbox.queue.closed = true → queue.closed = true) :
    { outbox with queue }.Sound ∧ { outbox with queue }.account = outbox.account := by
  obtain ⟨-, mirrored, capped, finished⟩ := sound
  refine ⟨⟨?_, fun still => ?_, ?_, fun done => ?_⟩, ?_⟩
  · unfold Established
    rw [idle]
    trivial
  · exact (mirrored still).trans bytes.symm
  · exact bytes ▸ capped
  · obtain ⟨shut, nothing, departed⟩ := finished done
    exact ⟨closed shut, bytes.trans nothing, departed⟩
  · unfold account
    rw [bytes]

/-- What a push finds before it reserves. -/
theorem admit_ok {highWater : Nat} {command : Command} {bytes : Nat}
    (admitted : queue.accepted highWater command = .ok bytes) :
    bytes = saturating 64 (queue.bytes + command.octets) ∧ bytes ≤ highWater * limitFactor ∧
      queue.closed = false := by
  unfold Queue.accepted at admitted
  split at admitted
  · cases admitted
  · rename_i isOpen
    rw [Bool.or_eq_true, not_or, Bool.not_eq_true] at isOpen
    dsimp only at admitted
    split at admitted
    · cases admitted
    · rename_i within
      cases admitted
      refine ⟨rfl, Nat.le_trans (Nat.le_of_not_lt within) (Nat.min_le_left _ _), isOpen.1⟩

/-- Taking the lock moves octets of the count to those that depart, and nothing else. -/
theorem Sound.enter (sound : outbox.Sound) (idle : outbox.progress = .idle) (call : OutboxCall) :
    (outbox.enter call).Sound ∧ (outbox.enter call).account = outbox.account := by
  have nothing : outbox.account = outbox.queue.bytes := by
    unfold account
    rw [idle]
    rfl
  cases call with
  | push command =>
    unfold Outbox.enter
    dsimp only
    split
    · rename_i bytes _ admitted
      refine ⟨⟨admit_ok admitted, fun _ => sound.mirrored (by rw [idle]; rfl), sound.capped,
        fun done => ?_⟩, ?_⟩
      · obtain ⟨shut, empty, -⟩ := sound.finished done
        exact ⟨shut, empty, rfl⟩
      · rw [nothing]
        rfl
    · exact ⟨sound, rfl⟩
  | broadcast frame limit =>
    have kept : (outbox.queue.broadcast frame limit).bytes = outbox.queue.bytes ∧
        (outbox.queue.broadcast frame limit).closed = outbox.queue.closed := by
      unfold Queue.broadcast
      dsimp only
      split
      · exact ⟨rfl, rfl⟩
      · split <;> exact ⟨rfl, rfl⟩
    exact sound.requeue idle kept.1 fun shut => kept.2.trans shut
  | pollReady task =>
    have kept : (outbox.queue.pollReady task).1.bytes = outbox.queue.bytes ∧
        (outbox.queue.pollReady task).1.closed = outbox.queue.closed := by
      unfold Queue.pollReady
      split <;> exact ⟨rfl, rfl⟩
    exact sound.requeue idle kept.1 fun shut => kept.2.trans shut
  | take => exact sound.requeue idle rfl id
  | sealing => exact sound.requeue idle rfl fun _ => rfl
  | close =>
    refine ⟨⟨fun _ => ⟨rfl, rfl⟩, nofun, Nat.zero_le _, fun done => ⟨rfl, rfl, ?_⟩⟩, ?_⟩
    · exact (sound.finished done).2.1
    · rw [nothing]
      exact Nat.zero_add _
  | release octets =>
    have within : min octets outbox.queue.bytes ≤ outbox.queue.bytes := Nat.min_le_right _ _
    refine ⟨⟨nofun, nofun, Nat.le_trans (Nat.sub_le _ _) sound.capped, fun done => ?_⟩, ?_⟩
    · obtain ⟨shut, empty, -⟩ := sound.finished done
      refine ⟨shut, ?_, ?_⟩
      · exact Nat.le_zero.mp (empty ▸ Nat.sub_le _ _)
      · exact Nat.le_zero.mp (empty ▸ within)
    · rw [nothing]
      exact Nat.sub_add_cancel within

/-- A reservation that is granted fits the counter, so the count it goes with did not clip. -/
theorem reserve_some {total next : OutboxTotal} {octets : Nat}
    (granted : total.reserve octets = some next) :
    next = { total with queued := total.queued + octets } ∧
      total.queued + octets < 2 ^ 64 ∧ total.queued + octets ≤ total.limit := by
  unfold OutboxTotal.reserve at granted
  split at granted
  · rename_i fits
    exact ⟨(Option.some.inj granted).symm, fits⟩
  · cases granted

theorem release_eq (total : OutboxTotal) (octets : Nat) :
    total.release octets = { total with queued := total.queued - octets } := by
  unfold OutboxTotal.release
  split
  · rename_i nothing
    rw [nothing]
    rfl
  · rfl

theorem proceed_limit (outbox : Outbox) (total : OutboxTotal) :
    (outbox.proceed total).2.limit = total.limit := by
  unfold Outbox.proceed
  split
  · rfl
  · split
    · rfl
    · rename_i granted
      obtain ⟨rfl, -, -⟩ := reserve_some granted
      rfl
  · rfl
  · rfl
  · rfl
  · dsimp only
    rw [release_eq]

/-- What a returning close or release does to the queue changes no count. -/
theorem settled_queue (queue : Queue) (highWater : Nat) (closing : Bool) :
    let settled := if closing then queue.clear else (queue.drain highWater).1
    settled.bytes = queue.bytes ∧ settled.closed = queue.closed := by
  cases closing with
  | true => exact ⟨rfl, rfl⟩
  | false =>
    dsimp only
    unfold Queue.drain
    rw [if_neg Bool.false_ne_true]
    split <;> exact ⟨rfl, rfl⟩

/-- A step of a call moves octets between the outbox and the total, and none appears or is lost. -/
theorem Sound.proceed (sound : outbox.Sound) {total : OutboxTotal}
    (counted : outbox.account ≤ total.queued) (bounded : total.queued ≤ total.limit) :
    let next := outbox.proceed total
    next.1.Sound ∧ next.1.account + total.queued = outbox.account + next.2.queued ∧
      next.2.queued ≤ next.2.limit := by
  obtain ⟨highWater, queue, mirror, progress, finished⟩ := outbox
  obtain ⟨established, mirrored, capped, done⟩ := sound
  unfold account at counted ⊢
  unfold Outbox.proceed
  unfold Established at established
  dsimp only at established mirrored capped done counted ⊢
  cases progress with
  | idle => exact ⟨⟨trivial, mirrored, capped, done⟩, rfl, bounded⟩
  | admitted command bytes =>
    obtain ⟨isBytes, fits, isOpen⟩ := established
    dsimp only
    cases granted : total.reserve command.octets with
    | none => exact ⟨⟨trivial, mirrored, capped, done⟩, rfl, bounded⟩
    | some next =>
      obtain ⟨rfl, small, within⟩ := reserve_some granted
      refine ⟨⟨⟨?_, fits, isOpen⟩, mirrored, capped, done⟩, ?_, within⟩
      · unfold saturating at isBytes
        dsimp only [Progress.reservation, Progress.departing] at counted
        dsimp only
        omega
      · dsimp only [Progress.reservation, Progress.departing]
        omega
  | reserved command bytes =>
    obtain ⟨isBytes, fits, isOpen⟩ := established
    refine ⟨⟨isOpen, nofun, fits, fun closed => ?_⟩, ?_, bounded⟩
    · exact absurd ((done closed).1.symm.trans isOpen) Bool.true_eq_false.mp
    · dsimp only [Progress.reservation, Progress.departing] at *
      omega
  | counted command =>
    refine ⟨⟨trivial, fun _ => rfl, capped, done⟩, rfl, bounded⟩
  | dropping octets closing =>
    exact ⟨⟨established, fun _ => rfl, capped, done⟩, rfl, bounded⟩
  | leaving octets closing =>
    obtain ⟨bytes, shut⟩ := settled_queue queue highWater closing
    dsimp only [Progress.reservation, Progress.departing] at counted
    dsimp only [Progress.reservation, Progress.departing]
    rw [release_eq]
    generalize (if closing then queue.clear else (queue.drain highWater).1) = settled
      at bytes shut ⊢
    refine ⟨⟨trivial, fun _ => ?_, ?_, fun closed => ?_⟩, ?_, ?_⟩
    · exact (mirrored rfl).trans bytes.symm
    · exact bytes ▸ capped
    · rw [Bool.or_eq_true] at closed
      rcases closed with before | isClosing
      · obtain ⟨isShut, empty, -⟩ := done before
        exact ⟨shut.trans isShut, bytes.trans empty, rfl⟩
      · obtain ⟨isShut, empty⟩ := established isClosing
        exact ⟨shut.trans isShut, bytes.trans empty, rfl⟩
    · dsimp only
      omega
    · exact Nat.le_trans (Nat.sub_le _ _) bounded

end Outbox

/-- A closed outbox accounts for nothing. -/
theorem Outbox.Sound.emptied {outbox : Outbox} (sound : outbox.Sound)
    (finished : outbox.finished = true) : outbox.account = 0 := by
  obtain ⟨shut, empty, departed⟩ := sound.finished finished
  have unreserved : outbox.progress.reservation = 0 := by
    have established := sound.established
    unfold Outbox.Established at established
    cases progress : outbox.progress with
    | reserved command bytes =>
      rw [progress] at established
      exact absurd (shut.symm.trans established.2.2) Bool.true_eq_false.mp
    | idle | admitted _ _ | counted _ | dropping _ _ | leaving _ _ => rfl
  unfold Outbox.account
  rw [empty, departed, unreserved]

/-! ### Runs -/

namespace Worker

/-- What holds of a worker between any two steps of any calls. -/
structure Sound (limit : Nat) (worker : Worker) : Prop where
  accounted : worker.total.queued = (worker.outboxes.map Outbox.account).sum
  bounded : worker.total.queued ≤ limit
  limited : worker.total.limit = limit
  outboxes : ∀ outbox ∈ worker.outboxes, outbox.Sound

variable {limit : Nat} {worker : Worker}

theorem Sound.step (sound : Sound limit worker) (move : OutboxMove) :
    Sound limit (worker.step move) := by
  obtain ⟨accounted, bounded, limited, outboxes⟩ := sound
  cases move with
  | make highWater =>
    refine ⟨?_, bounded, limited, fun outbox member => ?_⟩
    · rw [Worker.step, List.map_append, List.sum_append]
      exact accounted
    · rcases List.mem_append.mp member with old | new
      · exact outboxes outbox old
      · rw [List.mem_singleton.mp new]
        exact Outbox.sound_new highWater
  | enter index call =>
    unfold Worker.step
    dsimp only
    split
    · rename_i outbox found
      split
      · rename_i idle
        obtain ⟨kept, same⟩ := (outboxes outbox (List.mem_of_getElem? found)).enter idle call
        have edited := sum_set found (outbox.enter call) Outbox.account
        refine ⟨?_, bounded, limited, fun other member => ?_⟩
        · dsimp only
          omega
        · rcases List.mem_or_eq_of_mem_set member with old | rfl
          · exact outboxes other old
          · exact kept
      · exact ⟨accounted, bounded, limited, outboxes⟩
    · exact ⟨accounted, bounded, limited, outboxes⟩
  | proceed index =>
    unfold Worker.step
    dsimp only
    split
    · rename_i outbox found
      have counted : outbox.account ≤ worker.total.queued :=
        accounted ▸ weight_le_sum found Outbox.account
      obtain ⟨kept, moved, within⟩ := (outboxes outbox (List.mem_of_getElem? found)).proceed counted
        (limited.symm ▸ bounded)
      have edited := sum_set found (outbox.proceed worker.total).1 Outbox.account
      have same : (outbox.proceed worker.total).2.limit = limit :=
        (outbox.proceed_limit worker.total).trans limited
      refine ⟨?_, same ▸ within, same, fun other member => ?_⟩
      · dsimp only
        omega
      · rcases List.mem_or_eq_of_mem_set member with old | rfl
        · exact outboxes other old
        · exact kept
    · exact ⟨accounted, bounded, limited, outboxes⟩

theorem Sound.run (limit : Nat) (moves : List OutboxMove) :
    Sound limit (Worker.run limit moves) := by
  have steps : ∀ (moves : List OutboxMove) (worker : Worker), Sound limit worker →
      Sound limit (moves.foldl Worker.step worker) := by
    intro moves
    induction moves with
    | nil => exact fun worker sound => sound
    | cons move moves inductionHypothesis =>
      exact fun worker sound => inductionHypothesis _ (sound.step move)
  exact steps moves _ ⟨rfl, Nat.zero_le _, rfl, nofun⟩

/-- The total is what the outboxes count, what pushes under way reserved and what closes and
releases under way have still to give back; it stays within its limit, nothing subtracted from it
clips, and it is zero once every outbox was closed. -/
theorem octets_conserved (limit : Nat) (moves : List OutboxMove) :
    let worker := Worker.run limit moves
    worker.total.queued = (worker.outboxes.map fun outbox =>
      outbox.queue.bytes + outbox.progress.reservation + outbox.progress.departing).sum ∧
    worker.total.queued ≤ limit ∧
    (∀ outbox ∈ worker.outboxes, outbox.progress.departing ≤ worker.total.queued ∧
      (outbox.progress = .idle → outbox.mirror = outbox.queue.bytes) ∧
      outbox.queue.bytes ≤ limitFactor * outbox.highWater) ∧
    ((∀ outbox ∈ worker.outboxes, outbox.finished = true) → worker.total.queued = 0) := by
  intro worker
  obtain ⟨accounted, bounded, -, outboxes⟩ := Sound.run limit moves
  refine ⟨accounted, bounded, fun outbox member => ⟨?_, ?_, ?_⟩, fun closed => ?_⟩
  · obtain ⟨index, found⟩ := List.mem_iff_getElem?.mp member
    have counted := weight_le_sum found Outbox.account
    have part : outbox.progress.departing ≤ outbox.account := Nat.le_add_left _ _
    exact Nat.le_trans part (accounted ▸ counted)
  · exact fun idle => (outboxes outbox member).mirrored (by rw [idle]; rfl)
  · rw [Nat.mul_comm]
    exact (outboxes outbox member).capped
  · refine accounted.trans (List.sum_eq_zero_iff_forall_eq_nat.mpr fun account member => ?_)
    obtain ⟨outbox, inside, rfl⟩ := List.mem_map.mp member
    exact (outboxes outbox inside).emptied (closed outbox inside)

/-- While a close has taken the octets off its outbox and not yet off the total, the total is ahead
of what the outboxes count and what pushes reserved. -/
theorem total_ahead_of_counts : ¬ ∀ (limit : Nat) (moves : List OutboxMove),
    let worker := Worker.run limit moves
    worker.total.queued = (worker.outboxes.map fun outbox =>
      outbox.queue.bytes + outbox.progress.reservation).sum := by
  intro equal
  have ahead := equal 10 [.make 10, .enter 0 (.push (.frame [0])), .proceed 0, .proceed 0,
    .proceed 0, .enter 0 .close]
  revert ahead
  decide

end Worker

end ZeroServer.Realtime

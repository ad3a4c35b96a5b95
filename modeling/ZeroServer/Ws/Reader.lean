/-
This file drives a session with what is read from its socket and proves that where the stream was
cut into reads does not show.
-/

import ZeroServer.Lib.Segments
import ZeroServer.Ws.Arrival

namespace ZeroServer.Ws

open Http1 Lib

/-! ### Reading -/

/-- A session with what it reported and the code it failed with. -/
structure Reader where
  session : Session
  events : List Event := []
  failed : Option CloseCode := none

namespace Reader

/-- Feed the session until it uses nothing and reports nothing; what is left of the input. -/
def drive (nowMs : Nat) (reader : Reader) (input : Bytes) : Reader × Bytes :=
  match _ : reader.session.feed input nowMs with
  | (session, .error code) => ({ reader with session, failed := some code }, input)
  | (session, .ok step) =>
    if step = ⟨0, none⟩ then ({ reader with session }, input)
    else
      drive nowMs { reader with session, events := reader.events ++ step.event.toList }
        (input.drop step.consumed)
termination_by 2 * input.length + reader.session.awaiting
decreasing_by
  rw [List.length_drop]
  exact (Session.feed_shrinks ‹_› ‹_›).2

/-- Read one segment after the other, each at its time and behind what is left. -/
def readAll (reader : Reader) (left : Bytes) : List (Nat × Bytes) → Reader
  | [] => reader
  | (nowMs, read) :: reads =>
    let (reader, left) := drive nowMs reader (left ++ read)
    if reader.failed.isSome then reader else readAll reader left reads

/-! ### Reading as a machine -/

variable {reader : Reader} {input : Bytes}

variable {session : Session}

/-- One feed as a step: a machine keeps its state where it waits. -/
def machine (nowMs : Nat) : Machine Reader UInt8 where
  step reader input :=
    match reader.session.feed input nowMs with
    | (session, .error code) => .fail { reader with session, failed := some code }
    | (session, .ok step) =>
      if step = ⟨0, none⟩ then .wait
      else
        .advance { reader with session, events := reader.events ++ step.event.toList } step.consumed
  size reader input := 2 * input.length + reader.session.awaiting
  smaller := by
    intro reader input next taken stepped
    split at stepped
    · cases stepped
    · rename_i after step fed
      split at stepped
      · cases stepped
      · rename_i goes
        cases stepped
        rw [List.length_drop]
        exact (Session.feed_shrinks fed goes).2

/-- A reader that has not failed, with a steady session. -/
structure Valid (reader : Reader) : Prop where
  live : reader.failed = none
  steady : reader.session.Steady

/-- Two readers that no read tells apart. -/
structure Same (left right : Reader) : Prop where
  events : left.events = right.events
  failed : left.failed = right.failed
  output : left.session.output = right.session.output
  settled : left.failed = none → left.session.settle = right.session.settle

theorem Same.refl (reader : Reader) : Same reader reader := ⟨rfl, rfl, rfl, fun _ => rfl⟩

theorem Same.trans {first second third : Reader} (left : Same first second)
    (right : Same second third) : Same first third where
  events := left.events.trans right.events
  failed := left.failed.trans right.failed
  output := left.output.trans right.output
  settled live := (left.settled live).trans (right.settled (left.failed ▸ live))

variable {nowMs : Nat}

/-- What a step that goes on made of the session. -/
theorem step_advance {next : Reader} {taken : Nat}
    (stepped : (machine nowMs).step reader input = .advance next taken) :
    ∃ session event, reader.session.feed input nowMs = (session, .ok ⟨taken, event⟩) ∧
      (⟨taken, event⟩ : Step) ≠ ⟨0, none⟩ ∧
      next = { reader with session, events := reader.events ++ event.toList } := by
  dsimp only [machine] at stepped
  split at stepped
  · cases stepped
  · rename_i session step fed
    split at stepped
    · cases stepped
    · rename_i goes
      cases stepped
      exact ⟨session, step.event, fed, goes, rfl⟩

theorem step_fail {final : Reader} (stepped : (machine nowMs).step reader input = .fail final) :
    ∃ session code, reader.session.feed input nowMs = (session, .error code) ∧
      final = { reader with session, failed := some code } := by
  dsimp only [machine] at stepped
  split at stepped
  · rename_i session code fed
    cases stepped
    exact ⟨session, code, fed, rfl⟩
  · split at stepped <;> cases stepped

theorem step_wait (stepped : (machine nowMs).step reader input = .wait) :
    ∃ session, reader.session.feed input nowMs = (session, .ok ⟨0, none⟩) := by
  dsimp only [machine] at stepped
  split at stepped
  · cases stepped
  · rename_i session step fed
    split at stepped
    · rename_i waits
      exact ⟨session, waits ▸ fed⟩
    · cases stepped

theorem step_of_ok {reader : Reader} {input : Bytes} {session : Session} {step : Step}
    (fed : reader.session.feed input nowMs = (session, .ok step)) (goes : step ≠ ⟨0, none⟩) :
    (machine nowMs).step reader input =
      .advance { reader with session, events := reader.events ++ step.event.toList }
        step.consumed := by
  dsimp only [machine]
  rw [fed]
  exact if_neg goes

theorem step_of_error {reader : Reader} {input : Bytes} {session : Session} {code : CloseCode}
    (fed : reader.session.feed input nowMs = (session, .error code)) :
    (machine nowMs).step reader input = .fail { reader with session, failed := some code } := by
  dsimp only [machine]
  rw [fed]

/-- Where longer input changes a feed, what the session makes of the rest joins it. -/
theorem feed_extends (valid : Valid reader) (input : Bytes) :
    (∃ session, reader.session.feed input nowMs = (session, .ok ⟨0, none⟩)) ∨
      Session.Extends (reader.session.feed input nowMs) input.length
        (fun more => reader.session.feed (input ++ more) nowMs)
        (fun next more => next.feed more nowMs) := by
  have settled := Session.feed_extends (Session.settle_steady valid.steady)
    (Session.settle_delivered _) input nowMs
  simp only [Session.feed_settle] at settled
  rcases settled with waits | extended
  · exact .inl ⟨_, waits⟩
  · exact .inr extended

/-- Reading does not depend on where a stream is cut. -/
theorem machine_segmentable (nowMs : Nat) : (machine nowMs).Segmentable Valid Same where
  refl := Same.refl
  trans := Same.trans
  inside := by
    intro reader input next taken stepped
    obtain ⟨session, event, fed, goes, -⟩ := step_advance stepped
    exact (Session.feed_shrinks fed goes).1
  kept := by
    intro reader input next taken valid stepped
    obtain ⟨session, event, fed, -, rfl⟩ := step_advance stepped
    exact ⟨valid.live, Session.feed_steady valid.steady fed⟩
  related := by
    intro left right validLeft validRight same input
    have feeds : left.session.feed input nowMs = right.session.feed input nowMs := by
      rw [← Session.feed_settle, same.settled validLeft.live, Session.feed_settle]
    dsimp only [machine]
    rw [feeds]
    rcases right.session.feed input nowMs with ⟨session, code | step⟩
    · exact .fail ⟨same.events, rfl, rfl, nofun⟩
    · dsimp only
      split
      · exact .wait
      · exact .advance ⟨congrArg (· ++ _) same.events, same.failed, rfl, fun _ => rfl⟩
  failed := by
    intro reader input final valid stepped more
    obtain ⟨session, code, fed, rfl⟩ := step_fail stepped
    rcases feed_extends valid input with ⟨other, waits⟩ | extended
    · rw [fed] at waits
      cases waits
    · rw [fed] at extended
      cases extended with
      | same alike =>
        have longer := alike more
        rcases again : reader.session.feed (input ++ more) nowMs with ⟨other, code' | step⟩
        · rw [again] at longer
          cases longer with
          | error output => exact ⟨_, step_of_error again, rfl, rfl, output, nofun⟩
        · rw [again] at longer
          cases longer
      | goesOn used => cases used
  advanced := by
    intro reader input next taken valid stepped more
    obtain ⟨session, event, fed, goes, rfl⟩ := step_advance stepped
    by_cases none_ : more = []
    · subst none_
      rw [List.append_nil]
      exact .inl ⟨_, stepped, .refl _⟩
    rcases feed_extends valid input with ⟨other, waits⟩ | extended
    · rw [fed] at waits
      cases waits
      exact absurd rfl goes
    rw [fed] at extended
    cases extended with
    | same alike =>
      have longer := alike more
      rcases again : reader.session.feed (input ++ more) nowMs with ⟨other, code' | step⟩
      · rw [again] at longer
        cases longer
      · rw [again] at longer
        cases longer with
        | ok settled =>
          refine .inl ⟨_, step_of_ok again goes, rfl, rfl, ?_, fun _ => settled⟩
          rw [← Session.settle_output, settled, Session.settle_output]
    | goesOn used alike takes =>
      cases used
      refine .inr ⟨rfl, ?_⟩
      have longer := alike more none_
      have uses := takes more none_
      rcases second : session.feed more nowMs with ⟨last, code | ⟨further, event⟩⟩
      · rw [second] at longer
        rcases again : reader.session.feed (input ++ more) nowMs with ⟨other, code' | step⟩
        · rw [again] at longer
          cases longer with
          | error output =>
            rw [step_of_error again,
              @step_of_error nowMs { reader with session, events := reader.events ++ none.toList } _
                _ _ second]
            exact .fail ⟨(List.append_nil _).symm, rfl, output, nofun⟩
        · rw [again] at longer
          cases longer
      · rw [second] at longer
        have some_ := uses _ _ second
        rcases again : reader.session.feed (input ++ more) nowMs with ⟨other, code' | step⟩
        · rw [again] at longer
          cases longer
        · rw [again] at longer
          cases longer with
          | ok settled =>
            have goesOn : ∀ {count : Nat} {event : Option Event}, 0 < count →
                (⟨count, event⟩ : Step) ≠ ⟨0, none⟩ := fun some_ same =>
              Nat.ne_of_gt some_ (congrArg Step.consumed same)
            rw [step_of_ok again (goesOn (Nat.add_pos_right _ some_)),
              @step_of_ok nowMs { reader with session, events := reader.events ++ none.toList } _ _
                _ second (goesOn some_)]
            refine .advance ⟨?_, rfl, ?_, fun _ => settled⟩
            · exact congrArg (· ++ _) (List.append_nil _).symm
            · rw [← Session.settle_output, settled, Session.settle_output]

theorem drive_error {code : CloseCode}
    (fed : reader.session.feed input nowMs = (session, .error code)) :
    drive nowMs reader input = ({ reader with session, failed := some code }, input) := by
  rw [drive]
  split
  · rename_i same
    rw [fed] at same
    cases same
    rfl
  · rename_i same
    rw [fed] at same
    cases same

theorem drive_ok {step : Step} (fed : reader.session.feed input nowMs = (session, .ok step)) :
    drive nowMs reader input =
      if step = ⟨0, none⟩ then ({ reader with session }, input)
      else
        drive nowMs { reader with session, events := reader.events ++ step.event.toList }
          (input.drop step.consumed) := by
  rw [drive]
  split
  · rename_i same
    rw [fed] at same
    cases same
  · rename_i same
    rw [fed] at same
    cases same
    rfl

/-- Driving a session is running the machine, and settling the session where it waits. -/
theorem drive_run {reader : Reader} (valid : Valid reader) (input : Bytes) :
    (∀ last left, (machine nowMs).run reader input = ⟨last, some left⟩ →
      drive nowMs reader input = ({ last with session := last.session.settle }, left)) ∧
    (∀ final, (machine nowMs).run reader input = ⟨final, none⟩ →
      (drive nowMs reader input).1 = final ∧ final.failed.isSome) := by
  induction size : (machine nowMs).size reader input using Nat.strongRecOn
    generalizing reader input with
  | _ size inductionHypothesis =>
    rw [Machine.run_eq]
    rcases stepped : (machine nowMs).step reader input with _ | ⟨next, taken⟩ | final
    · obtain ⟨session, fed⟩ := step_wait stepped
      refine ⟨fun last left stopped => ?_, fun final failed => absurd (congrArg Halt.rest failed)
        (Option.some_ne_none input)⟩
      obtain ⟨rfl, same⟩ := Halt.mk.inj stopped
      obtain rfl := Option.some.inj same
      rw [drive_ok fed, if_pos rfl, (Session.feed_waits valid.steady fed rfl).1]
    · have kept := (machine_segmentable nowMs).kept valid stepped
      have smaller := (machine nowMs).smaller stepped
      obtain ⟨session, event, fed, goes, rfl⟩ := step_advance stepped
      rw [drive_ok fed, if_neg goes]
      exact inductionHypothesis _ (size ▸ smaller) kept _ rfl
    · obtain ⟨session, code, fed, rfl⟩ := step_fail stepped
      refine ⟨fun last left stopped => absurd (congrArg Halt.rest stopped).symm
        (Option.some_ne_none left), fun final failed => ?_⟩
      obtain ⟨rfl, -⟩ := Halt.mk.inj failed
      rw [drive_error fed]
      exact ⟨rfl, rfl⟩

/-- A settled session is the same to every read. -/
theorem settle_same (valid : Valid reader) :
    Valid { reader with session := reader.session.settle } ∧
      Same reader { reader with session := reader.session.settle } :=
  ⟨⟨valid.live, Session.settle_steady valid.steady⟩, rfl, rfl, (Session.settle_output _).symm,
    fun _ => (Session.settle_settle _).symm⟩

/-- Reading segments is showing them to the machine. -/
theorem readAll_runReads {left right : Reader} (validLeft : Valid left) (validRight : Valid right)
    (same : Same left right) (rest : Bytes) (reads : List Bytes) :
    Same ((machine nowMs).runReads left rest reads).state
      (readAll right rest (reads.map (nowMs, ·))) := by
  induction reads generalizing left right rest with
  | nil => exact same
  | cons read reads inductionHypothesis =>
    have segmentable := machine_segmentable nowMs
    obtain ⟨related, sameRest⟩ := @Machine.Segmentable.run_related _ _ _ _ _ segmentable _ _
      (rest ++ read) validLeft validRight same
    obtain ⟨waits, fails⟩ := @drive_run nowMs _ validRight (rest ++ read)
    rw [Machine.runReads, List.map_cons, readAll]
    rcases ranRight : (machine nowMs).run right (rest ++ read) with ⟨last, - | kept⟩
    · obtain ⟨driven, failed⟩ := fails last ranRight
      rw [ranRight] at related sameRest
      rcases ranLeft : (machine nowMs).run left (rest ++ read) with ⟨first, - | kept⟩
      · rw [ranLeft] at related
        dsimp only
        rw [driven, if_pos failed]
        exact related
      · rw [ranLeft] at sameRest
        cases sameRest
    · have driven := waits last kept ranRight
      rw [ranRight] at related sameRest
      rcases ranLeft : (machine nowMs).run left (rest ++ read) with ⟨first, - | kept'⟩
      · rw [ranLeft] at sameRest
        cases sameRest
      · rw [ranLeft] at related sameRest
        cases sameRest
        have validLast := segmentable.run_valid validRight ranRight
        obtain ⟨validSettled, sameSettled⟩ := settle_same validLast
        dsimp only
        rw [driven, if_neg (by rw [validLast.live]; exact Bool.false_ne_true)]
        exact inductionHypothesis (segmentable.run_valid validLeft ranLeft) validSettled
          (related.trans sameSettled) kept

/-- What a session reports, queues and fails with does not depend on how its input was cut into
reads. -/
theorem reads_do_not_show (limits : WebSocketLimits) (reads : List Bytes) (nowMs : Nat) :
    let cut := readAll ⟨.new limits, [], none⟩ [] (reads.map (nowMs, ·))
    let whole := readAll ⟨.new limits, [], none⟩ [] [(nowMs, reads.flatten)]
    cut.events = whole.events ∧ cut.session.output = whole.session.output ∧
      cut.failed = whole.failed := by
  have valid : Valid ⟨.new limits, [], none⟩ := ⟨rfl, .new limits⟩
  have quiet : (machine nowMs).step ⟨.new limits, [], none⟩ [] = .wait := rfl
  have atOnce : ∀ reads : List Bytes,
      Same ((machine nowMs).run ⟨.new limits, [], none⟩ reads.flatten).state
        (readAll ⟨.new limits, [], none⟩ [] (reads.map (nowMs, ·))) := fun reads =>
    ((machine_segmentable nowMs).runReads_flatten valid quiet reads).1.trans
      (readAll_runReads valid valid (.refl _) [] reads)
  have cut := atOnce reads
  have whole := atOnce [reads.flatten]
  rw [List.flatten_singleton] at whole
  exact ⟨cut.events.symm.trans whole.events, cut.output.symm.trans whole.output,
    cut.failed.symm.trans whole.failed⟩

end Reader

end ZeroServer.Ws

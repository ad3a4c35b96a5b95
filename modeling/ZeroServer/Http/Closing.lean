/-
This file follows a connection that is closing to its end: it parses no further head and takes in
no further request.
-/

import ZeroServer.Http.Budget

namespace ZeroServer.Http

namespace Conn

/-- What a closing connection has become. -/
structure Closing (conn next : Conn) : Prop where
  close : next.close = true
  parses : next.parses = conn.parses
  requests : next.requests = conn.requests

variable {conn next : Conn}

theorem Closing.trans {third : Conn} (closing : conn.Closing next) (again : next.Closing third) :
    conn.Closing third :=
  ⟨again.close, again.parses.trans closing.parses, again.requests.trans closing.requests⟩

theorem Move.closing (move : conn.Move next) (closed : conn.close = true) : conn.Closing next := by
  cases move with
  | await opened | enlist opened | refuse opened => cases opened.close.symm.trans closed
  | overdue | shut | fail => exact ⟨rfl, rfl, rfl⟩
  | work works => cases works <;> exact ⟨closed, rfl, rfl⟩
  | _ => exact ⟨closed, rfl, rfl⟩

theorem Moves.closing (moves : conn.Moves next) (closed : conn.close = true) :
    conn.Closing next := by
  induction moves with
  | refl => exact ⟨closed, rfl, rfl⟩
  | tail _ move inductionHypothesis =>
    exact inductionHypothesis.trans (move.closing inductionHypothesis.close)

theorem wrote_closing (wf : conn.Wf) (idle : conn.completed = []) (closed : conn.close = true)
    (count now : Nat) : conn.Closing (conn.wrote count now) := by
  rcases planned : conn.writing with - | writing
  · unfold wrote
    rw [planned]
    exact ⟨closed, rfl, rfl⟩
  by_cases part : writing.written + count < writing.total
  · rw [wrote_part planned part]
    exact ⟨closed, rfl, rfl⟩
  obtain ⟨ring, shared, taken, -, settles, -⟩ :=
    wrote_whole wf idle planned (Nat.le_of_not_lt part) now
  have closing := settles.moves.closing closed
  exact ⟨closing.close, closing.parses, closing.requests⟩

end Conn

namespace Driver

variable {driver next : Driver}

theorem Step.going (step : Step driver next) (going : next.phase ≠ .ended) :
    driver.phase ≠ .ended := by
  cases step with
  | core kin => exact going
  | _ phase => simp [phase]

theorem Step.closing (step : Step driver next) (sane : driver.Sane)
    (closed : driver.conn.close = true) (going : next.phase ≠ .ended) :
    driver.conn.Closing next.conn := by
  obtain ⟨wf, idle⟩ := sane (step.going going)
  cases step with
  | turn phase now later =>
    obtain ⟨mid, settles, ticked⟩ := Conn.tick_eq wf idle now later
    obtain ⟨writing, sentAt, planned⟩ := mid.planWrite_same later
    have closing := settles.moves.closing closed
    unfold Driver.turn at going ⊢
    dsimp only at going ⊢
    split
    · exact (going (congrArg Driver.phase (if_pos ‹_›))).elim
    · rw [ticked, planned]
      exact ⟨closing.close, closing.parses, closing.requests⟩
  | wake phase outcome event now admitted =>
    unfold Driver.wake
    dsimp only
    rcases Conn.wake_reaction wf idle outcome event now with
      ⟨-, settles⟩ | ⟨-, settles, result⟩ | ⟨-, settles, result⟩
    · exact settles.moves.closing closed
    · have closing := settles.moves.closing closed
      rw [result]
      exact ⟨closing.close, closing.parses, closing.requests⟩
    · have closing := settles.moves.closing closed
      rw [result]
      exact closing.trans (Conn.wrote_closing (settles.wf wf) settles.idle closing.close _ _)
  | work phase works => exact (Conn.Move.work works).closing closed
  | exports phase runs => exact (Conn.Move.exports runs).closing closed
  | core kin => exact ⟨closed, rfl, rfl⟩

/-- Once a connection is closing, it stays so, and whatever happens to it until it ends parses no
head and takes in no request. -/
theorem closing_takes_nothing (reachable : Reachable driver) (closed : driver.conn.close = true)
    (run : Run driver next) (going : next.phase ≠ .ended) : driver.conn.Closing next.conn := by
  obtain ⟨shared, authorities, now, first⟩ := reachable
  induction run with
  | refl => exact ⟨closed, rfl, rfl⟩
  | tail run step inductionHypothesis =>
    have closing := inductionHypothesis (step.going going)
    have sane := Reachable.sane ⟨shared, authorities, now, first.trans run⟩
    exact closing.trans (step.closing sane closing.close going)

/-- A connection that refused a head, woken up once more. -/
theorem closing_takes_nothing_refused :
    let driver := readPlain (Http1.ascii "GET\r\n\r\n")
    driver.conn.Closing (driver.wake (fun _ => none) .progress 0).conn :=
  closing_takes_nothing (readPlain_reachable _) (by decide +kernel)
    (.single (.wake (by decide +kernel) _ _ 0 trivial)) fun ended => by cases ended

end Driver

end ZeroServer.Http

/-
This file proves that an outbox is a queue that ends once. Whatever calls on the outboxes of a
worker interleave, what happened to one of them is the history of a mailbox whose volatile entries
are the frames broadcast to rooms.
-/

import ZeroServer.Lib.Mailbox
import ZeroServer.Realtime.Outbox

namespace ZeroServer.Realtime

open Http1 Lib Lib.Mailbox
open Ws (saturating)

/-! ### What happens to an outbox -/

namespace Queued

/-- Frames broadcast to a room fall away when too many wait. -/
def volatile : Queued → Bool
  | sent _ => false
  | broadcast _ => true

/-- Whether nothing may be queued behind the entry. -/
def last : Queued → Bool
  | sent command => command.ends
  | broadcast _ => false

def command? : Queued → Option Command
  | sent command => some command
  | broadcast _ => none

/-- The octets of a broadcast frame. -/
def frameOctets : Queued → Nat
  | sent _ => 0
  | broadcast frame => frame.length

end Queued

/-- The commands among entries, in order. -/
def commands (entries : List Queued) : List Command := entries.filterMap Queued.command?

/-- The octets of the broadcast frames among entries. -/
def frameOctets (entries : List Queued) : Nat := (entries.map Queued.frameOctets).sum

namespace Outbox

/-- What a call does to the entries once it has the lock. -/
def enters (outbox : Outbox) : OutboxCall → List (Happening Queued)
  | .broadcast frame limit =>
    if outbox.queue.closed || outbox.queue.ending || outbox.queue.overflowed then []
    else if limit < saturating 64 (outbox.queue.broadcastBytes + frame.length) then
      [.overran (outbox.queue.entries.filter Queued.volatile)]
    else [.queued (.broadcast frame)]
  | .take => [.handed outbox.queue.take.2.1 outbox.queue.take.2.2]
  | .sealing => [.emptied outbox.queue.sealed.2]
  | .push _ | .close | .pollReady _ | .release _ => []

/-- What the next step of the call that holds the lock does to the entries: the last step of a push
queues its command, the last one of a close drops what waits. -/
def proceeds (outbox : Outbox) : List (Happening Queued) :=
  match outbox.progress with
  | .counted command => [.queued (.sent command)]
  | .leaving _ true => [.dropped outbox.queue.entries]
  | _ => []

end Outbox

namespace Worker

def happens (worker : Worker) (index : Nat) : OutboxMove → List (Happening Queued)
  | .make _ => []
  | .enter other call =>
    if other = index then
      match worker.outboxes[index]? with
      | some outbox => if outbox.progress = .idle then outbox.enters call else []
      | none => []
    else []
  | .proceed other =>
    if other = index then
      match worker.outboxes[index]? with
      | some outbox => outbox.proceeds
      | none => []
    else []

/-- What happens to one outbox while the worker moves. -/
def history (index : Nat) : Worker → List OutboxMove → List (Happening Queued)
  | _, [] => []
  | worker, move :: moves => worker.happens index move ++ history index (worker.step move) moves

end Worker

/-! ### One outbox -/

/-- Whether the call under way found the outbox open for its command. -/
def Progress.pushing : Progress → Bool
  | .admitted _ _ | .reserved _ _ | .counted _ => true
  | _ => false

/-- Whether the call under way is a close. -/
def Progress.closing : Progress → Bool
  | .dropping _ closing | .leaving _ closing => closing
  | _ => false

namespace Outbox

/-- An outbox is where its history left it. -/
structure Told (history : List (Happening Queued)) (outbox : Outbox) : Prop where
  legal : Legal Queued.volatile Queued.last history
  waiting : outbox.queue.entries = waiting Queued.volatile history
  behind : outbox.queue.overflowed = behind history
  opened : outbox.queue.closed = false → ∀ event ∈ history, event.closes = false
  lasting : outbox.queue.ending = false → ∀ entry ∈ queued history, entry.last = false
  pushing : outbox.progress.pushing = true →
    outbox.queue.closed = false ∧ outbox.queue.ending = false
  closing : outbox.progress.closing = true → outbox.queue.closed = true

variable {outbox : Outbox} {history : List (Happening Queued)}

theorem told_new (highWater : Nat) : Told [] { highWater } :=
  ⟨.nil, rfl, rfl, nofun, nofun, nofun, nofun⟩

theorem accepted_open {queue : Queue} {highWater : Nat} {command : Command} {bytes : Nat}
    (accepted : queue.accepted highWater command = .ok bytes) :
    queue.closed = false ∧ queue.ending = false := by
  unfold Queue.accepted at accepted
  split at accepted
  · cases accepted
  · rename_i isOpen
    rw [Bool.or_eq_true, not_or, Bool.not_eq_true, Bool.not_eq_true] at isOpen
    exact isOpen

/-- A call that leaves the entries and what is refused as they are. -/
theorem Told.still (told : Told history outbox) {next : Outbox}
    (entries : next.queue.entries = outbox.queue.entries)
    (overflowed : next.queue.overflowed = outbox.queue.overflowed)
    (closed : next.queue.closed = false → outbox.queue.closed = false)
    (ending : next.queue.ending = outbox.queue.ending)
    (pushing : next.progress.pushing = true → next.queue.closed = false ∧ next.queue.ending = false)
    (closing : next.progress.closing = true → next.queue.closed = true) : Told history next :=
  ⟨told.legal, entries.trans told.waiting, overflowed.trans told.behind,
    fun isOpen => told.opened (closed isOpen), fun goesOn => told.lasting (ending ▸ goesOn),
    pushing, closing⟩

/-- One more event, after which the outbox is where the event leaves it. -/
theorem Told.next (told : Told history outbox) {event : Happening Queued} {next : Outbox}
    (follows : Follows Queued.volatile Queued.last history event)
    (waiting : next.queue.entries = wait Queued.volatile outbox.queue.entries event)
    (behind : next.queue.overflowed = note outbox.queue.overflowed event)
    (closed : next.queue.closed = false → outbox.queue.closed = false ∧ event.closes = false)
    (ending : next.queue.ending = false →
      outbox.queue.ending = false ∧ ∀ entry ∈ event.queues, entry.last = false)
    (pushing : next.progress.pushing = false)
    (closing : next.progress.closing = true → next.queue.closed = true) :
    Told (history ++ [event]) next where
  legal := .snoc told.legal follows
  waiting := by rw [waiting_snoc, ← told.waiting, waiting]
  behind := by rw [behind_snoc, ← told.behind, behind]
  opened isOpen other member := by
    rcases List.mem_append.mp member with old | new
    · exact told.opened (closed isOpen).1 other old
    · rw [List.mem_singleton.mp new]
      exact (closed isOpen).2
  lasting goesOn entry member := by
    rw [queued_snoc] at member
    rcases List.mem_append.mp member with old | new
    · exact told.lasting (ending goesOn).1 entry old
    · exact (ending goesOn).2 entry new
  pushing under := absurd (under.symm.trans pushing) Bool.true_eq_false.mp
  closing := closing

theorem Told.broadcast (told : Told history outbox) (idle : outbox.progress = .idle)
    (frame : Bytes) (limit : Nat) :
    Told (history ++ outbox.enters (.broadcast frame limit))
      (outbox.enter (.broadcast frame limit)) := by
  have atRest : outbox.progress.pushing = false ∧ outbox.progress.closing = false := by
    rw [idle]
    exact ⟨rfl, rfl⟩
  have notClosing : outbox.progress.closing = true → ∀ closed : Bool, closed = true :=
    fun closing => absurd (closing.symm.trans atRest.2) Bool.true_eq_false.mp
  unfold enters enter Queue.broadcast
  dsimp only
  split
  · rw [List.append_nil]
    exact told
  rename_i isOpen
  rw [Bool.or_eq_true, Bool.or_eq_true, not_or, not_or, Bool.not_eq_true, Bool.not_eq_true,
    Bool.not_eq_true] at isOpen
  obtain ⟨⟨opened, goesOn⟩, keeping⟩ := isOpen
  split
  · refine told.next ⟨told.behind.symm.trans keeping, ?_⟩ ?_ rfl (fun _ => ⟨opened, rfl⟩)
      (fun _ => ⟨goesOn, nofun⟩) atRest.1 fun closing => notClosing closing _
    · rw [told.waiting]
    · refine List.filter_congr fun entry _ => ?_
      cases entry <;> rfl
  · refine told.next ⟨told.lasting goesOn, told.opened opened⟩ rfl rfl (fun _ => ⟨opened, rfl⟩)
      (fun _ => ⟨goesOn, fun entry member => ?_⟩) atRest.1 fun closing => notClosing closing _
    rw [List.mem_singleton.mp member]
    rfl

/-- A call that takes the lock does what is written down. -/
theorem Told.enter (told : Told history outbox) (idle : outbox.progress = .idle)
    (call : OutboxCall) : Told (history ++ outbox.enters call) (outbox.enter call) := by
  have atRest : outbox.progress.pushing = false ∧ outbox.progress.closing = false := by
    rw [idle]
    exact ⟨rfl, rfl⟩
  have notPushing : outbox.progress.pushing = true → ∀ {fact : Prop}, fact :=
    fun pushing => absurd (pushing.symm.trans atRest.1) Bool.true_eq_false.mp
  have notClosing : outbox.progress.closing = true → ∀ {fact : Prop}, fact :=
    fun closing => absurd (closing.symm.trans atRest.2) Bool.true_eq_false.mp
  cases call with
  | push command =>
    rw [enters, List.append_nil]
    unfold Outbox.enter
    dsimp only
    split
    · rename_i bytes _ accepted
      exact told.still rfl rfl id rfl (fun _ => accepted_open accepted) nofun
    · exact told
  | broadcast frame limit => exact told.broadcast idle frame limit
  | close =>
    rw [enters, List.append_nil]
    exact told.still rfl rfl nofun rfl nofun fun _ => rfl
  | pollReady task =>
    rw [enters, List.append_nil]
    unfold Outbox.enter Queue.pollReady
    dsimp only
    split
    · exact told
    · exact told.still rfl rfl id rfl told.pushing told.closing
  | take =>
    exact told.next ⟨told.waiting, told.behind⟩ rfl rfl (fun opened => ⟨opened, rfl⟩)
      (fun goesOn => ⟨goesOn, nofun⟩) atRest.1 fun closing => notClosing closing
  | sealing =>
    exact told.next told.waiting rfl rfl nofun (fun goesOn => ⟨goesOn, nofun⟩) atRest.1
      fun closing => notClosing closing
  | release octets =>
    rw [enters, List.append_nil]
    exact told.still rfl rfl id rfl nofun nofun

/-- A step of the call that holds the lock does what is written down. -/
theorem Told.proceed (told : Told history outbox) (total : OutboxTotal) :
    Told (history ++ outbox.proceeds) (outbox.proceed total).1 := by
  obtain ⟨highWater, queue, mirror, progress, finished⟩ := outbox
  unfold proceeds Outbox.proceed
  dsimp only
  cases progress with
  | idle =>
    rw [List.append_nil]
    exact told
  | admitted command bytes =>
    rw [List.append_nil]
    dsimp only
    cases total.reserve command.octets with
    | none => exact told.still rfl rfl id rfl nofun nofun
    | some total => exact told.still rfl rfl id rfl (fun _ => told.pushing rfl) nofun
  | reserved command bytes =>
    rw [List.append_nil]
    exact told.still rfl rfl id rfl (fun _ => told.pushing rfl) nofun
  | counted command =>
    obtain ⟨opened, goesOn⟩ := told.pushing rfl
    refine told.next ⟨told.lasting goesOn, told.opened opened⟩ rfl rfl (fun _ => ⟨opened, rfl⟩)
      (fun later => ⟨goesOn, fun entry member => ?_⟩) rfl nofun
    rw [List.mem_singleton.mp member]
    exact (Bool.or_eq_false_iff.mp later).2
  | dropping octets closing =>
    rw [List.append_nil]
    exact told.still rfl rfl id rfl nofun told.closing
  | leaving octets closing =>
    cases closing with
    | true =>
      have shut : queue.closed = true := told.closing rfl
      refine told.next told.waiting rfl rfl (fun opened => ?_) (fun goesOn => ⟨goesOn, nofun⟩)
        rfl nofun
      exact absurd (shut.symm.trans opened) Bool.true_eq_false.mp
    | false =>
      rw [List.append_nil]
      have drained : (queue.drain highWater).1.entries = queue.entries ∧
          (queue.drain highWater).1.overflowed = queue.overflowed ∧
          (queue.drain highWater).1.closed = queue.closed ∧
          (queue.drain highWater).1.ending = queue.ending := by
        unfold Queue.drain
        split <;> exact ⟨rfl, rfl, rfl, rfl⟩
      obtain ⟨entries, overflowed, closed, ending⟩ := drained
      exact told.still entries overflowed (fun opened => closed ▸ opened) ending nofun nofun

end Outbox

/-! ### The octets of the broadcast frames that wait -/

namespace Queue

/-- The count of the broadcast octets is what waits, and within the limit of the rooms. -/
structure Counts (limit : Nat) (queue : Queue) : Prop where
  counted : queue.broadcastBytes = saturating 64 (frameOctets queue.entries)
  within : queue.broadcastBytes ≤ limit

theorem frameOctets_append (left right : List Queued) :
    frameOctets (left ++ right) = frameOctets left + frameOctets right := by
  unfold frameOctets
  rw [List.map_append, List.sum_append]

theorem frameOctets_sent {entries : List Queued}
    (sent : ∀ entry ∈ entries, entry.volatile = false) : frameOctets entries = 0 := by
  refine List.sum_eq_zero_iff_forall_eq_nat.mpr fun octets member => ?_
  obtain ⟨entry, inside, rfl⟩ := List.mem_map.mp member
  cases entry with
  | sent command => rfl
  | broadcast frame => exact absurd (sent _ inside) Bool.true_eq_false.mp

theorem saturating_add (counted octets : Nat) :
    saturating 64 (saturating 64 counted + octets) = saturating 64 (counted + octets) := by
  unfold saturating
  omega

variable {queue : Queue} {limit : Nat}

theorem Counts.append (counts : queue.Counts limit) (highWater : Nat) (command : Command) :
    (queue.append highWater command).Counts limit := by
  refine ⟨counts.counted.trans ?_, counts.within⟩
  rw [Queue.append, frameOctets_append, frameOctets_sent (List.forall_mem_singleton.mpr rfl),
    Nat.add_zero]

theorem Counts.broadcast (counts : queue.Counts limit) (frame : Bytes) {given : Nat}
    (bounded : given ≤ limit) : (queue.broadcast frame given).Counts limit := by
  unfold Queue.broadcast
  dsimp only
  split
  · exact counts
  split
  · refine ⟨?_, Nat.zero_le _⟩
    rw [frameOctets_sent fun entry member => ?_]
    · rfl
    · obtain ⟨-, kept⟩ := List.mem_filter.mp member
      cases entry with
      | sent command => rfl
      | broadcast frame => cases kept
  · rename_i within
    refine ⟨?_, Nat.le_trans (Nat.le_of_not_lt within) bounded⟩
    rw [frameOctets_append, counts.counted, saturating_add]
    rfl

end Queue

namespace Outbox

variable {outbox : Outbox} {limit : Nat}

theorem counts_enter (counts : outbox.queue.Counts limit) (call : OutboxCall)
    (bounded : ∀ frame given, call = .broadcast frame given → given ≤ limit) :
    (outbox.enter call).queue.Counts limit := by
  cases call with
  | push command =>
    unfold Outbox.enter
    dsimp only
    split <;> exact counts
  | broadcast frame given => exact counts.broadcast frame (bounded frame given rfl)
  | close => exact ⟨counts.counted, counts.within⟩
  | pollReady task =>
    unfold Outbox.enter Queue.pollReady
    dsimp only
    split <;> exact ⟨counts.counted, counts.within⟩
  | take => exact ⟨rfl, Nat.zero_le _⟩
  | sealing => exact ⟨rfl, Nat.zero_le _⟩
  | release octets => exact ⟨counts.counted, counts.within⟩

theorem counts_proceed (counts : outbox.queue.Counts limit) (total : OutboxTotal) :
    (outbox.proceed total).1.queue.Counts limit := by
  unfold Outbox.proceed
  split
  · exact counts
  · split <;> exact counts
  · exact ⟨counts.counted, counts.within⟩
  · exact counts.append _ _
  · exact counts
  · dsimp only
    split
    · exact ⟨rfl, Nat.zero_le _⟩
    · unfold Queue.drain
      split <;> exact ⟨counts.counted, counts.within⟩

end Outbox

/-! ### Runs -/

variable {outbox : Outbox}

namespace Worker

/-- One outbox of a worker is where its history left it, from when it is made. -/
def Watched (index : Nat) (history : List (Happening Queued)) (worker : Worker) : Prop :=
  match worker.outboxes[index]? with
  | some outbox => outbox.Told history
  | none => history = []

variable {worker : Worker} {index : Nat} {history : List (Happening Queued)}

/-- What is done to another outbox does not matter. -/
theorem Watched.elsewhere (watched : worker.Watched index history) {next : Worker}
    (same : next.outboxes[index]? = worker.outboxes[index]?) : next.Watched index history := by
  unfold Watched
  rw [same]
  exact watched

theorem Watched.step (watched : worker.Watched index history) (move : OutboxMove) :
    (worker.step move).Watched index (history ++ worker.happens index move) := by
  have elsewhere : ∀ {next : Worker}, next.outboxes[index]? = worker.outboxes[index]? →
      next.Watched index history := watched.elsewhere
  unfold Watched at watched
  cases move with
  | make highWater =>
    rw [happens, List.append_nil]
    unfold Watched Worker.step
    dsimp only
    rcases Nat.lt_trichotomy index worker.outboxes.length with inside | here | beyond
    · rw [List.getElem?_append_left inside]
      exact watched
    · rw [List.getElem?_eq_none (Nat.le_of_eq here.symm)] at watched
      rw [here, List.getElem?_concat_length, watched]
      exact Outbox.told_new highWater
    · rw [List.getElem?_eq_none (Nat.le_of_lt beyond)] at watched
      rw [List.getElem?_eq_none (by rw [List.length_append]; exact beyond)]
      exact watched
  | enter other call =>
    unfold happens Worker.step
    dsimp only
    by_cases here : other = index
    · subst here
      rw [if_pos rfl]
      cases found : worker.outboxes[other]? with
      | none =>
        rw [List.append_nil]
        unfold Watched
        rw [found] at watched ⊢
        exact watched
      | some outbox =>
        rw [found] at watched
        dsimp only at watched ⊢
        split
        · rename_i idle
          unfold Watched
          dsimp only
          obtain ⟨inside, -⟩ := List.getElem?_eq_some_iff.mp found
          rw [List.getElem?_set_self inside]
          exact watched.enter idle call
        · rw [List.append_nil]
          unfold Watched
          rw [found]
          exact watched
    · rw [if_neg here, List.append_nil]
      refine elsewhere ?_
      split
      · split
        · exact List.getElem?_set_ne here
        · rfl
      · rfl
  | proceed other =>
    unfold happens Worker.step
    dsimp only
    by_cases here : other = index
    · subst here
      rw [if_pos rfl]
      cases found : worker.outboxes[other]? with
      | none =>
        rw [List.append_nil]
        unfold Watched
        rw [found] at watched ⊢
        exact watched
      | some outbox =>
        rw [found] at watched
        unfold Watched
        dsimp only at watched ⊢
        obtain ⟨inside, -⟩ := List.getElem?_eq_some_iff.mp found
        rw [List.getElem?_set_self inside]
        exact watched.proceed worker.total
    · rw [if_neg here, List.append_nil]
      refine elsewhere ?_
      split
      · exact List.getElem?_set_ne here
      · rfl

theorem Watched.run (moves : List OutboxMove) (watched : worker.Watched index history) :
    (moves.foldl Worker.step worker).Watched index (history ++ worker.history index moves) := by
  induction moves generalizing worker history with
  | nil =>
    rw [Worker.history, List.append_nil]
    exact watched
  | cons move moves inductionHypothesis =>
    rw [Worker.history, ← List.append_assoc]
    exact inductionHypothesis (watched.step move)

variable {limit : Nat}

theorem history_told {moves : List OutboxMove}
    (there : (run limit moves).outboxes[index]? = some outbox) :
    outbox.Told (Worker.history index { total := { limit } } moves) := by
  have start : Watched index [] ({ total := { limit } } : Worker) := rfl
  have watched := start.run moves
  unfold Watched at watched
  rw [show moves.foldl Worker.step { total := { limit } } = run limit moves from rfl, there,
    List.nil_append] at watched
  exact watched

/-- The moves broadcast within a limit. -/
def Broadcasts (limit : Nat) (moves : List OutboxMove) : Prop :=
  ∀ index frame given, .enter index (.broadcast frame given) ∈ moves → given ≤ limit

theorem counts_step (counts : ∀ outbox ∈ worker.outboxes, outbox.queue.Counts limit)
    {move : OutboxMove} (bounded : Broadcasts limit [move]) :
    ∀ outbox ∈ (worker.step move).outboxes, outbox.queue.Counts limit := by
  cases move with
  | make highWater =>
    intro outbox member
    rcases List.mem_append.mp member with old | new
    · exact counts outbox old
    · rw [List.mem_singleton.mp new]
      exact ⟨rfl, Nat.zero_le _⟩
  | enter index call =>
    unfold Worker.step
    dsimp only
    split
    · rename_i outbox found
      split
      · intro other member
        rcases List.mem_or_eq_of_mem_set member with old | rfl
        · exact counts other old
        · refine Outbox.counts_enter (counts outbox (List.mem_of_getElem? found)) call ?_
          rintro frame given rfl
          exact bounded index frame given (List.mem_singleton_self _)
      · exact counts
    · exact counts
  | proceed index =>
    unfold Worker.step
    dsimp only
    split
    · rename_i outbox found
      intro other member
      rcases List.mem_or_eq_of_mem_set member with old | rfl
      · exact counts other old
      · exact Outbox.counts_proceed (counts outbox (List.mem_of_getElem? found)) worker.total
    · exact counts

theorem counts_run (moves : List OutboxMove)
    (counts : ∀ outbox ∈ worker.outboxes, outbox.queue.Counts limit)
    (bounded : Broadcasts limit moves) :
    ∀ outbox ∈ (moves.foldl Worker.step worker).outboxes, outbox.queue.Counts limit := by
  induction moves generalizing worker with
  | nil => exact counts
  | cons move moves inductionHypothesis =>
    refine inductionHypothesis (counts_step counts fun index frame given member => ?_)
      fun index frame given member => bounded index frame given (List.mem_cons_of_mem _ member)
    rw [List.mem_singleton] at member
    exact bounded index frame given (member ▸ List.mem_cons_self)

end Worker

/-! ### An outbox is a queue that ends once -/

theorem commands_append (left right : List Queued) :
    commands (left ++ right) = commands left ++ commands right :=
  List.filterMap_append

/-- Commands are the entries that do not fall away. -/
theorem commands_filter (entries : List Queued) :
    commands (entries.filter fun entry => !entry.volatile) = commands entries := by
  induction entries with
  | nil => rfl
  | cons entry entries inductionHypothesis =>
    cases entry with
    | sent command => exact congrArg (command :: ·) inductionHypothesis
    | broadcast frame => exact inductionHypothesis

/-- What the history of an outbox says about the order of its entries and about what falls away. -/
structure EndsOnce (history : List (Happening Queued)) (outbox : Outbox) : Prop where
  commands : commands (queued history) =
    commands (handed history) ++ commands outbox.queue.entries ++ commands (dropped history)
  ended : ∀ before command after, history = before ++ .queued (.sent command) :: after →
    command.ends = true → queued after = []
  ordered : (handed history ++ outbox.queue.entries ++ dropped history).Sublist (queued history)
  whole : (queued history).Perm
    (handed history ++ outbox.queue.entries ++ dropped history ++ removed history)
  falls : ∀ before removed after, history = before ++ .overran removed :: after →
    removed = (waiting Queued.volatile before).filter Queued.volatile
  hands : ∀ before entries told after, history = before ++ .handed entries told :: after →
    entries = waiting Queued.volatile before
  reported : ∀ before removed between entries told after,
    history = before ++ .overran removed :: between ++ .handed entries told :: after →
    (∀ event ∈ between, event.settles = false) → told = true
  reports : ∀ before entries after, history = before ++ .handed entries true :: after →
    ∃ earlier removed between, before = earlier ++ .overran removed :: between ∧
      ∀ event ∈ between, event.settles = false ∧ event.overruns = false

theorem Outbox.Told.endsOnce {history : List (Happening Queued)} (told : outbox.Told history) :
    EndsOnce history outbox where
  commands := by
    have conserved := congrArg Realtime.commands told.legal.conserved
    rw [commands_filter, commands_filter, Mailbox.line, ← told.waiting, commands_append,
      commands_append] at conserved
    exact conserved
  ended before command after parts isLast := told.legal.ended parts isLast
  ordered := told.waiting ▸ told.legal.ordered
  whole := told.waiting ▸ told.legal.accounted
  falls before removed after parts := (told.legal.split parts).2.2
  hands before entries told' after parts := (told.legal.split parts).2.1
  reported before removed between entries told' after parts quiet :=
    (told.legal.split parts).2.2.trans (behind_until before removed between quiet)
  reports before entries after parts :=
    have split := told.legal.split parts
    split.1.noted split.2.2.symm

/-- Whatever calls interleave, the commands an outbox hands over are those pushed, in order, less
those that wait and those that a close dropped; behind a last command nothing is queued; broadcast
frames keep their place until too many wait, when all of them fall away, which the next take tells
unless a close comes first; and their octets are counted within the limit. -/
theorem outbox_ends_once (total index : Nat) (moves : List OutboxMove) (outbox : Outbox)
    (there : (Worker.run total moves).outboxes[index]? = some outbox) :
    EndsOnce (Worker.history index { total := { limit := total } } moves) outbox ∧
    ∀ limit, Worker.Broadcasts limit moves → outbox.queue.broadcastBytes ≤ limit ∧
      outbox.queue.broadcastBytes = saturating 64 (frameOctets outbox.queue.entries) ∧
      (limit < 2 ^ 64 - 1 → outbox.queue.broadcastBytes = frameOctets outbox.queue.entries) := by
  refine ⟨(Worker.history_told there).endsOnce, fun limit bounded => ?_⟩
  obtain ⟨counted, within⟩ :=
    Worker.counts_run moves (fun _ member => absurd member List.not_mem_nil) bounded outbox
      (List.mem_of_getElem? there)
  refine ⟨within, counted, fun small => ?_⟩
  unfold saturating at counted
  omega

/-- A command and a broadcast frame are handed over in the order they came. -/
theorem outbox_ends_once_pair :
    EndsOnce [.queued (.sent (.frame [1])), .queued (.broadcast [2]),
      .handed [.sent (.frame [1]), .broadcast [2]] false]
      { highWater := 10, queue := { bytes := 1 }, mirror := 1 } :=
  (outbox_ends_once 9 0 [.make 10, .enter 0 (.push (.frame [1])), .proceed 0, .proceed 0,
    .proceed 0, .enter 0 (.broadcast [2] 5), .enter 0 .take] _ (by decide)).1

/-- Where a close comes before the next take, no take tells that broadcast frames fell away. -/
theorem overflow_forgotten : ¬ ∀ (total index : Nat) (moves : List OutboxMove)
    (before after : List (Happening Queued)) (removed : List Queued),
    Worker.history index { total := { limit := total } } moves =
      before ++ .overran removed :: after →
    (∃ entries told, .handed entries told ∈ after) → ∃ entries, .handed entries true ∈ after := by
  intro reported
  obtain ⟨entries, told⟩ := reported 9 0 [.make 10, .enter 0 (.broadcast [1, 2] 1),
    .enter 0 .close, .proceed 0, .proceed 0, .enter 0 .take] []
    [.dropped [], .handed [] false] [] rfl ⟨[], false, by decide⟩
  rcases List.mem_cons.mp told with impossible | told
  · cases impossible
  · cases List.mem_singleton.mp told

end ZeroServer.Realtime

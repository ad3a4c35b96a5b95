/-
This file puts the connections of a core together: their steps interleave over what they share,
handlers export requests into exchanges and hosts count responses on them. Over every run the
count of buffered bytes is the sum of what the connections hold, no bounded counter meets its
bound, and every exported charge sits on one exchange until its release.
-/

import ZeroServer.Http.Budget

namespace ZeroServer.Http

open Http1

/-! ### A connection's share -/

namespace Driver

/-- What holds of a connection beside what the others hold. -/
structure Held (others load : Nat) (driver : Driver) : Prop where
  counted : driver.conn.Counted others load
  limited : driver.conn.Limited
  idle : driver.conn.completed = []
  wf : driver.phase ≠ .ended → driver.conn.Wf
  ended : driver.phase = .ended → driver.conn.weight = 0

variable {others load : Nat} {driver : Driver}

theorem Held.turn (held : driver.Held others load) (phase : driver.phase = .turning)
    (now later : Nat) : (driver.turn now later).Held others load ∧
      Shared.Kin driver.conn.shared (driver.turn now later).conn.shared := by
  have wf := held.wf (by rw [phase]; simp)
  obtain ⟨mid, settles, ticked⟩ := Conn.tick_eq wf held.idle now later
  obtain ⟨writing, sentAt, planned⟩ := mid.planWrite_same later
  have midWf := settles.wf wf
  have plannedWf := Conn.planWrite_wf midWf later
  have counted := settles.moves.counted wf held.counted
  have limited := settles.moves.limited held.limited
  have kin := settles.moves.kin
  unfold Driver.turn
  dsimp only
  rw [ticked]
  rw [planned] at plannedWf ⊢
  have plannedCounted : Conn.Counted others load
      { mid with writing := writing, sentAt := sentAt } :=
    counted.congr rfl rfl rfl counted.free rfl (Nat.le_refl _)
  have plannedLimited : Conn.Limited { mid with writing := writing, sentAt := sentAt } :=
    limited.congr (.refl _) rfl rfl rfl rfl
  split
  · obtain ⟨finished, weightless, left, idle, more⟩ :=
      Conn.finish_counted plannedWf settles.idle plannedCounted
    exact ⟨⟨finished, left, idle, fun going => absurd rfl going, fun _ => weightless⟩,
      kin.trans more⟩
  · exact ⟨⟨plannedCounted, plannedLimited, settles.idle, fun _ => plannedWf,
      fun ended => by cases ended⟩, kin⟩

/-- The bytes an event adds to the input. -/
def added : Event → Nat
  | .read bytes => bytes.length
  | _ => 0

theorem Held.wake (held : driver.Held others load) (phase : driver.phase = .waiting)
    (outcome : Nat → Option Record.Answer) (event : Event) (now : Nat)
    (room : others + (load + added event) < u64Size) :
    (driver.wake outcome event now).Held others (load + added event) ∧
      Shared.Kin driver.conn.shared (driver.wake outcome event now).conn.shared := by
  have wf := held.wf (by rw [phase]; simp)
  have roomier {conn : Conn} (counted : conn.Counted others load) :
      conn.Counted others (load + added event) :=
    ⟨counted.bodies, counted.free, counted.taken, counted.unclipped,
      Nat.le_trans counted.room (Nat.le_add_right _ _), room⟩
  unfold Driver.wake
  dsimp only
  rcases Conn.wake_reaction wf held.idle outcome event now with
    ⟨-, settles⟩ | ⟨reported, settles, result⟩ | ⟨-, settles, result⟩
  · exact ⟨⟨roomier (settles.moves.counted wf held.counted), settles.moves.limited held.limited,
      settles.idle, fun _ => settles.wf wf, fun ended => by cases ended⟩, settles.moves.kin⟩
  · rename_i bytes drained
    have drainedWf := settles.wf wf
    have counted := settles.moves.counted wf held.counted
    have limited := settles.moves.limited held.limited
    have taken := counted.room
    subst reported
    rw [result]
    refine ⟨⟨⟨counted.bodies, counted.free, counted.taken, counted.unclipped, ?_, room⟩,
      limited.congr (.refl _) rfl rfl rfl rfl, settles.idle,
      fun _ => drainedWf.congr rfl rfl rfl id drainedWf.reading, fun ended => by cases ended⟩,
      settles.moves.kin⟩
    dsimp only [added]
    rw [List.length_append]
    change drained.weight + _ ≤ _
    omega
  · rename_i count drained
    have drainedWf := settles.wf wf
    rw [result]
    obtain ⟨wroteWf, idle⟩ := Conn.wrote_wf drainedWf settles.idle (count + 1) now
    exact ⟨⟨roomier (Conn.wrote_counted drainedWf settles.idle
        (settles.moves.counted wf held.counted) _ now),
      Conn.wrote_limited drainedWf settles.idle (settles.moves.limited held.limited) _ now, idle,
      fun _ => wroteWf, fun ended => by cases ended⟩,
      settles.moves.kin.trans (Conn.wrote_kin drainedWf settles.idle _ now)⟩

theorem Held.move (held : driver.Held others load) (phase : driver.phase ≠ .ended) {conn : Conn}
    (move : driver.conn.Move conn) (idle : conn.completed = []) :
    Held others load { driver with conn := conn } :=
  ⟨move.counted (held.wf phase) held.counted, move.limited held.limited, idle,
    fun _ => move.wf (held.wf phase), fun ended => absurd ended phase⟩

end Driver

/-! ### Exchanges -/

/-- What an exchange holds on its owner's budget: the charge of the request exported into it and
the response octets counted on it. -/
structure Exchange where
  requestCharge : Nat := 0
  responseCharge : Nat := 0
  deriving DecidableEq

namespace Exchange

def counted (exchange : Exchange) : Nat :=
  saturatingAdd exchange.requestCharge exchange.responseCharge

/-- Record response octets the caller added to its budget. -/
def count (exchange : Exchange) (octets : Nat) : Exchange :=
  { exchange with responseCharge := saturatingAdd exchange.responseCharge octets }

/-- Take the charge of an exported request. -/
def takeRequest (exchange : Exchange) (moved : Nat) : Exchange :=
  { exchange with requestCharge := saturatingAdd exchange.requestCharge moved }

/-- Give the response back: the octets it had counted, and the exchange without them. -/
def giveResponse (exchange : Exchange) : Nat × Exchange :=
  (exchange.responseCharge, { exchange with responseCharge := 0 })

/-- Clear the exchange: the octets it still had counted, and the exchange for reuse. -/
def release (exchange : Exchange) : Nat × Exchange := (exchange.counted, {})

/-- What the exchange holds. -/
def weight (exchange : Exchange) : Nat := exchange.requestCharge + exchange.responseCharge

end Exchange

/-! ### The core -/

/-- The connections of a core over what they share, and the exchanges of its handlers. The ledger
is a ghost: the exported charges not released yet, each with its exchange; so is `clipped`, which
remembers that a counter of an exchange met its bound. -/
structure Core where
  shared : Shared
  drivers : List Driver := []
  exchanges : List Exchange := []
  ledger : List (Nat × Nat) := []
  clipped : Bool := false

namespace Core

/-- A connection over the core's shared state as it is now. -/
def load (core : Core) (driver : Driver) : Driver :=
  { driver with conn := { driver.conn with shared := core.shared } }

/-- The core after a connection took a step. -/
def store (core : Core) (index : Nat) (driver : Driver) : Core :=
  { core with shared := driver.conn.shared, drivers := core.drivers.set index driver }

/-- What is buffered: the bodies and the input of the connections, and what the exchanges hold. -/
def buffered (core : Core) : Nat :=
  (core.drivers.map fun driver => driver.conn.weight + driver.conn.input.length).sum +
    (core.exchanges.map Exchange.weight).sum

/-- The charges exported into an exchange and not released. -/
def outstanding (core : Core) (exchange : Nat) : Nat :=
  ((core.ledger.filter (·.1 == exchange)).map Prod.snd).sum

/-- A step of one connection, of a handler at an exchange, or of the core. What is read or
counted has to fit the address space beside what is buffered. -/
inductive Step : Core → Core → Prop
  | accept {core : Core} (authorities : Option (List Bytes)) (now : Nat) :
      Step core { core with
        drivers := core.drivers ++ [Driver.new core.shared authorities now] }
  | clock {core : Core} (date : FieldValue) :
      Step core { core with shared := { core.shared with date := date } }
  | turn {core : Core} {index : Nat} {driver : Driver}
      (found : core.drivers[index]? = some driver) (phase : driver.phase = .turning)
      (now later : Nat) : Step core (core.store index ((core.load driver).turn now later))
  | wake {core : Core} {index : Nat} {driver : Driver}
      (found : core.drivers[index]? = some driver) (phase : driver.phase = .waiting)
      (outcome : Nat → Option Record.Answer) (event : Event) (now : Nat)
      (admitted : Driver.admits (core.load driver).conn
        ((core.load driver).conn.pollRunning outcome) event)
      (room : core.buffered + Driver.added event < u64Size) :
      Step core (core.store index ((core.load driver).wake outcome event now))
  | work {core : Core} {index : Nat} {driver : Driver} {conn : Conn}
      (found : core.drivers[index]? = some driver) (phase : driver.phase = .waiting)
      (works : (core.load driver).conn.Works conn) :
      Step core (core.store index { driver with conn := conn })
  | exports {core : Core} {index slot place : Nat} {driver : Driver} {charged : Charged}
      {exchange : Exchange} (found : core.drivers[index]? = some driver)
      (phase : driver.phase = .waiting)
      (runs : driver.conn.ring.futures[slot]? = some (some charged))
      (into : core.exchanges[place]? = some exchange) :
      Step core { core.store index
          { driver with conn := (core.load driver).conn.exportRequest slot charged } with
        exchanges := core.exchanges.set place (exchange.takeRequest charged.record.charge)
        ledger := core.ledger ++ [(place, charged.record.charge)]
        clipped := core.clipped ||
          decide (u64Size ≤ exchange.requestCharge + charged.record.charge) }
  | lease {core : Core} : Step core { core with exchanges := core.exchanges ++ [{}] }
  | count {core : Core} {place octets : Nat} {exchange : Exchange}
      (found : core.exchanges[place]? = some exchange)
      (room : core.buffered + octets < u64Size) :
      Step core { core with
        exchanges := core.exchanges.set place (exchange.count octets)
        clipped := core.clipped || decide (u64Size ≤ exchange.responseCharge + octets) }
  | imports {core : Core} {place : Nat} {exchange : Exchange}
      (found : core.exchanges[place]? = some exchange) :
      Step core { core with exchanges := core.exchanges.set place exchange.giveResponse.2 }
  | release {core : Core} {place : Nat} {exchange : Exchange}
      (found : core.exchanges[place]? = some exchange) :
      Step core { core with
        exchanges := core.exchanges.set place exchange.release.2
        ledger := core.ledger.filter (·.1 != place)
        clipped := core.clipped ||
          decide (u64Size ≤ exchange.requestCharge + exchange.responseCharge) }

/-- The states a core can reach. -/
def Reachable (core : Core) : Prop :=
  ∃ shared, shared.bodies = 0 ∧ shared.clipped = false ∧
    Relation.ReflTransGen Step { shared := shared } core

/-! ### The invariant -/

variable {exchanges : List Exchange} {place : Nat}

/-- What holds of a core between any two steps. -/
structure Exact (core : Core) : Prop where
  bodies : core.shared.bodies = (core.drivers.map fun driver => driver.conn.weight).sum
  unclipped : core.shared.clipped = false ∧ core.clipped = false
  room : core.buffered < u64Size
  members : ∀ driver ∈ core.drivers, (∀ entry ∈ driver.conn.ring.contents,
      recordCharge entry.record = 0) ∧ recordCharge driver.conn.taken = 0 ∧
    Conn.Limited { driver.conn with shared := core.shared } ∧ driver.conn.completed = [] ∧
    (driver.phase ≠ .ended → driver.conn.Wf) ∧ (driver.phase = .ended → driver.conn.weight = 0)
  exchanges : ∀ (place : Nat) (exchange : Exchange), core.exchanges[place]? = some exchange →
    exchange.requestCharge = core.outstanding place
  ledger : ∀ charge ∈ core.ledger, charge.1 < core.exchanges.length

variable {core : Core} {index : Nat} {driver : Driver}

/-- What the other connections hold. -/
def others (core : Core) (driver : Driver) : Nat :=
  (core.drivers.map fun driver => driver.conn.weight).sum - driver.conn.weight

/-- What a connection holds and has read is part of what is buffered. -/
theorem others_load_le (found : core.drivers[index]? = some driver) :
    core.others driver + (driver.conn.weight + driver.conn.input.length) ≤ core.buffered ∧
      core.others driver + driver.conn.weight =
        (core.drivers.map fun driver => driver.conn.weight).sum := by
  have part : driver.conn.weight ≤ (core.drivers.map fun driver => driver.conn.weight).sum :=
    Lib.weight_le_sum found fun driver => driver.conn.weight
  have input : driver.conn.input.length ≤
      (core.drivers.map fun driver => driver.conn.input.length).sum :=
    Lib.weight_le_sum found fun driver => driver.conn.input.length
  have split : (core.drivers.map fun driver =>
      driver.conn.weight + driver.conn.input.length).sum =
        (core.drivers.map fun driver => driver.conn.weight).sum +
          (core.drivers.map fun driver => driver.conn.input.length).sum := by
    clear part input found
    induction core.drivers with
    | nil => rfl
    | cons first rest inductionHypothesis =>
      simp only [List.map_cons, List.sum_cons, inductionHypothesis]
      omega
  unfold others buffered
  omega

theorem Exact.held (exact_ : core.Exact) (found : core.drivers[index]? = some driver) :
    (core.load driver).Held (core.others driver)
      (driver.conn.weight + driver.conn.input.length) := by
  obtain ⟨free, taken, limited, idle, wf, ended⟩ :=
    exact_.members driver (List.mem_of_getElem? found)
  obtain ⟨load, all⟩ := others_load_le found
  refine ⟨⟨?_, free, taken, exact_.unclipped.1, Nat.le_refl _, ?_⟩, limited, idle, fun going => ?_,
    ended⟩
  · exact exact_.bodies.trans all.symm
  · exact Nat.lt_of_le_of_lt load exact_.room
  · exact (wf going).congr rfl rfl rfl id (wf going).reading

/-- A step of one connection keeps the core's count exact. -/
theorem Exact.store (exact_ : core.Exact) (found : core.drivers[index]? = some driver)
    {next : Driver} {extra : Nat} (held : next.Held (core.others driver)
      (driver.conn.weight + driver.conn.input.length + extra))
    (kin : Shared.Kin core.shared next.conn.shared) (room : core.buffered + extra < u64Size) :
    (core.store index next).Exact := by
  obtain ⟨-, all⟩ := others_load_le found
  have weights := Lib.sum_set found next fun driver => driver.conn.weight
  have loads := Lib.sum_set found next fun driver =>
    driver.conn.weight + driver.conn.input.length
  have bodies := held.counted.bodies
  have load := held.counted.room
  refine ⟨?_, ⟨held.counted.unclipped, exact_.unclipped.2⟩, ?_, fun other member => ?_,
    exact_.exchanges, exact_.ledger⟩
  · change next.conn.shared.bodies = ((core.drivers.set index next).map _).sum
    omega
  · unfold buffered at room ⊢
    change ((core.drivers.set index next).map _).sum + (core.exchanges.map _).sum < _
    omega
  · change other ∈ core.drivers.set index next at member
    rcases List.mem_or_eq_of_mem_set member with old | rfl
    · obtain ⟨free, taken, limited, rest⟩ := exact_.members other old
      exact ⟨free, taken, limited.congr kin rfl rfl rfl rfl, rest⟩
    · exact ⟨held.counted.free, held.counted.taken, held.limited, held.idle, held.wf, held.ended⟩

/-- A change of the exchanges that keeps them within the address space. -/
theorem Exact.exchanged (exact_ : core.Exact) {ledger : List (Nat × Nat)} {clipped : Bool}
    (unclipped : clipped = false)
    (room : (core.drivers.map fun driver => driver.conn.weight + driver.conn.input.length).sum +
      (exchanges.map Exchange.weight).sum < u64Size)
    (charges : ∀ (place : Nat) (exchange : Exchange), exchanges[place]? = some exchange →
      exchange.requestCharge =
        outstanding { core with exchanges := exchanges, ledger := ledger } place)
    (known : ∀ charge ∈ ledger, charge.1 < exchanges.length) :
    Exact { core with exchanges := exchanges, ledger := ledger, clipped := clipped } :=
  ⟨exact_.bodies, ⟨exact_.unclipped.1, unclipped⟩, room, exact_.members, charges, known⟩

theorem outstanding_of_unknown {core : Core} (known : ∀ charge ∈ core.ledger,
    charge.1 < core.exchanges.length) (outside : core.exchanges.length ≤ place) :
    core.outstanding place = 0 := by
  unfold outstanding
  rw [List.filter_eq_nil_iff.mpr]
  · rfl
  · intro charge member
    have := known charge member
    simp only [beq_iff_eq]
    omega

theorem outstanding_charge (exchanges : List Exchange) (place other charge : Nat) :
    outstanding { core with exchanges := exchanges, ledger := core.ledger ++ [(place, charge)] }
      other = if other = place then core.outstanding other + charge else core.outstanding other := by
  unfold outstanding
  dsimp only
  rw [List.filter_append, List.map_append, List.sum_append]
  split
  · rename_i same
    subst same
    simp
  · rename_i apart
    simp [Ne.symm apart]

theorem outstanding_release (exchanges : List Exchange) (place other : Nat) :
    outstanding { core with
        exchanges := exchanges, ledger := core.ledger.filter (·.1 != place) } other =
      if other = place then 0 else core.outstanding other := by
  unfold outstanding
  dsimp only
  rw [List.filter_filter]
  split
  · rename_i same
    subst same
    rw [List.filter_eq_nil_iff.mpr]
    · rfl
    · intro charge _
      simp
  · rename_i apart
    congr 2
    refine List.filter_congr fun charge _ => ?_
    by_cases here : charge.1 = other
    · simp [here, apart]
    · simp [here]

theorem getElem?_set_cases {other : Nat} {exchange item : Exchange}
    (there : (exchanges.set place exchange)[other]? = some item) :
    (other = place ∧ item = exchange) ∨ (other ≠ place ∧ exchanges[other]? = some item) := by
  by_cases same : other = place
  · subst same
    rw [List.getElem?_set_self'] at there
    obtain ⟨-, -, rfl⟩ := Option.map_eq_some_iff.mp there
    exact .inl ⟨rfl, rfl⟩
  · rw [List.getElem?_set_ne (Ne.symm same)] at there
    exact .inr ⟨same, there⟩

/-- An edit of an exchange that leaves its request's charge alone. -/
theorem charges_set (exact_ : core.Exact) {exchange edited : Exchange}
    (found : core.exchanges[place]? = some exchange)
    (same : edited.requestCharge = exchange.requestCharge) :
    ∀ (other : Nat) (item : Exchange), (core.exchanges.set place edited)[other]? = some item →
      item.requestCharge = outstanding { core with
        exchanges := core.exchanges.set place edited, ledger := core.ledger } other := by
  intro other item there
  rcases getElem?_set_cases there with ⟨rfl, rfl⟩ | ⟨apart, old⟩
  · rw [same]
    exact exact_.exchanges _ exchange found
  · exact exact_.exchanges other item old

theorem known_set (exact_ : core.Exact) (place : Nat) (edited : Exchange) :
    ∀ charge ∈ core.ledger, charge.1 < (core.exchanges.set place edited).length := by
  rw [List.length_set]
  exact exact_.ledger

/-- Every step keeps the core's count exact. -/
theorem Step.exact {core next : Core} (step : Step core next) (exact_ : core.Exact) :
    next.Exact := by
  have room := exact_.room
  cases step with
  | accept authorities now =>
    refine ⟨?_, exact_.unclipped, ?_, fun driver member => ?_, exact_.exchanges, exact_.ledger⟩
    · rw [exact_.bodies, List.map_append, List.sum_append]
      rfl
    · unfold buffered at room ⊢
      rw [List.map_append, List.sum_append]
      change _ + 0 + _ < _
      omega
    · rcases List.mem_append.mp member with old | new
      · exact exact_.members driver old
      · rw [List.mem_singleton.mp new]
        refine ⟨?_, rfl, ⟨?_, ?_, ?_, ?_⟩, rfl,
          fun going => (Driver.new_sane core.shared authorities now going).1, fun ended => ?_⟩
        · intro entry held
          cases held
        · intro entry held
          cases held
        · intro charged held
          cases held
        · intro done held
          cases held
        · intro record held
          cases held
        · cases ended
  | clock date =>
    refine ⟨exact_.bodies, exact_.unclipped, room, fun driver member => ?_, exact_.exchanges,
      exact_.ledger⟩
    obtain ⟨free, taken, limited, rest⟩ := exact_.members driver member
    exact ⟨free, taken, limited.congr ⟨rfl, rfl, rfl, rfl⟩ rfl rfl rfl rfl, rest⟩
  | turn found phase now later =>
    obtain ⟨held, kin⟩ := (exact_.held found).turn phase now later
    exact @Exact.store _ _ _ exact_ found _ 0 held kin room
  | wake found phase outcome event now admitted memory =>
    rename_i index driver
    have before := exact_.held found
    obtain ⟨load, -⟩ := others_load_le found
    have fits : core.others driver +
        (driver.conn.weight + driver.conn.input.length + Driver.added event) < u64Size := by
      omega
    obtain ⟨held, kin⟩ := before.wake phase outcome event now fits
    exact exact_.store found held kin memory
  | work found phase works =>
    have before := exact_.held found
    have move := Conn.Move.work works
    have idle : ∀ {conn next : Conn}, conn.Works next → next.completed = conn.completed :=
      fun works => by cases works <;> rfl
    have open_ : (core.load _).phase ≠ .ended := fun ended => by
      rw [show (core.load _).phase = _ from phase] at ended
      cases ended
    have held := before.move open_ move ((idle works).trans before.idle)
    exact @Exact.store _ _ _ exact_ found _ 0 held move.kin room
  | exports found phase runs into =>
    rename_i index slot place driver charged exchange
    have before := exact_.held found
    have open_ : (core.load driver).phase ≠ .ended := fun ended => by
      change driver.phase = _ at ended
      rw [phase] at ended
      cases ended
    have move : (core.load driver).conn.Move ((core.load driver).conn.exportRequest slot charged) :=
      .exports runs
    have held := before.move open_ move before.idle
    have stored := @Exact.store _ _ _ exact_ found _ 0 held move.kin room
    have lighter : ((core.load driver).conn.exportRequest slot charged).weight +
        charged.record.charge = driver.conn.weight := Conn.weight_exportRequest runs
    have load : driver.conn.weight + driver.conn.input.length ≤ (core.drivers.map fun driver =>
        driver.conn.weight + driver.conn.input.length).sum :=
      Lib.weight_le_sum found fun driver => driver.conn.weight + driver.conn.input.length
    have loads : ((core.drivers.set index { driver with
          conn := (core.load driver).conn.exportRequest slot charged }).map fun driver =>
          driver.conn.weight + driver.conn.input.length).sum +
        (driver.conn.weight + driver.conn.input.length) =
      (core.drivers.map fun driver => driver.conn.weight + driver.conn.input.length).sum +
        (((core.load driver).conn.exportRequest slot charged).weight +
          driver.conn.input.length) :=
      Lib.sum_set found _ fun driver => driver.conn.weight + driver.conn.input.length
    have part : exchange.requestCharge + exchange.responseCharge ≤
        (core.exchanges.map Exchange.weight).sum := Lib.weight_le_sum into Exchange.weight
    have exchanged := Lib.sum_set into (exchange.takeRequest charged.record.charge)
      Exchange.weight
    unfold buffered at room
    have fits : exchange.requestCharge + charged.record.charge < u64Size := by
      omega
    have taken : (exchange.takeRequest charged.record.charge).weight =
        exchange.weight + charged.record.charge := by
      unfold Exchange.takeRequest Exchange.weight
      dsimp only
      rw [Conn.saturatingAdd_eq fits]
      omega
    refine stored.exchanged ?_ ?_ ?_ ?_
    · rw [exact_.unclipped.2, Bool.false_or, decide_eq_false_iff_not]
      omega
    · change ((core.drivers.set index { driver with
          conn := (core.load driver).conn.exportRequest slot charged }).map fun driver =>
          driver.conn.weight + driver.conn.input.length).sum + _ < _
      omega
    · intro other item there
      refine Eq.trans ?_
        (@outstanding_charge core core.exchanges place other charged.record.charge).symm
      rcases getElem?_set_cases there with ⟨rfl, rfl⟩ | ⟨apart, old⟩
      · rw [if_pos rfl, ← exact_.exchanges _ exchange into]
        exact Conn.saturatingAdd_eq fits
      · rw [if_neg apart]
        exact exact_.exchanges other item old
    · intro charge member
      rw [List.length_set]
      rcases List.mem_append.mp member with old | new
      · exact exact_.ledger charge old
      · rw [List.mem_singleton.mp new]
        exact (List.getElem?_eq_some_iff.mp into).1
  | lease =>
    refine exact_.exchanged exact_.unclipped.2 ?_ ?_ ?_
    · unfold buffered at room
      rw [List.map_append, List.sum_append]
      exact room
    · intro place exchange there
      by_cases old : place < core.exchanges.length
      · rw [List.getElem?_append_left old] at there
        exact exact_.exchanges place exchange there
      · rw [List.getElem?_append_right (Nat.le_of_not_lt old), List.getElem?_singleton] at there
        split at there
        · cases there
          exact (outstanding_of_unknown exact_.ledger (Nat.le_of_not_lt old)).symm
        · cases there
    · intro charge member
      rw [List.length_append]
      exact Nat.lt_add_right _ (exact_.ledger charge member)
  | count found memory =>
    rename_i place octets exchange
    have part : exchange.requestCharge + exchange.responseCharge ≤
        (core.exchanges.map Exchange.weight).sum := Lib.weight_le_sum found Exchange.weight
    have exchanged := Lib.sum_set found (exchange.count octets) Exchange.weight
    unfold buffered at room memory
    have fits : exchange.responseCharge + octets < u64Size := by
      omega
    have counted : (exchange.count octets).weight = exchange.weight + octets := by
      unfold Exchange.count Exchange.weight
      dsimp only
      rw [Conn.saturatingAdd_eq fits]
      omega
    refine exact_.exchanged ?_ ?_ ?_ ?_
    · rw [exact_.unclipped.2, Bool.false_or, decide_eq_false_iff_not]
      omega
    · omega
    · exact charges_set exact_ found rfl
    · exact known_set exact_ _ _
  | imports found =>
    rename_i place exchange
    have exchanged := Lib.sum_set found exchange.giveResponse.2 Exchange.weight
    have given : exchange.giveResponse.2.weight ≤ exchange.weight := by
      exact Nat.le_add_right exchange.requestCharge exchange.responseCharge
    unfold buffered at room
    refine exact_.exchanged exact_.unclipped.2 ?_ ?_ ?_
    · omega
    · exact charges_set exact_ found rfl
    · exact known_set exact_ _ _
  | release found =>
    rename_i place exchange
    have part : exchange.requestCharge + exchange.responseCharge ≤
        (core.exchanges.map Exchange.weight).sum := Lib.weight_le_sum found Exchange.weight
    have exchanged := Lib.sum_set found exchange.release.2 Exchange.weight
    have cleared : exchange.release.2.weight = 0 := rfl
    unfold buffered at room
    refine exact_.exchanged ?_ ?_ ?_ ?_
    · rw [exact_.unclipped.2, Bool.false_or, decide_eq_false_iff_not]
      omega
    · omega
    · intro other item there
      refine Eq.trans ?_ (@outstanding_release core core.exchanges place other).symm
      rcases getElem?_set_cases there with ⟨rfl, rfl⟩ | ⟨apart, old⟩
      · rw [if_pos rfl]
        rfl
      · rw [if_neg apart]
        exact exact_.exchanges other item old
    · intro charge member
      rw [List.length_set]
      exact exact_.ledger charge (List.mem_filter.mp member).1

theorem Reachable.exact {core : Core} (reachable : core.Reachable) : core.Exact := by
  obtain ⟨shared, empty, unclipped, run⟩ := reachable
  induction run with
  | refl =>
    refine ⟨empty, ⟨unclipped, rfl⟩, Nat.two_pow_pos 64, ?_, ?_, ?_⟩
    · intro driver member
      cases member
    · intro place exchange found
      cases found
    · intro charge member
      cases member
  | tail _ step inductionHypothesis => exact step.exact inductionHypothesis

theorem Exact.weight_eq {core : Core} (exact_ : core.Exact) :
    core.drivers.map (fun driver => driver.conn.weight) = core.drivers.map fun driver =>
      (driver.conn.ring.contents.map Entry.bodyBytes).sum +
        futureCharge driver.conn.ring.futures := by
  refine List.map_congr_left fun driver member => ?_
  obtain ⟨-, -, -, idle, -⟩ := exact_.members driver member
  unfold Conn.weight
  rw [idle]
  rfl

/-- The memory of requests is counted exactly in every run of a core: the count of body bytes is
what the entries hold plus the charges of the records with running handlers, no bounded addition
or subtraction met its bound, every exported charge is on one exchange until the exchange's
release returns it, nothing is left when every connection has ended, and no buffered body exceeds
the limit of its request. -/
theorem memory_exact {core : Core} (reachable : core.Reachable) :
    core.shared.bodies = (core.drivers.map fun driver =>
      (driver.conn.ring.contents.map Entry.bodyBytes).sum +
        futureCharge driver.conn.ring.futures).sum ∧
    (core.shared.clipped = false ∧ core.clipped = false) ∧
    (∀ charge ∈ core.ledger, charge.1 < core.exchanges.length) ∧
    (∀ (place : Nat) (exchange : Exchange), core.exchanges[place]? = some exchange →
      exchange.requestCharge = core.outstanding place ∧
        exchange.release.1 = core.outstanding place + exchange.responseCharge) ∧
    ((∀ driver ∈ core.drivers, driver.phase = .ended) → core.shared.bodies = 0) ∧
    ∀ driver ∈ core.drivers,
      (∀ entry ∈ driver.conn.ring.contents, ∀ record, entry.record = some record →
        Conn.Fits core.shared record) ∧
      ∀ charged, some charged ∈ driver.conn.ring.futures →
        Conn.Fits core.shared charged.record := by
  have exact_ := reachable.exact
  refine ⟨?_, exact_.unclipped, exact_.ledger, fun place exchange found => ?_, fun ended => ?_,
    fun driver member => ?_⟩
  · rw [← exact_.weight_eq]
    exact exact_.bodies
  · have charge := exact_.exchanges place exchange found
    have part : exchange.requestCharge + exchange.responseCharge ≤
        (core.exchanges.map Exchange.weight).sum := Lib.weight_le_sum found Exchange.weight
    have room := exact_.room
    unfold buffered at room
    refine ⟨charge, ?_⟩
    change saturatingAdd exchange.requestCharge exchange.responseCharge = _
    rw [Conn.saturatingAdd_eq (by omega), charge]
  · rw [exact_.bodies]
    refine List.sum_eq_zero fun weight member => ?_
    obtain ⟨driver, listed, rfl⟩ := List.mem_map.mp member
    obtain ⟨-, -, -, -, -, weightless⟩ := exact_.members driver listed
    exact weightless (ended driver listed)
  · obtain ⟨-, -, limited, -⟩ := exact_.members driver member
    exact ⟨fun entry held => (limited.entries entry held).fits, limited.futures⟩

/-- The first connection of a core after a turn. -/
def turned (core : Core) (driver : Driver) : Core := core.store 0 ((core.load driver).turn 0 0)

/-- A small core whose only connection has read and turned. -/
def readPlain (bytes : Bytes) : Core :=
  let accepted := Driver.new .plain none 0
  let core : Core := turned { shared := .plain, drivers := [accepted] } accepted
  let woken := (core.load Driver.waitingPlain).wake (fun _ => none) (.read bytes) 0
  (core.store 0 woken).turned woken

theorem readPlain_reachable (bytes : Bytes) (room : bytes.length < u64Size) :
    (readPlain bytes).Reachable := by
  refine ⟨.plain, rfl, rfl, ?_⟩
  have waits : Driver.waitingPlain.phase = .waiting := by decide +kernel
  have admitted : Driver.admits Driver.waitingPlain.conn
      (Driver.waitingPlain.conn.pollRunning fun _ => none) (.read bytes) :=
    ⟨by decide +kernel, by decide +kernel⟩
  refine ((((Relation.ReflTransGen.single (.accept none 0)).tail
    (.turn rfl rfl 0 0)).tail
      (.wake rfl waits (fun _ => none) (.read bytes) 0 admitted ?_)).tail (.turn rfl rfl 0 0))
  have idle : (turned { shared := .plain, drivers := [Driver.new .plain none 0] }
      (Driver.new .plain none 0)).buffered = 0 := by decide +kernel
  exact ((congrArg (· + bytes.length) idle).trans (Nat.zero_add _)).trans_lt room

/-- The body of a running `POST` is on the count, once. -/
theorem memory_exact_post :
    let core := readPlain (ascii "POST / HTTP/1.1\r\nHost: h\r\nContent-Length: 5\r\n\r\nhello")
    core.shared.bodies = 5 ∧ (core.drivers.map fun driver =>
      (driver.conn.ring.contents.map Entry.bodyBytes).sum +
        futureCharge driver.conn.ring.futures).sum = 5 ∧
      core.shared.clipped = false := by
  intro core
  have counted := memory_exact (readPlain_reachable
    (ascii "POST / HTTP/1.1\r\nHost: h\r\nContent-Length: 5\r\n\r\nhello") (by decide))
  have bodies : core.shared.bodies = 5 := by decide +kernel
  exact ⟨bodies, counted.1.symm.trans bodies, counted.2.1.1⟩

end Core

end ZeroServer.Http

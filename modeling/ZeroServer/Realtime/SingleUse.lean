/-
This file proves what the connection table keeps whatever threads do on it and in whatever order:
every index it has grown to is in exactly one place, the openings of an entry go through the
generations in turn, what was opened is held or was returned by one close, and the count of
reservations follows their list.
-/

import Mathlib.Data.List.Nodup
import ZeroServer.Realtime.Conns

namespace ZeroServer.Realtime

open Rt Lib

/-! ### What is under way -/

variable {threads : List (List Todo)} {todo : Todo}

variable {thread : Nat} {rest : List Todo}

/-- The sum of a weight over all steps still to do. -/
def pending (weight : Todo → Nat) (threads : List (List Todo)) : Nat :=
  (threads.map fun todos => (todos.map weight).sum).sum

theorem pending_set (found : threads[thread]? = some (todo :: rest)) (more : List Todo)
    (weight : Todo → Nat) :
    pending weight (threads.set thread (more ++ rest)) + weight todo =
      pending weight threads + (more.map weight).sum := by
  have edited := sum_set found (more ++ rest) fun todos => (todos.map weight).sum
  unfold pending
  simp only [List.map_append, List.sum_append, List.map_cons, List.sum_cons] at edited
  omega

theorem pending_concat (threads : List (List Todo)) (steps : List Todo) (weight : Todo → Nat) :
    pending weight (threads ++ [steps]) = pending weight threads + (steps.map weight).sum := by
  simp [pending]

theorem weight_le_pending (found : threads[thread]? = some (todo :: rest)) (weight : Todo → Nat) :
    weight todo ≤ pending weight threads := by
  have inside := weight_le_sum found fun todos => (todos.map weight).sum
  rw [List.map_cons, List.sum_cons] at inside
  exact (Nat.le_add_right _ _).trans inside

theorem pending_quiet (quiet : ∀ todos ∈ threads, todos = []) (weight : Todo → Nat) :
    pending weight threads = 0 := by
  refine List.sum_eq_zero_iff_forall_eq_nat.mpr fun total member => ?_
  obtain ⟨todos, inside, rfl⟩ := List.mem_map.mp member
  rw [quiet todos inside]
  rfl

/-! ### The place of an index -/

variable {table : Table} {id : SlotId}

variable {index : Fin 65536} {entry : Entry}

/-- A thread holds an index: it has taken it, or has still to put it back. -/
def holding (index : Fin 65536) : Todo → Nat
  | .openEntry other _ _ _ => if other = index then 1 else 0
  | .pushIndex other => if other = index then 1 else 0
  | _ => 0

/-- The places of an index in the table: on the free list, and in use. -/
def Table.places (table : Table) (index : Fin 65536) : Nat :=
  table.indexes.count index + (table.entries index).isOpen.toNat

/-- The indexes a table has grown to. -/
def Table.grew (table : Table) (index : Fin 65536) : Nat :=
  (decide (index.val < table.grown)).toNat

/-- A thread that has taken an index finds its entry, and finds it closed. -/
def Todo.Ready (table : Table) : Todo → Prop
  | .openEntry index _ _ _ => index.val < table.grown ∧ (table.entries index).isOpen = false
  | _ => True

theorem entry_eq_some (there : table.entry index = some entry) : table.entries index = entry := by
  unfold Table.entry at there
  split at there
  · exact Option.some.inj there
  · cases there

theorem entry_of_grown (grown : index.val < table.grown) :
    table.entry index = some (table.entries index) :=
  if_pos (Nat.lt_of_le_of_lt (Nat.div_mul_le_self _ _) grown)

theorem named_eq_some (named : table.named id = some entry) :
    id.worker = table.worker ∧
      table.entries id.index = entry ∧ entry.isOpen = true ∧ entry.generation = id.generation := by
  unfold Table.named at named
  split at named
  · cases named
  · rename_i same
    obtain ⟨there, fits⟩ := Option.filter_eq_some_iff.mp named
    rw [Bool.and_eq_true, decide_eq_true_eq] at fits
    exact ⟨not_not.mp same, entry_eq_some there, fits.1, fits.2⟩

/-- A step moves an index from one place to another, and a new one comes from the growth. -/
theorem perform_places {leased gone : SlotId → Bool} {todo : Todo} {table : Table}
    (ready : todo.Ready table) (index : Fin 65536) :
    (perform leased gone todo table).2.places index +
        ((perform leased gone todo table).1.map (holding index)).sum + table.grew index =
      table.places index + holding index todo +
        (perform leased gone todo table).2.grew index := by
  cases todo with
  | takeIndex kind route slot =>
    rw [perform]
    cases free : table.indexes with
    | cons first rest =>
      simp only [Table.places, Table.grew, free, List.count_cons, holding, List.map_cons,
        List.map_nil, List.sum_cons, List.sum_nil, beq_iff_eq]
      omega
    | nil =>
      dsimp only
      split
      · rename_i fits
        simp only [Table.places, Table.grew, free, holding, List.map_cons, List.map_nil,
          List.sum_cons, List.sum_nil, Fin.ext_iff]
        have grown : (decide (index.val < table.grown + 1)).toNat =
            (decide (index.val < table.grown)).toNat +
              if table.grown = index.val then 1 else 0 := by
          by_cases last : table.grown = index.val
          · rw [if_pos last, last, decide_eq_true (Nat.lt_succ_self _),
              decide_eq_false (Nat.lt_irrefl _)]
            rfl
          · rw [if_neg last, Nat.add_zero]
            exact congrArg Bool.toNat (decide_eq_decide.mpr (by omega))
        omega
      · rfl
  | openEntry taken kind route slot =>
    obtain ⟨inside, closed⟩ := ready
    rw [perform, entry_of_grown inside]
    dsimp only
    have opens : ∀ generation live, (table.setEntry taken ⟨true, generation, live⟩).places index =
        table.places index + if taken = index then 1 else 0 := by
      intro generation live
      unfold Table.places Table.setEntry
      dsimp only
      by_cases same : index = taken
      · subst same
        rw [if_pos rfl, if_pos rfl, closed]
        rfl
      · rw [if_neg same, if_neg fun other => same other.symm]
        rfl
    cases SlotId.new table.worker (opening (table.entries taken).generation) taken with
    | none => rfl
    | some id =>
      have moved := opens (opening (table.entries taken).generation)
        (some ⟨table.opened.length, kind, route⟩)
      simp only [holding, List.map_cons, List.map_nil, List.sum_cons, List.sum_nil]
      change (table.setEntry taken _).places index + _ + _ = _ + _ + table.grew index
      omega
  | checkLease conn slot =>
    rw [perform]
    split <;> rfl
  | list conn slot => rfl
  | count => rfl
  | pushIndex back =>
    have moved : (table.indexes ++ [back]).count index =
        table.indexes.count index + if back = index then 1 else 0 := by
      simp only [List.count_append, List.count_singleton, beq_iff_eq]
    rw [perform]
    change (table.indexes ++ [back]).count index + (table.entries index).isOpen.toNat + 0 +
      table.grew index = table.indexes.count index + (table.entries index).isOpen.toNat +
        (if back = index then 1 else 0) + table.grew index
    omega
  | peek id =>
    rw [perform]
    split <;> rfl
  | read id => rfl
  | close id orDrop =>
    rw [perform]
    cases named : table.named id with
    | none => cases orDrop <;> rfl
    | some entry =>
      obtain ⟨-, there, isOpen, -⟩ := named_eq_some named
      have closes : (table.setEntry id.index ⟨false, id.generation, none⟩).places index +
          (if id.index = index then 1 else 0) = table.places index := by
        unfold Table.places Table.setEntry
        dsimp only
        by_cases same : index = id.index
        · subst same
          rw [if_pos rfl, if_pos rfl, there, isOpen]
          rfl
        · rw [if_neg same, if_neg fun other => same other.symm]
          rfl
      have behind : ((if orDrop && entry.live.isNone then [Todo.probe id] else []).map
          (holding index)).sum = 0 := by split <;> rfl
      simp only [List.map_cons, List.sum_cons, behind, holding]
      change (table.setEntry id.index _).places index + _ + _ = _ + _ + table.grew index
      omega
  | probe conn =>
    rw [perform]
    unfold drops
    split
    · rfl
    · split <;> rfl
  | retain conn => rfl
  | subtract dropped => rfl
  | sweep every =>
    rw [perform]
    split <;> rfl
  | collect every =>
    have none_ : ∀ reservations : List Reservation, ((reservations.map fun reservation =>
        Todo.close reservation.conn true).map (holding index)).sum = 0 := by
      intro reservations
      induction reservations with
      | nil => rfl
      | cons first rest inductionHypothesis => simpa [holding] using inductionHypothesis
    rw [perform]
    dsimp only
    rw [none_]
    rfl
  | scanAll =>
    have none_ : ∀ indexes : List (Fin 65536),
        ((indexes.map Todo.scan).map (holding index)).sum = 0 := by
      intro indexes
      induction indexes with
      | nil => rfl
      | cons first rest inductionHypothesis => simpa [holding] using inductionHypothesis
    rw [perform]
    dsimp only
    rw [none_]
    rfl
  | scan taken =>
    rw [perform]
    cases table.entry taken with
    | none => rfl
    | some entry =>
      dsimp only
      split
      · cases SlotId.new table.worker entry.generation taken <;> rfl
      · rfl

/-! ### The openings of an entry -/

variable {conn : SlotId × Live} {live : Live} {next : Table}

/-- The generation of an entry that was opened a number of times. -/
def turn (times : Nat) : Nat := if times = 0 then 0 else (times - 1) % (2 ^ 30 - 1) + 1

theorem turn_lt (times : Nat) : turn times < 2 ^ 30 := by
  unfold turn
  split <;> omega

theorem opening_turn (times : Nat) : opening (turn times) = turn (times + 1) := by
  have next : ∀ generation, generation < 2 ^ 30 →
      opening generation = if generation + 1 = 2 ^ 30 then 1 else generation + 1 := by
    intro generation small
    have value : (nextGeneration (BitVec.ofNat 32 generation)).toNat =
        (generation + 1) % 2 ^ 30 := by
      unfold nextGeneration
      rw [BitVec.toNat_and, show generationMask.toNat = 2 ^ 30 - 1 by decide,
        Nat.and_two_pow_sub_one_eq_mod, BitVec.toNat_add, BitVec.toNat_ofNat,
        show (1#32).toNat = 1 by decide]
      omega
    unfold opening
    rw [value]
    split
    · rename_i zero
      rw [if_pos (by omega)]
    · rename_i some_
      have more : (generation + 1) % 2 ^ 30 ≠ 0 := some_
      rw [if_neg (by omega)]
      omega
  rw [next _ (turn_lt times)]
  unfold turn
  cases times with
  | zero => rfl
  | succ times =>
    rw [if_neg (Nat.succ_ne_zero _), if_neg (Nat.succ_ne_zero _)]
    split <;> omega

/-- Two openings of one generation are a turn of the generations apart. -/
theorem turn_apart {first second : Nat} (early : first < second)
    (same : turn (first + 1) = turn (second + 1)) : first + (2 ^ 30 - 1) ≤ second := by
  unfold turn at same
  rw [if_neg (Nat.succ_ne_zero _), if_neg (Nat.succ_ne_zero _)] at same
  omega

/-- The connections opened on an entry, oldest first. -/
def Table.opens (table : Table) (index : Fin 65536) : List (SlotId × Live) :=
  table.opened.filter fun conn => conn.1.index = index

/-- A connection is the one its entry holds: the entry is open and was opened for it last. -/
def Table.Current (table : Table) (conn : SlotId × Live) : Prop :=
  (table.entries conn.1.index).isOpen = true ∧ (table.opens conn.1.index).getLast? = some conn

instance (table : Table) (conn : SlotId × Live) : Decidable (table.Current conn) :=
  inferInstanceAs (Decidable (_ ∧ _))

/-- What the entries hold is what was opened on them last, and what was opened is held or was
returned by a close. -/
structure Table.Kept (table : Table) : Prop where
  worker : ∀ conn ∈ table.opened, conn.1.worker = table.worker
  inside : ∀ conn ∈ table.opened, conn.1.index.val < table.grown
  turns : ∀ (index : Fin 65536) (place : Nat) (conn : SlotId × Live),
    (table.opens index)[place]? = some conn → conn.1.generation = turn (place + 1)
  generation : ∀ index, (table.entries index).generation = turn (table.opens index).length
  held : ∀ index, (table.entries index).isOpen = true → ∃ conn,
    (table.opens index).getLast? = some conn ∧ (table.entries index).live = some conn.2
  outboxes : ∀ (place : Nat) (conn : SlotId × Live), table.opened[place]? = some conn →
    conn.2.outbox = place
  returned : ∀ conn, table.closed.count conn + (decide (table.Current conn)).toNat =
    table.opened.count conn

theorem mem_opens : conn ∈ table.opens index ↔ conn ∈ table.opened ∧ conn.1.index = index := by
  unfold Table.opens
  rw [List.mem_filter, decide_eq_true_eq]

theorem Table.Kept.last {table : Table} (kept : table.Kept) {index : Fin 65536}
    {conn : SlotId × Live} (last : (table.opens index).getLast? = some conn) :
    conn.1.worker = table.worker ∧ conn.1.index = index ∧
      conn.1.generation = (table.entries index).generation ∧ index.val < table.grown := by
  have member := mem_opens.mp (List.mem_of_getLast? last)
  have some_ : 0 < (table.opens index).length := by
    rw [List.length_pos_iff]
    rintro none_
    rw [none_] at last
    cases last
  rw [List.getLast?_eq_getElem?] at last
  have turns := kept.turns index _ conn last
  rw [Nat.sub_add_cancel some_] at turns
  refine ⟨kept.worker conn member.1, member.2, ?_, ?_⟩
  · rw [turns, kept.generation]
  · rw [← member.2]
    exact kept.inside conn member.1

/-- An id resolves to the connection that its entry holds, if that is the one. -/
theorem Table.Kept.find_iff (kept : table.Kept) :
    table.find id = some live ↔ table.Current (id, live) := by
  constructor
  · intro found
    obtain ⟨entry, named, holds⟩ := Option.bind_eq_some_iff.mp found
    obtain ⟨worker, rfl, isOpen, generation⟩ := named_eq_some named
    obtain ⟨conn, last, same⟩ := kept.held id.index isOpen
    obtain ⟨connWorker, connIndex, connGeneration, -⟩ := kept.last last
    rw [holds] at same
    cases same
    have ids : conn.1 = id := by
      obtain ⟨⟨w, g, i⟩, _⟩ := conn
      obtain ⟨_, _, _⟩ := id
      dsimp only at *
      subst connIndex
      rw [SlotId.mk.injEq]
      exact ⟨connWorker.trans worker.symm, Fin.ext (connGeneration.trans generation), rfl⟩
    refine ⟨isOpen, ?_⟩
    rw [← ids]
    dsimp only
    rw [connIndex]
    exact last
  · rintro ⟨isOpen, last⟩
    dsimp only at isOpen last
    obtain ⟨worker, -, generation, grown⟩ := kept.last last
    obtain ⟨conn, same, holds⟩ := kept.held id.index isOpen
    rw [last] at same
    cases same
    unfold Table.find Table.named
    rw [if_neg (not_not.mpr worker), entry_of_grown grown, Option.filter_some, isOpen,
      decide_eq_true generation.symm]
    exact holds

theorem Table.Kept.named (kept : table.Kept) (named : table.named id = some entry) :
    ∃ live, entry.live = some live ∧ table.Current (id, live) := by
  obtain ⟨-, rfl, isOpen, -⟩ := named_eq_some named
  obtain ⟨conn, -, holds⟩ := kept.held id.index isOpen
  refine ⟨conn.2, holds, kept.find_iff.mp ?_⟩
  unfold Table.find
  rw [named]
  exact holds

theorem Table.Kept.congr (kept : table.Kept) (worker : next.worker = table.worker)
    (entries : next.entries = table.entries) (opened : next.opened = table.opened)
    (closed : next.closed = table.closed) (grown : table.grown ≤ next.grown) : next.Kept := by
  have opens : ∀ index, next.opens index = table.opens index := by
    intro index
    unfold Table.opens
    rw [opened]
  refine ⟨?_, ?_, ?_, ?_, ?_, ?_, fun conn => ?_⟩
  · rw [opened, worker]
    exact kept.worker
  · rw [opened]
    exact fun conn member => Nat.lt_of_lt_of_le (kept.inside conn member) grown
  · intro index
    rw [opens]
    exact kept.turns index
  · intro index
    rw [entries, opens]
    exact kept.generation index
  · intro index
    rw [entries, opens]
    exact kept.held index
  · rw [opened]
    exact kept.outboxes
  · have same : next.Current conn ↔ table.Current conn := by
      unfold Table.Current
      rw [entries, opens]
    rw [closed, opened, decide_eq_decide.mpr same]
    exact kept.returned conn

/-- Opening a closed entry. -/
theorem Table.Kept.opened {table : Table} (kept : table.Kept) {index : Fin 65536}
    (inside : index.val < table.grown) (closed : (table.entries index).isOpen = false)
    {id : SlotId} (made : SlotId.new table.worker (opening (table.entries index).generation) index =
      some id) (kind : Kind) (route : Nat) :
    Table.Kept { table.setEntry index ⟨true, opening (table.entries index).generation,
      some ⟨table.opened.length, kind, route⟩⟩ with
      opened := table.opened ++ [(id, ⟨table.opened.length, kind, route⟩)] } := by
  unfold SlotId.new at made
  split at made
  swap
  · cases made
  rename_i fits
  cases made
  generalize fresh : ((⟨⟨table.worker, fits.1⟩, ⟨opening (table.entries index).generation,
    fits.2.1⟩, ⟨index, fits.2.2⟩⟩ : SlotId), (⟨table.opened.length, kind, route⟩ : Live)) = conn
  have freshIndex : conn.1.index = index := by
    rw [← fresh]
  have freshGeneration : conn.1.generation.val = opening (table.entries index).generation := by
    rw [← fresh]
  have freshWorker : conn.1.worker = table.worker := by
    rw [← fresh]
  have freshLive : (⟨table.opened.length, kind, route⟩ : Live) = conn.2 := by
    rw [← fresh]
  rw [freshLive]
  generalize whole : ({ table.setEntry index ⟨true, opening (table.entries index).generation,
    some conn.2⟩ with opened := table.opened ++ [conn] } : Table) = next
  have worker : next.worker = table.worker := by
    rw [← whole]
    rfl
  have grown : next.grown = table.grown := by
    rw [← whole]
    rfl
  have here : next.entries index =
      ⟨true, opening (table.entries index).generation, some conn.2⟩ := by
    rw [← whole]
    exact if_pos rfl
  have others : ∀ other, other ≠ index → next.entries other = table.entries other := by
    intro other apart
    rw [← whole]
    exact if_neg apart
  have opened : next.opened = table.opened ++ [conn] := by
    rw [← whole]
  have returned : next.closed = table.closed := by
    rw [← whole]
    rfl
  have opensHere : next.opens index = table.opens index ++ [conn] := by
    unfold Table.opens
    rw [opened, List.filter_append, List.filter_singleton, freshIndex]
    simp
  have opensOther : ∀ other, other ≠ index → next.opens other = table.opens other := by
    intro other apart
    unfold Table.opens
    rw [opened, List.filter_append, List.filter_singleton, freshIndex, decide_eq_false apart.symm]
    exact List.append_nil _
  refine ⟨fun other member => ?_, fun other member => ?_, fun place number other found => ?_,
    fun place => ?_, fun place isOpen => ?_, fun number other found => ?_, fun other => ?_⟩
  · rw [opened] at member
    rw [worker]
    rcases List.mem_append.mp member with old | new
    · exact kept.worker other old
    · rw [List.mem_singleton.mp new]
      exact freshWorker
  · rw [opened] at member
    rw [grown]
    rcases List.mem_append.mp member with old | new
    · exact kept.inside other old
    · rw [List.mem_singleton.mp new, freshIndex]
      exact inside
  · by_cases same : place = index
    · subst same
      rw [opensHere] at found
      rcases getElem?_concat found with old | ⟨rfl, rfl⟩
      · exact kept.turns place number other old
      · rw [freshGeneration, kept.generation, opening_turn]
    · rw [opensOther place same] at found
      exact kept.turns place number other found
  · by_cases same : place = index
    · subst same
      rw [here, opensHere, List.length_append, List.length_singleton, kept.generation, opening_turn]
    · rw [others place same, opensOther place same]
      exact kept.generation place
  · by_cases same : place = index
    · subst same
      rw [here, opensHere]
      exact ⟨conn, List.getLast?_concat, rfl⟩
    · rw [others place same] at isOpen ⊢
      rw [opensOther place same]
      exact kept.held place isOpen
  · rw [opened] at found
    rcases getElem?_concat found with old | ⟨rfl, rfl⟩
    · exact kept.outboxes number other old
    · rw [← freshLive]
  · have before := kept.returned other
    rw [returned, opened, List.count_append, List.count_singleton]
    by_cases same : other.1.index = index
    · have wasNot : ¬table.Current other := by
        rintro ⟨isOpen, -⟩
        rw [same, closed] at isOpen
        cases isOpen
      have isNow : next.Current other ↔ conn = other := by
        unfold Table.Current
        rw [same, here, opensHere, List.getLast?_concat]
        simp
      rw [decide_eq_false wasNot, Bool.toNat_false] at before
      rw [decide_eq_decide.mpr isNow]
      by_cases equal : conn = other
      · rw [decide_eq_true equal, equal, beq_self_eq_true, if_pos rfl]
        exact congrArg (· + 1) before
      · rw [decide_eq_false equal, if_neg (by simpa using equal)]
        exact before
    · have isNow : next.Current other ↔ table.Current other := by
        unfold Table.Current
        rw [others _ same, opensOther _ same]
      have apart : conn ≠ other := fun equal => same (by rw [← equal]; exact freshIndex)
      rw [decide_eq_decide.mpr isNow, if_neg (by simpa using apart)]
      exact before

/-- Closing an open entry. -/
theorem Table.Kept.closed (kept : table.Kept) (current : table.Current (id, live)) :
    Table.Kept { table.setEntry id.index ⟨false, id.generation, none⟩ with
      closed := table.closed ++ [(id, live)] } := by
  obtain ⟨isOpen, last⟩ := current
  dsimp only at isOpen last
  obtain ⟨-, -, generation, -⟩ := kept.last last
  generalize whole : ({ table.setEntry id.index ⟨false, id.generation, none⟩ with
    closed := table.closed ++ [(id, live)] } : Table) = next
  have worker : next.worker = table.worker := by
    rw [← whole]
    rfl
  have grown : next.grown = table.grown := by
    rw [← whole]
    rfl
  have here : next.entries id.index = ⟨false, id.generation, none⟩ := by
    rw [← whole]
    exact if_pos rfl
  have others : ∀ other, other ≠ id.index → next.entries other = table.entries other := by
    intro other apart
    rw [← whole]
    exact if_neg apart
  have opened : next.opened = table.opened := by
    rw [← whole]
    rfl
  have returned : next.closed = table.closed ++ [(id, live)] := by
    rw [← whole]
  have opens : ∀ index, next.opens index = table.opens index := by
    intro index
    unfold Table.opens
    rw [opened]
  refine ⟨?_, ?_, fun index => ?_, fun index => ?_, fun index isOpen => ?_, ?_, fun other => ?_⟩
  · rw [opened, worker]
    exact kept.worker
  · rw [opened, grown]
    exact kept.inside
  · rw [opens]
    exact kept.turns index
  · rw [opens]
    by_cases same : index = id.index
    · subst same
      rw [here, ← kept.generation]
      exact generation
    · rw [others index same]
      exact kept.generation index
  · rw [opens]
    by_cases same : index = id.index
    · subst same
      rw [here] at isOpen
      cases isOpen
    · rw [others index same] at isOpen ⊢
      exact kept.held index isOpen
  · rw [opened]
    exact kept.outboxes
  · have before := kept.returned other
    rw [returned, opened, List.count_append, List.count_singleton]
    by_cases same : other.1.index = id.index
    · have isNot : ¬next.Current other := by
        rintro ⟨isOpen, -⟩
        rw [same, here] at isOpen
        cases isOpen
      have was : table.Current other ↔ (id, live) = other := by
        unfold Table.Current
        rw [same, last, isOpen]
        simp
      rw [decide_eq_false isNot, Bool.toNat_false, ← before, decide_eq_decide.mpr was]
      by_cases equal : (id, live) = other
      · rw [decide_eq_true equal, equal, beq_self_eq_true, if_pos rfl]
        rfl
      · rw [decide_eq_false equal, if_neg (by simpa using equal)]
        rfl
    · have isNow : next.Current other ↔ table.Current other := by
        unfold Table.Current
        rw [others _ same, opens]
      have apart : (id, live) ≠ other := fun equal => same (by rw [← equal])
      rw [decide_eq_decide.mpr isNow, if_neg (by simpa using apart)]
      exact before

theorem Table.Kept.perform (kept : table.Kept) {leased gone : SlotId → Bool}
    (ready : todo.Ready table) : (perform leased gone todo table).2.Kept := by
  cases todo with
  | takeIndex kind route slot =>
    rw [Realtime.perform]
    cases table.indexes with
    | cons first rest => exact kept.congr rfl rfl rfl rfl (Nat.le_refl _)
    | nil =>
      dsimp only
      split
      · exact kept.congr rfl rfl rfl rfl (Nat.le_succ _)
      · exact kept
  | openEntry index kind route slot =>
    obtain ⟨inside, closed⟩ := ready
    rw [Realtime.perform, entry_of_grown inside]
    dsimp only
    cases made : SlotId.new table.worker (opening (table.entries index).generation) index with
    | none => exact kept
    | some id => exact kept.opened inside closed made kind route
  | checkLease conn slot =>
    rw [Realtime.perform]
    split
    · exact kept.congr rfl rfl rfl rfl (Nat.le_refl _)
    · exact kept
  | list conn slot => exact kept.congr rfl rfl rfl rfl (Nat.le_refl _)
  | count => exact kept.congr rfl rfl rfl rfl (Nat.le_refl _)
  | pushIndex index => exact kept.congr rfl rfl rfl rfl (Nat.le_refl _)
  | peek id => exact kept
  | read id => exact kept
  | close id orDrop =>
    rw [Realtime.perform]
    cases named : table.named id with
    | none => exact kept
    | some entry =>
      obtain ⟨live, holds, current⟩ := kept.named named
      dsimp only
      rw [holds]
      exact kept.closed current
  | probe conn =>
    rw [Realtime.perform]
    split <;> exact kept
  | retain conn => exact kept.congr rfl rfl rfl rfl (Nat.le_refl _)
  | subtract dropped => exact kept.congr rfl rfl rfl rfl (Nat.le_refl _)
  | sweep every => exact kept
  | collect every => exact kept
  | scanAll => exact kept
  | scan index =>
    rw [Realtime.perform]
    split
    · exact kept
    · split
      · split <;> exact kept
      · exact kept

/-! ### The count of reservations -/

/-- A listing that is not yet counted. -/
def counting : Todo → Nat
  | .count => 1
  | _ => 0

/-- Listings that are gone and still counted. -/
def subtracting : Todo → Nat
  | .subtract dropped => dropped
  | _ => 0

theorem sum_map_zero {weight : Todo → Nat} {Item : Type} (items : List Item) {make : Item → Todo}
    (zero : ∀ item, weight (make item) = 0) : ((items.map make).map weight).sum = 0 := by
  induction items with
  | nil => rfl
  | cons first rest inductionHypothesis =>
    rw [List.map_cons, List.map_cons, List.sum_cons, inductionHypothesis, zero]

/-- A step changes the count and the list by what it leaves to count and to subtract. -/
theorem perform_counts (leased gone : SlotId → Bool) (todo : Todo) (table : Table) :
    (perform leased gone todo table).2.reservations +
        UInt64.ofNat (((perform leased gone todo table).1.map counting).sum) +
        UInt64.ofNat table.reserved.length + UInt64.ofNat (subtracting todo) =
      table.reservations + UInt64.ofNat (counting todo) +
        UInt64.ofNat (perform leased gone todo table).2.reserved.length +
        UInt64.ofNat (((perform leased gone todo table).1.map subtracting).sum) := by
  cases todo with
  | takeIndex kind route slot =>
    rw [perform]
    cases table.indexes with
    | cons first rest => rfl
    | nil =>
      dsimp only
      split <;> rfl
  | openEntry index kind route slot =>
    rw [perform]
    cases table.entry index with
    | none => rfl
    | some entry =>
      dsimp only
      cases SlotId.new table.worker (opening entry.generation) index <;> rfl
  | checkLease conn slot =>
    rw [perform]
    split <;> rfl
  | list conn slot =>
    simp only [perform, counting, subtracting, List.map_cons, List.map_nil, List.sum_cons,
      List.sum_nil, List.length_append, List.length_singleton, UInt64.ofNat_add]
    grind
  | count =>
    simp only [perform, counting, subtracting, List.map_nil, List.sum_nil]
    grind
  | pushIndex index => rfl
  | peek id =>
    rw [perform]
    split <;> rfl
  | read id => rfl
  | close id orDrop =>
    rw [perform]
    cases table.named id with
    | none => cases orDrop <;> rfl
    | some entry =>
      dsimp only
      split <;> rfl
  | probe conn =>
    rw [perform]
    unfold drops
    split
    · rfl
    · split <;> rfl
  | retain conn =>
    have fewer := List.length_filter_le (fun reservation => reservation.conn ≠ conn) table.reserved
    have parts : UInt64.ofNat table.reserved.length = UInt64.ofNat ((table.reserved.filter
        fun reservation => reservation.conn ≠ conn).length) + UInt64.ofNat (table.reserved.length -
          (table.reserved.filter fun reservation => reservation.conn ≠ conn).length) := by
      rw [← UInt64.ofNat_add]
      congr 1
      omega
    simp only [perform, counting, subtracting, List.map_cons, List.map_nil, List.sum_cons,
      List.sum_nil, Nat.add_zero]
    rw [parts]
    grind
  | subtract dropped =>
    simp only [perform, counting, subtracting, List.map_nil, List.sum_nil]
    grind
  | sweep every =>
    rw [perform]
    split <;> rfl
  | collect every =>
    rw [perform]
    dsimp only
    rw [sum_map_zero _ fun _ => rfl, sum_map_zero _ fun _ => rfl]
    rfl
  | scanAll =>
    rw [perform]
    dsimp only
    rw [sum_map_zero _ fun _ => rfl, sum_map_zero _ fun _ => rfl]
    rfl
  | scan index =>
    rw [perform]
    split
    · rfl
    · split
      · split <;> rfl
      · rfl

/-! ### What is listed -/

/-- A step that lists a connection has opened it, and found its lease live before it lists it. -/
def Todo.Backed (table : Table) : Todo → Prop
  | .checkLease conn _ => ∃ live, (conn, live) ∈ table.opened
  | .list conn slot => ⟨conn, slot⟩ ∈ table.checked
  | _ => True

/-- Only connections that were opened, and whose lease was found live then, are listed. -/
structure Table.Listed (table : Table) : Prop where
  listed : ∀ reservation ∈ table.reserved, reservation ∈ table.checked
  checked : ∀ reservation ∈ table.checked, ∃ live, (reservation.conn, live) ∈ table.opened

theorem perform_grows (leased gone : SlotId → Bool) (todo : Todo) (table : Table) :
    table.opened ⊆ (perform leased gone todo table).2.opened ∧
      table.checked ⊆ (perform leased gone todo table).2.checked := by
  cases todo with
  | takeIndex kind route slot =>
    rw [perform]
    cases table.indexes with
    | cons first rest => exact ⟨fun _ => id, fun _ => id⟩
    | nil =>
      dsimp only
      split <;> exact ⟨fun _ => id, fun _ => id⟩
  | openEntry index kind route slot =>
    rw [perform]
    split
    · exact ⟨fun _ => id, fun _ => id⟩
    · split
      · exact ⟨fun _ => id, fun _ => id⟩
      · exact ⟨List.subset_append_left _ _, fun _ => id⟩
  | checkLease conn slot =>
    rw [perform]
    split
    · exact ⟨fun _ => id, List.subset_append_left _ _⟩
    · exact ⟨fun _ => id, fun _ => id⟩
  | close id orDrop =>
    rw [perform]
    split <;> exact ⟨fun _ member => member, fun _ member => member⟩
  | probe conn =>
    rw [perform]
    split <;> exact ⟨fun _ => id, fun _ => id⟩
  | scan index =>
    rw [perform]
    split
    · exact ⟨fun _ => id, fun _ => id⟩
    · split
      · split <;> exact ⟨fun _ => id, fun _ => id⟩
      · exact ⟨fun _ => id, fun _ => id⟩
  | list _ _ | count | pushIndex _ | peek _ | read _ | retain _ | subtract _ | sweep _
  | collect _ | scanAll => exact ⟨fun _ => id, fun _ => id⟩

theorem Todo.Backed.grows (backed : todo.Backed table) (opened : table.opened ⊆ next.opened)
    (checked : table.checked ⊆ next.checked) : todo.Backed next := by
  cases todo with
  | checkLease conn slot =>
    obtain ⟨live, member⟩ := backed
    exact ⟨live, opened member⟩
  | list conn slot => exact checked backed
  | takeIndex _ _ _ | openEntry _ _ _ _ | close _ _ | probe _ | scan _ | count | pushIndex _
  | peek _ | read _ | retain _ | subtract _ | sweep _ | collect _ | scanAll => trivial

theorem perform_backed {leased gone : SlotId → Bool} {todo : Todo} {table : Table}
    (backed : todo.Backed table) (listed : table.Listed) :
    (∀ next ∈ (perform leased gone todo table).1, next.Backed (perform leased gone todo table).2) ∧
      (perform leased gone todo table).2.Listed := by
  have same : ∀ {next : Table}, next.reserved = table.reserved → next.checked = table.checked →
      table.opened ⊆ next.opened → next.Listed := by
    intro next reserved checked opened
    refine ⟨?_, fun reservation member => ?_⟩
    · rw [reserved, checked]
      exact listed.listed
    · rw [checked] at member
      obtain ⟨live, held⟩ := listed.checked reservation member
      exact ⟨live, opened held⟩
  have trivially : ∀ {next : Table} {Item : Type} (items : List Item) (make : Item → Todo),
      (∀ item, (make item).Backed next) → ∀ todo ∈ items.map make, todo.Backed next := by
    intro next Item items make each todo member
    obtain ⟨item, -, rfl⟩ := List.mem_map.mp member
    exact each item
  cases todo with
  | takeIndex kind route slot =>
    rw [perform]
    cases table.indexes with
    | cons first rest =>
      exact ⟨List.forall_mem_singleton.mpr trivial, same rfl rfl fun _ member => member⟩
    | nil =>
      dsimp only
      split
      · exact ⟨List.forall_mem_singleton.mpr trivial, same rfl rfl fun _ member => member⟩
      · exact ⟨nofun, listed⟩
  | openEntry index kind route slot =>
    rw [perform]
    split
    · exact ⟨nofun, listed⟩
    · split
      · exact ⟨List.forall_mem_singleton.mpr trivial, listed⟩
      · refine ⟨List.forall_mem_singleton.mpr ?_, same rfl rfl (List.subset_append_left _ _)⟩
        exact ⟨_, List.mem_append_right _ (List.mem_singleton_self _)⟩
  | checkLease conn slot =>
    rw [perform]
    split
    · refine ⟨List.forall_mem_singleton.mpr ?_, fun reservation member => ?_,
        fun reservation member => ?_⟩
      · exact List.mem_append_right _ (List.mem_singleton_self _)
      · exact List.mem_append_left _ (listed.listed reservation member)
      · rcases List.mem_append.mp member with old | new
        · exact listed.checked reservation old
        · rw [List.mem_singleton.mp new]
          exact backed
    · exact ⟨List.forall_mem_singleton.mpr trivial, listed⟩
  | list conn slot =>
    refine ⟨List.forall_mem_singleton.mpr trivial, fun reservation member => ?_, listed.checked⟩
    rcases List.mem_append.mp member with old | new
    · exact listed.listed reservation old
    · rw [List.mem_singleton.mp new]
      exact backed
  | count => exact ⟨nofun, listed.listed, listed.checked⟩
  | pushIndex index => exact ⟨nofun, listed.listed, listed.checked⟩
  | peek id =>
    rw [perform]
    split
    · exact ⟨List.forall_mem_singleton.mpr trivial, listed⟩
    · exact ⟨nofun, listed⟩
  | read id => exact ⟨nofun, listed⟩
  | close id orDrop =>
    rw [perform]
    split
    · refine ⟨fun next member => ?_, listed⟩
      split at member
      · rw [List.mem_singleton.mp member]
        trivial
      · cases member
    · refine ⟨fun next member => ?_, same rfl rfl fun _ member => member⟩
      rcases List.mem_cons.mp member with rfl | member
      · trivial
      · rcases List.mem_cons.mp member with rfl | member
        · trivial
        · split at member
          · rw [List.mem_singleton.mp member]
            trivial
          · cases member
  | probe conn =>
    rw [perform]
    unfold drops
    split
    · exact ⟨nofun, listed⟩
    · split
      · exact ⟨nofun, listed⟩
      · exact ⟨List.forall_mem_singleton.mpr trivial, listed⟩
  | retain conn =>
    refine ⟨List.forall_mem_singleton.mpr trivial, fun reservation member => ?_, listed.checked⟩
    exact listed.listed reservation (List.mem_filter.mp member).1
  | subtract dropped => exact ⟨nofun, listed.listed, listed.checked⟩
  | sweep every =>
    rw [perform]
    split
    · exact ⟨nofun, listed⟩
    · exact ⟨List.forall_mem_singleton.mpr trivial, listed⟩
  | collect every =>
    rw [perform]
    exact ⟨trivially _ _ fun _ => trivial, listed⟩
  | scanAll =>
    rw [perform]
    generalize (List.finRange 65536).filter _ = indexes
    exact ⟨trivially indexes _ fun _ => trivial, listed⟩
  | scan index =>
    rw [perform]
    split
    · exact ⟨nofun, listed⟩
    · split
      · split
        · exact ⟨nofun, listed⟩
        · exact ⟨List.forall_mem_singleton.mpr trivial, listed⟩
      · exact ⟨nofun, listed⟩

/-! ### Runs -/

/-- What holds between any two steps of any threads. -/
structure System.Sound (system : System) : Prop where
  places : ∀ index, system.table.places index + pending (holding index) system.threads =
    system.table.grew index
  kept : system.table.Kept
  counts : system.table.reservations + UInt64.ofNat (pending counting system.threads) =
    UInt64.ofNat system.table.reserved.length +
      UInt64.ofNat (pending subtracting system.threads)
  listed : system.table.Listed
  backed : ∀ todos ∈ system.threads, ∀ todo ∈ todos, todo.Backed system.table

theorem System.Sound.ready {system : System} (sound : system.Sound)
    (found : system.threads[thread]? = some (todo :: rest)) : todo.Ready system.table := by
  cases todo with
  | openEntry index kind route slot =>
    have places := sound.places index
    have held := weight_le_pending found (holding index)
    rw [show holding index (.openEntry index kind route slot) = 1 from if_pos rfl] at held
    unfold Table.places Table.grew at places
    by_cases grown : index.val < system.table.grown
    · refine ⟨grown, ?_⟩
      rw [decide_eq_true grown, Bool.toNat_true] at places
      by_contra isOpen
      rw [Bool.not_eq_false] at isOpen
      rw [isOpen, Bool.toNat_true] at places
      omega
    · rw [decide_eq_false grown, Bool.toNat_false] at places
      omega
  | takeIndex _ _ _ | checkLease _ _ | list _ _ | close _ _ | probe _ | scan _ | count
  | pushIndex _ | peek _ | read _ | retain _ | subtract _ | sweep _ | collect _ | scanAll => trivial

theorem System.Sound.step {system : System} (sound : system.Sound) (move : Move) :
    (system.step move).Sound := by
  cases move with
  | lease leased => exact ⟨sound.places, sound.kept, sound.counts, sound.listed, sound.backed⟩
  | begin operation =>
    have nothing : ∀ weight ∈ [counting, subtracting], (operation.steps.map weight).sum = 0 := by
      intro weight member
      rcases List.mem_cons.mp member with rfl | member
      · cases operation <;> rfl
      · rw [List.mem_singleton.mp member]
        cases operation <;> rfl
    refine ⟨fun index => ?_, sound.kept, ?_, sound.listed, fun todos member => ?_⟩
    · have nowhere : (operation.steps.map (holding index)).sum = 0 := by
        cases operation <;> rfl
      change _ + pending _ (system.threads ++ [operation.steps]) = _
      rw [pending_concat, nowhere]
      exact sound.places index
    · change _ + UInt64.ofNat (pending _ (system.threads ++ [operation.steps])) =
        _ + UInt64.ofNat (pending _ (system.threads ++ [operation.steps]))
      rw [pending_concat, pending_concat, nothing counting (by simp), nothing subtracting (by simp)]
      exact sound.counts
    · rcases List.mem_append.mp member with old | new
      · exact sound.backed todos old
      · rw [List.mem_singleton.mp new]
        intro todo inside
        cases operation <;> simp only [Operation.steps, List.mem_cons, List.not_mem_nil, or_false]
          at inside
        all_goals first
          | (rw [inside]; trivial)
          | (rcases inside with rfl | rfl <;> trivial)
  | run thread gone =>
    unfold System.step
    dsimp only
    split
    · rename_i todo rest found
      have ready := sound.ready found
      have mine : ∀ step ∈ todo :: rest, step.Backed system.table :=
        sound.backed _ (List.mem_of_getElem? found)
      obtain ⟨grownOpened, grownChecked⟩ := perform_grows system.leased gone todo system.table
      obtain ⟨backed, listed⟩ := @perform_backed system.leased gone todo system.table
        (mine todo List.mem_cons_self) sound.listed
      refine ⟨fun index => ?_, sound.kept.perform ready, ?_, listed, fun todos member => ?_⟩
      · have moved := @perform_places system.leased gone todo system.table ready index
        have edited := pending_set found (perform system.leased gone todo system.table).1
          (holding index)
        have before := sound.places index
        dsimp only
        omega
      · have moved := perform_counts system.leased gone todo system.table
        have counted := congrArg UInt64.ofNat (pending_set found
          (perform system.leased gone todo system.table).1 counting)
        have subtracted := congrArg UInt64.ofNat (pending_set found
          (perform system.leased gone todo system.table).1 subtracting)
        have before := sound.counts
        rw [UInt64.ofNat_add, UInt64.ofNat_add] at counted subtracted
        dsimp only
        grind
      · rcases List.mem_or_eq_of_mem_set member with old | rfl
        · exact fun step inside =>
            (sound.backed todos old step inside).grows grownOpened grownChecked
        · intro step inside
          rcases List.mem_append.mp inside with new | old
          · exact backed step new
          · exact (mine step (List.mem_cons_of_mem _ old)).grows grownOpened grownChecked
    · exact sound

theorem sound_new (worker : Fin 128) : (System.new worker).Sound := by
  refine ⟨fun index => rfl, ⟨nofun, nofun, nofun, fun index => rfl, nofun, nofun, fun conn => ?_⟩,
    rfl, ⟨nofun, nofun⟩, nofun⟩
  have isNot : ¬(System.new worker).table.Current conn := fun current => nomatch current.1
  rw [decide_eq_false isNot]
  rfl

theorem System.Sound.run (worker : Fin 128) (moves : List Move) :
    (System.run worker moves).Sound := by
  have steps : ∀ (moves : List Move) (system : System), system.Sound →
      (moves.foldl System.step system).Sound := by
    intro moves
    induction moves with
    | nil => exact fun system sound => sound
    | cons move moves inductionHypothesis =>
      exact fun system sound => inductionHypothesis _ (sound.step move)
  exact steps moves _ (sound_new worker)

/-! ### Ids are single-use -/

theorem Table.Kept.nodup (kept : table.Kept) : table.opened.Nodup := by
  rw [List.nodup_iff_getElem?_ne_getElem?]
  intro first second early inside same
  have found := List.getElem?_eq_getElem inside
  have firstNumber := kept.outboxes first _ (same.trans found)
  have secondNumber := kept.outboxes second _ found
  omega

theorem Table.Kept.count_le (kept : table.Kept) (conn : SlotId × Live) :
    table.opened.count conn ≤ 1 := List.nodup_iff_count_le_one.mp kept.nodup conn

/-- A connection that was closed is not held, and one that was opened is closed or held. -/
theorem Table.Kept.held_iff (kept : table.Kept) (opened : conn ∈ table.opened) :
    conn ∉ table.closed ↔ table.Current conn := by
  have returned := kept.returned conn
  rw [List.count_eq_one_of_mem kept.nodup opened] at returned
  constructor
  · intro open_
    rw [List.count_eq_zero_of_not_mem open_] at returned
    by_contra isNot
    rw [decide_eq_false isNot] at returned
    cases returned
  · intro current closed
    have some_ := List.count_pos_iff.mpr closed
    rw [decide_eq_true current, Bool.toNat_true] at returned
    omega

/-- The connections of a table are told apart by their ids, each is returned by one close, and an
entry is on one list at most. -/
structure SingleUse (system : System) : Prop where
  distinct : ∀ first ∈ system.table.opened, ∀ second ∈ system.table.opened,
    first ∉ system.table.closed → second ∉ system.table.closed → first.1 = second.1 → first = second
  resolves : ∀ id live, system.table.find id = some live →
    (id, live) ∈ system.table.opened ∧ (id, live) ∉ system.table.closed
  wrapped : ∀ id before live, (id, before) ∈ system.table.closed →
    system.table.find id = some live → ∃ first second : Nat,
      (system.table.opens id.index)[first]? = some (id, before) ∧
      (system.table.opens id.index)[second]? = some (id, live) ∧ first + (2 ^ 30 - 1) ≤ second
  once : system.table.closed.Nodup ∧ system.table.closed ⊆ system.table.opened ∧
    ∀ conn ∈ system.table.opened, conn ∈ system.table.closed ∨
      system.table.find conn.1 = some conn.2
  free : system.table.indexes.Nodup ∧
    ∀ index ∈ system.table.indexes, (system.table.entries index).isOpen = false
  listed : ∀ reservation ∈ system.table.reserved, reservation ∈ system.table.checked ∧
    ∃ live, (reservation.conn, live) ∈ system.table.opened
  counted : system.Quiet →
    system.table.reservations = UInt64.ofNat system.table.reserved.length
  generation : ∀ conn ∈ system.table.opened, conn.1.generation ≠ 0

/-- In every run of any operations by any threads, an id names one connection at a time, and one
that was closed not again before its generation wraps. -/
theorem table_singleUse (worker : Fin 128) (moves : List Move) :
    SingleUse (System.run worker moves) := by
  have sound := System.Sound.run worker moves
  generalize System.run worker moves = system at sound
  have kept := sound.kept
  have closedOpened : system.table.closed ⊆ system.table.opened := by
    intro conn member
    have returned := kept.returned conn
    have some_ := List.count_pos_iff.mpr member
    exact List.count_pos_iff.mp (by omega)
  have onList : ∀ index, system.table.indexes.count index +
      (system.table.entries index).isOpen.toNat ≤ 1 := by
    intro index
    have places := sound.places index
    have bound := Bool.toNat_le (decide (index.val < system.table.grown))
    unfold Table.places Table.grew at places
    omega
  refine ⟨fun first firstOpened second secondOpened firstHeld secondHeld same => ?_,
    fun id live found => ?_, fun id before live closed found => ?_,
    ⟨?_, closedOpened, fun conn opened => ?_⟩, ⟨?_, fun index member => ?_⟩,
    fun reservation member => ?_, fun quiet => ?_, fun conn opened => ?_⟩
  · have firstLast := ((kept.held_iff firstOpened).mp firstHeld).2
    have secondLast := ((kept.held_iff secondOpened).mp secondHeld).2
    rw [same, secondLast] at firstLast
    exact (Option.some.inj firstLast).symm
  · have current := kept.find_iff.mp found
    have opened := (mem_opens.mp (List.mem_of_getLast? current.2)).1
    exact ⟨opened, (kept.held_iff opened).mpr current⟩
  · have current := kept.find_iff.mp found
    obtain ⟨first, firstAt⟩ := List.mem_iff_getElem?.mp
      (mem_opens.mpr ⟨closedOpened closed, rfl⟩ : (id, before) ∈ system.table.opens id.index)
    have last := current.2
    dsimp only at last
    rw [List.getLast?_eq_getElem?] at last
    refine ⟨first, _, firstAt, last, turn_apart ?_ ?_⟩
    · have inside := (List.getElem?_eq_some_iff.mp firstAt).1
      refine Nat.lt_of_le_of_ne (by omega) fun same => ?_
      rw [same, last] at firstAt
      rw [Option.some.inj firstAt] at current
      exact (kept.held_iff (closedOpened closed)).mpr current closed
    · rw [← kept.turns _ _ _ firstAt, ← kept.turns _ _ _ last]
  · refine List.nodup_iff_count_le_one.mpr fun conn => ?_
    have returned := kept.returned conn
    have bound := kept.count_le conn
    omega
  · by_cases closed : conn ∈ system.table.closed
    · exact .inl closed
    · exact .inr (kept.find_iff.mpr ((kept.held_iff opened).mp closed))
  · refine List.nodup_iff_count_le_one.mpr fun index => ?_
    have bound := onList index
    omega
  · have bound := onList index
    have some_ := List.count_pos_iff.mpr member
    by_contra isOpen
    rw [Bool.not_eq_false] at isOpen
    rw [isOpen, Bool.toNat_true] at bound
    omega
  · have checked := sound.listed.listed reservation member
    exact ⟨checked, sound.listed.checked reservation checked⟩
  · have counts := sound.counts
    rw [pending_quiet quiet, pending_quiet quiet] at counts
    simpa using counts
  · obtain ⟨place, found⟩ := List.mem_iff_getElem?.mp
      (mem_opens.mpr ⟨opened, rfl⟩ : conn ∈ system.table.opens conn.1.index)
    have turns := kept.turns _ _ _ found
    intro zero
    rw [zero] at turns
    unfold turn at turns
    rw [if_neg (Nat.succ_ne_zero _)] at turns
    exact absurd turns.symm (Nat.succ_ne_zero _)

/-- A connection stays on the list after its lease has ended. -/
theorem listed_after_lease : ¬ ∀ (worker : Fin 128) (moves : List Move),
    ∀ reservation ∈ (System.run worker moves).table.reserved,
      (System.run worker moves).leased reservation.slot = true := by
  intro always
  have wrong := always 0 [.lease fun _ => true, .begin (.reserve .eventStream 0 ⟨0, 1, 0⟩),
    .run 0 fun _ => false, .run 0 fun _ => false, .run 0 fun _ => false, .run 0 fun _ => false,
    .run 0 fun _ => false, .lease fun _ => false] ⟨⟨0, 1, 0⟩, ⟨0, 1, 0⟩⟩
    (List.mem_singleton_self _)
  cases wrong

end ZeroServer.Realtime

/-
This file proves what goes over the wire: the responses leave in the order their requests were
taken in, each one whole and once, with an interim response only in front of the response it
belongs to. What is being written is fixed from the moment it is planned: no move touches a
response of the write in progress, so the slices of every later write are the bytes still owed.
-/

import ZeroServer.Http.Written

namespace ZeroServer.Http

open Http1

/-! ### Slices -/

variable {writing : Writing}

namespace Conn

theorem flatten_advanceSlices (slices : List Bytes) (skipped : Nat) :
    (advanceSlices slices skipped).flatten = slices.flatten.drop skipped := by
  induction slices generalizing skipped with
  | nil =>
    rw [advanceSlices, List.flatten_nil, List.drop_nil]
  | cons slice rest inductionHypothesis =>
    unfold advanceSlices
    split
    · rename_i whole
      rw [inductionHypothesis, List.flatten_cons, List.drop_append, List.drop_eq_nil_of_le whole,
        List.nil_append]
    · rename_i part
      rw [List.flatten_cons, List.flatten_cons, List.drop_append_of_le_length (by omega)]

/-- The slices of the responses are their bytes. -/
theorem flatten_responseSlices (ring : Ring Charged) (left : Nat) {index : Nat}
    (inside : index + left ≤ ring.len)
    (held : ∀ entry ∈ (ring.contents.drop index).take left, entry.record.isSome = true) :
    (responseSlices ring left index).flatten =
        blockBytes (responseBlocks (ring.contents.drop index) left) ∧
      (responseSlices ring left index).length ≤ 2 * left := by
  induction left generalizing index with
  | zero => exact ⟨rfl, Nat.le_refl _⟩
  | succ left inductionHypothesis =>
    obtain ⟨entry, found⟩ : ∃ entry, ring.contents[index]? = some entry :=
      ⟨_, List.getElem?_eq_getElem (by rw [Lib.RingBuffer.length_contents]; omega)⟩
    have rest : ring.contents.drop index = entry :: ring.contents.drop (index + 1) := by
      obtain ⟨here, rfl⟩ := List.getElem?_eq_some_iff.mp found
      exact List.drop_eq_getElem_cons here
    rw [rest, List.take_succ_cons, List.forall_mem_cons] at held
    obtain ⟨record, holds⟩ := Option.isSome_iff_exists.mp held.1
    obtain ⟨bytes, few⟩ := inductionHypothesis (by omega) held.2
    have block : entry.block = some (.response entry.serial record) := by
      unfold Entry.block
      rw [holds]
      rfl
    have there : recordAt ring index = some record := by
      unfold recordAt
      rw [ring.entry_position (by omega), found, Option.bind_some, holds]
    unfold responseSlices
    rw [there]
    dsimp only
    unfold responseBlocks at bytes ⊢
    rw [rest, List.take_succ_cons, List.filterMap_cons_some block]
    refine ⟨?_, ?_⟩
    · change _ = record.responseBytes ++ blockBytes _
      rw [← bytes]
      unfold Record.responseBytes
      split <;> simp
    · split <;> simp only [List.length_cons, List.length_append, List.length_nil] <;> omega

/-- The bytes handed to a write are the part of it still owed. -/
theorem flatten_fillSlices {ring : Ring Charged} (fits : writing.count ≤ ring.len)
    (held : ∀ entry ∈ ring.contents.take writing.count, entry.record.isSome = true) {bytes : Bytes}
    (total : (if writing.continues then continueBlock else []) ++
      blockBytes (responseBlocks ring.contents writing.count) = bytes)
    (owed : writing.written < bytes.length ∨ writing.written = 0) :
    (fillSlices ring writing).flatten = bytes.drop writing.written := by
  obtain ⟨flat, few⟩ := @flatten_responseSlices ring writing.count 0 (by omega) held
  rw [List.drop_zero] at flat
  have all : ((((if writing.continues then [continueBlock] else []) ++
      responseSlices ring writing.count 0).filter fun slice => !slice.isEmpty).take
        slices).flatten = bytes := by
    rw [List.take_of_length_le, List.flatten_filter_not_isEmpty, List.flatten_append, flat, ← total]
    · split <;> simp
    · refine Nat.le_trans (List.length_filter_le _ _) ?_
      have bound := ring.len_le
      unfold slices
      rw [List.length_append]
      split <;> simp only [List.length_cons, List.length_nil] <;> omega
  unfold fillSlices
  dsimp only
  rw [all]
  split
  · rw [flatten_advanceSlices, all]
  · rename_i past
    rcases owed with part | none_
    · exact absurd part past
    · rw [all, none_, List.drop_zero]

end Conn

/-! ### What moves leave of a queue -/

variable {entries : List Entry} {change : Entry → Entry}

variable {index : Nat}

/-- An edit that does not reach the first `count` entries, or that leaves the response of an
entry as it is, leaves their responses as they are. -/
theorem responseBlocks_modify {count : Nat}
    (outside : count ≤ index ∨ ∀ entry, (change entry).block = entry.block) :
    responseBlocks (entries.modify index change) count = responseBlocks entries count := by
  unfold responseBlocks
  rcases outside with beyond | same
  · rw [Lib.take_modify beyond]
  · rcases found : entries[index]? with - | entry
    · rw [List.modify_eq_set_getElem?, found]
      rfl
    · by_cases inside : index < count
      · have here : (entries.take count)[index]? = some entry := by
          rw [List.getElem?_take, if_pos inside, found]
        have taken : (entries.modify index change).take count =
            (entries.take count).modify index change := by
          refine List.ext_getElem? fun place => ?_
          rw [List.getElem?_take, List.getElem?_modify, List.getElem?_modify, List.getElem?_take]
          split <;> rfl
        rw [taken, Lib.modify_eq_append here]
        conv => rhs; rw [Lib.eq_append_of_getElem? here]
        rw [List.filterMap_append, List.filterMap_append, List.filterMap_cons, List.filterMap_cons,
          same]
      · rw [Lib.take_modify (Nat.le_of_not_lt inside)]

/-- The entries of a queue are entries of an earlier one, and owe an interim response only where
those did, or they are new. -/
def Descends (earlier later : List Entry) (fresh : Nat) : Prop :=
  ∀ entry ∈ later, (∃ old ∈ earlier, old.serial = entry.serial ∧
    (Conn.owes entry = true → Conn.owes old = true)) ∨ fresh ≤ entry.serial

variable {entry : Entry}

namespace Descends

theorem refl (entries : List Entry) (fresh : Nat) : Descends entries entries fresh :=
  fun entry member => .inl ⟨entry, member, rfl, id⟩

theorem trans {first second third : List Entry} {fresh newer : Nat}
    (descends : Descends first second fresh) (again : Descends second third newer)
    (later : fresh ≤ newer) : Descends first third fresh := by
  intro entry member
  rcases again entry member with ⟨old, held, serial, owed⟩ | new
  · rcases descends old held with ⟨older, listed, same, owing⟩ | new
    · exact .inl ⟨older, listed, same.trans serial, fun owes => owing (owed owes)⟩
    · exact .inr (serial ▸ new)
  · exact .inr (Nat.le_trans later new)

theorem modify (found : entries[index]? = some entry)
    (serial : (change entry).serial = entry.serial)
    (owed : Conn.owes (change entry) = true → Conn.owes entry = true) (fresh : Nat) :
    Descends entries (entries.modify index change) fresh := by
  refine Lib.forall_mem_modify (fun other member => .inl ⟨other, member, rfl, id⟩) found ?_
  exact .inl ⟨entry, List.mem_of_getElem? found, serial.symm, owed⟩

theorem concat (entries : List Entry) {fresh : Nat} (new : fresh ≤ entry.serial) :
    Descends entries (entries ++ [entry]) fresh := by
  intro other member
  rcases List.mem_append.mp member with old | isNew
  · exact .inl ⟨other, old, rfl, id⟩
  · rw [List.mem_singleton.mp isNew]
    exact .inr new

theorem sublist {left : List Entry} (sub : left.Sublist entries) (fresh : Nat) :
    Descends entries left fresh :=
  fun entry member => .inl ⟨entry, sub.subset member, rfl, id⟩

end Descends

theorem Stage.fed.owes {stage : Stage} {maxBody : Nat} (fed : stage.fed maxBody)
    (here : entry.stage = stage) : Conn.owes entry = false := by
  unfold Conn.owes
  rw [here]
  rcases fed with rfl | ⟨framing, rfl⟩ <;> rfl

variable {conn next : Conn}

namespace Conn

theorem owes_continuedEntry (entry : Entry) : owes (continuedEntry entry) = false := by
  unfold owes continuedEntry
  rcases entry.stage with ⟨framing, pending, maxBody⟩ | - | - | - <;> rfl

/-- What a move does to the queue as far as the wire is concerned. -/
structure Keeps (conn next : Conn) : Prop where
  writing : next.writing = conn.writing
  head : next.ring.head = conn.ring.head
  pushed : conn.ring.pushed ≤ next.ring.pushed
  descends : Descends conn.ring.contents next.ring.contents conn.ring.pushed
  blocks : ∀ writing, conn.writing = some writing →
    responseBlocks next.ring.contents writing.count =
      responseBlocks conn.ring.contents writing.count

namespace Keeps

variable {conn next : Conn}

theorem congr (ring : next.ring.contents = conn.ring.contents)
    (head : next.ring.head = conn.ring.head) (pushed : next.ring.pushed = conn.ring.pushed)
    (writing : next.writing = conn.writing) : conn.Keeps next := by
  refine ⟨writing, head, Nat.le_of_eq pushed.symm, ?_, fun _ _ => by rw [ring]⟩
  rw [ring]
  exact .refl _ _

theorem edited (found : conn.ring.contents[index]? = some entry)
    (edited : conn.ring.Edited next.ring index change) (writing : next.writing = conn.writing)
    (serial : (change entry).serial = entry.serial)
    (owed : owes (change entry) = true → owes entry = true)
    (outside : conn.Beyond index ∨ ∀ entry, (change entry).block = entry.block) :
    conn.Keeps next := by
  refine ⟨writing, edited.head, Nat.le_of_eq edited.pushed.symm, ?_, fun batch planned => ?_⟩
  · rw [edited.contents]
    exact .modify found serial owed _
  · rw [edited.contents]
    exact responseBlocks_modify (outside.imp_left fun beyond => beyond batch planned)

theorem grown (wf : conn.Wf) (grown : conn.ring.Grown next.ring entry)
    (writing : next.writing = conn.writing) : conn.Keeps next := by
  refine ⟨writing, grown.head, by rw [grown.pushed]; exact Nat.le_succ _, ?_, fun batch planned => ?_⟩
  · rw [grown.contents]
    exact .concat _ (Nat.le_refl _)
  · unfold responseBlocks
    rw [grown.contents, Lib.take_concat (wf.batch batch planned).1]

theorem trans {third : Conn} (keeps : conn.Keeps next) (again : next.Keeps third) :
    conn.Keeps third := by
  refine ⟨again.writing.trans keeps.writing, again.head.trans keeps.head,
    Nat.le_trans keeps.pushed again.pushed, keeps.descends.trans again.descends keeps.pushed, fun batch planned => ?_⟩
  rw [again.blocks batch (keeps.writing.trans planned), keeps.blocks batch planned]

end Keeps

/-- No move touches a response that is being written. -/
theorem Move.keeps (move : conn.Move next) (wf : conn.Wf) : conn.Keeps next := by
  cases move with
  | restamp found idle now edited =>
    exact .edited found edited rfl rfl id (.inr fun _ => rfl)
  | enlist opened same charge body parsed reads fits now requests used close grown =>
    exact .grown wf grown rfl
  | refuse opened same charge body closes now requests grown => exact .grown wf grown rfl
  | overdue reading idle same charge body closes now grown => exact .grown wf grown rfl
  | reclose closed idle queue beyond done held edited =>
    exact .edited (Lib.getElem?_of_concat queue) edited rfl rfl id (.inl beyond)
  | discard queue beyond left head cleared returned holds =>
    refine ⟨rfl, head, Nat.le_of_eq cleared.pushed.symm, ?_, fun batch planned => ?_⟩
    · rw [left, queue]
      exact .sublist (List.sublist_append_left _ _) _
    · unfold responseBlocks
      rw [left, queue, Lib.take_concat (beyond batch planned)]
  | fail queue open_ closes charge body idle edited =>
    have found := Lib.getElem?_of_concat queue
    exact .edited found edited rfl rfl (fun owed => by cases owed) (.inl (wf.beyond found open_))
  | feed queue idle reading held fed share fits now edited =>
    have found := Lib.getElem?_of_concat queue
    refine .edited found edited rfl rfl (fun owed => ?_)
      (.inl (wf.beyond found (by rw [reading]; simp)))
    rw [fed.owes rfl] at owed
    cases owed
  | frame queue idle reading held fed fits trailers now edited =>
    have found := Lib.getElem?_of_concat queue
    refine .edited found edited rfl rfl (fun owed => ?_)
      (.inl (wf.beyond found (by rw [reading]; simp)))
    rw [fed.owes rfl] at owed
    cases owed
  | start found waiting held runs idle sound edited =>
    exact .edited found edited rfl rfl (fun owed => by cases owed)
      (.inl (wf.beyond found (by rw [waiting]; simp)))
  | finish took found here answer edited =>
    have running := wf.running_of_completed took found here
    exact .edited found edited rfl rfl (fun owed => by cases owed)
      (.inl (wf.beyond found (by rw [running]; simp)))
  | work works => cases works <;> exact .congr rfl rfl rfl rfl
  | _ => exact .congr rfl rfl rfl rfl

theorem Moves.keeps (moves : conn.Moves next) (wf : conn.Wf) : conn.Keeps next := by
  induction moves with
  | refl => exact .congr rfl rfl rfl rfl
  | tail moves move inductionHypothesis =>
    exact inductionHypothesis.trans (move.keeps (Moves.wf moves wf))

end Conn

/-! ### What is out and what follows it -/

/-- Blocks that are out come before what the queue has still to send. -/
structure Conn.Follows (conn : Conn) (sent : List Block) : Prop where
  known : ∀ block ∈ sent, block.key < 2 * conn.ring.pushed
  before : ∀ block ∈ sent, ∀ entry ∈ conn.ring.contents,
    block.key ≤ 2 * entry.serial ∧ (Conn.owes entry = true → block.key < 2 * entry.serial)

namespace Conn.Follows

variable {conn next : Conn} {sent : List Block}

theorem descends (follows : conn.Follows sent) (pushed : conn.ring.pushed ≤ next.ring.pushed)
    (descends : Descends conn.ring.contents next.ring.contents conn.ring.pushed) :
    next.Follows sent := by
  refine ⟨fun block out => ?_, fun block out entry member => ?_⟩
  · have known := follows.known block out
    omega
  · rcases descends entry member with ⟨old, listed, serial, owed⟩ | new
    · obtain ⟨early, first⟩ := follows.before block out old listed
      rw [← serial]
      exact ⟨early, fun owes => first (owed owes)⟩
    · have known := follows.known block out
      exact ⟨by omega, fun _ => by omega⟩

theorem keeps (follows : conn.Follows sent) (keeps : conn.Keeps next) : next.Follows sent :=
  follows.descends keeps.pushed keeps.descends

end Conn.Follows

/-- The keys of the responses a write is made of, in order and behind what is out. -/
theorem responseBlocks_ordered (pairwise : entries.Pairwise Entry.Before) (count : Nat) :
    (responseBlocks entries count).Pairwise fun first second =>
      first.key < second.key := by
  unfold responseBlocks
  refine List.Pairwise.filterMap _ ?_ (pairwise.sublist (List.take_sublist _ _))
  intro first second before block here other there
  unfold Entry.block at here there
  obtain ⟨record, -, rfl⟩ := Option.map_eq_some_iff.mp here
  obtain ⟨later, -, rfl⟩ := Option.map_eq_some_iff.mp there
  have := before.serial
  change 2 * first.serial + 1 < 2 * second.serial + 1
  omega

theorem mem_responseBlocks {count : Nat} {block : Block}
    (member : block ∈ responseBlocks entries count) :
    ∃ index entry, index < count ∧ entries[index]? = some entry ∧
      block.key = 2 * entry.serial + 1 := by
  unfold responseBlocks at member
  obtain ⟨entry, taken, here⟩ := List.mem_filterMap.mp member
  obtain ⟨index, found⟩ := List.mem_iff_getElem?.mp taken
  rw [List.getElem?_take] at found
  split at found
  · rename_i inside
    unfold Entry.block at here
    obtain ⟨record, -, rfl⟩ := Option.map_eq_some_iff.mp here
    exact ⟨index, entry, inside, found, rfl⟩
  · cases found

namespace Driver

/-- The wire carries whole blocks and the written part of the write in progress. -/
structure Streams (driver : Driver) : Prop where
  wire : driver.wire = blockBytes driver.sent ++
    (blockBytes driver.batch).take (driver.conn.writing.elim 0 Writing.written)
  ordered : (driver.sent ++ driver.batch).Pairwise fun first second => first.key < second.key
  unwritten : driver.conn.writing = none → driver.batch = []

/-- What the write in progress is, and what follows it. -/
structure Flows (driver : Driver) : Prop extends Streams driver where
  total : ∀ writing, driver.conn.writing = some writing →
    writing.total = (blockBytes driver.batch).length ∧
      (writing.written < writing.total ∨ writing.written = 0)
  interim : ∀ writing, driver.conn.writing = some writing → writing.continues = true →
    writing.count = 0 ∧ ∃ serial, driver.batch = [.interim serial] ∧
      serial < driver.conn.ring.pushed ∧ ∀ entry ∈ driver.conn.ring.contents, serial ≤ entry.serial
  responses : ∀ writing, driver.conn.writing = some writing → writing.continues = false →
    driver.batch = responseBlocks driver.conn.ring.contents writing.count
  follows : driver.conn.Follows driver.sent

namespace Flows

variable {driver : Driver}

theorem keeps (flows : driver.Flows) (keeps : driver.conn.Keeps conn) (phase : Phase) :
    Flows { driver with conn := conn, phase := phase } := by
  refine ⟨⟨?_, flows.ordered, ?_⟩, ?_, ?_, ?_, flows.follows.keeps keeps⟩
  · dsimp only
    rw [keeps.writing]
    exact flows.wire
  · dsimp only
    rw [keeps.writing]
    exact flows.unwritten
  · dsimp only
    rw [keeps.writing]
    exact flows.total
  · intro writing planned continues
    dsimp only at planned ⊢
    rw [keeps.writing] at planned
    obtain ⟨none_, serial, batch, known, first⟩ := flows.interim writing planned continues
    refine ⟨none_, serial, batch, Nat.lt_of_lt_of_le known keeps.pushed, fun entry member => ?_⟩
    rcases keeps.descends entry member with ⟨old, listed, same, -⟩ | new
    · rw [← same]
      exact first old listed
    · omega
  · intro writing planned plain
    dsimp only at planned ⊢
    rw [keeps.writing] at planned
    rw [flows.responses writing planned plain, keeps.blocks writing planned]

/-- The bytes handed to the next write are the part of the batch still owed. -/
theorem toWrite_eq (flows : driver.Flows) (wf : driver.conn.Wf)
    (planned : driver.conn.writing = some writing) :
    driver.conn.toWrite = (blockBytes driver.batch).drop writing.written := by
  obtain ⟨fits, done⟩ := wf.batch writing planned
  obtain ⟨total, owed⟩ := flows.total writing planned
  unfold Conn.toWrite
  rw [planned, Option.elim_some]
  refine Conn.flatten_fillSlices ?_ ?_ ?_ ?_
  · rw [← Lib.RingBuffer.length_contents]
    exact fits
  · intro entry member
    refine (wf.ok entry (List.mem_of_mem_take member)).record.mpr ?_
    rw [done entry member]
    simp
  · rcases continues : writing.continues with - | -
    · rw [flows.responses writing planned continues]
      rfl
    · obtain ⟨none_, serial, batch, -, -⟩ := flows.interim writing planned continues
      rw [none_, batch]
      rfl
  · rw [← total]
    exact owed

end Flows

variable {driver : Driver}

/-- Planning a write where none is in progress. -/
theorem Flows.plan (flows : driver.Flows) (wf : driver.conn.Wf) {now : Nat}
    (planned : driver.conn.Planned now next) (phase : Phase) :
    Flows { driver with
      conn := next, phase := phase
      batch := if driver.conn.writing.isSome then driver.batch else next.planned } := by
  rcases planned with result | ⟨unwritten, positive, fits, done, result⟩ |
    ⟨unwritten, queue, owed, result⟩
  · have same : (if driver.conn.writing.isSome then driver.batch else next.planned) =
        driver.batch := by
      rcases writing : driver.conn.writing with - | writing
      · rw [result, flows.unwritten writing]
        unfold Conn.planned
        rw [writing]
        rfl
      · rfl
    rw [same, result]
    exact flows.keeps (.congr rfl rfl rfl rfl) phase
  · rename_i count
    have batch : (if driver.conn.writing.isSome then driver.batch else next.planned) =
        responseBlocks driver.conn.ring.contents count := by
      rw [unwritten, result]
      rfl
    rw [batch, result]
    have nothing := flows.unwritten unwritten
    have wire := flows.wire
    rw [nothing, unwritten] at wire
    refine ⟨⟨wire, ?_, fun none_ => by cases none_⟩, ?_, ?_, ?_,
      ⟨flows.follows.known, flows.follows.before⟩⟩
    · have ordered := flows.ordered
      rw [nothing, List.append_nil] at ordered
      refine List.pairwise_append.mpr ⟨ordered, responseBlocks_ordered wf.before count, ?_⟩
      intro block out response member
      obtain ⟨index, entry, -, found, key⟩ := mem_responseBlocks member
      have := (flows.follows.before block out entry (List.mem_of_getElem? found)).1
      omega
    · intro writing same
      cases same
      exact ⟨rfl, .inr rfl⟩
    · intro writing same continues
      cases same
      cases continues
    · intro writing same _
      cases same
      rfl
  · rename_i entry items
    have batch : (if driver.conn.writing.isSome then driver.batch else next.planned) =
        [.interim entry.serial] := by
      rw [unwritten, result]
      unfold Conn.planned
      dsimp only
      rw [Ring.first_eq, queue]
      rfl
    have member : entry ∈ driver.conn.ring.contents := by rw [queue]; exact List.mem_cons_self
    rw [batch, result]
    have nothing := flows.unwritten unwritten
    have wire := flows.wire
    rw [nothing, unwritten] at wire
    refine ⟨⟨wire, ?_, fun none_ => by cases none_⟩, ?_, ?_, ?_,
      ⟨flows.follows.known, flows.follows.before⟩⟩
    · have ordered := flows.ordered
      rw [nothing, List.append_nil] at ordered
      refine Lib.pairwise_concat.mpr ⟨ordered, fun block out => ?_⟩
      exact (flows.follows.before block out entry member).2 owed
    · intro writing same
      cases same
      exact ⟨rfl, .inr rfl⟩
    · intro writing same _
      cases same
      refine ⟨rfl, entry.serial, rfl, wf.pushed entry member, fun other there => ?_⟩
      have before := wf.before
      rw [queue, List.pairwise_cons] at before
      rw [queue] at there
      rcases List.mem_cons.mp there with rfl | later
      · exact Nat.le_refl _
      · exact Nat.le_of_lt (before.1 other later).serial
    · intro writing same plain
      cases same
      cases plain

/-- The queue a whole write leaves is behind what the write put out. -/
theorem Flows.follows_written (flows : driver.Flows) (wf : driver.conn.Wf)
    (planned : driver.conn.writing = some writing)
    (contents : next.ring.contents = (driver.conn.continuedContents writing).drop writing.count)
    (pushed : next.ring.pushed = driver.conn.ring.pushed) :
    next.Follows (driver.sent ++ driver.batch) := by
  have contents' : Descends driver.conn.ring.contents (driver.conn.continuedContents writing)
      driver.conn.ring.pushed := by
    unfold Conn.continuedContents
    split
    · rcases found : driver.conn.ring.contents[0]? with - | entry
      · rw [List.modify_eq_set_getElem?, found]
        exact .refl _ _
      · refine .modify found rfl (fun owed => ?_) _
        rw [Conn.owes_continuedEntry] at owed
        cases owed
    · exact .refl _ _
  have old : next.Follows driver.sent := by
    refine flows.follows.descends (Nat.le_of_eq pushed.symm) ?_
    rw [contents]
    exact contents'.trans (.sublist (List.drop_sublist _ _) driver.conn.ring.pushed) (Nat.le_refl _)
  have new : next.Follows driver.batch := by
    rcases continues : writing.continues with - | -
    · have same : driver.conn.continuedContents writing = driver.conn.ring.contents := by
        unfold Conn.continuedContents
        rw [continues]
        rfl
      rw [flows.responses writing planned continues]
      refine ⟨fun block out => ?_, fun block out entry member => ?_⟩
      · obtain ⟨index, entry, -, found, key⟩ := mem_responseBlocks out
        have := wf.pushed entry (List.mem_of_getElem? found)
        omega
      · obtain ⟨index, sent, inside, found, key⟩ := mem_responseBlocks out
        rw [contents, same] at member
        obtain ⟨place, there⟩ := List.mem_iff_getElem?.mp member
        rw [List.getElem?_drop] at there
        have order : index < writing.count + place := by omega
        obtain ⟨insideFirst, rfl⟩ := List.getElem?_eq_some_iff.mp found
        obtain ⟨insideLater, rfl⟩ := List.getElem?_eq_some_iff.mp there
        have := (List.pairwise_iff_getElem.mp wf.before _ _ insideFirst insideLater order).serial
        exact ⟨by omega, fun _ => by omega⟩
    · obtain ⟨none_, serial, batch, known, first⟩ := flows.interim writing planned continues
      have same : driver.conn.continuedContents writing =
          driver.conn.ring.contents.modify 0 Conn.continuedEntry := by
        unfold Conn.continuedContents
        rw [continues]
        rfl
      rw [none_, same, List.drop_zero] at contents
      rw [batch]
      refine ⟨fun block out => ?_, fun block out entry member => ?_⟩
      · rw [List.mem_singleton.mp out, pushed]
        change 2 * serial < _
        omega
      · rw [List.mem_singleton.mp out]
        change 2 * serial ≤ _ ∧ (_ → 2 * serial < _)
        rcases queue : driver.conn.ring.contents with - | ⟨head, items⟩
        · rw [contents, queue] at member
          cases member
        · have before := wf.before
          rw [queue, List.pairwise_cons] at before
          have least := first head (by rw [queue]; exact List.mem_cons_self)
          rw [contents, queue] at member
          rcases List.mem_cons.mp member with rfl | later
          · refine ⟨Nat.mul_le_mul_left 2 least, fun owed => ?_⟩
            rw [Conn.owes_continuedEntry] at owed
            cases owed
          · have := (before.1 entry later).serial
            exact ⟨by omega, fun _ => by omega⟩
  refine ⟨fun block out => ?_, fun block out => ?_⟩
  · rcases List.mem_append.mp out with early | late
    · exact old.known block early
    · exact new.known block late
  · rcases List.mem_append.mp out with early | late
    · exact old.before block early
    · exact new.before block late

/-! ### Every run -/

theorem taken_of_unwritten (conn : Conn) {event : Event}
    (unwritten : ∀ count, event ≠ .wrote (count + 1)) : taken conn event = [] := by
  unfold taken
  split
  · rename_i count
    rcases count with - | count
    · rfl
    · exact absurd rfl (unwritten count)
  · rfl

/-- Waking up. -/
theorem Flows.wake (flows : driver.Flows) (wf : driver.conn.Wf) (idle : driver.conn.completed = [])
    (outcome : Nat → Option Record.Answer) (event : Event) (now : Nat)
    (admitted : admits driver.conn (driver.conn.pollRunning outcome) event) :
    (driver.wake outcome event now).Flows := by
  have still {conn : Conn} (keeps : driver.conn.Keeps conn) :
      (driver.conn.writing.isSome && conn.writing.isNone) = false := by
    rw [keeps.writing]
    cases driver.conn.writing <;> rfl
  unfold Driver.wake
  dsimp only
  rcases Conn.wake_reaction wf idle outcome event now with
    ⟨unwritten, settles⟩ | ⟨reported, settles, result⟩ | ⟨reported, settles, result⟩
  · have keeps := settles.moves.keeps wf
    rw [still keeps, taken_of_unwritten _ unwritten, List.append_nil]
    exact flows.keeps keeps .turning
  · have keeps := (settles.moves.keeps wf).trans
      (Conn.Keeps.congr (congrArg (·.ring.contents) result) (congrArg (·.ring.head) result)
        (congrArg (·.ring.pushed) result) (congrArg (·.writing) result))
    rw [still keeps, taken_of_unwritten _ (by rw [reported]; simp), List.append_nil]
    exact flows.keeps keeps .turning
  · rename_i count drained
    have keeps := settles.moves.keeps wf
    have drainedWf := settles.wf wf
    subst reported
    obtain ⟨owing, few⟩ := admitted
    rw [result]
    rcases planned : driver.conn.writing with - | writing
    · unfold Conn.toWrite at owing
      rw [planned] at owing
      exact absurd rfl owing
    have toWrite := flows.toWrite_eq wf planned
    obtain ⟨total, owed⟩ := flows.total writing planned
    rw [toWrite, List.length_drop, ← total] at few
    have wire := flows.wire
    rw [planned, Option.elim_some] at wire
    have now_planned : drained.writing = some writing := keeps.writing.trans planned
    have moved := flows.keeps keeps .turning
    by_cases part : writing.written + (count + 1) < writing.total
    · rw [Conn.wrote_part now_planned part]
      refine ⟨⟨?_, flows.ordered, fun none_ => by cases none_⟩, ?_, ?_, ?_,
        ⟨moved.follows.known, moved.follows.before⟩⟩
      · dsimp only [taken, Option.isSome_some, Option.isNone_some, Bool.and_false, Option.elim_some]
        rw [toWrite, wire, List.append_assoc, ← List.take_add]
        rfl
      · intro batch same
        cases same
        exact ⟨total, .inl part⟩
      · intro batch same continues
        cases same
        exact moved.interim writing now_planned continues
      · intro batch same plain
        cases same
        exact moved.responses writing now_planned plain
    · have last : writing.written + (count + 1) = writing.total := by omega
      obtain ⟨ring, shared, taken_, poppedWf, ended, contents, -, -, pushed, -, -, -⟩ :=
        Conn.wrote_whole drainedWf settles.idle now_planned (Nat.le_of_not_lt part) now
      have rest := ended.moves.keeps poppedWf
      have none_ : (drained.wrote (count + 1) now).writing = none := rest.writing
      rw [none_]
      dsimp only [taken, Option.isSome_some, Option.isNone_none, Bool.and_true, if_true]
      have follows : Conn.Follows { drained with
          sentAt := now, writing := none, ring := ring, shared := shared, taken := taken_ }
          (driver.sent ++ driver.batch) :=
        moved.follows_written drainedWf now_planned contents pushed
      refine ⟨⟨?_, ?_, fun _ => rfl⟩, ?_, ?_, ?_, follows.keeps rest⟩
      · dsimp only
        rw [none_, toWrite, wire, List.append_assoc, ← List.take_add, last, total,
          List.take_length, ← blockBytes_append]
        exact (List.append_nil _).symm
      · change (driver.sent ++ driver.batch ++ []).Pairwise _
        rw [List.append_nil]
        exact flows.ordered
      · intro batch same
        rw [none_] at same
        cases same
      · intro batch same
        rw [none_] at same
        cases same
      · intro batch same
        rw [none_] at same
        cases same

/-- What holds of every driver: the stream while the connection is open and after it ended. -/
structure Streaming (driver : Driver) : Prop where
  streams : driver.Streams
  flows : driver.phase ≠ .ended → driver.Flows

theorem writing_finish (conn : Conn) : conn.finish.writing = conn.writing := by
  have dropped (future : Option Charged) (other : Conn) :
      (other.dropFuture future).writing = other.writing := by cases future <;> rfl
  have back (other : Conn) : other.discardBack.writing = other.writing := by
    unfold Conn.discardBack
    rcases other.ring.popBack with ⟨- | entry, future, ring⟩
    · exact dropped future _
    · exact dropped future _
  have times (count : Nat) (other : Conn) :
      (Conn.discardTimes count other).writing = other.writing := by
    induction count generalizing other with
    | zero => rfl
    | succ count inductionHypothesis =>
      unfold Conn.discardTimes
      rw [inductionHypothesis, back]
  unfold Conn.finish
  dsimp only
  split <;> exact times _ _

theorem Step.streaming {next : Driver} (step : Step driver next) (sane : driver.Sane)
    (streaming : driver.Streaming) : next.Streaming := by
  have live {other : Driver} (flows : other.Flows) : other.Streaming :=
    ⟨flows.toStreams, fun _ => flows⟩
  cases step with
  | turn phase now later =>
    obtain ⟨wf, idle⟩ := sane (by rw [phase]; simp)
    obtain ⟨mid, settles, ticked⟩ := Conn.tick_eq wf idle now later
    have keeps := settles.moves.keeps wf
    have moved := (streaming.flows (by rw [phase]; simp)).keeps keeps .waiting
    have planned := moved.plan (settles.wf wf) (mid.planWrite_planned later) .waiting
    dsimp only at planned
    rw [keeps.writing] at planned
    unfold Driver.turn
    dsimp only
    rw [ticked]
    split
    · refine ⟨⟨?_, planned.ordered, ?_⟩, fun going => absurd rfl going⟩
      · dsimp only
        rw [writing_finish]
        exact planned.wire
      · dsimp only
        rw [writing_finish]
        exact planned.unwritten
    · exact live planned
  | wake phase outcome event now admitted =>
    obtain ⟨wf, idle⟩ := sane (by rw [phase]; simp)
    exact live ((streaming.flows (by rw [phase]; simp)).wake wf idle outcome event now admitted)
  | work phase works =>
    obtain ⟨wf, idle⟩ := sane (by rw [phase]; simp)
    exact live ((streaming.flows (by rw [phase]; simp)).keeps ((Conn.Move.work works).keeps wf) _)
  | exports phase runs =>
    obtain ⟨wf, idle⟩ := sane (by rw [phase]; simp)
    exact live ((streaming.flows (by rw [phase]; simp)).keeps ((Conn.Move.exports runs).keeps wf) _)
  | core kin =>
    rename_i shared
    have keeps : driver.conn.Keeps { driver.conn with shared := shared } := .congr rfl rfl rfl rfl
    exact ⟨⟨streaming.streams.wire, streaming.streams.ordered, streaming.streams.unwritten⟩,
      fun going => (streaming.flows going).keeps keeps driver.phase⟩

theorem new_streaming (shared : Shared) (authorities : Option (List Bytes)) (now : Nat) :
    (new shared authorities now).Streaming := by
  have streams : (new shared authorities now).Streams := ⟨rfl, .nil, fun _ => rfl⟩
  refine ⟨streams, fun _ => ⟨streams, ?_, ?_, ?_, ?_, ?_⟩⟩
  · intro writing planned
    cases planned
  · intro writing planned
    cases planned
  · intro writing planned
    cases planned
  · intro block out
    cases out
  · intro block out
    cases out

theorem Reachable.streaming (reachable : Reachable driver) : driver.Streaming := by
  obtain ⟨shared, authorities, now, run⟩ := reachable
  have every : driver.Sane ∧ driver.Streaming := by
    induction run with
    | refl => exact ⟨new_sane shared authorities now, new_streaming shared authorities now⟩
    | tail _ step inductionHypothesis =>
      exact ⟨step.sane inductionHypothesis.1,
        step.streaming inductionHypothesis.1 inductionHypothesis.2⟩
  exact every.2

/-- The bytes the responses of some requests put on the wire. -/
def responseTotal (entries : List Entry) : Nat :=
  (entries.map fun entry => entry.record.elim 0 responseLen).sum

theorem length_responseBlocks (entries : List Entry) (count : Nat) :
    (blockBytes (responseBlocks entries count)).length = responseTotal (entries.take count) := by
  unfold responseBlocks responseTotal
  induction entries.take count with
  | nil => rfl
  | cons entry rest inductionHypothesis =>
    rw [List.map_cons, List.sum_cons, ← inductionHypothesis]
    rcases held : entry.record with - | record
    · rw [List.filterMap_cons_none (by unfold Entry.block; rw [held]; rfl)]
      exact (Nat.zero_add _).symm
    · rw [List.filterMap_cons_some (b := .response entry.serial record)
        (by unfold Entry.block; rw [held]; rfl)]
      change (record.responseBytes ++ blockBytes _).length = responseLen record + _
      rw [List.length_append, length_responseBytes]

/-- What one step does to the stream: the write in progress stays what it is and nothing leaves
the front of the queue, or the last byte of it is out and exactly its requests leave the
front. -/
inductive Progress (driver next : Driver) : Prop
  | stays (sent : next.sent = driver.sent)
      (batch : ∀ writing, driver.conn.writing = some writing → next.batch = driver.batch ∧
        ∃ later, next.conn.writing = some later ∧ later.count = writing.count ∧
          later.continues = writing.continues ∧ later.total = writing.total ∧
          writing.written ≤ later.written)
      (head : next.phase ≠ .ended → next.conn.ring.head = driver.conn.ring.head)
  | whole {writing : Writing} (planned : driver.conn.writing = some writing)
      (sent : next.sent = driver.sent ++ driver.batch) (batch : next.batch = [])
      (done : next.conn.writing = none)
      (head : next.conn.ring.head = driver.conn.ring.position writing.count)

theorem Progress.kept (keeps : driver.conn.Keeps conn) (phase : Phase) (wire : Bytes) :
    Progress driver { driver with conn := conn, phase := phase, wire := wire } :=
  .stays rfl (fun writing planned => ⟨rfl, writing, keeps.writing.trans planned, rfl, rfl, rfl,
    Nat.le_refl _⟩) fun _ => keeps.head

theorem Step.progress {next : Driver} (step : Step driver next) (sane : driver.Sane) :
    Progress driver next := by
  cases step with
  | turn phase now later =>
    obtain ⟨wf, idle⟩ := sane (by rw [phase]; simp)
    obtain ⟨mid, settles, ticked⟩ := Conn.tick_eq wf idle now later
    have keeps := settles.moves.keeps wf
    have kept (writing : Writing) (planned : driver.conn.writing = some writing) :
        (mid.planWrite later).writing = some writing := by
      have same : mid.writing = some writing := keeps.writing.trans planned
      unfold Conn.planWrite
      rw [same]
      exact same
    have head : (mid.planWrite later).ring.head = driver.conn.ring.head := by
      rcases mid.planWrite_planned later with result | ⟨-, -, -, -, result⟩ | ⟨-, -, -, result⟩
      all_goals
        rw [result]
        exact keeps.head
    unfold Driver.turn
    dsimp only
    rw [ticked]
    split
    · refine .stays rfl (fun writing planned => ⟨?_, writing, ?_, rfl, rfl, rfl, Nat.le_refl _⟩)
        fun going => absurd rfl going
      · dsimp only
        rw [planned]
        rfl
      · dsimp only
        rw [writing_finish]
        exact kept writing planned
    · refine .stays rfl (fun writing planned => ⟨?_, writing, kept writing planned, rfl, rfl, rfl,
        Nat.le_refl _⟩) fun _ => head
      dsimp only
      rw [planned]
      rfl
  | wake phase outcome event now admitted =>
    obtain ⟨wf, idle⟩ := sane (by rw [phase]; simp)
    have still {conn : Conn} (keeps : driver.conn.Keeps conn) :
        (driver.conn.writing.isSome && conn.writing.isNone) = false := by
      rw [keeps.writing]
      cases driver.conn.writing <;> rfl
    unfold Driver.wake
    dsimp only
    rcases Conn.wake_reaction wf idle outcome event now with
      ⟨-, settles⟩ | ⟨-, settles, result⟩ | ⟨-, settles, result⟩
    · have keeps := settles.moves.keeps wf
      rw [still keeps]
      exact .kept keeps .turning _
    · have keeps := (settles.moves.keeps wf).trans
        (Conn.Keeps.congr (congrArg (·.ring.contents) result) (congrArg (·.ring.head) result)
          (congrArg (·.ring.pushed) result) (congrArg (·.writing) result))
      rw [still keeps]
      exact .kept keeps .turning _
    · rename_i count drained
      have keeps := settles.moves.keeps wf
      rw [result]
      rcases planned : drained.writing with - | writing
      · have same : drained.wrote (count + 1) now = drained := by
          unfold Conn.wrote
          rw [planned]
        have before := keeps.writing.symm.trans planned
        rw [same, planned, before]
        refine .stays rfl (fun writing held => ?_) fun _ => keeps.head
        rw [before] at held
        cases held
      have before := keeps.writing.symm.trans planned
      by_cases part : writing.written + (count + 1) < writing.total
      · rw [Conn.wrote_part planned part, before]
        refine .stays rfl (fun batch held => ?_) fun _ => keeps.head
        rw [before] at held
        cases held
        exact ⟨rfl, _, rfl, rfl, rfl, rfl, Nat.le_add_right _ _⟩
      · obtain ⟨ring, shared, taken_, poppedWf, ended, -, position, -⟩ :=
          Conn.wrote_whole (settles.wf wf) settles.idle planned (Nat.le_of_not_lt part) now
        have rest := ended.moves.keeps poppedWf
        have none_ : (drained.wrote (count + 1) now).writing = none := rest.writing
        rw [none_, before]
        refine .whole before rfl rfl none_ ?_
        have first := position 0
        rw [Lib.RingBuffer.position_zero, Nat.zero_add, Ring.position_of_head keeps.head] at first
        exact rest.head.trans first
  | work phase works =>
    obtain ⟨wf, idle⟩ := sane (by rw [phase]; simp)
    exact .kept ((Conn.Move.work works).keeps wf) _ _
  | exports phase runs =>
    obtain ⟨wf, idle⟩ := sane (by rw [phase]; simp)
    exact .kept ((Conn.Move.exports runs).keeps wf) _ _
  | core kin =>
    rename_i shared
    have keeps : driver.conn.Keeps { driver.conn with shared := shared } :=
      .congr rfl rfl rfl rfl
    exact .kept keeps _ _

/-- Responses leave in request order, whole and once. In every state a connection can reach the
wire carries the blocks that are out and the written part of the batch, each block once and in
request order, an interim response right before its final one; the batch is the interim response
the head owes or the responses of the first entries, all done; its length is the total of the
write, and the bytes handed to the next write are the rest of it. No step changes the batch of
a write in progress, and what leaves the front of the queue is what the write was made of. -/
theorem responses_in_order {driver : Driver} (reachable : Reachable driver) :
    driver.wire = blockBytes driver.sent ++
        (blockBytes driver.batch).take (driver.conn.writing.elim 0 Writing.written) ∧
      (driver.sent ++ driver.batch).Pairwise (fun first second => first.key < second.key) ∧
      (driver.phase ≠ .ended → ∀ writing, driver.conn.writing = some writing →
        writing.total = (if writing.continues then continueBlock.length else 0) +
            responseTotal (driver.conn.ring.contents.take writing.count) ∧
          writing.total = (blockBytes driver.batch).length ∧
          writing.count ≤ driver.conn.ring.len ∧
          (∀ entry ∈ driver.conn.ring.contents.take writing.count,
            entry.stage = .done ∧ entry.record.isSome = true) ∧
          (if writing.continues then writing.count = 0 ∧ ∃ serial, driver.batch = [.interim serial]
            else driver.batch = responseBlocks driver.conn.ring.contents writing.count) ∧
          driver.conn.toWrite = (blockBytes driver.batch).drop writing.written ∧
          driver.conn.toWrite.length = writing.total - writing.written) ∧
      (driver.phase ≠ .ended → ∀ block ∈ driver.sent, ∀ entry ∈ driver.conn.ring.contents,
        block.key < 2 * entry.serial + 1) ∧
      ∀ next, Step driver next → Progress driver next := by
  have sane := reachable.sane
  have streaming := reachable.streaming
  refine ⟨streaming.streams.wire, streaming.streams.ordered, fun going writing planned => ?_,
    fun going block out entry member => ?_, fun next step => step.progress sane⟩
  · obtain ⟨wf, -⟩ := sane going
    have flows := streaming.flows going
    obtain ⟨total, -⟩ := flows.total writing planned
    obtain ⟨fits, done⟩ := wf.batch writing planned
    have toWrite := flows.toWrite_eq wf planned
    refine ⟨?_, total, ?_, fun entry member => ⟨done entry member, ?_⟩, ?_, toWrite, ?_⟩
    · rw [total, ← length_responseBlocks]
      rcases continues : writing.continues with - | -
      · rw [flows.responses writing planned continues]
        exact (Nat.zero_add _).symm
      · obtain ⟨none_, serial, batch, -, -⟩ := flows.interim writing planned continues
        rw [batch, none_]
        rfl
    · rw [← Lib.RingBuffer.length_contents]
      exact fits
    · refine (wf.ok entry (List.mem_of_mem_take member)).record.mpr ?_
      rw [done entry member]
      simp
    · rcases continues : writing.continues with - | -
      · exact flows.responses writing planned continues
      · obtain ⟨none_, serial, batch, -, -⟩ := flows.interim writing planned continues
        exact ⟨none_, serial, batch⟩
    · rw [toWrite, List.length_drop, total]
  · have := ((streaming.flows going).follows.before block out entry member).1
    omega

/-- The answer to a malformed request line is in the batch. -/
theorem responses_in_order_bad_request :
    let driver := readPlain (ascii "x\r\n\r\n")
    driver.conn.writing.map Writing.count = some 1 ∧
      (driver.sent ++ driver.batch).Pairwise (fun first second => first.key < second.key) :=
  ⟨by decide +kernel, (responses_in_order (readPlain_reachable _)).2.1⟩

/-- While a `100 Continue` is being written the total is not the sum over the first entries: the
write covers none of them. -/
theorem interim_total_not_responses :
    ¬ ∀ driver, Reachable driver → driver.phase ≠ .ended → ∀ writing,
      driver.conn.writing = some writing →
        writing.total = responseTotal (driver.conn.ring.contents.take writing.count) := by
  intro every
  have total := every (readPlain (ascii
    "POST / HTTP/1.1\r\nHost: h\r\nExpect: 100-continue\r\nContent-Length: 1\r\n\r\n"))
    (readPlain_reachable _) (by decide +kernel) ⟨0, true, 0, 25⟩ (by decide +kernel)
  rw [List.take_zero] at total
  cases total

end Driver

end ZeroServer.Http

/-
This file proves that the request-memory accounting is exact. The count of buffered bytes is what
the requests in flight, the running handlers and the completed responses hold, whatever the
driver does; no bounded counter meets its bound as long as what was read fits the address space;
and a buffered body keeps within the limit of its request.
-/

import ZeroServer.Http.Pipeline

namespace ZeroServer.Http

open Http1

/-! ### What a connection holds -/

/-- The charges the futures hold. -/
def futureCharge (futures : List (Option Charged)) : Nat := (futures.map heldCharge).sum

namespace Conn

/-- The body bytes a connection holds on the count: in its entries, with its running handlers and
in its completed responses. -/
def weight (conn : Conn) : Nat :=
  (conn.ring.contents.map Entry.bodyBytes).sum + futureCharge conn.ring.futures +
    (conn.completed.map (·.2.charge)).sum

/-- The count is exact beside what others hold, no operation of it met a bound, and what was read
and is held is no more than a load that fits 64 bits. -/
structure Counted (others load : Nat) (conn : Conn) : Prop where
  bodies : conn.shared.bodies = others + conn.weight
  free : ∀ entry ∈ conn.ring.contents, recordCharge entry.record = 0
  taken : recordCharge conn.taken = 0
  unclipped : conn.shared.clipped = false
  room : conn.weight + conn.input.length ≤ load
  small : others + load < u64Size

/-- A body within the limit its request has. -/
def Fits (shared : Shared) (record : Record) : Prop :=
  record.body = [] ∨ ∃ head, record.parsed = some head ∧
    record.body.length ≤ bodyLimit shared record head

/-- A request in flight keeps within its limit, also with what its body still lacks. -/
structure EntryFits (shared : Shared) (entry : Entry) : Prop where
  fits : ∀ record, entry.record = some record → Fits shared record
  lacks : ∀ record framing pending maxBody, entry.record = some record →
    entry.stage = .body framing pending maxBody → ∃ head, record.parsed = some head ∧
      maxBody = bodyLimit shared record head ∧
      record.body.length + entry.stage.lacking ≤ maxBody

/-- Every body the connection holds is within the limit of its request. -/
structure Limited (conn : Conn) : Prop where
  entries : ∀ entry ∈ conn.ring.contents, EntryFits conn.shared entry
  futures : ∀ charged, some charged ∈ conn.ring.futures → Fits conn.shared charged.record
  completed : ∀ done ∈ conn.completed, Fits conn.shared done.2
  taken : ∀ record, conn.taken = some record → Fits conn.shared record

end Conn

/-! ### Counting -/

variable {entry : Entry}

variable {ring : Ring Charged}

variable {cleared : Ring Charged}

theorem futureCharge_set {futures : List (Option Charged)} {slot : Nat} {old : Option Charged}
    (found : futures[slot]? = some old) (new : Option Charged) :
    futureCharge (futures.set slot new) + heldCharge old =
      futureCharge futures + heldCharge new :=
  Lib.sum_set found new heldCharge

theorem futureCharge_append (futures : List (Option Charged)) (new : Option Charged) :
    futureCharge (futures ++ [new]) = futureCharge futures + heldCharge new := by
  unfold futureCharge
  rw [List.map_append, List.sum_append]
  simp

/-- Clearing a future takes its charge off the table. -/
theorem Ring.Cleared.charge (facts : ring.Cleared cleared entry) :
    futureCharge cleared.futures + heldCharge (ring.future entry) =
      futureCharge ring.futures := by
  rw [facts.futures]
  unfold Ring.future
  rcases entry.slot with - | slot
  · rfl
  · rw [Option.elim_some, Option.bind_some]
    rcases found : ring.futures[slot]? with - | old
    · rw [List.set_eq_of_length_le (List.getElem?_eq_none_iff.mp found)]
      rfl
    · exact futureCharge_set found none

namespace Conn

variable {others load : Nat} {conn next : Conn}

namespace Counted

/-- A move that only takes off the count what the connection no longer holds. -/
theorem returned (counted : conn.Counted others load) {amount : Nat}
    (uncounted : conn.shared.Uncounted next.shared amount)
    (weight : next.weight + amount = conn.weight)
    (free : ∀ entry ∈ next.ring.contents, recordCharge entry.record = 0)
    (taken : recordCharge next.taken = 0) (input : next.input.length ≤ conn.input.length) :
    next.Counted others load := by
  have bodies := counted.bodies
  have room := counted.room
  refine ⟨?_, free, taken, ?_, by omega, counted.small⟩
  · rw [uncounted.bodies]
    omega
  · rw [uncounted.clipped, counted.unclipped, Bool.false_or, decide_eq_false_iff_not]
    omega

/-- A move that changes nothing the count sees. -/
theorem congr (counted : conn.Counted others load) (bodies : next.shared.bodies = conn.shared.bodies)
    (clipped : next.shared.clipped = conn.shared.clipped) (weight : next.weight = conn.weight)
    (free : ∀ entry ∈ next.ring.contents, recordCharge entry.record = 0)
    (taken : next.taken = conn.taken) (input : next.input.length ≤ conn.input.length) :
    next.Counted others load := by
  have room := counted.room
  refine ⟨?_, free, ?_, ?_, ?_, counted.small⟩
  · rw [bodies, weight]
    exact counted.bodies
  · rw [taken]
    exact counted.taken
  · rw [clipped]
    exact counted.unclipped
  · rw [weight]
    omega

end Counted

theorem weight_congr (ring : (next.ring.contents.map Entry.bodyBytes).sum =
      (conn.ring.contents.map Entry.bodyBytes).sum)
    (futures : futureCharge next.ring.futures = futureCharge conn.ring.futures)
    (completed : next.completed = conn.completed) : next.weight = conn.weight := by
  unfold weight
  rw [ring, futures, completed]

variable {record : Record}

/-- A new request holds nothing yet. -/
theorem Counted.grown (counted : conn.Counted others load) {stage : Stage} {now : Nat}
    (grown : conn.ring.Grown next.ring (Entry.new record stage now))
    (same : conn.shared.Uncounted next.shared 0) (charge : record.charge = 0)
    (completed : next.completed = conn.completed) (taken : next.taken = conn.taken)
    (input : next.input.length ≤ conn.input.length) : next.Counted others load := by
  refine counted.returned same ?_ ?_ ?_ input
  · refine (Nat.add_zero _).trans (weight_congr ?_ (by rw [grown.futures]) completed)
    rw [grown.contents, List.map_append, List.sum_append]
    simp [Entry.new]
  · rw [grown.contents]
    intro entry member
    rcases List.mem_append.mp member with old | new
    · exact counted.free entry old
    · rw [List.mem_singleton.mp new]
      exact charge
  · rw [taken]
    exact counted.taken

theorem saturatingAdd_eq {left right : Nat} (room : left + right < u64Size) :
    saturatingAdd left right = left + right := by
  unfold saturatingAdd
  omega

variable {index : Nat} {change : Entry → Entry}

variable {after : Ring Charged}

/-- An edit of one entry that keeps its record free of charge. -/
theorem free_edited (free : ∀ entry ∈ ring.contents, recordCharge entry.record = 0)
    (found : ring.contents[index]? = some entry) (edited : ring.Edited after index change)
    (kept : recordCharge (change entry).record = 0) :
    ∀ entry ∈ after.contents, recordCharge entry.record = 0 := by
  rw [edited.contents]
  exact Lib.forall_mem_modify free found kept

theorem bodyBytes_edited (found : ring.contents[index]? = some entry)
    (edited : ring.Edited after index change) :
    (after.contents.map Entry.bodyBytes).sum + entry.bodyBytes =
      (ring.contents.map Entry.bodyBytes).sum + (change entry).bodyBytes := by
  rw [edited.contents]
  exact Lib.sum_modify found change Entry.bodyBytes

/-- An edit of one entry that leaves the count and what the entry holds alone. -/
theorem Counted.edited (counted : conn.Counted others load)
    (found : conn.ring.contents[index]? = some entry)
    (edited : conn.ring.Edited next.ring index change)
    (futures : next.ring.futures = conn.ring.futures)
    (bytes : (change entry).bodyBytes = entry.bodyBytes)
    (kept : recordCharge (change entry).record = 0) (shared : next.shared = conn.shared)
    (completed : next.completed = conn.completed) (taken : next.taken = conn.taken)
    (input : next.input.length ≤ conn.input.length) : next.Counted others load := by
  have sum := bodyBytes_edited found edited
  refine counted.congr (by rw [shared]) (by rw [shared]) ?_
    (free_edited counted.free found edited kept) taken input
  exact weight_congr (by omega) (by rw [futures]) completed

variable {shared : Shared}

theorem clipped_noteAdd {left right : Nat} (room : left + right < u64Size) :
    (shared.noteAdd left right).clipped = shared.clipped := by
  unfold Shared.noteAdd
  dsimp only
  rw [decide_eq_false (by omega), Bool.or_false]

variable {charged : Charged}

/-- An export takes the charge of the record with it. -/
theorem weight_exportRequest {slot : Nat} (runs : conn.ring.futures[slot]? = some (some charged)) :
    (conn.exportRequest slot charged).weight + charged.record.charge = conn.weight := by
  have replaced := futureCharge_set runs (some { charged with
    record := exportedRecord charged.record })
  change _ + charged.record.charge = _ + 0 at replaced
  change (conn.ring.contents.map Entry.bodyBytes).sum +
    futureCharge (conn.ring.futures.set slot _) + (conn.completed.map (·.2.charge)).sum + _ = _
  unfold weight
  omega

/-- Every move keeps the count exact. -/
theorem Move.counted (move : conn.Move next) (wf : conn.Wf) (counted : conn.Counted others load) :
    next.Counted others load := by
  have room := counted.room
  have small := counted.small
  have bodies := counted.bodies
  cases move with
  | aside => exact counted.congr rfl rfl rfl counted.free rfl (Nat.le_refl _)
  | clock => exact counted.congr rfl rfl rfl counted.free rfl (Nat.le_refl _)
  | lend same => exact counted.returned same rfl counted.free counted.taken (Nat.le_refl _)
  | skip count =>
    refine counted.congr rfl rfl rfl counted.free rfl ?_
    rw [List.length_drop]
    exact Nat.sub_le _ _
  | forget => exact counted.congr rfl rfl rfl counted.free rfl (Nat.le_refl _)
  | postpone => exact counted.congr rfl rfl rfl counted.free rfl (Nat.le_refl _)
  | restamp found idle now edited futures freeSlots =>
    have free := counted.free _ (List.mem_of_getElem? found)
    exact counted.edited found edited futures rfl free rfl rfl rfl (Nat.le_refl _)
  | await opened same =>
    exact counted.returned same rfl counted.free counted.taken (Nat.le_refl _)
  | enlist opened same charge body parsed reads fits now requests used close grown =>
    refine counted.grown grown same charge rfl rfl ?_
    rw [List.length_drop]
    exact Nat.sub_le _ _
  | refuse opened same charge body closes now requests grown =>
    exact counted.grown grown same charge rfl rfl (Nat.zero_le _)
  | overdue reading idle same charge body closes now grown =>
    exact counted.grown grown same charge rfl rfl (Nat.zero_le _)
  | shut => exact counted.congr rfl rfl rfl counted.free rfl (Nat.le_refl _)
  | seize => exact counted.congr rfl rfl rfl counted.free rfl (Nat.le_refl _)
  | reclose closed idle queue beyond done held edited futures freeSlots =>
    have found := Lib.getElem?_of_concat queue
    refine counted.edited found edited futures rfl ?_ rfl rfl rfl (Nat.le_refl _)
    have free := counted.free _ (List.mem_of_getElem? found)
    rw [held] at free
    exact (charge_serialize _ _ _).trans free
  | discard queue beyond left head cleared returned holds =>
    rename_i shared ring items entry
    have listed : entry ∈ conn.ring.contents := by rw [queue]; simp
    refine counted.returned returned ?_ (fun other member => ?_) counted.taken (Nat.le_refl _)
    · have charge := cleared.charge
      have free := counted.free entry listed
      unfold weight
      dsimp only
      rw [left, queue, List.map_append, List.sum_append]
      simp only [List.map_cons, List.map_nil, List.sum_cons, List.sum_nil]
      omega
    · rw [left] at member
      exact counted.free other (by rw [queue]; exact List.mem_append_left _ member)
  | fail queue open_ closes charge body idle edited cleared returned holds =>
    have found := Lib.getElem?_of_concat queue
    have sum := bodyBytes_edited found edited
    have free := counted.free _ (List.mem_of_getElem? found)
    refine counted.returned returned ?_ ?_ counted.taken (Nat.zero_le _)
    · have charges := cleared.charge
      unfold weight
      dsimp only at sum ⊢
      omega
    · exact free_edited counted.free found edited
        (charge.trans free)
  | feed queue idle reading held fed share fits now edited futures freeSlots =>
    rename_i ring items entry record framing pending maxBody used data stage
    have found := Lib.getElem?_of_concat queue
    have sum := bodyBytes_edited found edited
    have part := Lib.weight_le_sum found Entry.bodyBytes
    have free := counted.free entry (List.mem_of_getElem? found)
    have entryRoom : entry.bodyBytes + data.length < u64Size := by
      unfold weight at room
      omega
    have countRoom : conn.shared.bodies + data.length < u64Size := by omega
    dsimp only at sum
    rw [saturatingAdd_eq entryRoom] at sum
    have heavier : weight { conn with
        ring := ring
        shared := (conn.shared.noteAdd entry.bodyBytes data.length).countBody data.length
        input := conn.input.drop used } = conn.weight + data.length := by
      unfold weight
      dsimp only
      rw [futures]
      omega
    refine ⟨?_, ?_, counted.taken, ?_, ?_, small⟩
    · rw [heavier]
      change saturatingAdd conn.shared.bodies data.length = _
      rw [saturatingAdd_eq countRoom]
      omega
    · refine free_edited counted.free found edited ?_
      rw [held] at free
      exact free
    · change ((conn.shared.noteAdd entry.bodyBytes data.length).noteAdd conn.shared.bodies
        data.length).clipped = false
      rw [clipped_noteAdd countRoom, clipped_noteAdd entryRoom]
      exact counted.unclipped
    · rw [heavier]
      dsimp only
      omega
  | frame queue idle reading held fed fits trailers now edited futures freeSlots =>
    have found := Lib.getElem?_of_concat queue
    refine counted.edited found edited futures rfl ?_ rfl rfl rfl ?_
    · have free := counted.free _ (List.mem_of_getElem? found)
      rw [held] at free
      exact free
    · rw [List.length_drop]
      exact Nat.sub_le _ _
  | start found waiting held runs idle sound edited futures =>
    rename_i ring index slot entry record
    have sum := bodyBytes_edited found edited
    have part := Lib.weight_le_sum found Entry.bodyBytes
    have free := counted.free entry (List.mem_of_getElem? found)
    rw [held] at free
    change record.charge = 0 at free
    have fits : record.charge + entry.bodyBytes < u64Size := by
      unfold weight at room
      omega
    dsimp only at sum futures
    rw [saturatingAdd_eq fits] at futures
    have charged : futureCharge ring.futures = futureCharge conn.ring.futures +
        entry.bodyBytes := by
      rcases futures with ⟨set, vacant⟩ | appended
      · have replaced := futureCharge_set vacant
          (some ⟨{ record with charge := record.charge + entry.bodyBytes }, 0⟩)
        rw [← set] at replaced
        change _ + 0 = _ + (record.charge + entry.bodyBytes) at replaced
        omega
      · rw [appended, futureCharge_append]
        change _ + (record.charge + entry.bodyBytes) = _
        omega
    have same : weight { conn with
        ring := ring, shared := conn.shared.noteAdd record.charge entry.bodyBytes } =
          conn.weight := by
      unfold weight
      dsimp only
      omega
    refine counted.congr rfl (clipped_noteAdd fits) same ?_ rfl (Nat.le_refl _)
    exact free_edited counted.free found edited rfl
  | ready found running owned runs answer holds =>
    rename_i index slot entry charged
    refine counted.congr rfl rfl ?_ counted.free rfl (Nat.le_refl _)
    have emptied := futureCharge_set runs none
    unfold weight
    dsimp only
    rw [List.map_append, List.sum_append]
    change _ + _ + (_ + (charged.record.charge + 0)) = _
    change _ + charged.record.charge = _ + 0 at emptied
    omega
  | finish took found here answer edited cleared =>
    rename_i ring index position entry record rest closing
    have sum := bodyBytes_edited found edited
    have part := Lib.weight_le_sum found Entry.bodyBytes
    have listed : entry ∈ conn.ring.contents := List.mem_of_getElem? found
    have gone : conn.ring.future entry = none :=
      (wf.completed (position, record) (by rw [took]; simp) entry listed
        ((wf.places _ _ found).trans here)).2
    have charges := cleared.charge
    rw [gone] at charges
    change _ + 0 = _ at charges
    have took_sum : (conn.completed.map (·.2.charge)).sum =
        (rest.map (·.2.charge)).sum + record.charge := by
      rw [took, List.map_append, List.sum_append]
      simp
    have fits : entry.bodyBytes + record.charge < u64Size := by
      unfold weight at room
      omega
    dsimp only at sum
    rw [saturatingAdd_eq fits] at sum
    have same : weight { conn with
        ring := ring, completed := rest
        shared := conn.shared.noteAdd entry.bodyBytes record.charge } = conn.weight := by
      unfold weight
      dsimp only
      omega
    refine counted.congr rfl (clipped_noteAdd fits) same ?_ rfl (Nat.le_refl _)
    exact free_edited counted.free found edited rfl
  | strand took returned =>
    refine counted.returned returned ?_ counted.free counted.taken (Nat.le_refl _)
    unfold weight
    dsimp only
    rw [took, List.map_append, List.sum_append]
    simp only [List.map_cons, List.map_nil, List.sum_cons, List.sum_nil]
    omega
  | work works =>
    have same {slot : Nat} {charged : Charged} (held : Charged)
        (runs : conn.ring.futures[slot]? = some (some charged))
        (charge : held.record.charge = charged.record.charge) :
        futureCharge (conn.ring.futures.set slot (some held)) =
          futureCharge conn.ring.futures := by
      have replaced := futureCharge_set runs (some held)
      change _ + charged.record.charge = _ + held.record.charge at replaced
      omega
    cases works with
    | hold runs =>
      exact counted.congr rfl rfl (weight_congr rfl (same _ runs rfl) rfl) counted.free rfl
        (Nat.le_refl _)
    | unhold runs =>
      exact counted.congr rfl rfl (weight_congr rfl (same _ runs rfl) rfl) counted.free rfl
        (Nat.le_refl _)
    | passOn runs =>
      exact counted.congr rfl rfl (weight_congr rfl (same _ runs rfl) rfl) counted.free rfl
        (Nat.le_refl _)
    | release => exact counted.congr rfl rfl rfl counted.free rfl (Nat.le_refl _)
  | exports runs =>
    rename_i slot charged
    exact counted.returned (.uncountBody conn.shared charged.record.charge)
      (weight_exportRequest runs) counted.free counted.taken (Nat.le_refl _)

theorem Moves.counted (moves : conn.Moves next) (wf : conn.Wf) (counted : conn.Counted others load) :
    next.Counted others load := by
  induction moves with
  | refl => exact counted
  | tail moves move inductionHypothesis =>
    exact move.counted (Moves.wf moves wf) inductionHypothesis

/-! ### Body limits -/

variable {other : Shared}

theorem bodyLimit_kin (kin : Shared.Kin shared other) (record : Record) (head : Head) :
    bodyLimit other record head = bodyLimit shared record head := by
  unfold bodyLimit
  rw [kin.handler, kin.limits]

theorem Fits.kin (kin : Shared.Kin shared other) (fits : Fits shared record) :
    Fits other record := by
  refine fits.imp_right fun within => ?_
  obtain ⟨head, parsed, small⟩ := within
  refine ⟨head, parsed, ?_⟩
  rw [bodyLimit_kin kin]
  exact small

/-- Whether a body fits its request is a matter of the body, the head and its text. -/
theorem Fits.congr {other : Record} (fits : Fits shared record) (body : other.body = record.body)
    (head : other.head = record.head) (parsed : other.parsed = record.parsed) :
    Fits shared other := by
  rcases fits with empty | ⟨parsedHead, known, small⟩
  · exact .inl (body.trans empty)
  · refine .inr ⟨parsedHead, parsed.trans known, ?_⟩
    unfold bodyLimit at small ⊢
    rw [body, head]
    exact small

theorem EntryFits.kin (kin : Shared.Kin shared other) (fits : EntryFits shared entry) :
    EntryFits other entry := by
  refine ⟨fun record held => (fits.fits record held).kin kin, ?_⟩
  intro record framing pending maxBody held reading
  obtain ⟨head, parsed, limit, small⟩ := fits.lacks record framing pending maxBody held reading
  refine ⟨head, parsed, ?_, small⟩
  rw [bodyLimit_kin kin]
  exact limit

/-- An entry whose body is complete. -/
theorem EntryFits.read (read : entry.stage.isBody = false)
    (fits : ∀ record, entry.record = some record → Fits shared record) :
    EntryFits shared entry := by
  refine ⟨fits, fun record framing pending maxBody held reading => ?_⟩
  rw [reading] at read
  cases read

/-- A move that keeps what it does not bring in within its limits. -/
theorem Limited.changed (limited : conn.Limited) (kin : Shared.Kin conn.shared next.shared)
    (entries : ∀ entry ∈ next.ring.contents,
      entry ∈ conn.ring.contents ∨ EntryFits next.shared entry)
    (futures : ∀ charged, some charged ∈ next.ring.futures →
      some charged ∈ conn.ring.futures ∨ Fits next.shared charged.record)
    (completed : ∀ done ∈ next.completed, done ∈ conn.completed ∨ Fits next.shared done.2)
    (taken : next.taken = conn.taken) : next.Limited := by
  refine ⟨fun entry member => ?_, fun charged member => ?_, fun done member => ?_,
    fun record held => ?_⟩
  · rcases entries entry member with old | new
    · exact (limited.entries entry old).kin kin
    · exact new
  · rcases futures charged member with old | new
    · exact (limited.futures charged old).kin kin
    · exact new
  · rcases completed done member with old | new
    · exact (limited.completed done old).kin kin
    · exact new
  · rw [taken] at held
    exact (limited.taken record held).kin kin

/-- A move that changes no request, future or completed response. -/
theorem Limited.congr (limited : conn.Limited) (kin : Shared.Kin conn.shared next.shared)
    (entries : next.ring.contents = conn.ring.contents)
    (futures : next.ring.futures = conn.ring.futures) (completed : next.completed = conn.completed)
    (taken : next.taken = conn.taken) : next.Limited := by
  refine limited.changed kin ?_ ?_ ?_ taken
  · rw [entries]
    exact fun entry member => .inl member
  · rw [futures]
    exact fun charged member => .inl member
  · rw [completed]
    exact fun done member => .inl member

/-- A move that changes one entry. -/
theorem Limited.edited (limited : conn.Limited) (kin : Shared.Kin conn.shared next.shared)
    (found : conn.ring.contents[index]? = some entry)
    (edited : conn.ring.Edited next.ring index change) (fits : EntryFits next.shared (change entry))
    (futures : ∀ charged, some charged ∈ next.ring.futures →
      some charged ∈ conn.ring.futures ∨ Fits next.shared charged.record)
    (completed : ∀ done ∈ next.completed, done ∈ conn.completed ∨ Fits next.shared done.2)
    (taken : next.taken = conn.taken) : next.Limited := by
  refine limited.changed kin ?_ futures completed taken
  rw [edited.contents]
  exact Lib.forall_mem_modify (fun other member => .inl member) found (.inr fits)

/-- A move that adds a request. -/
theorem Limited.grown (limited : conn.Limited) (kin : Shared.Kin conn.shared next.shared)
    (grown : conn.ring.Grown next.ring entry) (fits : EntryFits next.shared entry)
    (completed : next.completed = conn.completed) (taken : next.taken = conn.taken) :
    next.Limited := by
  refine limited.changed kin ?_ ?_ ?_ taken
  · rw [grown.contents]
    intro other member
    rcases List.mem_append.mp member with old | new
    · exact .inl old
    · rw [List.mem_singleton.mp new]
      exact .inr ⟨fits.fits, fits.lacks⟩
  · rw [grown.futures]
    exact fun charged member => .inl member
  · rw [completed]
    exact fun done member => .inl member

theorem Cleared.mem_futures (facts : ring.Cleared cleared entry)
    (member : some charged ∈ cleared.futures) : some charged ∈ ring.futures := by
  rw [facts.futures] at member
  rcases slot : entry.slot with - | slot
  · rw [slot] at member
    exact member
  · rw [slot] at member
    rcases List.mem_or_eq_of_mem_set member with old | new
    · exact old
    · cases new

/-- Every move keeps the bodies within their limits. -/
theorem Move.limited (move : conn.Move next) (limited : conn.Limited) : next.Limited := by
  have unchanged (done : Nat × Record) (member : done ∈ conn.completed) :
      done ∈ conn.completed ∨ Fits next.shared done.2 := .inl member
  cases move with
  | lend same => exact limited.congr same.kin rfl rfl rfl rfl
  | restamp found idle now edited futures freeSlots =>
    have fits := limited.entries _ (List.mem_of_getElem? found)
    refine limited.edited (.refl _) found edited ⟨fits.fits, fits.lacks⟩ ?_ unchanged rfl
    rw [futures]
    exact fun charged member => .inl member
  | await opened same => exact limited.congr same.kin rfl rfl rfl rfl
  | enlist opened same charge body parsed reads fits now requests used close grown =>
    rename_i shared ring record head stage
    refine limited.grown same.kin grown ⟨?_, ?_⟩ rfl rfl
    · intro other held
      cases held
      exact .inl body
    · intro other framing pending maxBody held reading
      cases held
      change stage = _ at reading
      refine ⟨head, parsed, ?_, ?_⟩
      · rcases reads with waiting | ⟨_, _, stage_eq⟩
        · rw [waiting] at reading
          cases reading
        · rw [stage_eq] at reading
          cases reading
          rfl
      · rw [body]
        rcases reads with waiting | ⟨_, _, stage_eq⟩
        · rw [waiting] at reading
          cases reading
        · rw [stage_eq] at reading
          cases reading
          exact (Nat.zero_add _).trans_le fits
  | refuse opened same charge body closes now requests grown =>
    refine limited.grown same.kin grown (.read rfl fun record held => ?_) rfl rfl
    cases held
    exact .inl body
  | overdue reading idle same charge body closes now grown =>
    refine limited.grown same.kin grown (.read rfl fun record held => ?_) rfl rfl
    cases held
    exact .inl body
  | reclose closed idle queue beyond done held edited futures freeSlots =>
    have found := Lib.getElem?_of_concat queue
    refine limited.edited (.refl _) found edited (.read ?_ fun record new => ?_) ?_ unchanged rfl
    · dsimp only
      rw [done]
      rfl
    · cases new
      exact ((limited.entries _ (List.mem_of_getElem? found)).fits _ held).congr
        (body_serialize _ _ _) (head_serialize _ _ _) (parsed_serialize _ _ _)
    · rw [futures]
      exact fun charged member => .inl member
  | discard queue beyond left head cleared returned holds =>
    refine limited.changed returned.kin ?_ ?_ unchanged rfl
    · rw [left, queue]
      exact fun entry member => .inl (List.mem_append_left _ member)
    · exact fun charged member => .inl (Cleared.mem_futures cleared member)
  | fail queue open_ closes charge body idle edited cleared returned holds =>
    have found := Lib.getElem?_of_concat queue
    refine limited.edited returned.kin found edited (.read rfl fun record new => ?_)
      (fun charged member => .inl (Cleared.mem_futures cleared member)) unchanged rfl
    cases new
    rcases body with empty | ⟨kept, held, sameBody, sameHead, sameParsed⟩
    · exact .inl empty
    · exact (((limited.entries _ (List.mem_of_getElem? found)).fits kept held).congr sameBody
        sameHead sameParsed).kin returned.kin
  | feed queue idle reading held fed share fits now edited futures freeSlots =>
    rename_i ring items entry record framing pending maxBody used data stage
    have found := Lib.getElem?_of_concat queue
    obtain ⟨head, parsed, limit, small⟩ :=
      (limited.entries entry (List.mem_of_getElem? found)).lacks record framing pending maxBody
        held reading
    have within := fits small
    refine limited.edited ⟨rfl, rfl, rfl, rfl⟩ found edited ⟨?_, ?_⟩ ?_ unchanged rfl
    · intro other new
      cases new
      refine .inr ⟨head, parsed, ?_⟩
      change (record.body ++ data).length ≤ bodyLimit conn.shared record head
      rw [← limit, List.length_append]
      omega
    · intro other otherFraming otherPending otherMax new still
      cases new
      change stage = _ at still
      refine ⟨head, parsed, ?_, ?_⟩
      · rcases fed with waiting | ⟨_, stage_eq⟩
        · rw [waiting] at still
          cases still
        · rw [stage_eq] at still
          cases still
          exact limit
      · change (record.body ++ data).length + stage.lacking ≤ _
        rcases fed with waiting | ⟨_, stage_eq⟩
        · rw [waiting] at still
          cases still
        · rw [stage_eq] at still
          cases still
          rw [List.length_append]
          exact within
    · rw [futures]
      exact fun charged member => .inl member
  | frame queue idle reading held fed fits trailers now edited futures freeSlots =>
    rename_i ring items entry record framing pending maxBody used stage
    have found := Lib.getElem?_of_concat queue
    have entryFits := limited.entries entry (List.mem_of_getElem? found)
    obtain ⟨head, parsed, limit, small⟩ :=
      entryFits.lacks record framing pending maxBody held reading
    refine limited.edited (.refl _) found edited ⟨?_, ?_⟩ ?_ unchanged rfl
    · intro other new
      cases new
      exact (entryFits.fits record held).congr rfl rfl rfl
    · intro other otherFraming otherPending otherMax new still
      cases new
      change stage = _ at still
      refine ⟨head, parsed, ?_, ?_⟩
      · rcases fed with waiting | ⟨_, stage_eq⟩
        · rw [waiting] at still
          cases still
        · rw [stage_eq] at still
          cases still
          exact limit
      · change record.body.length + stage.lacking ≤ _
        rcases fed with waiting | ⟨_, stage_eq⟩
        · rw [waiting] at still
          cases still
        · rw [stage_eq] at still
          cases still
          omega
    · rw [futures]
      exact fun charged member => .inl member
  | start found waiting held runs idle sound edited futures =>
    rename_i ring index slot entry record
    have fits := (limited.entries entry (List.mem_of_getElem? found)).fits record held
    refine limited.edited ⟨rfl, rfl, rfl, rfl⟩ found edited (.read rfl fun other none_ => ?_) ?_
      unchanged rfl
    · cases none_
    · intro charged member
      rcases futures with ⟨set, -⟩ | appended
      · rw [set] at member
        rcases List.mem_or_eq_of_mem_set member with old | new
        · exact .inl old
        · cases new
          exact .inr (fits.congr rfl rfl rfl)
      · rw [appended] at member
        rcases List.mem_append.mp member with old | new
        · exact .inl old
        · cases List.mem_singleton.mp new
          exact .inr (fits.congr rfl rfl rfl)
  | ready found running owned runs answer holds =>
    rename_i index slot entry charged
    refine limited.changed (.refl _) (fun entry member => .inl member) (fun other member => ?_)
      (fun done member => ?_) rfl
    · rcases List.mem_or_eq_of_mem_set member with old | new
      · exact .inl old
      · cases new
    · rcases List.mem_append.mp member with old | new
      · exact .inl old
      · rw [List.mem_singleton.mp new]
        exact .inr ((limited.futures charged (List.mem_of_getElem? runs)).congr rfl rfl rfl)
  | finish took found here answer edited cleared =>
    rename_i ring index position entry record rest closing
    have fits := limited.completed (position, record) (by rw [took]; simp)
    refine limited.edited ⟨rfl, rfl, rfl, rfl⟩ found edited (.read rfl fun other new => ?_)
      (fun charged member => .inl (Cleared.mem_futures cleared member)) (fun done member => ?_) rfl
    · cases new
      exact (fits.congr (body_serialize _ _ _) (head_serialize _ _ _)
        (parsed_serialize _ _ _))
    · exact .inl (by rw [took]; exact List.mem_append_left _ member)
  | strand took returned =>
    refine limited.changed returned.kin (fun entry member => .inl member)
      (fun charged member => .inl member) (fun done member => .inl ?_) rfl
    rw [took]
    exact List.mem_append_left _ member
  | work works =>
    have kept {slot : Nat} {charged held : Charged}
        (runs : conn.ring.futures[slot]? = some (some charged))
        (same : held.record = charged.record) (other : Charged)
        (member : some other ∈ conn.ring.futures.set slot (some held)) :
        some other ∈ conn.ring.futures ∨ Fits conn.shared other.record := by
      rcases List.mem_or_eq_of_mem_set member with old | new
      · exact .inl old
      · cases new
        rw [same]
        exact .inr (limited.futures charged (List.mem_of_getElem? runs))
    cases works with
    | hold runs =>
      exact limited.changed (.refl _) (fun entry member => .inl member) (kept runs rfl) unchanged rfl
    | unhold runs =>
      exact limited.changed (.refl _) (fun entry member => .inl member) (kept runs rfl) unchanged rfl
    | passOn runs =>
      exact limited.changed (.refl _) (fun entry member => .inl member) (kept runs rfl) unchanged rfl
    | release => exact limited.congr (.refl _) rfl rfl rfl rfl
  | exports runs =>
    refine limited.changed ⟨rfl, rfl, rfl, rfl⟩ (fun entry member => .inl member)
      (fun other member => ?_) unchanged rfl
    rcases List.mem_or_eq_of_mem_set member with old | new
    · exact .inl old
    · cases new
      exact .inr (.inl rfl)
  | _ => exact limited.congr (.refl _) rfl rfl rfl rfl

theorem Moves.limited (moves : conn.Moves next) (limited : conn.Limited) : next.Limited := by
  induction moves with
  | refl => exact limited
  | tail _ move inductionHypothesis => exact move.limited inductionHypothesis

/-! ### The configuration stays -/

theorem Move.kin (move : conn.Move next) : Shared.Kin conn.shared next.shared := by
  cases move with
  | lend same => exact same.kin
  | await opened same => exact same.kin
  | enlist opened same => exact same.kin
  | refuse opened same => exact same.kin
  | overdue reading idle same => exact same.kin
  | discard queue beyond left head cleared returned => exact returned.kin
  | fail queue open_ closes charge body idle edited cleared returned => exact returned.kin
  | strand took returned => exact returned.kin
  | work works => cases works <;> exact .refl _
  | _ => exact ⟨rfl, rfl, rfl, rfl⟩

theorem Moves.kin (moves : conn.Moves next) : Shared.Kin conn.shared next.shared := by
  induction moves with
  | refl => exact .refl _
  | tail _ move inductionHypothesis => exact inductionHypothesis.trans move.kin

theorem wrote_kin (wf : conn.Wf) (idle : conn.completed = []) (count now : Nat) :
    Shared.Kin conn.shared (conn.wrote count now).shared := by
  rcases planned : conn.writing with - | writing
  · unfold wrote
    rw [planned]
    exact .refl _
  by_cases part : writing.written + count < writing.total
  · rw [wrote_part planned part]
    exact .refl _
  obtain ⟨ring, shared, taken, poppedWf, settles, contents, -, futures, -, uncounted, -, -⟩ :=
    wrote_whole wf idle planned (Nat.le_of_not_lt part) now
  exact uncounted.kin.trans settles.moves.kin

theorem planWrite_same (conn : Conn) (now : Nat) :
    ∃ writing sentAt, conn.planWrite now = { conn with writing := writing, sentAt := sentAt } := by
  rcases conn.planWrite_planned now with result | ⟨-, -, -, -, result⟩ | ⟨-, -, -, result⟩
  · exact ⟨conn.writing, conn.sentAt, result⟩
  · exact ⟨_, _, result⟩
  · exact ⟨_, _, result⟩

/-! ### Writing -/

/-- What holds of every entry, and of an entry whose interim response is out, holds of every
entry once the interim response of a write is out. -/
theorem forall_continued {holds : Entry → Prop} {writing : Writing}
    (every : ∀ entry ∈ conn.ring.contents, holds entry)
    (kept : ∀ entry, holds entry → holds (continuedEntry entry)) :
    ∀ entry ∈ conn.continuedContents writing, holds entry := by
  unfold continuedContents
  split
  · rcases found : conn.ring.contents[0]? with - | entry
    · rw [List.modify_eq_set_getElem?, found]
      exact every
    · exact Lib.forall_mem_modify every found
        (kept entry (every entry (List.mem_of_getElem? found)))
  · exact every

theorem sum_continued (conn : Conn) (writing : Writing) :
    ((conn.continuedContents writing).map Entry.bodyBytes).sum =
      (conn.ring.contents.map Entry.bodyBytes).sum := by
  unfold continuedContents
  split
  · rcases found : conn.ring.contents[0]? with - | entry
    · rw [List.modify_eq_set_getElem?, found]
      rfl
    · have sum := Lib.sum_modify found continuedEntry Entry.bodyBytes
      change _ + entry.bodyBytes = _ + entry.bodyBytes at sum
      omega
  · rfl

theorem free_continuedEntry (entry : Entry) (free : recordCharge entry.record = 0) :
    recordCharge (continuedEntry entry).record = 0 := by
  unfold continuedEntry
  revert free
  rcases entry.record with - | record
  · exact id
  · exact id

theorem fits_continuedEntry (entry : Entry) (fits : EntryFits shared entry) :
    EntryFits shared (continuedEntry entry) := by
  have held {record : Record} (new : (continuedEntry entry).record = some record) :
      ∃ old, entry.record = some old ∧ record = { old with continued := true } := by
    obtain ⟨old, here, same⟩ := Option.map_eq_some_iff.mp new
    exact ⟨old, here, same.symm⟩
  refine ⟨fun record new => ?_, fun record framing pending maxBody new reading => ?_⟩
  · obtain ⟨old, here, rfl⟩ := held new
    exact (fits.fits old here).congr rfl rfl rfl
  · obtain ⟨old, here, rfl⟩ := held new
    unfold continuedEntry at reading ⊢
    dsimp only at reading ⊢
    split at reading
    · rename_i oldFraming oldPending oldMax stage
      cases reading
      obtain ⟨head, parsed, limit, small⟩ := fits.lacks old _ _ _ here stage
      rw [stage] at small
      refine ⟨head, parsed, limit, ?_⟩
      rcases framing with remaining | decoder <;> exact small
    · rename_i plain
      exact absurd reading (plain _ _ _)

theorem sum_returned {entries : List Entry}
    (free : ∀ entry ∈ entries, recordCharge entry.record = 0) :
    (entries.map Entry.returned).sum = (entries.map Entry.bodyBytes).sum := by
  congr 1
  refine List.map_congr_left fun entry member => ?_
  unfold Entry.returned
  split
  · rfl
  · rw [free entry member]
    rfl

theorem wrote_counted (wf : conn.Wf) (idle : conn.completed = []) (counted : conn.Counted others load)
    (count now : Nat) : (conn.wrote count now).Counted others load := by
  rcases planned : conn.writing with - | writing
  · unfold wrote
    rw [planned]
    exact counted
  by_cases part : writing.written + count < writing.total
  · rw [wrote_part planned part]
    exact counted.congr rfl rfl rfl counted.free rfl (Nat.le_refl _)
  obtain ⟨ring, shared, taken, poppedWf, settles, contents, -, futures, -, uncounted, claimed, -⟩ :=
    wrote_whole wf idle planned (Nat.le_of_not_lt part) now
  have free := @forall_continued conn _ writing counted.free free_continuedEntry
  refine settles.moves.counted poppedWf (counted.returned uncounted ?_ ?_ ?_ (Nat.le_refl _))
  · have split : ((conn.continuedContents writing).map Entry.bodyBytes).sum =
        (((conn.continuedContents writing).take writing.count).map Entry.bodyBytes).sum +
          (((conn.continuedContents writing).drop writing.count).map Entry.bodyBytes).sum := by
      rw [← List.sum_append, ← List.map_append, List.take_append_drop]
    rw [sum_continued] at split
    rw [sum_returned fun entry member => free entry (List.mem_of_mem_take member)]
    unfold weight
    dsimp only
    rw [contents, futures]
    omega
  · dsimp only
    rw [contents]
    exact fun entry member => free entry (List.mem_of_mem_drop member)
  · rcases claimed with same | ⟨entry, member, same⟩
    · rw [same]
      exact counted.taken
    · rw [same]
      exact free entry (List.mem_of_mem_take member)

theorem wrote_limited (wf : conn.Wf) (idle : conn.completed = []) (limited : conn.Limited)
    (count now : Nat) : (conn.wrote count now).Limited := by
  rcases planned : conn.writing with - | writing
  · unfold wrote
    rw [planned]
    exact limited
  by_cases part : writing.written + count < writing.total
  · rw [wrote_part planned part]
    exact limited.congr (.refl _) rfl rfl rfl rfl
  obtain ⟨ring, shared, taken, poppedWf, settles, contents, -, futures, -, uncounted, claimed, -⟩ :=
    wrote_whole wf idle planned (Nat.le_of_not_lt part) now
  have entries := @forall_continued conn _ writing limited.entries fits_continuedEntry
  refine settles.moves.limited ⟨?_, ?_, ?_, ?_⟩
  · dsimp only
    rw [contents]
    exact fun entry member => (entries entry (List.mem_of_mem_drop member)).kin uncounted.kin
  · dsimp only
    rw [futures]
    exact fun charged member => (limited.futures charged member).kin uncounted.kin
  · exact fun done member => (limited.completed done member).kin uncounted.kin
  · intro record held
    rcases claimed with same | ⟨entry, member, same⟩
    · exact (limited.taken record (same.symm.trans held)).kin uncounted.kin
    · exact ((entries entry (List.mem_of_mem_take member)).fits record
        (same.symm.trans held)).kin uncounted.kin

/-! ### The end of a connection -/

/-- No handler runs where no request is in flight. -/
theorem futureCharge_of_empty (sound : ring.Sound) (empty : ring.contents = []) :
    futureCharge ring.futures = 0 := by
  unfold futureCharge
  rw [List.sum_eq_zero_iff_forall_eq_nat]
  intro charge member
  obtain ⟨future, held, rfl⟩ := List.mem_map.mp member
  obtain ⟨slot, found⟩ := List.mem_iff_getElem?.mp held
  rcases future with - | charged
  · rfl
  · have owned := sound.mem_owned found
    rw [empty] at owned
    cases owned

/-- A connection that ended holds nothing. -/
theorem finish_counted (wf : conn.Wf) (idle : conn.completed = [])
    (counted : conn.Counted others load) :
    conn.finish.Counted others load ∧ conn.finish.weight = 0 ∧ conn.finish.Limited ∧
      conn.finish.completed = [] ∧ Shared.Kin conn.shared conn.finish.shared := by
  have given : conn.shared.Uncounted
      (conn.next.elim conn.shared fun record => conn.shared.giveRecord record.1) 0 := by
    rcases conn.next with - | record
    · exact .none conn.shared
    · have returned := Shared.Uncounted.giveRecord conn.shared record.1
      rw [record.charge_eq] at returned
      exact returned
  have emptied : Counted others load { conn with
      writing := none, input := [], next := none
      shared := conn.next.elim conn.shared fun record => conn.shared.giveRecord record.1 } :=
    counted.returned given rfl counted.free counted.taken (Nat.zero_le _)
  have emptiedWf : Wf { conn with
      writing := none, input := [], next := none
      shared := conn.next.elim conn.shared fun record => conn.shared.giveRecord record.1 } :=
    wf.unwritten rfl rfl rfl rfl rfl
  have same := discardTimes_writing (conn.ring.len - 0) { conn with
    input := [], next := none
    shared := conn.next.elim conn.shared fun record => conn.shared.giveRecord record.1 } none
  obtain ⟨ring, shared, holds, discarded, moves, contents, -⟩ :=
    @discardFrom_moves { conn with
      writing := none, input := [], next := none
      shared := conn.next.elim conn.shared fun record => conn.shared.giveRecord record.1 }
      0 (Nat.zero_le _) fun writing planned => by cases planned
  unfold discardFrom at discarded moves
  have left := moves.counted emptiedWf emptied
  have leftWf := moves.wf emptiedWf
  have kin := given.kin.trans moves.kin
  unfold finish discardFrom
  dsimp only at same discarded left leftWf contents kin ⊢
  rw [same] at discarded left leftWf kin
  generalize discardTimes (conn.ring.len - 0) _ = last at discarded left leftWf kin ⊢
  have empty : last.ring.contents = [] := by
    have sameRing : last.ring = ring := congrArg Conn.ring discarded
    rw [sameRing, contents, List.take_zero]
  have none_ : last.completed = [] := (congrArg Conn.completed discarded).trans idle
  have light (next : Conn) (sameRing : next.ring = last.ring)
      (completed : next.completed = last.completed) : next.weight = 0 := by
    unfold weight
    rw [sameRing, completed, none_, empty, futureCharge_of_empty leftWf.sound empty]
    rfl
  have weightless : Conn.weight { last with writing := none } = 0 := light _ rfl rfl
  have unlimited (next : Conn) (sameRing : next.ring = last.ring)
      (completed : next.completed = last.completed) (taken : next.taken = none) :
      next.Limited := by
    refine ⟨?_, ?_, ?_, ?_⟩
    · rw [sameRing, empty]
      intro entry member
      cases member
    · rw [sameRing]
      intro charged member
      obtain ⟨slot, found⟩ := List.mem_iff_getElem?.mp member
      have owned := leftWf.sound.mem_owned found
      dsimp only at owned
      rw [empty] at owned
      cases owned
    · rw [completed, none_]
      intro done member
      cases member
    · rw [taken]
      intro record held
      cases held
  split
  · have returned : last.shared.Uncounted (last.taken.elim last.shared last.shared.giveRecord)
        (recordCharge last.taken) := by
      rcases last.taken with - | record
      · exact .none last.shared
      · exact .giveRecord last.shared record
    refine ⟨left.returned returned ?_ left.free rfl (Nat.le_refl _), light _ rfl rfl,
      unlimited _ rfl rfl rfl, none_, kin.trans returned.kin⟩
    exact (congrArg₂ (· + ·) (light _ rfl rfl) left.taken).trans weightless.symm
  · refine ⟨left.returned (.none _) ?_ left.free rfl (Nat.le_refl _), light _ rfl rfl,
      unlimited _ rfl rfl rfl, none_, kin⟩
    exact (light _ rfl rfl).trans weightless.symm

end Conn

end ZeroServer.Http

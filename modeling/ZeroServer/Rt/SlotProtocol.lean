/-
This file follows the word of a slot through every sequence of transitions, at any generations and
from any threads. The transitions are compare-and-swap loops; each swap that succeeds is one
transition of the word, so what holds of the sequences holds of the threads.
-/

import ZeroServer.Rt.SlotWord

namespace ZeroServer.Rt

/-! ### Sequences of transitions -/

/-- The word after a sequence of calls. -/
def runCalls (word : Word) : List Call → Word
  | [] => word
  | call :: rest => runCalls (call.perform word).2 rest

/-- The calls of a sequence that were not refused. -/
def accepted (word : Word) : List Call → List Call
  | [] => []
  | call :: rest =>
    match (call.perform word).1 with
    | .ok () => call :: accepted (call.perform word).2 rest
    | .error _ => accepted (call.perform word).2 rest

theorem runCalls_append (word : Word) (calls more : List Call) :
    runCalls word (calls ++ more) = runCalls (runCalls word calls) more := by
  induction calls generalizing word with
  | nil => rfl
  | cons call rest inductionHypothesis => exact inductionHypothesis _

theorem accepted_append (word : Word) (calls more : List Call) :
    accepted word (calls ++ more) = accepted word calls ++ accepted (runCalls word calls) more := by
  induction calls generalizing word with
  | nil => rfl
  | cons call rest inductionHypothesis =>
    rw [List.cons_append]
    rw [accepted, accepted, runCalls]
    split
    · rw [inductionHypothesis, List.cons_append]
    · exact inductionHypothesis _

/-- The rows of the table of transitions: the state before and the state after. Counting a pin in
or out keeps the state. -/
inductive Edge : Operation → SlotState → SlotState → Prop
  | claim : Edge .claim .free .parsing
  | hold : Edge .hold .parsing .workerOwned
  | lease : Edge .lease .workerOwned .leased
  | unlease : Edge .unlease .leased .workerOwned
  | beginImport : Edge .beginImport .leased .completing
  | closeLeased : Edge .closeLeased .leased .closed
  | closeParsing : Edge .close .parsing .closed
  | closeHeld : Edge .close .workerOwned .closed
  | retire {state : SlotState} (notFree : state ≠ .free) (notLeased : state ≠ .leased) :
      Edge .retire state .free
  | pinLeased : Edge .pin .leased .leased
  | pinCompleting : Edge .pin .completing .completing
  | unpin {state : SlotState} (notFree : state ≠ .free) : Edge .unpin state state

/-! ### The invariant -/

namespace Fields

/-- What the calls accepted so far say about the fields. -/
structure Sound (log : List Call) (fields : Fields) : Prop where
  fits : fields.Fits
  free : fields.state = .free → fields.readers = 0 ∧ fields.canceled = false
  canceled : fields.canceled = true → fields.state = .closed
  counted : ∀ generation : BitVec 32, log.count ⟨.pin, generation⟩ =
    log.count ⟨.unpin, generation⟩ +
      if generation.toNat = fields.generation then fields.readers else 0

theorem sound_new : Sound [] {} where
  fits := ⟨Nat.two_pow_pos 16, Nat.two_pow_pos 30⟩
  free _ := ⟨rfl, rfl⟩
  canceled flagged := by cases flagged
  counted generation := by
    rw [List.count_nil, List.count_nil]
    split <;> rfl

variable {fields next : Fields} {log : List Call}

/-- What an accepted transition found and what it left. -/
inductive Moved : Operation → Fields → Fields → Prop
  | claim {fields : Fields} (state : fields.state = .free) (unread : fields.readers = 0) :
      Moved .claim fields { fields with state := .parsing }
  | hold {fields : Fields} (state : fields.state = .parsing) :
      Moved .hold fields { fields with state := .workerOwned }
  | lease {fields : Fields} (state : fields.state = .workerOwned)
      (wanted : fields.canceled = false) : Moved .lease fields { fields with state := .leased }
  | unlease {fields : Fields} (state : fields.state = .leased) :
      Moved .unlease fields { fields with state := .workerOwned }
  | beginImport {fields : Fields} (state : fields.state = .leased) :
      Moved .beginImport fields { fields with state := .completing }
  | closeLeased {fields : Fields} (state : fields.state = .leased) :
      Moved .closeLeased fields { fields with state := .closed, canceled := true }
  | close {fields : Fields} (state : fields.state = .parsing ∨ fields.state = .workerOwned) :
      Moved .close fields { fields with state := .closed, canceled := true }
  | retire {fields : Fields} (notFree : fields.state ≠ .free) (notLeased : fields.state ≠ .leased)
      (unread : fields.readers = 0) :
      Moved .retire fields { generation := (fields.generation + 1) % 2 ^ 30 }
  | pin {fields : Fields} (state : fields.state = .leased ∨ fields.state = .completing)
      (room : fields.readers < 2 ^ 16 - 1) :
      Moved .pin fields { fields with readers := fields.readers + 1 }
  | unpin {fields : Fields} (state : fields.state ≠ .free) (counted : fields.readers ≠ 0) :
      Moved .unpin fields { fields with readers := fields.readers - 1 }

variable {operation : Operation}

theorem move_moved (moved : fields.move operation = .ok next) : Moved operation fields next := by
  cases operation
  all_goals
    dsimp only [move] at moved
    repeat' split at moved
    all_goals cases moved
  case claim state readers => exact .claim (not_not.mp state) (not_not.mp readers)
  case hold state => exact .hold (not_not.mp state)
  case lease state canceled => exact .lease (not_not.mp state) (Bool.eq_false_iff.mpr canceled)
  case unlease state => exact .unlease (not_not.mp state)
  case beginImport state => exact .beginImport (not_not.mp state)
  case closeLeased state => exact .closeLeased (not_not.mp state)
  case close state => exact .close (by tauto)
  case retire state readers => exact .retire (by tauto) (by tauto) (not_not.mp readers)
  case pin state full => exact .pin (by tauto) (Nat.lt_of_not_le full)
  case unpin state counted => exact .unpin state counted

theorem Moved.edge (moved : Moved operation fields next) :
    Edge operation fields.state next.state := by
  cases moved with
  | claim state => rw [state]; exact .claim
  | hold state => rw [state]; exact .hold
  | lease state => rw [state]; exact .lease
  | unlease state => rw [state]; exact .unlease
  | beginImport state => rw [state]; exact .beginImport
  | closeLeased state => rw [state]; exact .closeLeased
  | close state =>
    rcases state with state | state
    · rw [state]
      exact .closeParsing
    · rw [state]
      exact .closeHeld
  | retire notFree notLeased => exact .retire notFree notLeased
  | pin state =>
    rcases state with state | state
    · rw [state]
      exact .pinLeased
    · rw [state]
      exact .pinCompleting
  | unpin state => exact .unpin state

/-- The generation moves with a retirement only. -/
theorem Moved.generation (moved : Moved operation fields next) :
    next.generation = if operation = .retire then (fields.generation + 1) % 2 ^ 30
      else fields.generation := by
  cases moved <;> rfl

/-- A transition that only counts pins keeps the other fields. -/
theorem Moved.counts (moved : Moved operation fields next)
    (counts : operation = .pin ∨ operation = .unpin) :
    next = { fields with readers := next.readers } := by
  rcases counts with rfl | rfl
  · cases moved
    rfl
  · cases moved
    rfl

/-- How one more accepted call counts. -/
theorem count_concat (log : List Call) (call other : Call) :
    (log ++ [call]).count other = log.count other + if call = other then 1 else 0 := by
  rw [List.count_append, List.count_singleton]
  simp only [beq_iff_eq]

/-- The pins counted move with the calls accepted at the current generation. -/
theorem Sound.counts (sound : fields.Sound log) {call : Call}
    (current : fields.generation = call.generation.toNat)
    (moved : Moved call.operation fields next) (generation : BitVec 32) :
    (log ++ [call]).count ⟨.pin, generation⟩ = (log ++ [call]).count ⟨.unpin, generation⟩ +
      if generation.toNat = next.generation then next.readers else 0 := by
  have counted := sound.counted generation
  obtain ⟨operation, issued⟩ := call
  have same : issued = generation ↔ generation.toNat = fields.generation := by
    rw [current, ← BitVec.toNat_inj]
    exact eq_comm
  rw [count_concat, count_concat]
  dsimp only at moved
  by_cases here : generation.toNat = fields.generation
  · have issuedHere := same.mpr here
    rw [if_pos here] at counted
    cases moved
    case retire notFree notLeased unread =>
      simp only [Call.mk.injEq, reduceCtorEq, false_and, if_false, ite_self]
      omega
    all_goals simp only [Call.mk.injEq, reduceCtorEq, false_and, true_and, if_false,
      if_pos issuedHere, if_pos here]
    all_goals omega
  · have elsewhere : issued ≠ generation := fun equal => here (same.mp equal)
    rw [if_neg here] at counted
    cases moved
    case retire notFree notLeased unread =>
      simp only [Call.mk.injEq, reduceCtorEq, false_and, if_false, ite_self]
      omega
    all_goals simp only [Call.mk.injEq, reduceCtorEq, false_and, true_and, if_false,
      if_neg elsewhere, if_neg here]
    all_goals omega

theorem Moved.free (moved : Moved operation fields next) (free : next.state = .free) :
    next.readers = 0 ∧ next.canceled = false := by
  cases moved
  case retire => exact ⟨rfl, rfl⟩
  case pin state room => rcases state with state | state <;> cases state.symm.trans free
  case unpin state counted => exact absurd free state
  all_goals cases free

theorem Moved.canceled (moved : Moved operation fields next) (flagged : next.canceled = true) :
    next.state = .closed ∨ (fields.canceled = true ∧ fields.state ≠ .closed) ∨
      (fields.canceled = true ∧ next.state = fields.state) := by
  cases moved
  case closeLeased => exact .inl rfl
  case close => exact .inl rfl
  case retire => cases flagged
  case pin => exact .inr (.inr ⟨flagged, rfl⟩)
  case unpin => exact .inr (.inr ⟨flagged, rfl⟩)
  all_goals refine .inr (.inl ⟨flagged, fun closed => ?_⟩)
  case claim state unread => cases state.symm.trans closed
  case hold state => cases state.symm.trans closed
  case lease state wanted => cases state.symm.trans closed
  case unlease state => cases state.symm.trans closed
  case beginImport state => cases state.symm.trans closed

/-- Every accepted transition keeps the invariant. -/
theorem Sound.move (sound : fields.Sound log) {call : Call}
    (current : fields.generation = call.generation.toNat)
    (accept : fields.move call.operation = .ok next) : next.Sound (log ++ [call]) := by
  have moved := move_moved accept
  refine ⟨move_fits sound.fits accept, moved.free, fun flagged => ?_, sound.counts current moved⟩
  rcases moved.canceled flagged with closed | ⟨before, open_⟩ | ⟨before, same⟩
  · exact closed
  · exact absurd (sound.canceled before) open_
  · exact same.trans (sound.canceled before)

/-- A call is refused and changes nothing, or is a transition at the current generation. -/
theorem perform_cases (fields : Fields) (call : Call) :
    (∃ refused, fields.perform call = (.error refused, fields)) ∨
      ∃ next, fields.generation = call.generation.toNat ∧
        fields.move call.operation = .ok next ∧ fields.perform call = (.ok (), next) := by
  unfold perform
  split
  · exact .inl ⟨.stale, rfl⟩
  · rename_i current
    split
    · rename_i refused moved
      exact .inl ⟨refused, rfl⟩
    · rename_i next moved
      exact .inr ⟨next, not_not.mp current, moved, rfl⟩

/-- Every call keeps the invariant, with what was accepted so far. -/
theorem Sound.perform (sound : fields.Sound log) (call : Call) :
    (fields.perform call).2.Sound (log ++ accepted fields.pack [call]) := by
  have packed := perform_pack sound.fits call
  rw [accepted, packed]
  rcases perform_cases fields call with ⟨refused, outcome⟩ | ⟨next, current, moved, outcome⟩
  · rw [outcome]
    exact (List.append_nil log).symm ▸ sound
  · rw [outcome]
    exact sound.move current moved

theorem Sound.run (sound : fields.Sound log) (calls : List Call) :
    ∃ final : Fields, runCalls fields.pack calls = final.pack ∧
      final.Sound (log ++ accepted fields.pack calls) := by
  induction calls generalizing fields log with
  | nil => exact ⟨fields, rfl, (List.append_nil log).symm ▸ sound⟩
  | cons call rest inductionHypothesis =>
    have next := (congrArg Prod.snd (perform_pack sound.fits call) :
      (call.perform fields.pack).2 = (fields.perform call).2.pack)
    obtain ⟨final, reached, soundFinal⟩ := inductionHypothesis (sound.perform call)
    refine ⟨final, ?_, ?_⟩
    · rw [runCalls, next]
      exact reached
    · have split := accepted_append fields.pack [call] rest
      rw [runCalls, runCalls, next, List.singleton_append] at split
      rw [split, ← List.append_assoc]
      exact soundFinal

end Fields

/-- Every word a sequence of calls reaches packs sound fields. -/
theorem runCalls_sound (calls : List Call) : ∃ fields : Fields,
    runCalls SlotWord.new calls = fields.pack ∧ fields.Sound (accepted SlotWord.new calls) :=
  Fields.sound_new.run calls

/-! ### The protocol -/

/-- The bits of the word outside its count of pins. -/
theorem getLsbD_pack_readers {fields : Fields} (fits : fields.Fits) {readers : Nat}
    (small : readers < 2 ^ 16) {index : Nat} (outside : index < 3 ∨ 19 ≤ index) :
    (Fields.pack { fields with readers := readers }).getLsbD index =
      fields.pack.getLsbD index := by
  have state := Fields.code_lt fields.state
  have counted := fits.readers
  have edited : Fields.Fits { fields with readers := readers } := ⟨small, fits.generation⟩
  rw [← BitVec.testBit_toNat, ← BitVec.testBit_toNat, Fields.toNat_pack fits,
    Fields.toNat_pack edited]
  unfold Fields.value
  dsimp only
  rcases outside with low | high
  · have same : ∀ readers : Nat, (Fields.code fields.state + 2 ^ 3 * readers +
        2 ^ 19 * fields.canceled.toNat + 2 ^ 20 * fields.generation) % 2 ^ 3 =
          Fields.code fields.state := by
      intro readers
      omega
    have bit : ∀ value : Nat, value.testBit index = (value % 2 ^ 3).testBit index := by
      intro value
      rw [Nat.testBit_mod_two_pow, decide_eq_true low, Bool.true_and]
    exact (bit _).trans ((congrArg (Nat.testBit · index) ((same _).trans (same _).symm)).trans
      (bit _).symm)
  · have same : ∀ readers : Nat, readers < 2 ^ 16 → (Fields.code fields.state + 2 ^ 3 * readers +
        2 ^ 19 * fields.canceled.toNat + 2 ^ 20 * fields.generation) / 2 ^ 19 =
          fields.canceled.toNat + 2 * fields.generation := by
      intro readers small
      omega
    have bit : ∀ value : Nat, value.testBit index = (value / 2 ^ 19).testBit (index - 19) := by
      intro value
      rw [Nat.testBit_div_two_pow, Nat.sub_add_cancel high]
    exact (bit _).trans ((congrArg (Nat.testBit · (index - 19))
      ((same _ small).trans (same _ counted).symm)).trans (bit _).symm)

/-- The word is a safe ownership protocol in every sequence of calls. For any calls so far and any
next one: a refused call changes no bit; an accepted one moves the state along the table; the
count of pins is the pins accepted less the unpins accepted at the generation of the word, and
counting changes no other bit; the generation stays while a pin is counted and moves, by one and
around its thirty bits, with each retirement accepted and with nothing else; a free slot has no
pins and no cancel flag; the flag is set on closed slots only; and the upper bits stay zero. -/
theorem slotWord_safe (calls : List Call) (call : Call) :
    let word := runCalls SlotWord.new calls
    let log := accepted SlotWord.new calls
    let result := call.perform word
    (∀ refused, result.1 = .error refused → result.2 = word) ∧
    (result.1 = .ok () →
      Edge call.operation (SlotState.fromBits word) (SlotState.fromBits result.2)) ∧
    log.count ⟨.pin, generationOf word⟩ =
      log.count ⟨.unpin, generationOf word⟩ + (readersOf word).toNat ∧
    (call.operation = .pin ∨ call.operation = .unpin → ∀ index, index < 3 ∨ 19 ≤ index →
      result.2.getLsbD index = word.getLsbD index) ∧
    (readersOf word ≠ 0 → generationOf result.2 = generationOf word) ∧
    (SlotState.fromBits word = .free → readersOf word = 0 ∧ word &&& cancelBit = 0#64) ∧
    (word &&& cancelBit ≠ 0#64 → SlotState.fromBits word = .closed) ∧
    (generationOf result.2).toNat = (if call.operation = .retire ∧ result.1 = .ok ()
      then ((generationOf word).toNat + 1) % 2 ^ 30 else (generationOf word).toNat) ∧
    word.toNat < 2 ^ 50 := by
  obtain ⟨fields, reached, sound⟩ := runCalls_sound calls
  intro word log result
  have fits := sound.fits
  have here : word = fields.pack := reached
  have performed : result = ((fields.perform call).1, (fields.perform call).2.pack) := by
    rw [← Fields.perform_pack fits, ← here]
  have after := Fields.perform_fits fits call
  have counted : log.count ⟨.pin, generationOf word⟩ =
      log.count ⟨.unpin, generationOf word⟩ + (readersOf word).toNat := by
    rw [sound.counted, here, Fields.toNat_generationOf fits, Fields.toNat_readersOf fits,
      if_pos rfl]
  have flag : word &&& cancelBit = if fields.canceled then cancelBit else 0#64 := by
    rw [here, Fields.and_cancelBit_pack fits]
  have free : SlotState.fromBits word = .free → readersOf word = 0 ∧ word &&& cancelBit = 0#64 := by
    intro unused
    rw [here, Fields.fromBits_pack fits] at unused
    obtain ⟨unread, unflagged⟩ := sound.free unused
    rw [flag, unflagged, here]
    exact ⟨(Fields.readersOf_eq_zero fits).mpr unread, rfl⟩
  have closed : word &&& cancelBit ≠ 0#64 → SlotState.fromBits word = .closed := by
    intro flagged
    rw [flag] at flagged
    rw [here, Fields.fromBits_pack fits]
    refine sound.canceled ?_
    by_contra unflagged
    exact flagged (if_neg unflagged)
  have small : word.toNat < 2 ^ 50 := by
    rw [here, Fields.toNat_pack fits]
    exact Fields.value_lt fits
  rw [performed]
  rcases Fields.perform_cases fields call with ⟨refused, outcome⟩ | ⟨next, current, moved, outcome⟩
  · rw [outcome, ← here]
    refine ⟨fun _ _ => rfl, nofun, counted, fun _ _ _ => rfl, fun _ => rfl, free, closed, ?_, small⟩
    rw [if_neg fun retired => nomatch retired.2]
  · have nextFits := Fields.move_fits fits moved
    have change := Fields.move_moved moved
    rw [outcome]
    refine ⟨nofun, fun _ => ?_, counted, fun counts index outside => ?_, fun pinned => ?_, free,
      closed, ?_, small⟩
    · rw [here, Fields.fromBits_pack fits, Fields.fromBits_pack nextFits]
      exact change.edge
    · have kept := change.counts counts
      rw [here]
      dsimp only
      rw [kept]
      exact getLsbD_pack_readers fits nextFits.readers outside
    · have kept : call.operation ≠ .retire := by
        intro retired
        rw [retired] at change
        refine pinned ?_
        rw [here, Fields.readersOf_eq_zero fits]
        cases change with
        | retire _ _ unread => exact unread
      apply BitVec.eq_of_toNat_eq
      rw [here, Fields.toNat_generationOf nextFits, Fields.toNat_generationOf fits,
        change.generation, if_neg kept]
    · rw [here, Fields.toNat_generationOf nextFits, Fields.toNat_generationOf fits,
        change.generation]
      simp only [and_true]

/-! ### Threads -/

/-- A thread inside its swap loop, with the word it saw last. -/
structure Attempt where
  call : Call
  seen : Word

/-- What the loop would store over the word it saw, or why it refuses. -/
def Attempt.next (attempt : Attempt) : Except Refused Word :=
  if generationOf attempt.seen ≠ attempt.call.generation then .error .stale
  else attempt.call.operation.step attempt.seen

/-- Threads at one word. The calls whose swap succeeded are kept in the order of the swaps. -/
structure Race where
  word : Word := SlotWord.new
  attempts : List Attempt := []
  swaps : List Call := []

/-- One atomic access of one thread: its first load, the end of a refused loop, a swap that
succeeds, and a swap that fails, for another thread's or for no reason, and loads again. -/
inductive Race.Step : Race → Race → Prop
  | load {race : Race} (call : Call) :
      Step race { race with attempts := race.attempts ++ [⟨call, race.word⟩] }
  | refuse {race : Race} {place : Nat} {attempt : Attempt} {refused : Refused}
      (found : race.attempts[place]? = some attempt) (refuses : attempt.next = .error refused) :
      Step race { race with attempts := race.attempts.eraseIdx place }
  | swap {race : Race} {place : Nat} {attempt : Attempt} {next : Word}
      (found : race.attempts[place]? = some attempt) (stores : attempt.next = .ok next)
      (unchanged : race.word = attempt.seen) :
      Step race {
        word := next
        attempts := race.attempts.eraseIdx place
        swaps := race.swaps ++ [attempt.call] }
  | retry {race : Race} {place : Nat} {attempt : Attempt} {next : Word}
      (found : race.attempts[place]? = some attempt) (stores : attempt.next = .ok next) :
      Step race { race with attempts := race.attempts.set place ⟨attempt.call, race.word⟩ }

theorem Attempt.perform {attempt : Attempt} {next : Word} (stores : attempt.next = .ok next) :
    attempt.call.perform attempt.seen = (.ok (), next) := by
  rw [Call.perform_eq]
  unfold Attempt.next at stores
  unfold update SlotWord.dropping
  split at stores
  · cases stores
  · rename_i current
    rw [if_neg current, stores]
    rfl

end ZeroServer.Rt

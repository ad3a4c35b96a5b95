/-
This file models the state word of a request slot: sixty-four bits that hold the slot's state, the
number of pins counted in, the cancel flag and the generation, and the ten transitions that edit
them with masks and shifts. Each transition is shown to act on the fields alone.
-/

import Mathlib.Data.Nat.Bitwise
import Mathlib.Tactic.IntervalCases

namespace ZeroServer.Rt

/-- Where a slot is in its life. -/
inductive SlotState where
  | free
  | parsing
  | workerOwned
  | leased
  | completing
  | closed
  deriving DecidableEq

/-- Why an access, a transition or a lookup was refused. -/
inductive Refused where
  | stale
  | state (state : SlotState)
  | readers (count : BitVec 32)
  | full
  | canceled
  | busy
  | poisoned
  | unknown
  deriving DecidableEq

/-! ### The layout of the word -/

/-- The word of a slot, as the atomic holds it. -/
abbrev Word := BitVec 64

def stateMask : Word := (1#64 <<< 3) - 1#64

def readersMask : Word := ((1#64 <<< 16) - 1#64) <<< 3

def oneReader : Word := 1#64 <<< 3

def cancelBit : Word := 1#64 <<< 19

def generationShift : Nat := 20

def generationMask : BitVec 32 := 0x3FFFFFFF#32

/-- The most pins a slot can count at once. -/
def maxReaders : BitVec 32 := (1#32 <<< 16) - 1#32

namespace SlotState

/-- The state as the word holds it. -/
def bits : SlotState → Word
  | free => 0#64
  | parsing => 1#64
  | workerOwned => 2#64
  | leased => 3#64
  | completing => 4#64
  | closed => 5#64

def fromBits (bits : Word) : SlotState :=
  match (bits &&& stateMask).toNat with
  | 1 => parsing
  | 2 => workerOwned
  | 3 => leased
  | 4 => completing
  | 5 => closed
  | _ => free

end SlotState

def generationOf (word : Word) : BitVec 32 :=
  (word >>> generationShift).setWidth 32 &&& generationMask

def readersOf (word : Word) : BitVec 32 := ((word &&& readersMask) >>> 3).setWidth 32

/-- The state of the word, if it is one of those accepted. -/
def require (word : Word) (accepted : List SlotState) : Except Refused SlotState :=
  let state := SlotState.fromBits word
  if state ∈ accepted then .ok state else .error (.state state)

/-- Refuse a word with a pin counted in. -/
def noReaders (word : Word) : Except Refused Unit :=
  if readersOf word = 0 then .ok () else .error (.readers (readersOf word))

/-- The word with its state bits replaced. -/
def withState (word : Word) (state : SlotState) : Word := (word &&& ~~~stateMask) ||| state.bits

def nextGeneration (generation : BitVec 32) : BitVec 32 := (generation + 1#32) &&& generationMask

/-- Addition that stops at the largest word. -/
def saturatingAdd (left right : Word) : Word :=
  if left.toNat + right.toNat < 2 ^ 64 then left + right else BitVec.allOnes 64

/-- Subtraction that stops at zero. -/
def saturatingSub (left right : Word) : Word := if right ≤ left then left - right else 0#64

/-! ### The transitions -/

/-- One generation-checked swap: the step maps the word to the word to store, or refuses. The
result stands beside the word after it. -/
def update (word : Word) (generation : BitVec 32) (step : Word → Except Refused Word) :
    Except Refused Word × Word :=
  if generationOf word ≠ generation then (.error .stale, word)
  else match step word with
    | .error refused => (.error refused, word)
    | .ok next => (.ok next, next)

namespace SlotWord

/-- A free slot at generation 0. -/
def new : Word := 0#64

def claimStep (word : Word) : Except Refused Word := do
  let _ ← require word [.free]
  noReaders word
  return withState word .parsing

def holdStep (word : Word) : Except Refused Word := do
  let _ ← require word [.parsing]
  return withState word .workerOwned

def leaseStep (word : Word) : Except Refused Word := do
  let _ ← require word [.workerOwned]
  if word &&& cancelBit ≠ 0#64 then
    throw .canceled
  return withState word .leased

def unleaseStep (word : Word) : Except Refused Word := do
  let _ ← require word [.leased]
  return withState word .workerOwned

def beginImportStep (word : Word) : Except Refused Word := do
  let _ ← require word [.leased]
  return withState word .completing

def closeLeasedStep (word : Word) : Except Refused Word := do
  let _ ← require word [.leased]
  return withState word .closed ||| cancelBit

def closeStep (word : Word) : Except Refused Word := do
  let _ ← require word [.parsing, .workerOwned]
  return withState word .closed ||| cancelBit

def retireStep (word : Word) : Except Refused Word := do
  let _ ← require word [.parsing, .workerOwned, .completing, .closed]
  noReaders word
  return (nextGeneration (generationOf word)).setWidth 64 <<< generationShift

def pinStep (word : Word) : Except Refused Word := do
  let _ ← require word [.leased, .completing]
  if maxReaders ≤ readersOf word then
    throw .full
  return saturatingAdd word oneReader

def unpinStep (word : Word) : Except Refused Word := do
  if SlotState.fromBits word = .free then
    throw (.state .free)
  if readersOf word = 0 then
    throw (.readers 0)
  return saturatingSub word oneReader

/-- A swap whose caller keeps no word. -/
def dropping (result : Except Refused Word × Word) : Except Refused Unit × Word :=
  (result.1.map fun _ => (), result.2)

/-- `Free` to `Parsing`: the allocator claims the slot. -/
def claim (word : Word) (generation : BitVec 32) : Except Refused Unit × Word :=
  dropping (update word generation claimStep)

/-- `Parsing` to `WorkerOwned`: the request is exported and held by the worker. -/
def hold (word : Word) (generation : BitVec 32) : Except Refused Unit × Word :=
  dropping (update word generation holdStep)

/-- `WorkerOwned` to `Leased`: the dispatcher writes the job into a batch. -/
def lease (word : Word) (generation : BitVec 32) : Except Refused Unit × Word :=
  dropping (update word generation leaseStep)

/-- `Leased` to `WorkerOwned`: the target refused the batch. -/
def unlease (word : Word) (generation : BitVec 32) : Except Refused Unit × Word :=
  dropping (update word generation unleaseStep)

/-- `Leased` to `Completing`: the worker takes the sealed response back. -/
def beginImport (word : Word) (generation : BitVec 32) : Except Refused Unit × Word :=
  dropping (update word generation beginImportStep)

/-- `Leased` to `Closed` with the cancel flag set. -/
def closeLeased (word : Word) (generation : BitVec 32) : Except Refused Unit × Word :=
  dropping (update word generation closeLeasedStep)

/-- `Parsing` or `WorkerOwned` to `Closed` with the cancel flag set. -/
def close (word : Word) (generation : BitVec 32) : Except Refused Unit × Word :=
  dropping (update word generation closeStep)

/-- Back to `Free` at the next generation, which is the result. -/
def retire (word : Word) (generation : BitVec 32) : Except Refused (BitVec 32) × Word :=
  let result := update word generation retireStep
  (result.1.map generationOf, result.2)

/-- Count a pin in. -/
def pin (word : Word) (generation : BitVec 32) : Except Refused Unit × Word :=
  dropping (update word generation pinStep)

/-- Count a pin out. -/
def unpin (word : Word) (generation : BitVec 32) : Except Refused Unit × Word :=
  dropping (update word generation unpinStep)

end SlotWord

/-- The transitions of a word. -/
inductive Operation where
  | claim
  | hold
  | lease
  | unlease
  | beginImport
  | closeLeased
  | close
  | retire
  | pin
  | unpin
  deriving DecidableEq

/-- A transition with the generation its caller holds. -/
structure Call where
  operation : Operation
  generation : BitVec 32
  deriving DecidableEq

/-- Issue a transition at a word: its result, and the word after it. -/
def Call.perform (call : Call) (word : Word) : Except Refused Unit × Word :=
  match call.operation with
  | .claim => SlotWord.claim word call.generation
  | .hold => SlotWord.hold word call.generation
  | .lease => SlotWord.lease word call.generation
  | .unlease => SlotWord.unlease word call.generation
  | .beginImport => SlotWord.beginImport word call.generation
  | .closeLeased => SlotWord.closeLeased word call.generation
  | .close => SlotWord.close word call.generation
  | .retire =>
    let result := SlotWord.retire word call.generation
    (result.1.map fun _ => (), result.2)
  | .pin => SlotWord.pin word call.generation
  | .unpin => SlotWord.unpin word call.generation

/-- What a transition stores, or why it refuses, at a word of its generation. -/
def Operation.step : Operation → Word → Except Refused Word
  | .claim => SlotWord.claimStep
  | .hold => SlotWord.holdStep
  | .lease => SlotWord.leaseStep
  | .unlease => SlotWord.unleaseStep
  | .beginImport => SlotWord.beginImportStep
  | .closeLeased => SlotWord.closeLeasedStep
  | .close => SlotWord.closeStep
  | .retire => SlotWord.retireStep
  | .pin => SlotWord.pinStep
  | .unpin => SlotWord.unpinStep

theorem Call.perform_eq (call : Call) (word : Word) :
    call.perform word = SlotWord.dropping (update word call.generation call.operation.step) := by
  obtain ⟨operation, generation⟩ := call
  cases operation
  case retire =>
    unfold Call.perform SlotWord.retire SlotWord.dropping
    dsimp only [Operation.step]
    generalize (update word generation SlotWord.retireStep).1 = result
    cases result <;> rfl
  all_goals rfl

/-! ### The fields -/

/-- What the word of a slot holds. -/
structure Fields where
  state : SlotState := .free
  readers : Nat := 0
  canceled : Bool := false
  generation : Nat := 0
  deriving DecidableEq

namespace Fields

/-- The fields within the widths the layout gives them. -/
structure Fits (fields : Fields) : Prop where
  readers : fields.readers < 2 ^ 16
  generation : fields.generation < 2 ^ 30

/-- The number of a state. -/
def code : SlotState → Nat
  | .free => 0
  | .parsing => 1
  | .workerOwned => 2
  | .leased => 3
  | .completing => 4
  | .closed => 5

/-- The number the word of these fields is. -/
def value (fields : Fields) : Nat :=
  code fields.state + 2 ^ 3 * fields.readers + 2 ^ 19 * fields.canceled.toNat +
    2 ^ 20 * fields.generation

/-- The word of these fields. -/
def pack (fields : Fields) : Word := BitVec.ofNat 64 fields.value

/-- What a transition does to the fields. -/
def move (fields : Fields) : Operation → Except Refused Fields
  | .claim =>
    if fields.state ≠ .free then .error (.state fields.state)
    else if fields.readers ≠ 0 then .error (.readers (BitVec.ofNat 32 fields.readers))
    else .ok { fields with state := .parsing }
  | .hold =>
    if fields.state ≠ .parsing then .error (.state fields.state)
    else .ok { fields with state := .workerOwned }
  | .lease =>
    if fields.state ≠ .workerOwned then .error (.state fields.state)
    else if fields.canceled then .error .canceled
    else .ok { fields with state := .leased }
  | .unlease =>
    if fields.state ≠ .leased then .error (.state fields.state)
    else .ok { fields with state := .workerOwned }
  | .beginImport =>
    if fields.state ≠ .leased then .error (.state fields.state)
    else .ok { fields with state := .completing }
  | .closeLeased =>
    if fields.state ≠ .leased then .error (.state fields.state)
    else .ok { fields with state := .closed, canceled := true }
  | .close =>
    if fields.state ≠ .parsing ∧ fields.state ≠ .workerOwned then .error (.state fields.state)
    else .ok { fields with state := .closed, canceled := true }
  | .retire =>
    if fields.state = .free ∨ fields.state = .leased then .error (.state fields.state)
    else if fields.readers ≠ 0 then .error (.readers (BitVec.ofNat 32 fields.readers))
    else .ok { generation := (fields.generation + 1) % 2 ^ 30 }
  | .pin =>
    if fields.state ≠ .leased ∧ fields.state ≠ .completing then .error (.state fields.state)
    else if 2 ^ 16 - 1 ≤ fields.readers then .error .full
    else .ok { fields with readers := fields.readers + 1 }
  | .unpin =>
    if fields.state = .free then .error (.state .free)
    else if fields.readers = 0 then .error (.readers 0)
    else .ok { fields with readers := fields.readers - 1 }

variable {fields : Fields}

theorem code_lt (state : SlotState) : code state < 6 := by
  cases state <;> decide

theorem value_lt (fits : fields.Fits) : fields.value < 2 ^ 50 := by
  have state := code_lt fields.state
  have canceled := Bool.toNat_le fields.canceled
  obtain ⟨readers, generation⟩ := fits
  unfold value
  omega

theorem toNat_pack (fits : fields.Fits) : fields.pack.toNat = fields.value := by
  have small := value_lt fits
  unfold pack
  rw [BitVec.toNat_ofNat]
  exact Nat.mod_eq_of_lt (by omega)

/-! ### Reading the fields -/

theorem fromBits_pack (fits : fields.Fits) : SlotState.fromBits fields.pack = fields.state := by
  have masked : (fields.pack &&& stateMask).toNat = code fields.state := by
    have state := code_lt fields.state
    rw [BitVec.toNat_and, toNat_pack fits, show stateMask.toNat = 2 ^ 3 - 1 by decide,
      Nat.and_two_pow_sub_one_eq_mod]
    unfold value
    omega
  unfold SlotState.fromBits
  rw [masked]
  cases fields.state <;> rfl

theorem generationOf_pack (fits : fields.Fits) :
    generationOf fields.pack = BitVec.ofNat 32 fields.generation := by
  have state := code_lt fields.state
  have canceled := Bool.toNat_le fields.canceled
  have readers := fits.readers
  have generation := fits.generation
  apply BitVec.eq_of_toNat_eq
  unfold generationOf generationShift
  rw [BitVec.toNat_and, show generationMask.toNat = 2 ^ 30 - 1 by decide,
    Nat.and_two_pow_sub_one_eq_mod, BitVec.toNat_setWidth, BitVec.toNat_ushiftRight,
    toNat_pack fits, Nat.shiftRight_eq_div_pow, BitVec.toNat_ofNat]
  unfold value
  omega

theorem readersOf_pack (fits : fields.Fits) :
    readersOf fields.pack = BitVec.ofNat 32 fields.readers := by
  have state := code_lt fields.state
  have canceled := Bool.toNat_le fields.canceled
  have readers := fits.readers
  have masked : (fields.pack &&& readersMask) >>> 3 =
      (fields.pack >>> 3) &&& BitVec.ofNat 64 (2 ^ 16 - 1) := by
    rw [BitVec.ushiftRight_and_distrib]
    congr 1
  apply BitVec.eq_of_toNat_eq
  unfold readersOf
  rw [masked, BitVec.toNat_setWidth, BitVec.toNat_and,
    show (BitVec.ofNat 64 (2 ^ 16 - 1)).toNat = 2 ^ 16 - 1 by decide,
    Nat.and_two_pow_sub_one_eq_mod, BitVec.toNat_ushiftRight, toNat_pack fits,
    Nat.shiftRight_eq_div_pow, BitVec.toNat_ofNat]
  unfold value
  omega

theorem toNat_generationOf (fits : fields.Fits) :
    (generationOf fields.pack).toNat = fields.generation := by
  have small := fits.generation
  rw [generationOf_pack fits, BitVec.toNat_ofNat, Nat.mod_eq_of_lt (by omega)]

theorem toNat_readersOf (fits : fields.Fits) : (readersOf fields.pack).toNat = fields.readers := by
  have small := fits.readers
  rw [readersOf_pack fits, BitVec.toNat_ofNat, Nat.mod_eq_of_lt (by omega)]

theorem cancelBit_eq : cancelBit = BitVec.twoPow 64 19 := by
  decide

theorem getLsbD_pack (fits : fields.Fits) : fields.pack.getLsbD 19 = fields.canceled := by
  have state := code_lt fields.state
  have readers := fits.readers
  rw [← BitVec.testBit_toNat, toNat_pack fits, Nat.testBit_eq_decide_div_mod_eq]
  unfold value
  cases fields.canceled
  · rw [decide_eq_false_iff_not]
    change ¬ (code fields.state + 2 ^ 3 * fields.readers + 2 ^ 19 * 0 +
      2 ^ 20 * fields.generation) / 2 ^ 19 % 2 = 1
    omega
  · rw [decide_eq_true_iff]
    change (code fields.state + 2 ^ 3 * fields.readers + 2 ^ 19 * 1 +
      2 ^ 20 * fields.generation) / 2 ^ 19 % 2 = 1
    omega

theorem and_cancelBit_pack (fits : fields.Fits) :
    fields.pack &&& cancelBit = if fields.canceled then cancelBit else 0#64 := by
  rw [cancelBit_eq, BitVec.and_twoPow, getLsbD_pack fits]

/-! ### Editing the fields -/

theorem clear_state (word : Word) : word &&& ~~~stateMask = (word >>> 3) <<< 3 := by
  rw [show stateMask = (BitVec.allOnes 3).setWidth 64 by decide]
  ext index inside
  simp only [BitVec.getElem_and, BitVec.getElem_not, BitVec.getElem_setWidth,
    BitVec.getLsbD_allOnes, BitVec.getElem_shiftLeft, BitVec.getElem_ushiftRight]
  by_cases low : index < 3
  · simp [low]
  · simp [low, show 3 + (index - 3) = index by omega, BitVec.getLsbD_eq_getElem inside]

theorem toNat_bits (state : SlotState) : state.bits.toNat = code state := by
  cases state <;> rfl

theorem withState_pack (fits : fields.Fits) (state : SlotState) :
    withState fields.pack state = pack { fields with state := state } := by
  have small := value_lt fits
  have old := code_lt fields.state
  have new := code_lt state
  have edited : Fits { fields with state := state } := ⟨fits.readers, fits.generation⟩
  apply BitVec.eq_of_toNat_eq
  rw [toNat_pack edited]
  unfold withState
  rw [clear_state, BitVec.toNat_or, BitVec.toNat_shiftLeft, BitVec.toNat_ushiftRight,
    toNat_pack fits, toNat_bits, Nat.mod_eq_of_lt, ← Nat.shiftLeft_add_eq_or_of_lt,
    Nat.shiftLeft_eq, Nat.shiftRight_eq_div_pow]
  · unfold value
    dsimp only
    omega
  · omega
  · rw [Nat.shiftLeft_eq, Nat.shiftRight_eq_div_pow]
    omega

theorem or_cancelBit_pack (fits : fields.Fits) :
    fields.pack ||| cancelBit = pack { fields with canceled := true } := by
  have masked := and_cancelBit_pack fits
  have edited : Fits { fields with canceled := true } := ⟨fits.readers, fits.generation⟩
  by_cases canceled : fields.canceled = true
  · rw [if_pos canceled] at masked
    rw [← masked, show { fields with canceled := true } = fields by rw [← canceled]]
    ext index inside
    rw [BitVec.getElem_or, BitVec.getElem_and]
    cases fields.pack[index] <;> rfl
  · rw [if_neg canceled] at masked
    rw [← BitVec.add_eq_or_of_and_eq_zero _ _ masked]
    have small := value_lt fits
    apply BitVec.eq_of_toNat_eq
    rw [BitVec.toNat_add, toNat_pack fits, toNat_pack edited,
      show cancelBit.toNat = 2 ^ 19 by decide, Nat.mod_eq_of_lt (by omega)]
    unfold value
    dsimp only
    rw [Bool.eq_false_iff.mpr canceled]
    change _ + 2 ^ 19 * 0 + _ + _ = _ + 2 ^ 19 * 1 + _
    omega

theorem saturatingAdd_pack (fits : fields.Fits) (room : fields.readers + 1 < 2 ^ 16) :
    saturatingAdd fields.pack oneReader = pack { fields with readers := fields.readers + 1 } := by
  have small := value_lt fits
  have edited : Fits { fields with readers := fields.readers + 1 } := ⟨room, fits.generation⟩
  have one : oneReader.toNat = 2 ^ 3 := by decide
  unfold saturatingAdd
  rw [if_pos (by rw [toNat_pack fits, one]; omega)]
  apply BitVec.eq_of_toNat_eq
  rw [BitVec.toNat_add, toNat_pack fits, toNat_pack edited, one, Nat.mod_eq_of_lt (by omega)]
  unfold value
  dsimp only
  omega

theorem saturatingSub_pack (fits : fields.Fits) (counted : fields.readers ≠ 0) :
    saturatingSub fields.pack oneReader = pack { fields with readers := fields.readers - 1 } := by
  have small := value_lt fits
  have edited : Fits { fields with readers := fields.readers - 1 } :=
    ⟨by have := fits.readers; dsimp only; omega, fits.generation⟩
  have one : oneReader.toNat = 2 ^ 3 := by decide
  have enough : 2 ^ 3 ≤ fields.value := by
    unfold value
    omega
  have below : oneReader ≤ fields.pack := by
    rw [BitVec.le_def, toNat_pack fits, one]
    exact enough
  unfold saturatingSub
  rw [if_pos below]
  apply BitVec.eq_of_toNat_eq
  rw [BitVec.toNat_sub_of_le below, toNat_pack fits, toNat_pack edited, one]
  unfold value
  dsimp only
  omega

theorem nextGeneration_pack (generation : Nat) :
    (nextGeneration (BitVec.ofNat 32 generation)).setWidth 64 <<< generationShift =
      pack { generation := (generation + 1) % 2 ^ 30 } := by
  have edited : Fits { generation := (generation + 1) % 2 ^ 30 } :=
    ⟨Nat.two_pow_pos 16, Nat.mod_lt _ (Nat.two_pow_pos 30)⟩
  apply BitVec.eq_of_toNat_eq
  unfold nextGeneration generationShift
  rw [toNat_pack edited, BitVec.toNat_shiftLeft, BitVec.toNat_setWidth, BitVec.toNat_and,
    show generationMask.toNat = 2 ^ 30 - 1 by decide, Nat.and_two_pow_sub_one_eq_mod,
    BitVec.toNat_add, BitVec.toNat_ofNat, Nat.shiftLeft_eq]
  unfold value
  change _ = 0 + 2 ^ 3 * 0 + 2 ^ 19 * 0 + 2 ^ 20 * ((generation + 1) % 2 ^ 30)
  rw [show (1#32).toNat = 1 by decide]
  omega

/-! ### The transitions on the fields -/

theorem require_pack (fits : fields.Fits) (accepted : List SlotState) :
    require fields.pack accepted =
      if fields.state ∈ accepted then .ok fields.state else .error (.state fields.state) := by
  unfold require
  dsimp only
  rw [fromBits_pack fits]

theorem readersOf_eq_zero (fits : fields.Fits) : readersOf fields.pack = 0 ↔ fields.readers = 0 := by
  rw [← BitVec.toNat_inj, toNat_readersOf fits]
  rfl

theorem noReaders_pack (fits : fields.Fits) :
    noReaders fields.pack = if fields.readers = 0 then .ok ()
      else .error (.readers (BitVec.ofNat 32 fields.readers)) := by
  unfold noReaders
  rw [readersOf_pack fits]
  by_cases none : fields.readers = 0
  · rw [if_pos none, none]
    rfl
  · rw [if_neg none, if_neg]
    rw [← readersOf_pack fits, readersOf_eq_zero fits]
    exact none

theorem maxReaders_le (fits : fields.Fits) :
    maxReaders ≤ readersOf fields.pack ↔ 2 ^ 16 - 1 ≤ fields.readers := by
  rw [BitVec.le_def, toNat_readersOf fits, show maxReaders.toNat = 2 ^ 16 - 1 by decide]

/-- The transitions that only replace the state. -/
theorem replace_pack (fits : fields.Fits) (before after : SlotState) :
    (do
      let _ ← require fields.pack [before]
      return withState fields.pack after : Except Refused Word) =
      Except.map pack (if fields.state ≠ before then .error (.state fields.state)
        else .ok { fields with state := after }) := by
  rw [require_pack fits, withState_pack fits]
  by_cases state : fields.state = before
  · rw [if_pos (List.mem_singleton.mpr state), if_neg (not_not.mpr state)]
    rfl
  · rw [if_neg (fun member => state (List.mem_singleton.mp member)), if_pos state]
    rfl

/-- The transitions that close the slot. -/
theorem cancel_pack (fits : fields.Fits) (accepted : List SlotState) :
    (do
      let _ ← require fields.pack accepted
      return withState fields.pack .closed ||| cancelBit : Except Refused Word) =
      Except.map pack (if fields.state ∉ accepted then .error (.state fields.state)
        else .ok { fields with state := .closed, canceled := true }) := by
  have edited : Fits { fields with state := .closed } := ⟨fits.readers, fits.generation⟩
  rw [require_pack fits, withState_pack fits, or_cancelBit_pack edited]
  by_cases state : fields.state ∈ accepted
  · rw [if_pos state, if_neg (not_not.mpr state)]
    rfl
  · rw [if_neg state, if_pos state]
    rfl

theorem claimStep_pack (fits : fields.Fits) :
    SlotWord.claimStep fields.pack = (fields.move .claim).map pack := by
  unfold SlotWord.claimStep
  dsimp only [move]
  rw [require_pack fits, noReaders_pack fits, withState_pack fits]
  by_cases state : fields.state = .free
  · rw [if_pos (List.mem_singleton.mpr state), if_neg (not_not.mpr state)]
    by_cases readers : fields.readers = 0
    · rw [if_pos readers, if_neg (not_not.mpr readers)]
      rfl
    · rw [if_neg readers, if_pos readers]
      rfl
  · rw [if_neg (fun member => state (List.mem_singleton.mp member)), if_pos state]
    rfl

theorem leaseStep_pack (fits : fields.Fits) :
    SlotWord.leaseStep fields.pack = (fields.move .lease).map pack := by
  unfold SlotWord.leaseStep
  dsimp only [move]
  rw [require_pack fits, and_cancelBit_pack fits, withState_pack fits]
  by_cases state : fields.state = .workerOwned
  · rw [if_pos (List.mem_singleton.mpr state), if_neg (not_not.mpr state)]
    cases fields.canceled <;> rfl
  · rw [if_neg (fun member => state (List.mem_singleton.mp member)), if_pos state]
    rfl

theorem retireStep_pack (fits : fields.Fits) :
    SlotWord.retireStep fields.pack = (fields.move .retire).map pack := by
  have accepted : fields.state ∈ [.parsing, .workerOwned, .completing, .closed] ↔
      ¬ (fields.state = .free ∨ fields.state = .leased) := by
    cases fields.state <;> decide
  unfold SlotWord.retireStep
  dsimp only [move]
  rw [require_pack fits, noReaders_pack fits, generationOf_pack fits, nextGeneration_pack]
  by_cases state : fields.state = .free ∨ fields.state = .leased
  · rw [if_neg (fun member => accepted.mp member state), if_pos state]
    rfl
  · rw [if_pos (accepted.mpr state), if_neg state]
    by_cases readers : fields.readers = 0
    · rw [if_pos readers, if_neg (not_not.mpr readers)]
      rfl
    · rw [if_neg readers, if_pos readers]
      rfl

theorem pinStep_pack (fits : fields.Fits) :
    SlotWord.pinStep fields.pack = (fields.move .pin).map pack := by
  have accepted : fields.state ∈ [.leased, .completing] ↔
      ¬ (fields.state ≠ .leased ∧ fields.state ≠ .completing) := by
    cases fields.state <;> decide
  unfold SlotWord.pinStep
  dsimp only [move]
  rw [require_pack fits]
  by_cases state : fields.state ≠ .leased ∧ fields.state ≠ .completing
  · rw [if_neg (fun member => accepted.mp member state), if_pos state]
    rfl
  · rw [if_pos (accepted.mpr state), if_neg state]
    by_cases full : 2 ^ 16 - 1 ≤ fields.readers
    · rw [if_pos full]
      simp only [if_pos ((maxReaders_le fits).mpr full)]
      rfl
    · rw [if_neg full, saturatingAdd_pack fits (by omega)]
      simp only [if_neg (fun reached => full ((maxReaders_le fits).mp reached))]
      rfl

theorem unpinStep_pack (fits : fields.Fits) :
    SlotWord.unpinStep fields.pack = (fields.move .unpin).map pack := by
  unfold SlotWord.unpinStep
  dsimp only [move]
  rw [fromBits_pack fits]
  by_cases state : fields.state = .free
  · rw [if_pos state, if_pos state]
    rfl
  · rw [if_neg state, if_neg state]
    by_cases readers : fields.readers = 0
    · rw [if_pos readers]
      simp only [if_pos ((readersOf_eq_zero fits).mpr readers)]
      rfl
    · rw [if_neg readers, saturatingSub_pack fits readers]
      simp only [if_neg (fun none => readers ((readersOf_eq_zero fits).mp none))]
      rfl

/-- A transition at a packed word is the transition of its fields. -/
theorem step_pack (fits : fields.Fits) (operation : Operation) :
    operation.step fields.pack = (fields.move operation).map pack := by
  cases operation with
  | claim => exact claimStep_pack fits
  | hold => exact replace_pack fits .parsing .workerOwned
  | lease => exact leaseStep_pack fits
  | unlease => exact replace_pack fits .leased .workerOwned
  | beginImport => exact replace_pack fits .leased .completing
  | closeLeased =>
    refine (cancel_pack fits [.leased]).trans ?_
    unfold move
    simp only [List.mem_singleton]
  | close =>
    refine (cancel_pack fits [.parsing, .workerOwned]).trans ?_
    unfold move
    simp only [List.mem_cons, List.not_mem_nil, or_false, not_or]
  | retire => exact retireStep_pack fits
  | pin => exact pinStep_pack fits
  | unpin => exact unpinStep_pack fits

/-- A transition keeps the fields within their widths. -/
theorem move_fits (fits : fields.Fits) {operation : Operation} {next : Fields}
    (moved : fields.move operation = .ok next) : next.Fits := by
  have readers := fits.readers
  have generation := fits.generation
  unfold move at moved
  split at moved
  all_goals
    repeat' split at moved
    all_goals cases moved
  all_goals refine ⟨?_, ?_⟩
  all_goals dsimp only
  all_goals omega

/-- What a caller sees of a transition, and the fields it leaves. -/
def perform (fields : Fields) (call : Call) : Except Refused Unit × Fields :=
  if fields.generation ≠ call.generation.toNat then (.error .stale, fields)
  else match fields.move call.operation with
    | .error refused => (.error refused, fields)
    | .ok next => (.ok (), next)

theorem perform_pack (fits : fields.Fits) (call : Call) :
    call.perform fields.pack = ((fields.perform call).1, (fields.perform call).2.pack) := by
  have current : generationOf fields.pack = call.generation ↔
      fields.generation = call.generation.toNat := by
    rw [← BitVec.toNat_inj, toNat_generationOf fits]
  rw [Call.perform_eq]
  unfold SlotWord.dropping update perform
  rw [step_pack fits]
  by_cases same : fields.generation = call.generation.toNat
  · rw [if_neg (not_not.mpr (current.mpr same)), if_neg (not_not.mpr same)]
    cases fields.move call.operation <;> rfl
  · rw [if_pos (fun equal => same (current.mp equal)), if_pos same]
    rfl

theorem perform_fits (fits : fields.Fits) (call : Call) : (fields.perform call).2.Fits := by
  unfold perform
  split
  · exact fits
  · split
    · exact fits
    · rename_i next moved
      exact move_fits fits moved

end Fields

end ZeroServer.Rt

/-
This file models the instructions of the encoder and decoder streams and the receivers of a peer's
streams while the dynamic table has no capacity: what they refuse, how much they wait for, and that
the reads a stream arrives in make no difference.
-/

import ZeroServer.Lib.Reader
import ZeroServer.Qpack.Representation

namespace ZeroServer.Qpack

open Http1 Lib

def encoderStream (error : IntegerError) : Error := ⟨.encoderStream, .integer error⟩

def decoderStream (error : IntegerError) : Error := ⟨.decoderStream, .integer error⟩

def lastStaticIndex : Nat := Table.staticTable.length - 1

/-! ### Encoder instructions -/

inductive EncoderInstruction where
  | setDynamicTableCapacity (capacity : Nat)
  | insertWithNameReference (staticTable : Bool) (index : Nat) (value : StringLiteral)
  | insertWithLiteralName (name value : StringLiteral)
  | duplicate (index : Nat)
  deriving DecidableEq

/-- A whole instruction at the start of the input and the octets it spans. -/
def EncoderInstruction.parse (input : Bytes) (maxStringLen : Nat) :
    Except Error (Option (EncoderInstruction × Nat)) :=
  match input with
  | [] => .ok none
  | first :: _ =>
    if first &&& 0x80 ≠ 0 then
      match Integer.decode input .p6 Integer.maxValue with
      | .error fault => .error (encoderStream fault)
      | .ok none => .ok none
      | .ok (some (index, used)) =>
        match StringLiteral.parse (input.drop used) .p8 maxStringLen with
        | .error fault => .error (encoderStream fault)
        | .ok none => .ok none
        | .ok (some (value, valueLen)) =>
          .ok (some (.insertWithNameReference (first &&& 0x40 != 0) index value, used + valueLen))
    else if first &&& 0xC0 = 0x40 then
      match StringLiteral.parse input .p6 maxStringLen with
      | .error fault => .error (encoderStream fault)
      | .ok none => .ok none
      | .ok (some (name, used)) =>
        match StringLiteral.parse (input.drop used) .p8 maxStringLen with
        | .error fault => .error (encoderStream fault)
        | .ok none => .ok none
        | .ok (some (value, valueLen)) =>
          .ok (some (.insertWithLiteralName name value, used + valueLen))
    else
      match Integer.decode input .p5 Integer.maxValue with
      | .error fault => .error (encoderStream fault)
      | .ok none => .ok none
      | .ok (some (value, used)) =>
        if first &&& 0xE0 = 0x20 then .ok (some (.setDynamicTableCapacity value, used))
        else .ok (some (.duplicate value, used))

/-- The opcode and the first integer of an instruction. -/
inductive EncoderHead where
  | setDynamicTableCapacity (capacity : Nat)
  | insertWithNameReference (staticTable : Bool) (index : Nat)
  | insertWithLiteralName (huffman : Bool) (nameLen : Nat)
  | duplicate (index : Nat)
  deriving DecidableEq

def EncoderHead.parse (input : Bytes) (maxStringLen : Nat) :
    Except Error (Option (EncoderHead × Nat)) :=
  match input with
  | [] => .ok none
  | first :: _ =>
    let (bits, cap) : PrefixBits × Nat :=
      if first &&& 0x80 ≠ 0 then (.p6, Integer.maxValue)
      else if first &&& 0xC0 = 0x40 then (.p5, maxStringLen)
      else (.p5, Integer.maxValue)
    match Integer.decode input bits cap with
    | .error fault => .error (encoderStream fault)
    | .ok none => .ok none
    | .ok (some (value, used)) =>
      let head : EncoderHead :=
        if first &&& 0x80 ≠ 0 then .insertWithNameReference (first &&& 0x40 != 0) value
        else if first &&& 0xC0 = 0x40 then .insertWithLiteralName (first &&& 0x20 != 0) value
        else if first &&& 0xE0 = 0x20 then .setDynamicTableCapacity value
        else .duplicate value
      .ok (some (head, used))

/-- The head of a whole instruction. -/
def EncoderInstruction.head : EncoderInstruction → EncoderHead
  | .setDynamicTableCapacity capacity => .setDynamicTableCapacity capacity
  | .insertWithNameReference staticTable index _ => .insertWithNameReference staticTable index
  | .insertWithLiteralName name _ => .insertWithLiteralName name.huffman name.data.length
  | .duplicate index => .duplicate index

/-! ### Decoder instructions -/

inductive DecoderInstruction where
  | sectionAcknowledgment (streamId : Nat)
  | streamCancellation (streamId : Nat)
  | insertCountIncrement (increment : Nat)
  deriving DecidableEq

def DecoderInstruction.parse (input : Bytes) : Except Error (Option (DecoderInstruction × Nat)) :=
  match input with
  | [] => .ok none
  | first :: _ =>
    match Integer.decode input (if first &&& 0x80 ≠ 0 then .p7 else .p6) Integer.maxValue with
    | .error fault => .error (decoderStream fault)
    | .ok none => .ok none
    | .ok (some (value, used)) =>
      if first &&& 0x80 ≠ 0 then .ok (some (.sectionAcknowledgment value, used))
      else if first &&& 0x40 ≠ 0 then .ok (some (.streamCancellation value, used))
      else .ok (some (.insertCountIncrement value, used))

/-! ### Receivers -/

structure EncoderStreamReceiver where
  maxCapacity : Nat
  maxStringLen : Nat
  deriving DecidableEq

/-- The receiver of a decoder that advertised no capacity. -/
def EncoderStreamReceiver.new (maxStringLen : Nat) : EncoderStreamReceiver := ⟨0, maxStringLen⟩

/-- The verdict on the head of an instruction. -/
def EncoderStreamReceiver.check (receiver : EncoderStreamReceiver) (head : EncoderHead) :
    Except Error Unit :=
  .error ⟨.encoderStream,
    match head with
    | .setDynamicTableCapacity capacity =>
      if receiver.maxCapacity < capacity then .capacityExceeded else .instructionAtCapacityZero
    | .insertWithNameReference true index =>
      if lastStaticIndex < index then .invalidStaticIndex else .entryTooLarge
    | .insertWithNameReference false _ => .entryTooLarge
    | .insertWithLiteralName _ _ => .entryTooLarge
    | .duplicate _ => .instructionAtCapacityZero⟩

/-- The instruction next on the encoder stream: its length, or why it is refused. -/
def EncoderStreamReceiver.judge (receiver : EncoderStreamReceiver) (rest : Bytes) :
    Except Error (Option Nat) :=
  match EncoderHead.parse rest receiver.maxStringLen with
  | .error fault => .error fault
  | .ok none => .ok none
  | .ok (some (head, _)) =>
    match receiver.check head with
    | .error fault => .error fault
    | .ok () =>
      match EncoderInstruction.parse rest receiver.maxStringLen with
      | .error fault => .error fault
      | .ok none => .ok none
      | .ok (some (_, used)) => .ok (some used)

/-- The verdict on an instruction of the decoder stream. -/
def receive : DecoderInstruction → Except Error Unit
  | .sectionAcknowledgment _ => .error ⟨.decoderStream, .unexpectedAcknowledgment⟩
  | .insertCountIncrement _ => .error ⟨.decoderStream, .invalidIncrement⟩
  | .streamCancellation _ => .ok ()

/-- The instruction next on the decoder stream: its length, or why it is refused. -/
def judge (rest : Bytes) : Except Error (Option Nat) :=
  match DecoderInstruction.parse rest with
  | .error fault => .error fault
  | .ok none => .ok none
  | .ok (some (instruction, used)) =>
    match receive instruction with
    | .error fault => .error fault
    | .ok () => .ok (some used)

/-! ### Heads in parts -/

variable {input rest : Bytes} {receiver : EncoderStreamReceiver}

variable {maxStringLen used : Nat}

/-- How the first octet of an instruction says its head is read. -/
def headBits (first : UInt8) : PrefixBits := if first &&& 0x80 ≠ 0 then .p6 else .p5

def headCap (first : UInt8) (maxStringLen : Nat) : Nat :=
  if first &&& 0x80 ≠ 0 then Integer.maxValue
  else if first &&& 0xC0 = 0x40 then maxStringLen
  else Integer.maxValue

def headOf (first : UInt8) (value : Nat) : EncoderHead :=
  if first &&& 0x80 ≠ 0 then .insertWithNameReference (first &&& 0x40 != 0) value
  else if first &&& 0xC0 = 0x40 then .insertWithLiteralName (first &&& 0x20 != 0) value
  else if first &&& 0xE0 = 0x20 then .setDynamicTableCapacity value
  else .duplicate value

theorem EncoderHead.parse_cons (first : UInt8) (rest : Bytes) (maxStringLen : Nat) :
    EncoderHead.parse (first :: rest) maxStringLen =
      match Integer.decode (first :: rest) (headBits first) (headCap first maxStringLen) with
      | .error fault => .error (encoderStream fault)
      | .ok none => .ok none
      | .ok (some (value, used)) => .ok (some (headOf first value, used)) := by
  unfold EncoderHead.parse headBits headCap headOf
  dsimp only
  by_cases reference : first &&& 0x80 ≠ 0
  · simp only [if_pos reference]
  · by_cases literal : first &&& 0xC0 = 0x40
    · simp only [if_neg reference, if_pos literal]
    · simp only [if_neg reference, if_neg literal]

theorem EncoderHead.parse_append (decided : EncoderHead.parse input maxStringLen ≠ .ok none)
    (more : Bytes) :
    EncoderHead.parse (input ++ more) maxStringLen = EncoderHead.parse input maxStringLen := by
  cases input with
  | nil => exact absurd rfl decided
  | cons first rest =>
    rw [parse_cons] at decided
    rw [List.cons_append, parse_cons, parse_cons, ← List.cons_append, Integer.decode_append]
    intro waits
    rw [waits] at decided
    exact decided rfl

theorem EncoderHead.parse_waits (undecided : EncoderHead.parse input maxStringLen = .ok none) :
    input.length < Integer.maxLen := by
  cases input with
  | nil => decide
  | cons first rest =>
    rw [parse_cons] at undecided
    split at undecided
    · cases undecided
    · rename_i waits
      exact Integer.decode_waits waits
    · cases undecided

/-- With no capacity every complete head is refused. -/
theorem EncoderStreamReceiver.judge_eq (receiver : EncoderStreamReceiver) (rest : Bytes) :
    receiver.judge rest =
      match EncoderHead.parse rest receiver.maxStringLen with
      | .error fault => .error fault
      | .ok none => .ok none
      | .ok (some (head, _)) => (receiver.check head).map fun _ => none := by
  unfold EncoderStreamReceiver.judge
  rcases EncoderHead.parse rest receiver.maxStringLen with fault | (- | ⟨head, used⟩) <;> rfl

theorem EncoderStreamReceiver.judge_none (waits : receiver.judge rest = .ok none) :
    EncoderHead.parse rest receiver.maxStringLen = .ok none := by
  rw [judge_eq] at waits
  split at waits
  · cases waits
  · assumption
  · cases waits

theorem EncoderStreamReceiver.judge_some : receiver.judge rest ≠ .ok (some used) := by
  rw [judge_eq]
  split <;> nofun

theorem EncoderStreamReceiver.judge_append (decided : receiver.judge rest ≠ .ok none)
    (more : Bytes) : receiver.judge (rest ++ more) = receiver.judge rest := by
  rw [judge_eq, judge_eq, EncoderHead.parse_append]
  intro waits
  rw [judge_eq, waits] at decided
  exact decided rfl

def EncoderStreamReceiver.reader (receiver : EncoderStreamReceiver) : Reader UInt8 Error where
  read := receiver.judge
  inside := fun judged => absurd judged judge_some
  stable := judge_append
  exact := fun judged => absurd judged judge_some

/-- The octets consumed of the encoder stream, or the first refusal. -/
def EncoderStreamReceiver.feed (receiver : EncoderStreamReceiver) (input : Bytes) :
    Except Error Nat :=
  receiver.reader.feed input

theorem judge_parse (judged : judge rest = .ok (some used)) :
    ∃ streamId,
      DecoderInstruction.parse rest = .ok (some (.streamCancellation streamId, used)) := by
  unfold judge at judged
  rcases parsed : DecoderInstruction.parse rest with fault | (- | ⟨instruction, taken⟩)
  · rw [parsed] at judged
    cases judged
  · rw [parsed] at judged
    cases judged
  · rw [parsed] at judged
    cases instruction with
    | sectionAcknowledgment streamId => cases judged
    | streamCancellation streamId =>
      cases judged
      exact ⟨streamId, rfl⟩
    | insertCountIncrement increment => cases judged

/-- The instruction a first octet and its integer are. -/
def instructionOf (first : UInt8) (value : Nat) : DecoderInstruction :=
  if first &&& 0x80 ≠ 0 then .sectionAcknowledgment value
  else if first &&& 0x40 ≠ 0 then .streamCancellation value
  else .insertCountIncrement value

theorem DecoderInstruction.parse_cons (first : UInt8) (rest : Bytes) :
    parse (first :: rest) =
      match Integer.decode (first :: rest) (if first &&& 0x80 ≠ 0 then .p7 else .p6)
        Integer.maxValue with
      | .error fault => .error (decoderStream fault)
      | .ok none => .ok none
      | .ok (some (value, used)) => .ok (some (instructionOf first value, used)) := by
  unfold parse instructionOf
  dsimp only
  split
  · rfl
  · rfl
  · by_cases acknowledges : first &&& 0x80 ≠ 0
    · rw [if_pos acknowledges, if_pos acknowledges]
    · by_cases cancels : first &&& 0x40 ≠ 0
      · rw [if_neg acknowledges, if_neg acknowledges, if_pos cancels, if_pos cancels]
      · rw [if_neg acknowledges, if_neg acknowledges, if_neg cancels, if_neg cancels]

theorem DecoderInstruction.parse_append (decided : parse input ≠ .ok none) (more : Bytes) :
    parse (input ++ more) = parse input := by
  cases input with
  | nil => exact absurd rfl decided
  | cons first rest =>
    rw [parse_cons] at decided
    rw [List.cons_append, parse_cons, parse_cons, ← List.cons_append, Integer.decode_append]
    intro waits
    rw [waits] at decided
    exact decided rfl

theorem DecoderInstruction.parse_waits (undecided : parse input = .ok none) :
    input.length < Integer.maxLen := by
  cases input with
  | nil => decide
  | cons first rest =>
    rw [parse_cons] at undecided
    split at undecided
    · cases undecided
    · rename_i waits
      exact Integer.decode_waits waits
    · cases undecided

theorem DecoderInstruction.parse_some {instruction : DecoderInstruction}
    (parsed : parse input = .ok (some (instruction, used))) :
    0 < used ∧ used ≤ input.length ∧ parse (input.take used) = .ok (some (instruction, used)) := by
  cases input with
  | nil => cases parsed
  | cons first rest =>
    rw [parse_cons] at parsed
    split at parsed
    · cases parsed
    · cases parsed
    · rename_i value taken decoded
      cases parsed
      obtain ⟨-, -, positive, inside⟩ := Integer.decode_some decoded
      have whole := Integer.decode_take decoded
      refine ⟨positive, inside, ?_⟩
      rw [show used = used - 1 + 1 by omega, List.take_succ_cons] at whole ⊢
      rw [parse_cons, whole]

theorem judge_append (decided : judge rest ≠ .ok none) (more : Bytes) :
    judge (rest ++ more) = judge rest := by
  rw [judge, judge, DecoderInstruction.parse_append]
  intro waits
  rw [judge, waits] at decided
  exact decided rfl

theorem judge_of_parse {streamId : Nat}
    (parsed : DecoderInstruction.parse rest = .ok (some (.streamCancellation streamId, used))) :
    judge rest = .ok (some used) := by
  rw [judge, parsed]
  rfl

theorem judge_none (waits : judge rest = .ok none) : DecoderInstruction.parse rest = .ok none := by
  unfold judge at waits
  split at waits
  · cases waits
  · assumption
  · split at waits <;> cases waits

def decoderReader : Reader UInt8 Error where
  read := judge
  inside := fun judged => by
    obtain ⟨streamId, parsed⟩ := judge_parse judged
    obtain ⟨positive, inside, -⟩ := DecoderInstruction.parse_some parsed
    exact ⟨positive, inside⟩
  stable := judge_append
  exact := fun judged => by
    obtain ⟨streamId, parsed⟩ := judge_parse judged
    obtain ⟨-, -, alone⟩ := DecoderInstruction.parse_some parsed
    exact judge_of_parse alone

/-- The octets consumed of the decoder stream, or the first refusal. -/
def DecoderStreamReceiver.feed (input : Bytes) : Except Error Nat := decoderReader.feed input

/-! ### Heads and whole instructions -/

/-- The head of an instruction fails as the instruction does, and a whole instruction has the head
that is read of it. -/
structure HeadAgrees (head : Except Error (Option (EncoderHead × Nat)))
    (instruction : Except Error (Option (EncoderInstruction × Nat))) : Prop where
  failed : ∀ {fault}, head = .error fault → instruction = .error fault
  waits : head = .ok none → instruction = .ok none
  whole : ∀ {parsed used}, instruction = .ok (some (parsed, used)) →
    ∃ taken ≤ used, head = .ok (some (parsed.head, taken))

theorem parse_agrees (input : Bytes) (maxStringLen : Nat) :
    HeadAgrees (EncoderHead.parse input maxStringLen)
      (EncoderInstruction.parse input maxStringLen) := by
  cases input with
  | nil => exact ⟨nofun, fun _ => rfl, nofun⟩
  | cons first rest =>
    rw [EncoderHead.parse_cons]
    unfold EncoderInstruction.parse headBits headCap headOf
    dsimp only
    by_cases reference : first &&& 0x80 ≠ 0
    · simp only [if_pos reference]
      rcases Integer.decode (first :: rest) .p6 Integer.maxValue with fault | (- | ⟨index, used⟩)
      · exact ⟨by rintro _ ⟨⟩; rfl, nofun, nofun⟩
      · exact ⟨nofun, fun _ => rfl, nofun⟩
      · refine ⟨nofun, nofun, ?_⟩
        intro parsed taken same
        dsimp only at same
        split at same
        · cases same
        · cases same
        · cases same
          exact ⟨used, Nat.le_add_right _ _, rfl⟩
    simp only [if_neg reference]
    by_cases literal : first &&& 0xC0 = 0x40
    · simp only [if_pos literal]
      unfold StringLiteral.parse
      dsimp only [StringPrefixBits.lengthPrefix]
      rcases Integer.decode (first :: rest) .p5 maxStringLen with fault | (- | ⟨len, used⟩)
      · exact ⟨by rintro _ ⟨⟩; rfl, nofun, nofun⟩
      · exact ⟨nofun, fun _ => rfl, nofun⟩
      · refine ⟨nofun, nofun, ?_⟩
        intro parsed taken same
        dsimp only at same
        by_cases short : ((first :: rest).drop used).length < len
        · rw [if_pos short] at same
          cases same
        · rw [if_neg short] at same
          dsimp only at same
          split at same
          · cases same
          · cases same
          · cases same
            refine ⟨used, by omega, ?_⟩
            dsimp only [EncoderInstruction.head]
            rw [List.length_take, Nat.min_eq_left (Nat.le_of_not_lt short)]
            rfl
    · simp only [if_neg literal]
      rcases Integer.decode (first :: rest) .p5 Integer.maxValue with fault | (- | ⟨value, used⟩)
      · exact ⟨by rintro _ ⟨⟩; rfl, nofun, nofun⟩
      · exact ⟨nofun, fun _ => rfl, nofun⟩
      · refine ⟨nofun, nofun, ?_⟩
        intro parsed taken same
        dsimp only at same
        by_cases capacity : first &&& 0xE0 = 0x20
        · rw [if_pos capacity] at same
          cases same
          exact ⟨used, Nat.le_refl _, by dsimp only; rw [if_pos capacity]; rfl⟩
        · rw [if_neg capacity] at same
          cases same
          exact ⟨used, Nat.le_refl _, by dsimp only; rw [if_neg capacity]; rfl⟩

/-- The value of this instruction is longer than the limit; its head is whole. -/
theorem head_whole_value_refused :
    EncoderHead.parse [0xC0, 0x0B] 10 = .ok (some (.insertWithNameReference true 0, 1)) ∧
      EncoderInstruction.parse [0xC0, 0x0B] 10 = .error (encoderStream .tooLarge) := by
  exact ⟨rfl, rfl⟩

/-- The receivers judge a stream alike however it is cut into reads. The one of the encoder stream
consumes nothing and has less than the longest integer wait; the one of the decoder stream consumes
stream cancellations and has less than one wait. A head fails as its instruction does, and is that
of the whole instruction. -/
theorem receivers_segmented (maxStringLen : Nat) :
    (∀ reads : List Bytes,
      (EncoderStreamReceiver.new maxStringLen).reader.feedReads [] 0 reads =
        ((EncoderStreamReceiver.new maxStringLen).feed reads.flatten).map fun used =>
          (used, reads.flatten.drop used)) ∧
    (∀ input used, (EncoderStreamReceiver.new maxStringLen).feed input = .ok used →
      used = 0 ∧ input.length ≤ Integer.maxLen - 1) ∧
    (∀ reads : List Bytes,
      decoderReader.feedReads [] 0 reads =
        (DecoderStreamReceiver.feed reads.flatten).map fun used =>
          (used, reads.flatten.drop used)) ∧
    (∀ input used, DecoderStreamReceiver.feed input = .ok used →
      (input.drop used).length ≤ Integer.maxLen - 1 ∧
      ∃ items : List Bytes, input.take used = items.flatten ∧ ∀ item ∈ items, ∃ streamId,
        DecoderInstruction.parse item = .ok (some (.streamCancellation streamId, item.length))) ∧
    (∀ input, HeadAgrees (EncoderHead.parse input maxStringLen)
      (EncoderInstruction.parse input maxStringLen)) := by
  refine ⟨fun reads => ?_, fun input used fed => ?_, fun reads => ?_, fun input used fed => ?_,
    fun input => parse_agrees input maxStringLen⟩
  · rw [Reader.feedReads_flatten [] 0 rfl, List.nil_append]
    simp only [Nat.zero_add]
    rfl
  · have nothing : used = 0 := by
      rw [EncoderStreamReceiver.feed, Reader.feed_eq] at fed
      split at fed
      · cases fed
      · cases fed
        rfl
      · rename_i judged
        exact absurd judged EncoderStreamReceiver.judge_some
    obtain ⟨-, stopped⟩ := Reader.feed_ok fed
    rw [nothing, List.drop_zero] at stopped
    exact ⟨nothing, Nat.le_pred_of_lt
      (EncoderHead.parse_waits (EncoderStreamReceiver.judge_none stopped))⟩
  · rw [Reader.feedReads_flatten [] 0 rfl, List.nil_append]
    simp only [Nat.zero_add]
    rfl
  · obtain ⟨-, stopped⟩ := Reader.feed_ok fed
    obtain ⟨items, same, whole⟩ := Reader.feed_items fed
    refine ⟨Nat.le_pred_of_lt (DecoderInstruction.parse_waits (judge_none stopped)), items, same,
      fun item member => judge_parse (whole item member)⟩

end ZeroServer.Qpack

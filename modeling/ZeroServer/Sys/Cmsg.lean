/-
This file models control messages: the elements of a control buffer with their headers and padding,
the walk over a buffer as it was received, and the builder of one to send. What sizes and places
the header's fields have is what the target says of them.
-/

import ZeroServer.H3.Encode
import ZeroServer.Lib.Window
import ZeroServer.Lib.Writing

namespace ZeroServer.Sys

open Http1 Lib H3.Varint

/-! ### Numbers in the machine's byte order -/

inductive ByteOrder where
  | little
  | big
  deriving DecidableEq

variable {order : ByteOrder}

def toNeBytes (order : ByteOrder) (count value : Nat) : Bytes :=
  match order with
  | .little => (toBeBytes count value).reverse
  | .big => toBeBytes count value

def fromNeBytes (order : ByteOrder) (bytes : Bytes) : Nat :=
  match order with
  | .little => fromBeBytes bytes.reverse
  | .big => fromBeBytes bytes

@[simp] theorem length_toNeBytes (count value : Nat) :
    (toNeBytes order count value).length = count := by
  rcases order with - | -
  · exact List.length_reverse.trans (length_toBeBytes count value)
  · exact length_toBeBytes count value

theorem fromNeBytes_toNeBytes {count value : Nat} (fits : value < 256 ^ count) :
    fromNeBytes order (toNeBytes order count value) = value := by
  have big : fromBeBytes (toBeBytes count value) = value := by
    rw [fromBeBytes_toBeBytes, Nat.mod_eq_of_lt fits]
  rcases order with - | -
  · rw [toNeBytes, fromNeBytes, List.reverse_reverse, big]
  · exact big

/-! ### The target -/

/-- What a target says of its pointers and of `cmsghdr`. -/
structure Target where
  order : ByteOrder
  usizeBits : Nat
  alignBits : Nat
  header : Nat
  lenWidth : Nat
  lenAt : Nat
  levelAt : Nat
  typeAt : Nat

namespace Target

def checkedAdd (target : Target) (one other : Nat) : Option Nat :=
  if one + other < 2 ^ target.usizeBits then some (one + other) else none

def alignment (target : Target) : Nat := 2 ^ target.alignBits

/-- A length rounded up to the alignment: the mask clears the low bits. -/
def align (target : Target) (len : Nat) : Option Nat :=
  (target.checkedAdd len (target.alignment - 1)).map fun sum =>
    sum >>> target.alignBits <<< target.alignBits

end Target

/-- A target whose header aligns, and whose header fields lie in the header, apart. -/
structure Platform extends Target where
  data : Nat
  data_eq : toTarget.align header = some data
  narrow : alignBits ≤ usizeBits
  len_inside : lenAt + lenWidth ≤ header
  level_inside : levelAt + 4 ≤ header
  type_inside : typeAt + 4 ≤ header
  len_level : lenAt + lenWidth ≤ levelAt ∨ levelAt + 4 ≤ lenAt
  len_type : lenAt + lenWidth ≤ typeAt ∨ typeAt + 4 ≤ lenAt
  level_type : levelAt + 4 ≤ typeAt ∨ typeAt + 4 ≤ levelAt

/-- One control message: its protocol level, its type within that level, and its data. -/
structure ControlMessage where
  level : Int32
  kind : Int32
  data : Bytes
  deriving DecidableEq

namespace Platform

variable (platform : Platform)

/-- The bytes an element occupies, padding included. -/
def space (dataLen : Nat) : Option Nat :=
  (platform.align dataLen).bind fun data => platform.checkedAdd data platform.data

/-- The header and the data. -/
def len (dataLen : Nat) : Option Nat := platform.checkedAdd platform.data dataLen

/-! ### The fields of a header -/

def readLen (bytes : Bytes) : Option Nat :=
  (window bytes platform.lenAt platform.lenWidth).bind fun raw =>
    if fromNeBytes platform.order raw < 2 ^ platform.usizeBits then
      some (fromNeBytes platform.order raw)
    else none

def readI32 (bytes : Bytes) (at_ : Nat) : Option Int32 :=
  (platform.checkedAdd at_ 4).bind fun _ =>
    (window bytes at_ 4).map fun raw => (UInt32.ofNat (fromNeBytes platform.order raw)).toInt32

/-- Overwrite the bytes at a place, when the slot has them. -/
def copyAt (at_ : Nat) (raw : Bytes) : Writing UInt8 := fun slot =>
  match overwrite slot at_ raw with
  | some after => (some (), after)
  | none => (none, slot)

/-- Write the length field, when its type can hold the length. -/
def writeLen (len : Nat) : Writing UInt8 := fun slot =>
  if len < 256 ^ platform.lenWidth then
    copyAt platform.lenAt (toNeBytes platform.order platform.lenWidth len) slot
  else (none, slot)

def writeI32 (at_ : Nat) (value : Int32) : Writing UInt8 := fun slot =>
  match platform.checkedAdd at_ 4 with
  | some _ => copyAt at_ (toNeBytes platform.order 4 value.toUInt32.toNat) slot
  | none => (none, slot)

/-! ### The walk over a control buffer -/

/-- The element at the start and the distance to the next one, when a whole one starts there. -/
def element (rest : Bytes) : Option (ControlMessage × Nat) :=
  if rest.length < platform.header then none
  else
    (platform.readLen rest).bind fun len =>
      if len < platform.header ∨ rest.length < len then none
      else
        (platform.readI32 rest platform.levelAt).bind fun level =>
          (platform.readI32 rest platform.typeAt).bind fun kind =>
            let start := min platform.data len
            let data := (window rest start (len - start)).getD []
            let step := ((platform.align len).map fun aligned => min aligned rest.length).getD
              rest.length
            some (⟨level, kind, data⟩, step)

/-- One call of the iterator: the message, and what it walks next. -/
def next (rest : Bytes) : Option ControlMessage × Bytes :=
  match platform.element rest with
  | some (message, step) => (some message, rest.drop step)
  | none => (none, [])

end Platform

/-! ### The builder -/

inductive Full where
  | full
  deriving DecidableEq

/-- Writes control messages into a buffer. -/
structure Builder where
  buf : Bytes
  len : Nat
  deriving DecidableEq

def Builder.new (buf : Bytes) : Builder := ⟨buf, 0⟩

def Builder.written (builder : Builder) : Bytes :=
  (window builder.buf 0 builder.len).getD []

namespace Platform

variable (platform : Platform)

/-- Write an element into its zeroed slot; what a failed write leaves stays in the slot. -/
def writeElement (message : ControlMessage) : Writing UInt8 := fun slot =>
  match platform.len message.data.length with
  | none => (none, slot)
  | some cmsgLen =>
    (platform.writeLen cmsgLen).andThen ((platform.writeI32 platform.levelAt message.level).andThen
      ((platform.writeI32 platform.typeAt message.kind).andThen
        (copyAt platform.data message.data))) slot

/-- Append one message. -/
def push (builder : Builder) (message : ControlMessage) : Except Full Unit × Builder :=
  match platform.space message.data.length with
  | none => (.error .full, builder)
  | some need =>
    match platform.checkedAdd builder.len need with
    | none => (.error .full, builder)
    | some stop =>
      if stop ≤ builder.buf.length then
        let (outcome, slot) := platform.writeElement message (List.replicate need 0)
        let buf := builder.buf.take builder.len ++ slot ++ builder.buf.drop stop
        match outcome with
        | some () => (.ok (), ⟨buf, stop⟩)
        | none => (.error .full, { builder with buf })
      else (.error .full, builder)

/-- Push messages one after the other: the builder, and the messages it accepted. -/
def pushAll (builder : Builder) : List ControlMessage → Builder × List ControlMessage
  | [] => (builder, [])
  | message :: messages =>
    match platform.push builder message with
    | (.ok (), after) =>
      ((pushAll after messages).1, message :: (pushAll after messages).2)
    | (.error _, after) => pushAll after messages

end Platform

/-! ### Rounding -/

namespace Target

variable {target : Target} {len sum : Nat}

theorem checkedAdd_iff {one other : Nat} :
    target.checkedAdd one other = some sum ↔
      one + other < 2 ^ target.usizeBits ∧ one + other = sum := by
  unfold checkedAdd
  constructor
  · intro added
    split at added
    · next inside => exact ⟨inside, Option.some.inj added⟩
    · cases added
  · rintro ⟨inside, rfl⟩
    exact if_pos inside

theorem alignment_pos : 0 < target.alignment := Nat.two_pow_pos _

theorem align_iff :
    target.align len = some sum ↔
      len + (target.alignment - 1) < 2 ^ target.usizeBits ∧
        (len + (target.alignment - 1)) / target.alignment * target.alignment = sum := by
  simp only [align, Option.map_eq_some_iff, checkedAdd_iff, Nat.shiftRight_eq_div_pow,
    Nat.shiftLeft_eq]
  constructor
  · rintro ⟨_, ⟨inside, rfl⟩, rfl⟩
    exact ⟨inside, rfl⟩
  · rintro ⟨inside, rfl⟩
    exact ⟨_, ⟨inside, rfl⟩, rfl⟩

/-- A rounded length is the next multiple of the alignment. -/
theorem align_spec (aligned : target.align len = some sum) :
    len ≤ sum ∧ sum < 2 ^ target.usizeBits ∧ target.alignment ∣ sum := by
  obtain ⟨inside, rfl⟩ := align_iff.mp aligned
  have whole := Nat.div_add_mod (len + (target.alignment - 1)) target.alignment
  have rest := Nat.mod_lt (len + (target.alignment - 1)) (@alignment_pos target)
  rw [Nat.mul_comm] at whole
  exact ⟨by omega, by omega, Nat.dvd_mul_left _ _⟩

end Target

variable {value : Int32}

namespace Platform

open Target

variable {platform : Platform} {message : ControlMessage} {bytes rest tail slot : Bytes}
  {dataLen need : Nat}

theorem header_le_data : platform.header ≤ platform.data := (align_spec platform.data_eq).1

theorem header_pos : 0 < platform.header := by
  have := platform.level_inside
  omega

theorem header_lt : platform.header < 2 ^ platform.usizeBits :=
  Nat.lt_of_le_of_lt header_le_data (align_spec platform.data_eq).2.1

theorem space_spec (sized : platform.space dataLen = some need) :
    platform.data + dataLen ≤ need ∧ need < 2 ^ platform.usizeBits := by
  obtain ⟨data, aligned, added⟩ := Option.bind_eq_some_iff.mp sized
  obtain ⟨inside, rfl⟩ := checkedAdd_iff.mp added
  have := (align_spec aligned).1
  exact ⟨by omega, inside⟩

theorem len_of_space (sized : platform.space dataLen = some need) :
    platform.len dataLen = some (platform.data + dataLen) := by
  have := space_spec sized
  exact checkedAdd_iff.mpr ⟨by omega, rfl⟩

/-- The walk rounds the header and the data to the size the builder reserved. -/
theorem align_of_space (sized : platform.space dataLen = some need) :
    platform.align (platform.data + dataLen) = some need := by
  obtain ⟨data, aligned, added⟩ := Option.bind_eq_some_iff.mp sized
  obtain ⟨inside, rfl⟩ := checkedAdd_iff.mp added
  obtain ⟨below, -, divides⟩ := align_spec aligned
  obtain ⟨-, -, ⟨count, even⟩⟩ := align_spec platform.data_eq
  obtain ⟨-, rounded⟩ := align_iff.mp aligned
  refine align_iff.mpr ⟨?_, ?_⟩
  · have whole : platform.alignment ∣ 2 ^ platform.usizeBits - (data + platform.data) :=
      Nat.dvd_sub (Nat.pow_dvd_pow 2 platform.narrow) (Nat.dvd_add divides ⟨count, even⟩)
    have := Nat.le_of_dvd (Nat.sub_pos_of_lt inside) whole
    have := @alignment_pos platform.toTarget
    omega
  · rw [even, Nat.add_assoc, Nat.mul_add_div alignment_pos, Nat.add_mul, rounded, Nat.mul_comm count,
      Nat.add_comm]

/-! ### An element -/

/-- The bytes of an element: its header's fields, its data, and padding behind them. -/
structure IsElement (platform : Platform) (message : ControlMessage) (bytes : Bytes) : Prop where
  sized : platform.space message.data.length = some bytes.length
  holds : platform.data + message.data.length < 256 ^ platform.lenWidth
  len : window bytes platform.lenAt platform.lenWidth =
    some (toNeBytes platform.order platform.lenWidth (platform.data + message.data.length))
  level : window bytes platform.levelAt 4 =
    some (toNeBytes platform.order 4 message.level.toUInt32.toNat)
  kind : window bytes platform.typeAt 4 =
    some (toNeBytes platform.order 4 message.kind.toUInt32.toNat)
  payload : window bytes platform.data message.data.length = some message.data

theorem readI32_eq {at_ : Nat} (inside : at_ + 4 ≤ platform.header)
    (read : window bytes at_ 4 = some (toNeBytes platform.order 4 value.toUInt32.toNat)) :
    platform.readI32 bytes at_ = some value := by
  have small := @header_lt platform
  rw [readI32, checkedAdd_iff.mpr ⟨by omega, rfl⟩, Option.bind_some, read, Option.map_some,
    fromNeBytes_toNeBytes (UInt32.toNat_lt _), UInt32.ofNat_toNat]
  rfl

theorem window_cut {start count stop : Nat} {part : Bytes} (read : window bytes start count = some part) (before : start + count ≤ stop) :
    window ((bytes ++ tail).take stop) start count = some part :=
  window_take (window_append read) before

/-- An element cut behind its data is the element; cut before, it is none. -/
theorem IsElement.element_take (isElement : platform.IsElement message bytes) (stop : Nat) :
    platform.element ((bytes ++ tail).take stop) =
      if platform.data + message.data.length ≤ stop then
        some (message, min bytes.length ((bytes ++ tail).take stop).length)
      else none := by
  have long := space_spec isElement.sized
  have above := @header_le_data platform
  have size : ((bytes ++ tail).take stop).length = min stop (bytes.length + tail.length) := by
    rw [List.length_take, List.length_append]
  have lenInside := platform.len_inside
  have levelInside := platform.level_inside
  have typeInside := platform.type_inside
  rw [element]
  split
  · next short => rw [if_neg (by omega)]
  · next headed =>
    have lenRead : platform.readLen ((bytes ++ tail).take stop) =
        some (platform.data + message.data.length) := by
      rw [readLen, window_cut isElement.len (by omega), Option.bind_some,
        fromNeBytes_toNeBytes isElement.holds, if_pos (by omega)]
    rw [lenRead, Option.bind_some]
    split
    · next outside => rw [if_neg (by omega)]
    · next within =>
      rw [readI32_eq levelInside (window_cut isElement.level (by omega)),
        Option.bind_some, readI32_eq typeInside (window_cut isElement.kind (by omega)),
        Option.bind_some, if_pos (by omega), align_of_space isElement.sized]
      dsimp only
      rw [Nat.min_eq_left (Nat.le_add_right _ _), Nat.add_sub_cancel_left,
        window_cut isElement.payload (by omega)]
      rfl

/-! ### The walk -/

/-- An element lies in front of the next one, and its data in it. -/
theorem element_spec {step : Nat} (found : platform.element rest = some (message, step)) :
    platform.header ≤ step ∧ step ≤ rest.length ∧ message.data <:+: rest.take step := by
  unfold element at found
  split at found
  · cases found
  obtain ⟨len, -, found⟩ := Option.bind_eq_some_iff.mp found
  split at found
  · cases found
  · next within =>
    obtain ⟨level, -, found⟩ := Option.bind_eq_some_iff.mp found
    obtain ⟨kind, -, found⟩ := Option.bind_eq_some_iff.mp found
    obtain ⟨rfl, rfl⟩ := Prod.mk.inj (Option.some.inj found)
    have reaches : len ≤ ((platform.align len).map fun aligned => min aligned rest.length).getD
        rest.length := by
      rcases aligned : platform.align len with - | sum
      · exact Nat.le_of_not_lt fun short => within (.inr short)
      · have := (align_spec aligned).1
        exact Nat.le_min.mpr ⟨this, Nat.le_of_not_lt fun short => within (.inr short)⟩
    refine ⟨by omega, ?_, ?_⟩
    · rcases platform.align len with - | sum
      · exact Nat.le_refl _
      · exact Nat.min_le_right _ _
    · rcases read : window rest (min platform.data len) (len - min platform.data len) with - | data
      · exact List.nil_infix
      · exact window_infix (window_take read (by omega))

theorem next_lt {after : Bytes} (found : platform.next rest = (some message, after)) :
    after.length < rest.length := by
  unfold next at found
  split at found
  · next step same =>
    obtain ⟨-, rfl⟩ := Prod.mk.inj found
    have := element_spec same
    have := @header_pos platform
    rw [List.length_drop]
    omega
  · cases found

end Platform

/-- What a walk over the buffer yields. -/
def Platform.messages (platform : Platform) (control : Bytes) : List ControlMessage :=
  match _found : platform.next control with
  | (some message, rest) => message :: platform.messages rest
  | (none, _) => []
termination_by control.length
decreasing_by exact Platform.next_lt _found

namespace Platform

open Target

variable {platform : Platform} {message : ControlMessage} {bytes rest tail slot control : Bytes}
  {dataLen need : Nat}

theorem messages_eq (control : Bytes) :
    platform.messages control =
      match platform.element control with
      | some (message, step) => message :: platform.messages (control.drop step)
      | none => [] := by
  rw [messages]
  unfold next
  rcases platform.element control with - | ⟨message, step⟩ <;> rfl

theorem element_nil : platform.element [] = none := if_pos header_pos

theorem messages_nil : platform.messages [] = [] := by rw [messages_eq, element_nil]

/-- The walk ends, and what it yields lies in the buffer, one behind the other. -/
structure Walks (platform : Platform) (control : Bytes) : Prop where
  calls : ∀ count, (platform.next ((fun rest => (platform.next rest).2)^[count] control)).1 =
    (platform.messages control)[count]?
  count : (platform.messages control).length * platform.header ≤ control.length
  inside : ∀ message ∈ platform.messages control, message.data <:+: control
  apart : ((platform.messages control).map ControlMessage.data).flatten.Sublist control

theorem next_ended (count : Nat) :
    (platform.next ((fun rest => (platform.next rest).2)^[count] [])).1 = none := by
  have none_ : platform.next [] = (none, []) := by rw [next, element_nil]
  induction count with
  | zero => rw [Function.iterate_zero_apply, none_]
  | succ count inductionHypothesis => rw [Function.iterate_succ_apply, none_, inductionHypothesis]

theorem walks (control : Bytes) : platform.Walks control := by
  induction size : control.length using Nat.strongRecOn generalizing control with
  | _ size inductionHypothesis =>
    rcases found : platform.element control with - | ⟨message, step⟩
    · have none_ : platform.messages control = [] := by rw [messages_eq, found]
      have stops : platform.next control = (none, []) := by rw [next, found]
      refine ⟨fun count => ?_, ?_, ?_, ?_⟩ <;> rw [none_]
      · rcases count with - | count
        · rw [Function.iterate_zero_apply, stops, List.getElem?_nil]
        · rw [Function.iterate_succ_apply, stops, next_ended, List.getElem?_nil]
      · exact Nat.zero_mul _ ▸ Nat.zero_le _
      · exact fun message member => absurd member List.not_mem_nil
      · exact List.nil_sublist _
    · obtain ⟨above, inside, lies⟩ := element_spec found
      have positive := @header_pos platform
      have first : platform.messages control = message :: platform.messages (control.drop step) := by
        rw [messages_eq, found]
      have moves : platform.next control = (some message, control.drop step) := by rw [next, found]
      have later := inductionHypothesis _ (by rw [← size, List.length_drop]; omega)
        (control.drop step) rfl
      have halves := List.take_append_drop step control
      refine ⟨fun count => ?_, ?_, ?_, ?_⟩ <;> rw [first]
      · rcases count with - | count
        · rw [Function.iterate_zero_apply, moves, List.getElem?_cons_zero]
        · rw [Function.iterate_succ_apply, moves, later.calls, List.getElem?_cons_succ]
      · have rest := later.count
        rw [List.length_drop] at rest
        rw [List.length_cons, Nat.succ_mul]
        omega
      · refine List.forall_mem_cons.mpr ⟨?_, fun message member => ?_⟩
        · exact lies.trans (List.take_prefix _ _).isInfix
        · exact (later.inside message member).trans (List.drop_suffix _ _).isInfix
      · rw [List.map_cons, List.flatten_cons, ← halves]
        exact lies.sublist.append (halves.symm ▸ later.apart)

/-! ### A buffer of elements -/

/-- Elements one behind the other, and the messages they are of. -/
inductive Laid (platform : Platform) : List ControlMessage → Bytes → Prop
  | nil : Laid platform [] []
  | cons {message : ControlMessage} {messages : List ControlMessage} {bytes rest : Bytes} :
    platform.IsElement message bytes → Laid platform messages rest →
    Laid platform (message :: messages) (bytes ++ rest)

variable {messages : List ControlMessage}

theorem Laid.concat (laid : platform.Laid messages bytes)
    (isElement : platform.IsElement message slot) :
    platform.Laid (messages ++ [message]) (bytes ++ slot) := by
  induction laid with
  | nil =>
    have one := Laid.cons isElement .nil
    rwa [List.append_nil] at one
  | cons head _ inductionHypothesis =>
    rw [List.append_assoc]
    exact .cons head inductionHypothesis

/-- The walk finds the messages the elements are of. -/
theorem Laid.messages_eq (laid : platform.Laid messages bytes) :
    platform.messages bytes = messages := by
  induction laid with
  | nil => exact messages_nil
  | @cons message messages bytes rest isElement _ inductionHypothesis =>
    have long := space_spec isElement.sized
    have whole := @IsElement.element_take _ _ _ rest isElement (bytes ++ rest).length
    rw [List.take_length, List.length_append, if_pos (by omega),
      Nat.min_eq_left (Nat.le_add_right _ _)] at whole
    rw [Platform.messages_eq, whole]
    dsimp only
    rw [List.drop_left, inductionHypothesis]

/-- In a cut buffer the walk finds the messages in front of the cut. -/
theorem Laid.messages_take (laid : platform.Laid messages bytes) (stop : Nat) :
    platform.messages (bytes.take stop) <+: messages := by
  induction laid generalizing stop with
  | nil => exact List.prefix_nil.mpr (by rw [List.take_nil, messages_nil])
  | @cons message messages bytes rest isElement _ inductionHypothesis =>
    rw [Platform.messages_eq, isElement.element_take]
    split
    · next found =>
      split at found
      · obtain ⟨rfl, rfl⟩ := Prod.mk.inj (Option.some.inj found)
        refine List.prefix_cons_iff.mpr (.inr ⟨_, rfl, ?_⟩)
        rcases Nat.le_total stop bytes.length with before | behind
        · have short : ((bytes ++ rest).take stop).length ≤ bytes.length := by
            rw [List.length_take]
            omega
          rw [Nat.min_eq_right short, List.drop_length, messages_nil]
          exact List.nil_prefix
        · have inside : bytes.length ≤ ((bytes ++ rest).take stop).length := by
            rw [List.length_take, List.length_append]
            omega
          rw [Nat.min_eq_left inside, List.take_append, List.take_of_length_le behind, List.drop_left]
          exact inductionHypothesis _
      · cases found
    · exact List.nil_prefix

/-! ### The builder -/

theorem copyAt_inside {at_ : Nat} {raw : Bytes} (inside : at_ + raw.length ≤ slot.length) :
    ∃ after, copyAt at_ raw slot = (some (), after) ∧ overwrite slot at_ raw = some after := by
  obtain ⟨after, written⟩ := exists_overwrite inside
  exact ⟨after, by rw [copyAt, written], written⟩

theorem writeI32_eq {at_ : Nat} (inside : at_ + 4 ≤ platform.header) :
    platform.writeI32 at_ value =
      copyAt at_ (toNeBytes platform.order 4 value.toUInt32.toNat) := by
  have small := @header_lt platform
  funext slot
  rw [writeI32, checkedAdd_iff.mpr ⟨by omega, rfl⟩]

/-- A length that its field can hold is written with the rest of the element. -/
theorem writeElement_holds (sized : platform.space message.data.length = some slot.length)
    (holds : platform.data + message.data.length < 256 ^ platform.lenWidth) :
    ∃ bytes, platform.writeElement message slot = (some (), bytes) ∧
      platform.IsElement message bytes := by
  have long := space_spec sized
  have above := @header_le_data platform
  have lenInside := platform.len_inside
  have levelInside := platform.level_inside
  have typeInside := platform.type_inside
  have lenLevel := platform.len_level
  have lenType := platform.len_type
  have levelType := platform.level_type
  obtain ⟨one, copied, first⟩ := @copyAt_inside slot platform.lenAt
    (toNeBytes platform.order platform.lenWidth (platform.data + message.data.length))
    (by rw [length_toNeBytes]; omega)
  have oneSize := length_overwrite first
  obtain ⟨two, copied', second⟩ := @copyAt_inside one platform.levelAt
    (toNeBytes platform.order 4 message.level.toUInt32.toNat)
    (by rw [length_toNeBytes]; omega)
  have twoSize := length_overwrite second
  obtain ⟨three, copied'', third⟩ := @copyAt_inside two platform.typeAt
    (toNeBytes platform.order 4 message.kind.toUInt32.toNat)
    (by rw [length_toNeBytes]; omega)
  have threeSize := length_overwrite third
  obtain ⟨bytes, copied''', fourth⟩ := @copyAt_inside three platform.data
    message.data (by omega)
  have size := length_overwrite fourth
  refine ⟨bytes, ?_, ?_⟩
  · rw [writeElement, len_of_space sized, writeI32_eq levelInside, writeI32_eq typeInside]
    simp only [Writing.andThen, writeLen, if_pos holds, copied, copied', copied'', copied''']
  · have firstRead := window_overwrite first
    have secondRead := window_overwrite second
    have thirdRead := window_overwrite third
    simp only [length_toNeBytes] at firstRead secondRead thirdRead
    refine ⟨by rw [sized, size, threeSize, twoSize, oneSize], holds, ?_, ?_, ?_,
      window_overwrite fourth⟩
    · refine window_apart fourth (.inl (by omega)) (window_apart third ?_ (window_apart second ?_
        firstRead)) <;> rw [length_toNeBytes] <;> omega
    · refine window_apart fourth (.inl (by omega)) (window_apart third ?_ secondRead)
      rw [length_toNeBytes]
      omega
    · exact window_apart fourth (.inl (by omega)) thirdRead

/-- A length that its field cannot hold leaves the slot as it is. -/
theorem writeElement_not_holds (beyond : ¬platform.data + message.data.length <
    256 ^ platform.lenWidth) (sized : platform.space message.data.length = some need) :
    platform.writeElement message slot = (none, slot) := by
  rw [writeElement, len_of_space sized]
  simp only [Writing.andThen, writeLen, if_neg beyond]

variable {builder : Builder} {buf : Bytes}

/-- The buffer has room for the element behind what was written. -/
def Fits (platform : Platform) (builder : Builder) (message : ControlMessage) : Prop :=
  ∃ need, platform.space message.data.length = some need ∧
    builder.len + need < 2 ^ platform.usizeBits ∧ builder.len + need ≤ builder.buf.length

/-- The element has room, but its length field cannot hold its length, and the room is not zeroed
yet. -/
def Spoils (platform : Platform) (builder : Builder) (message : ControlMessage) : Prop :=
  ∃ need, platform.space message.data.length = some need ∧
    builder.len + need < 2 ^ platform.usizeBits ∧ builder.len + need ≤ builder.buf.length ∧
    256 ^ platform.lenWidth ≤ platform.data + message.data.length ∧
    window builder.buf builder.len need ≠ some (List.replicate need 0)

theorem push_not_fits (small : ¬platform.Fits builder message) :
    platform.push builder message = (.error .full, builder) := by
  unfold push
  rcases sized : platform.space message.data.length with - | need
  · rfl
  · dsimp only
    rcases added : platform.checkedAdd builder.len need with - | stop
    · rfl
    · obtain ⟨inside, rfl⟩ := checkedAdd_iff.mp added
      exact if_neg fun room => small ⟨need, sized, inside, room⟩

theorem push_of_fits (sized : platform.space message.data.length = some need)
    (inside : builder.len + need < 2 ^ platform.usizeBits)
    (room : builder.len + need ≤ builder.buf.length) :
    platform.push builder message =
      match platform.writeElement message (List.replicate need 0) with
      | (some (), slot) =>
        (.ok (), ⟨builder.buf.take builder.len ++ slot ++ builder.buf.drop (builder.len + need),
          builder.len + need⟩)
      | (none, slot) =>
        (.error .full,
          ⟨builder.buf.take builder.len ++ slot ++ builder.buf.drop (builder.len + need),
            builder.len⟩) := by
  have added : platform.checkedAdd builder.len need = some (builder.len + need) :=
    checkedAdd_iff.mpr ⟨inside, rfl⟩
  rw [push, sized]
  dsimp only
  rw [added]
  dsimp only
  rw [if_pos room]
  rcases platform.writeElement message (List.replicate need 0) with ⟨- | -, slot⟩ <;> rfl

/-- A message with room whose length can be held is appended. -/
theorem push_ok (fits : platform.Fits builder message)
    (holds : platform.data + message.data.length < 256 ^ platform.lenWidth) :
    ∃ bytes, platform.IsElement message bytes ∧
      builder.len + bytes.length ≤ builder.buf.length ∧
      platform.push builder message =
        (.ok (), ⟨builder.buf.take builder.len ++ bytes ++
          builder.buf.drop (builder.len + bytes.length), builder.len + bytes.length⟩) := by
  obtain ⟨need, sized, inside, room⟩ := fits
  obtain ⟨bytes, written, isElement⟩ := @writeElement_holds _ _ (List.replicate need 0)
    (by rw [List.length_replicate]; exact sized) holds
  have same : need = bytes.length := Option.some.inj (sized.symm.trans isElement.sized)
  rw [same] at written room inside sized
  exact ⟨bytes, isElement, room, by rw [push_of_fits sized inside room, written]⟩

/-- A message with room whose length cannot be held is refused, and its room zeroed. -/
theorem push_zeroes (sized : platform.space message.data.length = some need)
    (inside : builder.len + need < 2 ^ platform.usizeBits)
    (room : builder.len + need ≤ builder.buf.length)
    (beyond : ¬platform.data + message.data.length < 256 ^ platform.lenWidth) :
    platform.push builder message =
      (.error .full, ⟨builder.buf.take builder.len ++ List.replicate need 0 ++
        builder.buf.drop (builder.len + need), builder.len⟩) := by
  rw [push_of_fits sized inside room, writeElement_not_holds beyond sized]

theorem zeroed_iff (room : builder.len + need ≤ builder.buf.length) :
    builder.buf.take builder.len ++ List.replicate need 0 ++
        builder.buf.drop (builder.len + need) = builder.buf ↔
      window builder.buf builder.len need = some (List.replicate need 0) := by
  have halves : builder.buf = builder.buf.take builder.len ++
      (builder.buf.drop builder.len).take need ++ builder.buf.drop (builder.len + need) := by
    rw [← List.take_add, List.take_append_drop]
  have read : window builder.buf builder.len need =
      some ((builder.buf.drop builder.len).take need) := if_pos room
  rw [read, Option.some_inj]
  constructor
  · intro same
    exact (List.append_cancel_left (List.append_cancel_right (same.trans halves))).symm
  · intro zero
    rw [← zero]
    exact halves.symm

/-- A refused message leaves the buffer as it was unless it spoils it. -/
theorem refused_kept_iff :
    ((platform.push builder message).1 = .error .full →
      (platform.push builder message).2 = builder) ↔ ¬platform.Spoils builder message := by
  rcases Classical.em (platform.Fits builder message) with fits | small
  · rcases Nat.lt_or_ge (platform.data + message.data.length) (256 ^ platform.lenWidth)
      with holds | beyond
    · obtain ⟨bytes, -, -, pushed⟩ := push_ok fits holds
      rw [pushed]
      refine ⟨fun _ ⟨_, _, _, _, beyond, _⟩ => ?_, fun _ => nofun⟩
      exact absurd holds (Nat.not_lt_of_le beyond)
    · obtain ⟨need, sized, inside, room⟩ := fits
      rw [push_zeroes sized inside room (Nat.not_lt_of_le beyond)]
      constructor
      · rintro kept ⟨need', sized', -, -, -, dirty⟩
        obtain rfl : need = need' := Option.some.inj (sized.symm.trans sized')
        exact dirty ((zeroed_iff room).mp (congrArg Builder.buf (kept rfl)))
      · intro spared _
        refine congrArg (Builder.mk · builder.len) ((zeroed_iff room).mpr ?_)
        exact Classical.byContradiction fun dirty =>
          spared ⟨need, sized, inside, room, beyond, dirty⟩
  · rw [push_not_fits small]
    refine ⟨fun _ ⟨need, sized, inside, room, _⟩ => ?_, fun _ _ => rfl⟩
    exact small ⟨need, sized, inside, room⟩

/-- The builder wrote the elements of these messages. -/
structure Holds (platform : Platform) (builder : Builder) (messages : List ControlMessage) :
    Prop where
  inside : builder.len ≤ builder.buf.length
  laid : platform.Laid messages (builder.buf.take builder.len)

theorem Holds.written (holds : platform.Holds builder messages) :
    builder.written = builder.buf.take builder.len := by
  rw [Builder.written, window, if_pos (by rw [Nat.zero_add]; exact holds.inside)]
  rfl

theorem holds_new : platform.Holds (.new buf) [] := ⟨Nat.zero_le _, .nil⟩

/-- An accepted message is held behind those before it, and a refused one is not held. -/
theorem Holds.push (holds : platform.Holds builder messages) (message : ControlMessage) :
    (∃ after, platform.push builder message = (.ok (), after) ∧
        platform.Holds after (messages ++ [message])) ∨
      ∃ after, platform.push builder message = (.error .full, after) ∧
        platform.Holds after messages := by
  have front : (builder.buf.take builder.len).length = builder.len := by
    rw [List.length_take]
    exact Nat.min_eq_left holds.inside
  rcases Classical.em (platform.Fits builder message) with fits | small
  · rcases Nat.lt_or_ge (platform.data + message.data.length) (256 ^ platform.lenWidth)
      with short | beyond
    · obtain ⟨bytes, isElement, room, pushed⟩ := push_ok fits short
      have size : (builder.buf.take builder.len ++ bytes).length = builder.len + bytes.length := by
        rw [List.length_append, front]
      refine .inl ⟨_, pushed, ?_, ?_⟩
      · rw [List.length_append, size]
        exact Nat.le_add_right _ _
      · dsimp only
        rw [← size, List.take_left]
        exact holds.laid.concat isElement
    · obtain ⟨need, sized, inside, room⟩ := fits
      refine .inr ⟨_, push_zeroes sized inside room (Nat.not_lt_of_le beyond), ?_, ?_⟩
      · rw [List.append_assoc, List.length_append, front]
        exact Nat.le_add_right _ _
      · have kept : (builder.buf.take builder.len ++ List.replicate need 0 ++
            builder.buf.drop (builder.len + need)).take builder.len =
              builder.buf.take builder.len := by
          rw [List.append_assoc, List.take_append_of_le_length (Nat.le_of_eq front.symm),
            List.take_take, Nat.min_self]
        have laid := holds.laid
        rw [← kept] at laid
        exact laid
  · exact .inr ⟨builder, push_not_fits small, holds⟩

/-- The builder holds what it accepted. -/
theorem Holds.pushAll (holds : platform.Holds builder messages) (triples : List ControlMessage) :
    platform.Holds (platform.pushAll builder triples).1
      (messages ++ (platform.pushAll builder triples).2) := by
  induction triples generalizing builder messages with
  | nil => rw [Platform.pushAll, List.append_nil]; exact holds
  | cons message triples inductionHypothesis =>
    rw [Platform.pushAll]
    rcases holds.push message with ⟨after, pushed, held⟩ | ⟨after, pushed, held⟩
    · rw [pushed]
      have later := inductionHypothesis held
      rw [List.append_assoc] at later
      exact later
    · rw [pushed]
      exact inductionHypothesis held

/-- What was pushed is found again: the walk over the written bytes yields the accepted messages,
over a cut of them those in front of the cut; what has no room is refused, and what is refused
leaves the builder as it was; and every walk ends inside its buffer. -/
structure RoundTrips (platform : Platform) (buf : Bytes) (triples : List ControlMessage) :
    Prop where
  whole : platform.messages (platform.pushAll (.new buf) triples).1.written =
    (platform.pushAll (.new buf) triples).2
  cut : ∀ stop, platform.messages ((platform.pushAll (.new buf) triples).1.written.take stop) <+:
    (platform.pushAll (.new buf) triples).2
  refused : ∀ before message after, triples = before ++ message :: after →
    ¬platform.Fits (platform.pushAll (.new buf) before).1 message →
      (platform.push (platform.pushAll (.new buf) before).1 message).1 = .error .full
  kept : ∀ before message after, triples = before ++ message :: after →
    (platform.push (platform.pushAll (.new buf) before).1 message).1 = .error .full →
      (platform.push (platform.pushAll (.new buf) before).1 message).2 =
        (platform.pushAll (.new buf) before).1
  walks : ∀ control, platform.Walks control

/-- Control messages round-trip if and only if no message with room in the buffer is longer than
its length field can hold, where that room is not zeroed already. -/
theorem roundTrips_iff (platform : Platform) (buf : Bytes) (triples : List ControlMessage) :
    platform.RoundTrips buf triples ↔
      ∀ before message after, triples = before ++ message :: after →
        ¬platform.Spoils (platform.pushAll (.new buf) before).1 message := by
  have held := (@holds_new platform buf).pushAll triples
  rw [List.nil_append] at held
  constructor
  · exact fun trips before message after same =>
      refused_kept_iff.mp (trips.kept before message after same)
  · intro spared
    refine ⟨?_, fun stop => ?_, fun _ _ _ _ small => ?_, fun before message after same => ?_, walks⟩
    · rw [held.written]
      exact held.laid.messages_eq
    · rw [held.written]
      exact held.laid.messages_take stop
    · rw [push_not_fits small]
    · exact refused_kept_iff.mpr (spared before message after same)

end Platform

/-- `cmsghdr` on Apple platforms: its length field is narrower than a pointer. -/
def apple : Platform where
  order := .little
  usizeBits := 64
  alignBits := 2
  header := 12
  lenWidth := 4
  lenAt := 0
  levelAt := 4
  typeAt := 8
  data := 12
  data_eq := by decide
  narrow := by decide
  len_inside := by decide
  level_inside := by decide
  type_inside := by decide
  len_level := by decide
  len_type := by decide
  level_type := by decide

/-- A message of 4 GiB is refused on Apple platforms after its room was zeroed. -/
theorem apple_spoiled :
    ¬apple.RoundTrips (List.replicate (2 ^ 32 + 12) 1)
      [⟨0, 0, List.replicate (2 ^ 32) 0⟩] := by
  intro trips
  refine Platform.refused_kept_iff.mp (trips.kept [] _ [] rfl) ⟨2 ^ 32 + 12, ?_, ?_, ?_, ?_, ?_⟩
  · rw [List.length_replicate]
    decide
  · decide
  · rw [Platform.pushAll, Builder.new, List.length_replicate, Nat.zero_add]
  · rw [List.length_replicate]
    decide
  · intro zeroed
    have first := (Lib.window_iff.mp zeroed).2.2 0 (by decide)
    rw [Platform.pushAll, Builder.new, List.getElem?_replicate, List.getElem?_replicate,
      if_pos (by decide), if_pos (by decide)] at first
    exact absurd first (by decide)

end ZeroServer.Sys

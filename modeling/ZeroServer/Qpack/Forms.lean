/-
This file models the wire forms as they are written into a buffer, with what was appended taken
back when a part is out of range, and proves that every form is read back from what was written,
whatever follows it.
-/

import ZeroServer.Lib.Writing
import ZeroServer.Qpack.Instructions
import ZeroServer.Qpack.Sections

namespace ZeroServer.Qpack

open Http1 Lib

/-! ### Writing -/

/-- Append the encoding of an integer. -/
def Integer.pushInto (value : Nat) (bits : PrefixBits) (flags : UInt8) : Writing UInt8 := fun out =>
  match encode value bits flags (List.replicate maxLen 0) with
  | none => (none, out)
  | some (buffer, len) => (some (), out ++ buffer.take len)

/-- Append a literal as it is held. -/
def StringLiteral.encodeInto (literal : StringLiteral) (bits : StringPrefixBits) (flags : UInt8) :
    Writing UInt8 :=
  (Integer.pushInto literal.data.length bits.lengthPrefix
    (bits.flags flags literal.huffman)).andThen fun out => (some (), out ++ literal.data)

namespace Representation

/-- Append a representation, possibly only a part of it. -/
def write : Representation → Writing UInt8
  | .indexed staticTable index => Integer.pushInto index .p6 (indexedFlags staticTable)
  | .indexedPostBase index => Integer.pushInto index .p4 0x10
  | .literalNameReference neverIndexed staticTable index value =>
    (Integer.pushInto index .p4 (nameReferenceFlags neverIndexed staticTable)).andThen
      (value.encodeInto .p8 0)
  | .literalPostBaseNameReference neverIndexed index value =>
    (Integer.pushInto index .p3 (postBaseNameReferenceFlags neverIndexed)).andThen
      (value.encodeInto .p8 0)
  | .literalName neverIndexed name value =>
    (name.encodeInto .p4 (literalNameFlags neverIndexed)).andThen (value.encodeInto .p8 0)

def encodeInto (representation : Representation) : Writing UInt8 := representation.write.orTruncate

end Representation

/-- Append the prefix of a section. -/
def Prefix.encodeInto (fields : Prefix) : Writing UInt8 :=
  ((Integer.pushInto fields.encodedInsertCount .p8 0).andThen
    (Integer.pushInto fields.deltaBase .p7 (if fields.sign then 0x80 else 0))).orTruncate

/-- Append an encoder instruction. -/
def EncoderInstruction.encodeInto (instruction : EncoderInstruction) : Writing UInt8 :=
  Writing.orTruncate <|
    match instruction with
    | .setDynamicTableCapacity capacity => Integer.pushInto capacity .p5 0x20
    | .insertWithNameReference staticTable index value =>
      (Integer.pushInto index .p6 (if staticTable then 0xC0 else 0x80)).andThen
        (value.encodeInto .p8 0)
    | .insertWithLiteralName name value =>
      (name.encodeInto .p6 0x40).andThen (value.encodeInto .p8 0)
    | .duplicate index => Integer.pushInto index .p5 0x00

/-- Append a decoder instruction. -/
def DecoderInstruction.encodeInto : DecoderInstruction → Writing UInt8
  | .sectionAcknowledgment streamId => Integer.pushInto streamId .p7 0x80
  | .streamCancellation streamId => Integer.pushInto streamId .p6 0x40
  | .insertCountIncrement increment => Integer.pushInto increment .p6 0x00

/-! ### What is written -/

theorem Integer.pushInto_appends (value : Nat) (bits : PrefixBits) (flags : UInt8) :
    (pushInto value bits flags).AppendsOrNot (value ≤ maxValue) (wire value bits flags) := by
  have same : ∀ out, pushInto value bits flags out =
      ((push value bits flags out).map fun _ => (), (push value bits flags out).getD out) := by
    intro out
    unfold pushInto push
    rcases encode value bits flags (List.replicate maxLen 0) with - | ⟨buffer, len⟩ <;> rfl
  refine ⟨fun inRange out => ?_, fun beyond out => ?_⟩
  · rw [same, push_eq inRange]
    rfl
  · rw [same, push_none (Nat.lt_of_not_le beyond)]
    rfl

theorem StringLiteral.encodeInto_appends (literal : StringLiteral) (bits : StringPrefixBits)
    (flags : UInt8) :
    (literal.encodeInto bits flags).AppendsOrNot (literal.data.length ≤ Integer.maxValue)
      (literal.wire bits flags) := by
  have length := Integer.pushInto_appends literal.data.length bits.lengthPrefix
    (bits.flags flags literal.huffman)
  refine ⟨fun inRange out => ?_, fun beyond out => ?_⟩
  · rw [encodeInto, Writing.andThen, length.whole inRange]
    dsimp only
    rw [wire, List.append_assoc]
  · rw [encodeInto, Writing.andThen, length.none beyond]

theorem Representation.encodeInto_appends (representation : Representation) :
    representation.encodeInto.AppendsOrNot representation.InRange representation.wire := by
  refine Writing.Appends.orTruncate ?_
  cases representation with
  | indexed staticTable index => exact (Integer.pushInto_appends index _ _).appends
  | indexedPostBase index => exact (Integer.pushInto_appends index _ _).appends
  | literalNameReference neverIndexed staticTable index value =>
    exact (Integer.pushInto_appends index _ _).appends.andThen
      (value.encodeInto_appends _ _).appends
  | literalPostBaseNameReference neverIndexed index value =>
    exact (Integer.pushInto_appends index _ _).appends.andThen
      (value.encodeInto_appends _ _).appends
  | literalName neverIndexed name value =>
    exact (name.encodeInto_appends _ _).appends.andThen (value.encodeInto_appends _ _).appends

namespace Prefix

/-- The integers of a prefix are in range. -/
def InRange (fields : Prefix) : Prop :=
  fields.encodedInsertCount ≤ Integer.maxValue ∧ fields.deltaBase ≤ Integer.maxValue

/-- A prefix as it is on the wire. -/
def wire (fields : Prefix) : Bytes :=
  Integer.wire fields.encodedInsertCount .p8 0 ++
    Integer.wire fields.deltaBase .p7 (if fields.sign then 0x80 else 0)

theorem encodeInto_appends (fields : Prefix) :
    fields.encodeInto.AppendsOrNot fields.InRange fields.wire :=
  ((Integer.pushInto_appends _ _ _).appends.andThen
    (Integer.pushInto_appends _ _ _).appends).orTruncate

end Prefix

namespace EncoderInstruction

/-- The integers of an instruction are in range. -/
def InRange : EncoderInstruction → Prop
  | .setDynamicTableCapacity capacity => capacity ≤ Integer.maxValue
  | .insertWithNameReference _ index value =>
    index ≤ Integer.maxValue ∧ value.data.length ≤ Integer.maxValue
  | .insertWithLiteralName name value =>
    name.data.length ≤ Integer.maxValue ∧ value.data.length ≤ Integer.maxValue
  | .duplicate index => index ≤ Integer.maxValue

/-- The string literals of an instruction are within a cap. -/
def Within (cap : Nat) : EncoderInstruction → Prop
  | .insertWithNameReference _ _ value => value.data.length ≤ cap
  | .insertWithLiteralName name value => name.data.length ≤ cap ∧ value.data.length ≤ cap
  | .setDynamicTableCapacity _ | .duplicate _ => True

/-- An instruction as it is on the wire. -/
def wire : EncoderInstruction → Bytes
  | .setDynamicTableCapacity capacity => Integer.wire capacity .p5 0x20
  | .insertWithNameReference staticTable index value =>
    Integer.wire index .p6 (if staticTable then 0xC0 else 0x80) ++ value.wire .p8 0
  | .insertWithLiteralName name value => name.wire .p6 0x40 ++ value.wire .p8 0
  | .duplicate index => Integer.wire index .p5 0x00

theorem encodeInto_appends (instruction : EncoderInstruction) :
    instruction.encodeInto.AppendsOrNot instruction.InRange instruction.wire := by
  refine Writing.Appends.orTruncate ?_
  cases instruction with
  | setDynamicTableCapacity capacity => exact (Integer.pushInto_appends capacity _ _).appends
  | insertWithNameReference staticTable index value =>
    exact (Integer.pushInto_appends index _ _).appends.andThen
      (value.encodeInto_appends _ _).appends
  | insertWithLiteralName name value =>
    exact (name.encodeInto_appends _ _).appends.andThen (value.encodeInto_appends _ _).appends
  | duplicate index => exact (Integer.pushInto_appends index _ _).appends

end EncoderInstruction

namespace DecoderInstruction

/-- The integer of an instruction. -/
def value : DecoderInstruction → Nat
  | .sectionAcknowledgment streamId | .streamCancellation streamId => streamId
  | .insertCountIncrement increment => increment

def InRange (instruction : DecoderInstruction) : Prop := instruction.value ≤ Integer.maxValue

/-- An instruction as it is on the wire. -/
def wire : DecoderInstruction → Bytes
  | .sectionAcknowledgment streamId => Integer.wire streamId .p7 0x80
  | .streamCancellation streamId => Integer.wire streamId .p6 0x40
  | .insertCountIncrement increment => Integer.wire increment .p6 0x00

theorem encodeInto_appends (instruction : DecoderInstruction) :
    instruction.encodeInto.AppendsOrNot instruction.InRange instruction.wire := by
  cases instruction with
  | sectionAcknowledgment streamId => exact Integer.pushInto_appends streamId _ _
  | streamCancellation streamId => exact Integer.pushInto_appends streamId _ _
  | insertCountIncrement increment => exact Integer.pushInto_appends increment _ _

end DecoderInstruction

/-! ### What is read -/

variable {input : Bytes} {used : Nat}

variable {bits : StringPrefixBits} {literal : StringLiteral}

/-- A form takes some of the input. -/
def Spans (input : Bytes) (used : Nat) : Prop := 1 ≤ used ∧ used ≤ input.length

theorem Spans.append {more : Nat} (one : Spans input used) (two : Spans (input.drop used) more) :
    Spans input (used + more) := by
  obtain ⟨positive, inside⟩ := one
  obtain ⟨-, later⟩ := two
  rw [List.length_drop] at later
  exact ⟨by omega, by omega⟩

theorem Integer.decode_spans {bits : PrefixBits} {cap value : Nat}
    (done : decode input bits cap = .ok (some (value, used))) :
    value ≤ maxValue ∧ Spans input used :=
  have read := decode_some done
  ⟨read.2.1, read.2.2⟩

theorem StringLiteral.parse_spans {cap : Nat}
    (done : parse input bits cap = .ok (some (literal, used))) :
    literal.data.length ≤ cap ∧ literal.data.length ≤ Integer.maxValue ∧ Spans input used := by
  cases input with
  | nil => cases done
  | cons first rest =>
    rw [parse] at done
    rcases length : Integer.decode (first :: rest) bits.lengthPrefix cap with
      fault | (- | ⟨len, taken⟩)
    · rw [length] at done
      cases done
    · rw [length] at done
      cases done
    · rw [length] at done
      obtain ⟨within, inRange, positive, inside⟩ := Integer.decode_some length
      dsimp only at done
      split at done
      · cases done
      · rename_i enough
        cases done
        have exact := List.length_take_of_le (Nat.le_of_not_lt enough)
        rw [List.length_drop] at enough
        exact ⟨exact.symm ▸ within, exact.symm ▸ inRange, by omega, by omega⟩

namespace Representation

theorem completeIndex_spans {bits : PrefixBits} {index : Nat}
    (done : completeIndex input bits = .ok (index, used)) :
    index ≤ Integer.maxValue ∧ Spans input used := by
  unfold completeIndex at done
  split at done
  · cases done
  · cases done
  · rename_i decoded
    cases done
    exact Integer.decode_spans decoded

theorem completeLiteral_spans (done : completeLiteral input bits = .ok (literal, used)) :
    literal.data.length ≤ Integer.maxValue ∧ Spans input used := by
  unfold completeLiteral at done
  split at done
  · cases done
  · cases done
  · rename_i parsed
    cases done
    exact (StringLiteral.parse_spans parsed).2

/-- A verdict that needs another one first. -/
theorem bind_ok {Fault Value Result : Type} {first : Except Fault Value}
    {next : Value → Except Fault Result} {result : Result} (done : first.bind next = .ok result) :
    ∃ value, first = .ok value ∧ next value = .ok result := by
  cases first with
  | error fault => cases done
  | ok value => exact ⟨value, rfl, done⟩

/-- What is read is in range. -/
theorem parse_spans {representation : Representation}
    (done : parse input = .ok (representation, used)) :
    representation.InRange ∧ Spans input used := by
  cases input with
  | nil => cases done
  | cons first rest =>
    unfold parse at done
    dsimp only [bind, pure, Except.pure] at done
    split at done
    · obtain ⟨⟨index, taken⟩, indexed, same⟩ := bind_ok done
      cases same
      exact completeIndex_spans indexed
    split at done
    · obtain ⟨⟨index, taken⟩, indexed, later⟩ := bind_ok done
      obtain ⟨⟨value, valueLen⟩, valued, same⟩ := bind_ok later
      cases same
      obtain ⟨small, spans⟩ := completeIndex_spans indexed
      obtain ⟨short, more⟩ := completeLiteral_spans valued
      exact ⟨⟨small, short⟩, spans.append more⟩
    split at done
    · obtain ⟨⟨name, taken⟩, named, later⟩ := bind_ok done
      obtain ⟨⟨value, valueLen⟩, valued, same⟩ := bind_ok later
      cases same
      obtain ⟨small, spans⟩ := completeLiteral_spans named
      obtain ⟨short, more⟩ := completeLiteral_spans valued
      exact ⟨⟨small, short⟩, spans.append more⟩
    split at done
    · obtain ⟨⟨index, taken⟩, indexed, same⟩ := bind_ok done
      cases same
      exact completeIndex_spans indexed
    · obtain ⟨⟨index, taken⟩, indexed, later⟩ := bind_ok done
      obtain ⟨⟨value, valueLen⟩, valued, same⟩ := bind_ok later
      cases same
      obtain ⟨small, spans⟩ := completeIndex_spans indexed
      obtain ⟨short, more⟩ := completeLiteral_spans valued
      exact ⟨⟨small, short⟩, spans.append more⟩

end Representation

namespace Prefix

variable {fields : Prefix}

theorem parse_spans (done : parse input = .ok (fields, used)) :
    fields.InRange ∧ Spans input used := by
  obtain ⟨⟨count, first⟩, counted, later⟩ := Representation.bind_ok done
  obtain ⟨⟨delta, second⟩, based, same⟩ := Representation.bind_ok later
  cases same
  obtain ⟨small, spans⟩ := Representation.completeIndex_spans counted
  obtain ⟨short, more⟩ := Representation.completeIndex_spans based
  exact ⟨⟨small, short⟩, spans.append more⟩

/-- A prefix is read back as it was written, whatever follows it. -/
theorem parse_wire (inRange : fields.InRange) (more : Bytes) :
    parse (fields.wire ++ more) = .ok (fields, fields.wire.length) := by
  obtain ⟨first, rest, same, others⟩ := Integer.wire_first fields.deltaBase .p7
    (if fields.sign then 0x80 else 0)
  have signBit : ((first :: (rest ++ more)).head?.any fun octet => octet &&& 0x80 != 0) =
      fields.sign := by
    rw [List.head?_cons, Option.any_some, others 0x80 (by decide)]
    cases fields.sign <;> decide
  rw [wire, List.append_assoc, parse, Representation.completeIndex_wire inRange.1]
  dsimp only [bind, Except.bind]
  rw [List.drop_left, Representation.completeIndex_wire inRange.2, same, List.cons_append, signBit,
    ← same, List.length_append]
  rfl

end Prefix

namespace EncoderInstruction

variable {maxStringLen : Nat} {instruction : EncoderInstruction}

theorem parse_spans (done : parse input maxStringLen = .ok (some (instruction, used))) :
    instruction.InRange ∧ instruction.Within maxStringLen ∧ Spans input used := by
  cases input with
  | nil => cases done
  | cons first rest =>
    unfold parse at done
    dsimp only at done
    split at done
    · split at done
      · cases done
      · cases done
      rename_i index taken indexed
      split at done
      · cases done
      · cases done
      rename_i value valueLen valued
      cases done
      obtain ⟨small, spans⟩ := Integer.decode_spans indexed
      obtain ⟨within, short, more⟩ := StringLiteral.parse_spans valued
      exact ⟨⟨small, short⟩, within, spans.append more⟩
    split at done
    · split at done
      · cases done
      · cases done
      rename_i name taken named
      split at done
      · cases done
      · cases done
      rename_i value valueLen valued
      cases done
      obtain ⟨nameWithin, small, spans⟩ := StringLiteral.parse_spans named
      obtain ⟨within, short, more⟩ := StringLiteral.parse_spans valued
      exact ⟨⟨small, short⟩, ⟨nameWithin, within⟩, spans.append more⟩
    · split at done
      · cases done
      · cases done
      rename_i value taken decoded
      obtain ⟨small, spans⟩ := Integer.decode_spans decoded
      split at done
      · cases done
        exact ⟨small, trivial, spans⟩
      · cases done
        exact ⟨small, trivial, spans⟩

/-- An instruction is read back as it was written, whatever follows it. -/
theorem parse_wire (inRange : instruction.InRange) (within : instruction.Within maxStringLen)
    (more : Bytes) :
    parse (instruction.wire ++ more) maxStringLen =
      .ok (some (instruction, instruction.wire.length)) := by
  cases instruction with
  | setDynamicTableCapacity capacity =>
    obtain ⟨first, rest, same, others⟩ := Integer.wire_first capacity .p5 0x20
    rw [wire, same, List.cons_append, parse, if_neg (by rw [others 0x80 (by decide)]; decide),
      if_neg (by rw [others 0xC0 (by decide)]; decide), ← List.cons_append, ← same,
      Integer.decode_wire inRange inRange]
    dsimp only
    rw [if_pos (by rw [others 0xE0 (by decide)]; decide)]
  | insertWithNameReference staticTable index value =>
    obtain ⟨first, rest, same, others⟩ :=
      Integer.wire_first index .p6 (if staticTable then 0xC0 else 0x80)
    have tBit : ((if staticTable then 0xC0 else 0x80 : UInt8) &&& 0x40 != 0) = staticTable := by
      cases staticTable <;> decide
    rw [wire, List.append_assoc, same, List.cons_append, parse,
      if_pos (by rw [others 0x80 (by decide)]; cases staticTable <;> decide),
      others 0x40 (by decide), tBit, ← List.cons_append, ← same,
      Integer.decode_wire inRange.1 inRange.1]
    dsimp only
    rw [List.drop_left, StringLiteral.parse_wire inRange.2 within, List.length_append]
  | insertWithLiteralName name value =>
    obtain ⟨first, rest, same, others⟩ := name.wire_first .p6 0x40
    rw [wire, List.append_assoc, same, List.cons_append, parse,
      if_neg (by rw [others 0x80 (by decide)]; decide),
      if_pos (by rw [others 0xC0 (by decide)]; decide), ← List.cons_append, ← same,
      StringLiteral.parse_wire inRange.1 within.1]
    dsimp only
    rw [List.drop_left, StringLiteral.parse_wire inRange.2 within.2, List.length_append]
  | duplicate index =>
    obtain ⟨first, rest, same, others⟩ := Integer.wire_first index .p5 0x00
    rw [wire, same, List.cons_append, parse, if_neg (by rw [others 0x80 (by decide)]; decide),
      if_neg (by rw [others 0xC0 (by decide)]; decide), ← List.cons_append, ← same,
      Integer.decode_wire inRange inRange]
    dsimp only
    rw [if_neg (by rw [others 0xE0 (by decide)]; decide)]

end EncoderInstruction

namespace DecoderInstruction

variable {instruction : DecoderInstruction}

theorem parse_spans (done : parse input = .ok (some (instruction, used))) :
    instruction.InRange ∧ Spans input used := by
  cases input with
  | nil => cases done
  | cons first rest =>
    rw [parse_cons] at done
    split at done
    · cases done
    · cases done
    rename_i value taken decoded
    cases done
    obtain ⟨small, spans⟩ := Integer.decode_spans decoded
    refine ⟨?_, spans⟩
    unfold InRange instructionOf
    split
    · exact small
    split
    · exact small
    · exact small

/-- An instruction is read back as it was written, whatever follows it. -/
theorem parse_wire (inRange : instruction.InRange) (more : Bytes) :
    parse (instruction.wire ++ more) = .ok (some (instruction, instruction.wire.length)) := by
  cases instruction with
  | sectionAcknowledgment streamId =>
    have small : streamId ≤ Integer.maxValue := inRange
    obtain ⟨first, rest, same, others⟩ := Integer.wire_first streamId .p7 0x80
    have top : first &&& 0x80 ≠ 0 := by
      rw [others 0x80 (by decide)]
      decide
    rw [wire, same, List.cons_append, parse_cons, if_pos top, ← List.cons_append, ← same,
      Integer.decode_wire small small]
    dsimp only
    rw [instructionOf, if_pos top]
  | streamCancellation streamId =>
    have small : streamId ≤ Integer.maxValue := inRange
    obtain ⟨first, rest, same, others⟩ := Integer.wire_first streamId .p6 0x40
    have top : ¬first &&& 0x80 ≠ 0 := by
      rw [others 0x80 (by decide)]
      decide
    rw [wire, same, List.cons_append, parse_cons, if_neg top, ← List.cons_append, ← same,
      Integer.decode_wire small small]
    dsimp only
    rw [instructionOf, if_neg top, if_pos (by rw [others 0x40 (by decide)]; decide)]
  | insertCountIncrement increment =>
    have small : increment ≤ Integer.maxValue := inRange
    obtain ⟨first, rest, same, others⟩ := Integer.wire_first increment .p6 0x00
    have top : ¬first &&& 0x80 ≠ 0 := by
      rw [others 0x80 (by decide)]
      decide
    rw [wire, same, List.cons_append, parse_cons, if_neg top, ← List.cons_append, ← same,
      Integer.decode_wire small small]
    dsimp only
    rw [instructionOf, if_neg top, if_neg (by rw [others 0x40 (by decide)]; decide)]

end DecoderInstruction

/-! ### Round trips -/

/-- Every form that fits is written and read back, whatever follows it; one that does not fit leaves
the buffer as it was; and what is read takes some of the input, and is read again once written. -/
structure RoundTrips {Form : Type} (encode : Form → Writing UInt8)
    (Reads : Bytes → Form → Nat → Prop) (InRange Within : Form → Prop) : Prop where
  written : ∀ form, InRange form → Within form → ∀ out, ∃ wire,
    encode form out = (some (), out ++ wire) ∧ ∀ suffix, Reads (wire ++ suffix) form wire.length
  refused : ∀ form, ¬InRange form → ∀ out, encode form out = (none, out)
  delimited : ∀ input form used, Reads input form used →
    (1 ≤ used ∧ used ≤ input.length) ∧ ∃ wire,
      encode form [] = (some (), wire) ∧ Reads wire form wire.length

theorem RoundTrips.of {Form : Type} {encode : Form → Writing UInt8}
    {Reads : Bytes → Form → Nat → Prop} {InRange Within : Form → Prop} {wire : Form → Bytes}
    (appends : ∀ form, (encode form).AppendsOrNot (InRange form) (wire form))
    (reads : ∀ form, InRange form → Within form → ∀ suffix,
      Reads (wire form ++ suffix) form (wire form).length)
    (spans : ∀ input form used, Reads input form used →
      InRange form ∧ Within form ∧ Spans input used) :
    RoundTrips encode Reads InRange Within where
  written form inRange within out :=
    ⟨wire form, (appends form).whole inRange out, reads form inRange within⟩
  refused form beyond out := (appends form).none beyond out
  delimited input form used read := by
    obtain ⟨inRange, within, inside⟩ := spans input form used read
    have again := reads form inRange within []
    rw [List.append_nil] at again
    exact ⟨inside, wire form, (appends form).whole inRange [], again⟩

/-- Representations, prefixes and the instructions of both streams are written and read back. -/
theorem forms_round_trip (maxStringLen : Nat) :
    RoundTrips Representation.encodeInto
      (fun input form used => Representation.parse input = .ok (form, used))
      Representation.InRange (fun _ => True) ∧
    RoundTrips Prefix.encodeInto
      (fun input form used => Prefix.parse input = .ok (form, used))
      Prefix.InRange (fun _ => True) ∧
    RoundTrips EncoderInstruction.encodeInto
      (fun input form used => EncoderInstruction.parse input maxStringLen = .ok (some (form, used)))
      EncoderInstruction.InRange (EncoderInstruction.Within maxStringLen) ∧
    RoundTrips DecoderInstruction.encodeInto
      (fun input form used => DecoderInstruction.parse input = .ok (some (form, used)))
      DecoderInstruction.InRange (fun _ => True) := by
  refine ⟨?_, ?_, ?_, ?_⟩
  · refine .of Representation.encodeInto_appends
      (fun form inRange _ suffix => Representation.parse_wire inRange suffix)
      fun input form used read => ?_
    obtain ⟨inRange, spans⟩ := Representation.parse_spans read
    exact ⟨inRange, trivial, spans⟩
  · refine .of Prefix.encodeInto_appends
      (fun form inRange _ suffix => Prefix.parse_wire inRange suffix)
      fun input form used read => ?_
    obtain ⟨inRange, spans⟩ := Prefix.parse_spans read
    exact ⟨inRange, trivial, spans⟩
  · exact .of EncoderInstruction.encodeInto_appends
      (fun form inRange within suffix => EncoderInstruction.parse_wire inRange within suffix)
      fun input form used read => EncoderInstruction.parse_spans read
  · refine .of DecoderInstruction.encodeInto_appends
      (fun form inRange _ suffix => DecoderInstruction.parse_wire inRange suffix)
      fun input form used read => ?_
    obtain ⟨inRange, spans⟩ := DecoderInstruction.parse_spans read
    exact ⟨inRange, trivial, spans⟩

end ZeroServer.Qpack

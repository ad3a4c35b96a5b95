/-
This file models encoded field sections: their prefix, the encoder that writes a field line as a
static or a literal representation, and the decoder that yields the field lines one at a time.
-/

import Mathlib.Data.List.Forall2
import ZeroServer.Qpack.Representation

namespace ZeroServer.Qpack

open Http1

/-! ### The prefix of a section -/

/-- The two integers that start a section. -/
structure Prefix where
  encodedInsertCount : Nat
  sign : Bool
  deltaBase : Nat
  deriving DecidableEq

namespace Prefix

/-- The prefix of every section without references to the dynamic table. -/
def static : Prefix := ⟨0, false, 0⟩

def parse (input : Bytes) : Except Fault (Prefix × Nat) := do
  let (encodedInsertCount, first) ← Representation.completeIndex input .p8
  let rest := input.drop first
  let sign := rest.head?.any fun octet => octet &&& 0x80 != 0
  let (deltaBase, second) ← Representation.completeIndex rest .p7
  return (⟨encodedInsertCount, sign, deltaBase⟩, first + second)

def encode (fields : Prefix) (out : Bytes) : Option Bytes := do
  let out ← Integer.push fields.encodedInsertCount .p8 0 out
  Integer.push fields.deltaBase .p7 (if fields.sign then 0x80 else 0) out

end Prefix

def maxEntries (maxTableCapacity : Nat) : Nat := maxTableCapacity / 32

/-- A number of 64 bits. -/
def checked (number : Nat) : Except Fault Nat :=
  if number < 2 ^ 64 then .ok number else .error .requiredInsertCount

/-- The Required Insert Count of an encoded one. -/
def requiredInsertCount (encoded maxEntries totalInserts : Nat) : Except Fault Nat := do
  let fullRange ← checked (maxEntries * 2)
  if encoded = 0 then return 0
  if fullRange < encoded then throw .requiredInsertCount
  let maxValue ← checked (totalInserts + maxEntries)
  if fullRange = 0 then throw .requiredInsertCount
  let maxWrapped ← checked (maxValue / fullRange * fullRange)
  let sum ← checked (maxWrapped + encoded)
  if sum = 0 then throw .requiredInsertCount
  let count ←
    if maxValue < sum - 1 then
      if sum - 1 ≤ fullRange then throw .requiredInsertCount else pure (sum - 1 - fullRange)
    else pure (sum - 1)
  if count = 0 then throw .requiredInsertCount
  return count

def base (requiredInsertCount : Nat) (sign : Bool) (deltaBase : Nat) : Except Fault Nat :=
  if sign then
    if requiredInsertCount ≤ deltaBase then .error .negativeBase
    else .ok (requiredInsertCount - deltaBase - 1)
  else if requiredInsertCount + deltaBase < 2 ^ 64 then .ok (requiredInsertCount + deltaBase)
  else .error (.integer .tooLarge)

/-! ### Field lines -/

structure FieldLine where
  name : Bytes
  value : Bytes
  neverIndexed : Bool
  deriving DecidableEq

/-- The field names always written as literals with the N bit. -/
def sensitiveNames : List Bytes := [ascii "authorization", ascii "cookie", ascii "set-cookie"]

/-! ### The encoder -/

/-- When string literals are Huffman coded. -/
inductive HuffmanPolicy where
  | never
  | shorter
  | always
  deriving DecidableEq

structure Encoder where
  huffman : HuffmanPolicy
  deriving DecidableEq

namespace Encoder

/-- Whether a text is Huffman coded. -/
def codes (encoder : Encoder) (text : Bytes) : Bool :=
  match encoder.huffman with
  | .never => false
  | .always => true
  | .shorter => Huffman.encodedLen text < text.length

def text (encoder : Encoder) (text : Bytes) (bits : StringPrefixBits) (flags : UInt8)
    (out : Bytes) : Option Bytes :=
  StringLiteral.encodeText text (encoder.codes text) bits flags out

/-- Append the representation of a field line. -/
def encodeLine (encoder : Encoder) (line : FieldLine) (out : Bytes) : Option Bytes :=
  let neverIndexed := line.neverIndexed || sensitiveNames.contains line.name
  match neverIndexed, Table.find line.name line.value with
  | true, some found => do
    let out ← Integer.push found.index .p4 (0x40 ||| 0x20 ||| 0x10) out
    encoder.text line.value .p8 0 out
  | false, some (.full index) => Integer.push index .p6 0xC0 out
  | false, some (.name index) => do
    let out ← Integer.push index .p4 (0x40 ||| 0x10) out
    encoder.text line.value .p8 0 out
  | neverIndexed, none => do
    let out ← encoder.text line.name .p4 (if neverIndexed then 0x20 ||| 0x10 else 0x20) out
    encoder.text line.value .p8 0 out

def encodeLines (encoder : Encoder) : List FieldLine → Bytes → Option Bytes
  | [], out => some out
  | line :: lines, out => do
    let out ← encoder.encodeLine line out
    encoder.encodeLines lines out

/-- Append a section; nothing is appended when a name or a value is too long. -/
def encode (encoder : Encoder) (lines : List FieldLine) (out : Bytes) : Option Bytes := do
  let out ← Prefix.static.encode out
  encoder.encodeLines lines out

end Encoder

/-! ### The decoder -/

structure Decoder where
  maxStringLen : Nat
  deriving DecidableEq

/-- The field lines of a section that are left. -/
structure FieldLines where
  rest : Bytes
  maxStringLen : Nat
  done : Bool
  deriving DecidableEq

def Decoder.decode (decoder : Decoder) (input : Bytes) : Except Error FieldLines :=
  let prefixed : Except Fault Nat := do
    let (fields, used) ← Prefix.parse input
    let count ← requiredInsertCount fields.encodedInsertCount (maxEntries 0) 0
    let _ ← base count fields.sign fields.deltaBase
    return used
  match prefixed with
  | .error fault => .error ⟨.fieldSection, fault⟩
  | .ok used => .ok ⟨input.drop used, decoder.maxStringLen, false⟩

namespace FieldLines

def withinLimit (lines : FieldLines) (literal : StringLiteral) : Except Fault Unit :=
  if lines.maxStringLen < literal.data.length then .error (.integer .tooLarge) else .ok ()

def entryAt (index : Nat) : Except Fault Table.StaticEntry :=
  match Table.get index with
  | some entry => .ok entry
  | none => .error .invalidStaticIndex

def textOf (literal : StringLiteral) : Except Fault Bytes :=
  match literal.decode with
  | .ok text => .ok text
  | .error fault => .error (.huffman fault)

/-- The field line of a representation. -/
def resolve (lines : FieldLines) : Representation → Except Fault FieldLine
  | .indexed true index => do
    let entry ← entryAt index
    return ⟨entry.name, entry.value, false⟩
  | .literalNameReference neverIndexed true index value => do
    let entry ← entryAt index
    lines.withinLimit value
    let value ← textOf value
    return ⟨entry.name, value, neverIndexed⟩
  | .literalName neverIndexed name value => do
    lines.withinLimit name
    lines.withinLimit value
    let name ← textOf name
    let value ← textOf value
    return ⟨name, value, neverIndexed⟩
  | _ => .error .dynamicReference

/-- Parse and resolve the next representation. -/
def line (lines : FieldLines) : Except Fault (FieldLine × Nat) := do
  let (representation, used) ← Representation.parse lines.rest
  let line ← lines.resolve representation
  return (line, used)

def next (lines : FieldLines) : Option (Except Error FieldLine) × FieldLines :=
  if lines.done || lines.rest.isEmpty then (none, lines)
  else
    match lines.line with
    | .ok (line, used) => (some (.ok line), { lines with rest := lines.rest.drop used })
    | .error fault => (some (.error ⟨.fieldSection, fault⟩), { lines with done := true })

/-- What an iterator yields until it yields nothing. -/
inductive Yields : FieldLines → List (Except Error FieldLine) → Prop
  | nil {lines : FieldLines} (ended : lines.next.1 = none) : Yields lines []
  | cons {lines later : FieldLines} {item : Except Error FieldLine}
      {items : List (Except Error FieldLine)} (yielded : lines.next = (some item, later))
      (more : Yields later items) : Yields lines (item :: items)

end FieldLines

/-! ### What the encoder picks -/

/-- A field line as it arrives: the names that are always literals are marked. -/
def FieldLine.marked (line : FieldLine) : FieldLine :=
  { line with neverIndexed := line.neverIndexed || sensitiveNames.contains line.name }

theorem FieldLine.marked_marked (line : FieldLine) : line.marked.marked = line.marked := by
  unfold FieldLine.marked
  rw [Bool.or_assoc, Bool.or_self]

variable {encoder : Encoder} {lines : List FieldLine}

namespace Encoder

/-- The length of a text as a string literal. -/
def textLen (encoder : Encoder) (text : Bytes) : Nat :=
  if encoder.codes text then Huffman.encodedLen text else text.length

/-- A text as the string literal it is written as. -/
def literal (encoder : Encoder) (text : Bytes) : StringLiteral :=
  StringLiteral.ofText text (encoder.codes text)

theorem length_literal (encoder : Encoder) (text : Bytes) :
    (encoder.literal text).data.length = encoder.textLen text := by
  unfold literal textLen StringLiteral.ofText
  by_cases codes : encoder.codes text
  · rw [if_pos codes, if_pos codes, Huffman.length_encode]
  · rw [if_neg codes, if_neg codes]

/-- The representation a field line is written as. -/
def pick (encoder : Encoder) (line : FieldLine) : Representation :=
  match line.marked.neverIndexed, Table.find line.name line.value with
  | true, some found => .literalNameReference true true found.index (encoder.literal line.value)
  | false, some (.full index) => .indexed true index
  | false, some (.name index) => .literalNameReference false true index (encoder.literal line.value)
  | neverIndexed, none =>
    .literalName neverIndexed (encoder.literal line.name) (encoder.literal line.value)

theorem text_eq (encoder : Encoder) (text : Bytes) (bits : StringPrefixBits) (flags : UInt8)
    (out : Bytes) : encoder.text text bits flags out = (encoder.literal text).encode bits flags out :=
  StringLiteral.encodeText_eq text (encoder.codes text) bits flags out

/-- A field line is written as the representation picked for it. -/
theorem encodeLine_eq (encoder : Encoder) (line : FieldLine) (out : Bytes) :
    encoder.encodeLine line out = (encoder.pick line).encode out := by
  have same : line.marked.neverIndexed =
      (line.neverIndexed || sensitiveNames.contains line.name) := rfl
  unfold encodeLine pick
  simp only [same, text_eq]
  rcases line.neverIndexed || sensitiveNames.contains line.name with - | -
  · rcases Table.find line.name line.value with - | (index | index) <;> rfl
  · rcases Table.find line.name line.value with - | found <;> rfl

theorem pick_inRange {line : FieldLine} (name : encoder.textLen line.name ≤ Integer.maxValue)
    (value : encoder.textLen line.value ≤ Integer.maxValue) : (encoder.pick line).InRange := by
  rw [← length_literal] at name value
  have small : ∀ found, Table.find line.name line.value = some found →
      found.index ≤ Integer.maxValue := by
    intro found same
    have names := Table.find_names same
    cases found with
    | full index => exact Nat.le_trans (Nat.le_of_lt (Table.get_lt names)) (by decide)
    | name index =>
      obtain ⟨other, inTable⟩ := names
      exact Nat.le_trans (Nat.le_of_lt (Table.get_lt inTable)) (by decide)
  unfold pick
  rcases line.marked.neverIndexed with - | -
  · rcases found : Table.find line.name line.value with - | (index | index)
    · exact ⟨name, value⟩
    · exact small _ found
    · exact ⟨small _ found, value⟩
  · rcases found : Table.find line.name line.value with - | match_
    · exact ⟨name, value⟩
    · exact ⟨small _ found, value⟩

/-- Every line is a static or a literal representation, with the N bit where it is marked. -/
theorem pick_static (encoder : Encoder) (line : FieldLine) :
    (encoder.pick line).isDynamic = false ∧
      (encoder.pick line).isNeverIndexed = line.marked.neverIndexed := by
  unfold pick
  rcases line.marked.neverIndexed with - | -
  · rcases Table.find line.name line.value with - | (index | index) <;> exact ⟨rfl, rfl⟩
  · rcases Table.find line.name line.value with - | found <;> exact ⟨rfl, rfl⟩

theorem pick_marked (encoder : Encoder) (line : FieldLine) :
    encoder.pick line.marked = encoder.pick line := by
  unfold pick
  rw [FieldLine.marked_marked]
  rfl

theorem encodeLines_eq (inRange : ∀ line ∈ lines, (encoder.pick line).InRange) (out : Bytes) :
    encoder.encodeLines lines out =
      some (out ++ lines.flatMap fun line => (encoder.pick line).wire) := by
  induction lines generalizing out with
  | nil => rw [encodeLines, List.flatMap_nil, List.append_nil]
  | cons line lines inductionHypothesis =>
    rw [encodeLines, encodeLine_eq, Representation.encode_eq (inRange line List.mem_cons_self),
      Option.bind_eq_bind, Option.bind_some,
      inductionHypothesis fun line member => inRange line (List.mem_cons_of_mem _ member),
      List.flatMap_cons, List.append_assoc]

theorem inRange_of_encodeLines {out after : Bytes}
    (written : encoder.encodeLines lines out = some after) :
    ∀ line ∈ lines, (encoder.pick line).InRange := by
  induction lines generalizing out with
  | nil => exact fun line member => absurd member List.not_mem_nil
  | cons line lines inductionHypothesis =>
    obtain ⟨between, first, later⟩ := Option.bind_eq_some_iff.mp written
    rw [encodeLine_eq] at first
    exact List.forall_mem_cons.mpr
      ⟨Representation.inRange_of_encode first, inductionHypothesis later⟩

/-- A section is its prefix and the representations of its lines. -/
theorem encode_eq (inRange : ∀ line ∈ lines, (encoder.pick line).InRange) (out : Bytes) :
    encoder.encode lines out =
      some (out ++ [0, 0] ++ lines.flatMap fun line => (encoder.pick line).wire) := by
  have static : Prefix.static.encode out = some (out ++ [0, 0]) := by
    rw [Prefix.encode, Integer.push_eq (by decide), Option.bind_eq_bind, Option.bind_some,
      Integer.push_eq (by decide), List.append_assoc]
    rfl
  rw [encode, static, Option.bind_eq_bind, Option.bind_some, encodeLines_eq inRange]

end Encoder

/-! ### Reading a section back -/

namespace FieldLines

theorem textOf_literal (encoder : Encoder) (text : Bytes) :
    textOf (encoder.literal text) = .ok text := by
  rw [textOf, Encoder.literal, StringLiteral.decode_ofText]

theorem withinLimit_literal {lines : FieldLines} {text : Bytes}
    (within : encoder.textLen text ≤ lines.maxStringLen) :
    lines.withinLimit (encoder.literal text) = .ok () := by
  rw [withinLimit, Encoder.length_literal, if_neg (Nat.not_lt.mpr within)]

/-- The representation picked for a line resolves to the line. -/
theorem resolve_pick {lines : FieldLines} {line : FieldLine}
    (name : encoder.textLen line.name ≤ lines.maxStringLen)
    (value : encoder.textLen line.value ≤ lines.maxStringLen) :
    lines.resolve (encoder.pick line) = .ok line.marked := by
  have same : line.marked = ⟨line.name, line.value, line.marked.neverIndexed⟩ := rfl
  rw [same]
  unfold Encoder.pick
  rcases line.marked.neverIndexed with - | -
  · rcases found : Table.find line.name line.value with - | (index | index)
    · simp only [resolve, withinLimit_literal name, withinLimit_literal value, textOf_literal]
      rfl
    · have inTable := Table.find_names found
      rw [Table.Match.Names] at inTable
      simp only [resolve, entryAt, inTable]
      rfl
    · obtain ⟨other, inTable⟩ := Table.find_names found
      simp only [resolve, entryAt, inTable, withinLimit_literal value, textOf_literal]
      rfl
  · rcases found : Table.find line.name line.value with - | match_
    · simp only [resolve, withinLimit_literal name, withinLimit_literal value, textOf_literal]
      rfl
    · have names := Table.find_names found
      have named : ∃ other, Table.get match_.index = some ⟨line.name, other⟩ := by
        cases match_ with
        | full index => exact ⟨_, names⟩
        | name index => exact names
      obtain ⟨other, inTable⟩ := named
      simp only [resolve, entryAt, inTable, withinLimit_literal value, textOf_literal]
      rfl

variable {maxStringLen : Nat}

theorem next_pick {line : FieldLine} {more : Bytes} (inRange : (encoder.pick line).InRange)
    (name : encoder.textLen line.name ≤ maxStringLen)
    (value : encoder.textLen line.value ≤ maxStringLen) :
    next ⟨(encoder.pick line).wire ++ more, maxStringLen, false⟩ =
      (some (.ok line.marked), ⟨more, maxStringLen, false⟩) := by
  have some_ : ((encoder.pick line).wire ++ more).isEmpty = false := by
    rw [List.isEmpty_eq_false_iff]
    exact List.append_ne_nil_of_left_ne_nil (Representation.wire_ne_nil _) _
  have read : FieldLines.line ⟨(encoder.pick line).wire ++ more, maxStringLen, false⟩ =
      .ok (line.marked, (encoder.pick line).wire.length) := by
    rw [FieldLines.line, Representation.parse_wire inRange]
    dsimp only [bind, Except.bind]
    rw [resolve_pick name value]
    rfl
  unfold next
  dsimp only
  rw [some_, read, Bool.or_self, if_neg Bool.false_ne_true]
  dsimp only
  rw [List.drop_left]

/-- The lines that were written are yielded, and then nothing. -/
theorem yields_picks (inRange : ∀ line ∈ lines, (encoder.pick line).InRange)
    (within : ∀ line ∈ lines, encoder.textLen line.name ≤ maxStringLen ∧
      encoder.textLen line.value ≤ maxStringLen) :
    Yields ⟨lines.flatMap fun line => (encoder.pick line).wire, maxStringLen, false⟩
      (lines.map fun line => .ok line.marked) := by
  induction lines with
  | nil => exact .nil rfl
  | cons line lines inductionHypothesis =>
    obtain ⟨name, value⟩ := within line List.mem_cons_self
    rw [List.flatMap_cons, List.map_cons]
    exact .cons (next_pick (inRange line List.mem_cons_self) name value)
      (inductionHypothesis (fun line member => inRange line (List.mem_cons_of_mem _ member))
        fun line member => within line (List.mem_cons_of_mem _ member))

end FieldLines

/-- The representations that octets are, one after the other. -/
inductive Representation.Sequence : Bytes → List Representation → Prop
  | nil : Sequence [] []
  | cons {input : Bytes} {representation : Representation} {used : Nat}
      {later : List Representation} (parsed : parse input = .ok (representation, used))
      (more : Sequence (input.drop used) later) : Sequence input (representation :: later)

theorem Representation.sequence_wires {representations : List Representation}
    (inRange : ∀ representation ∈ representations, representation.InRange) :
    Sequence (representations.flatMap wire) representations := by
  induction representations with
  | nil => exact .nil
  | cons representation later inductionHypothesis =>
    rw [List.flatMap_cons]
    refine .cons (parse_wire (inRange representation List.mem_cons_self) _) ?_
    rw [List.drop_left]
    exact inductionHypothesis fun other member => inRange other (List.mem_cons_of_mem _ member)

theorem Decoder.decode_static (decoder : Decoder) (rest : Bytes) :
    decoder.decode (0 :: 0 :: rest) = .ok ⟨rest, decoder.maxStringLen, false⟩ := by
  rfl

/-- Encoding fails only for a name or a value whose length is not an integer of 62 bits. Otherwise
the section decodes to the lines in order, each with the flag it had or its name calls for; it is
made of static and literal representations, with the N bit on every line that was marked; and the
decoded lines are encoded as the same section. -/
theorem decode_encode (encoder : Encoder) (decoder : Decoder) (lines : List FieldLine)
    (within : ∀ line ∈ lines, encoder.textLen line.name ≤ decoder.maxStringLen ∧
      encoder.textLen line.value ≤ decoder.maxStringLen) :
    (encoder.encode lines [] = none →
      ∃ line ∈ lines, Integer.maxValue < encoder.textLen line.name ∨
        Integer.maxValue < encoder.textLen line.value) ∧
    ∀ encoded, encoder.encode lines [] = some encoded →
      (∃ fieldLines representations, decoder.decode encoded = .ok fieldLines ∧
        fieldLines.Yields (lines.map fun line => .ok line.marked) ∧
        Representation.Sequence fieldLines.rest representations ∧
        List.Forall₂ (fun line representation => representation.isDynamic = false ∧
          (line.neverIndexed = true → representation.isNeverIndexed = true))
          lines representations) ∧
      encoder.encode (lines.map FieldLine.marked) [] = some encoded := by
  refine ⟨fun refused => ?_, fun encoded written => ?_⟩
  · by_contra short
    have inRange : ∀ line ∈ lines, (encoder.pick line).InRange := by
      intro line member
      refine Encoder.pick_inRange (Nat.le_of_not_lt fun beyond => ?_)
        (Nat.le_of_not_lt fun beyond => ?_)
      · exact short ⟨line, member, .inl beyond⟩
      · exact short ⟨line, member, .inr beyond⟩
    rw [Encoder.encode_eq inRange] at refused
    cases refused
  · have inRange : ∀ line ∈ lines, (encoder.pick line).InRange := by
      rw [Encoder.encode] at written
      obtain ⟨between, -, later⟩ := Option.bind_eq_some_iff.mp written
      exact Encoder.inRange_of_encodeLines later
    rw [Encoder.encode_eq inRange] at written
    cases written
    refine ⟨⟨_, lines.map encoder.pick, decoder.decode_static _,
      FieldLines.yields_picks inRange within, ?_, ?_⟩, ?_⟩
    · have wires : ∀ representation ∈ lines.map encoder.pick, representation.InRange := by
        intro representation member
        obtain ⟨line, inLines, rfl⟩ := List.mem_map.mp member
        exact inRange line inLines
      have sequence := Representation.sequence_wires wires
      rw [List.flatMap_map] at sequence
      exact sequence
    · rw [List.forall₂_map_right_iff]
      refine List.forall₂_same.mpr fun line _ => ?_
      obtain ⟨static, marked⟩ := encoder.pick_static line
      refine ⟨static, fun flagged => ?_⟩
      rw [marked, FieldLine.marked, flagged]
      rfl
    · have again : ∀ line ∈ lines.map FieldLine.marked, (encoder.pick line).InRange := by
        intro line member
        obtain ⟨original, inLines, rfl⟩ := List.mem_map.mp member
        rw [Encoder.pick_marked]
        exact inRange original inLines
      rw [Encoder.encode_eq again, List.flatMap_map]
      exact congrArg (fun wires => some ([] ++ [0, 0] ++ wires))
        (List.flatMap_congr fun line _ => congrArg _ (encoder.pick_marked line))

/-- A request line, a cookie and a marked field. -/
theorem decode_encode_request :
    let lines : List FieldLine := [⟨ascii ":method", ascii "GET", false⟩,
      ⟨ascii "cookie", ascii "id=42", false⟩, ⟨ascii "x-token", ascii "~", true⟩]
    ∀ encoded, (Encoder.mk .shorter).encode lines [] = some encoded →
      (Encoder.mk .shorter).encode (lines.map FieldLine.marked) [] = some encoded ∧
      ∃ fieldLines, (Decoder.mk 65536).decode encoded = .ok fieldLines ∧
        fieldLines.Yields [.ok ⟨ascii ":method", ascii "GET", false⟩,
          .ok ⟨ascii "cookie", ascii "id=42", true⟩, .ok ⟨ascii "x-token", ascii "~", true⟩] := by
  intro lines encoded written
  obtain ⟨⟨fieldLines, representations, decoded, yields, -⟩, again⟩ :=
    (decode_encode (.mk .shorter) (.mk 65536) lines (by decide)).2 encoded written
  exact ⟨again, fieldLines, decoded, yields⟩

/-! ### The Required Insert Count -/

/-- A number in the window that ends at a bound and is as long as the modulus is the last multiple
of the modulus up to the bound, or the one before it, and the remainder. -/
theorem window_cases {modulus bound number : Nat} (positive : 0 < modulus)
    (after : bound < number + modulus) (until_ : number ≤ bound) :
    number = bound / modulus * modulus + number % modulus ∨
      number + modulus = bound / modulus * modulus + number % modulus := by
  have whole := Nat.div_add_mod number modulus
  have upTo : number / modulus ≤ bound / modulus := Nat.div_le_div_right until_
  have near : bound / modulus ≤ number / modulus + 1 := by
    rw [← Nat.add_div_right _ positive]
    exact Nat.div_le_div_right (Nat.le_of_lt after)
  rw [Nat.mul_comm (bound / modulus)]
  rcases Nat.lt_or_ge (number / modulus) (bound / modulus) with below | above
  · have next : bound / modulus = number / modulus + 1 := Nat.le_antisymm near below
    rw [next, Nat.mul_succ]
    omega
  · rw [Nat.le_antisymm above upTo]
    exact .inl whole.symm

theorem checked_ok {number : Nat} (fits : number < 2 ^ 64) : checked number = .ok number :=
  if_pos fits

/-- The counts an encoder may send once a decoder has so many inserts. -/
def Sendable (maxEntries totalInserts encoded count : Nat) : Prop :=
  1 ≤ count ∧ totalInserts < count + maxEntries ∧ count ≤ totalInserts + maxEntries ∧
    count % (2 * maxEntries) + 1 = encoded

theorem sendable_unique {maxEntries totalInserts encoded count other : Nat}
    (sendable : Sendable maxEntries totalInserts encoded count)
    (another : Sendable maxEntries totalInserts encoded other) : count = other := by
  obtain ⟨-, after, until_, remainder⟩ := sendable
  obtain ⟨-, afterOther, untilOther, remainderOther⟩ := another
  have positive : 0 < 2 * maxEntries := by omega
  have same : count % (2 * maxEntries) = other % (2 * maxEntries) := by omega
  have cases := @window_cases _ (totalInserts + maxEntries) count positive (by omega) until_
  have casesOther := @window_cases _ (totalInserts + maxEntries) other positive (by omega) untilOther
  omega

/-- An encoded count within the full range stands for the sendable count, if there is one. -/
theorem requiredInsertCount_inside {encoded maxEntries totalInserts : Nat}
    (doubled : maxEntries * 2 < 2 ^ 64) (bounded : totalInserts + maxEntries < 2 ^ 64)
    (wrapped : (totalInserts + maxEntries) / (maxEntries * 2) * (maxEntries * 2) + encoded < 2 ^ 64)
    (positive : 1 ≤ encoded) (inside : encoded ≤ maxEntries * 2) :
    (∃ count, requiredInsertCount encoded maxEntries totalInserts = .ok count ∧
      Sendable maxEntries totalInserts encoded count) ∨
    requiredInsertCount encoded maxEntries totalInserts = .error .requiredInsertCount ∧
      ∀ count, ¬Sendable maxEntries totalInserts encoded count := by
  have fullRange : 0 < maxEntries * 2 := by omega
  have below := Nat.div_mul_le_self (totalInserts + maxEntries) (maxEntries * 2)
  have close := Nat.lt_div_mul_add fullRange (a := totalInserts + maxEntries)
  have steps : requiredInsertCount encoded maxEntries totalInserts =
      let sum := (totalInserts + maxEntries) / (maxEntries * 2) * (maxEntries * 2) + encoded
      if totalInserts + maxEntries < sum - 1 then
        if sum - 1 ≤ maxEntries * 2 then .error .requiredInsertCount
        else .ok (sum - 1 - maxEntries * 2)
      else if sum - 1 = 0 then .error .requiredInsertCount
      else .ok (sum - 1) := by
    unfold requiredInsertCount
    rw [checked_ok doubled, checked_ok bounded]
    dsimp only [bind, Except.bind, pure, Except.pure, throw, throwThe, MonadExceptOf.throw]
    rw [if_neg (Nat.ne_of_gt positive), if_neg (Nat.not_lt.mpr inside),
      if_neg (Nat.ne_of_gt fullRange), checked_ok (Nat.lt_of_le_of_lt below bounded)]
    dsimp only
    rw [checked_ok wrapped]
    dsimp only
    rw [if_neg (by omega)]
    split
    · split
      · rfl
      · rw [if_neg (by omega)]
    · rfl
  have last := @window_cases (maxEntries * 2) (totalInserts + maxEntries)
  have remainder : ∀ wraps, (wraps * (maxEntries * 2) + (encoded - 1)) % (2 * maxEntries) + 1 =
      encoded := by
    intro wraps
    rw [Nat.mul_comm 2, Nat.mul_comm wraps, Nat.mul_add_mod, Nat.mod_eq_of_lt (by omega),
      Nat.sub_add_cancel positive]
  have windows : ∀ count, Sendable maxEntries totalInserts encoded count →
      count = (totalInserts + maxEntries) / (maxEntries * 2) * (maxEntries * 2) + (encoded - 1) ∨
        count + maxEntries * 2 =
          (totalInserts + maxEntries) / (maxEntries * 2) * (maxEntries * 2) + (encoded - 1) := by
    rintro count ⟨-, after, until_, same⟩
    rw [← same, Nat.add_sub_cancel, Nat.mul_comm 2]
    exact last fullRange (by omega) until_
  generalize (totalInserts + maxEntries) / (maxEntries * 2) = wraps at *
  rw [steps]
  dsimp only
  split
  · rename_i beyond
    split
    · refine .inr ⟨rfl, fun count sendable => ?_⟩
      have parts := windows count sendable
      obtain ⟨atLeast, -, until_, -⟩ := sendable
      omega
    · rename_i far
      obtain ⟨fewer, rfl⟩ : ∃ fewer, wraps = fewer + 1 := by
        refine Nat.exists_eq_succ_of_ne_zero ?_
        rintro rfl
        omega
      have next : (fewer + 1) * (maxEntries * 2) = fewer * (maxEntries * 2) + maxEntries * 2 :=
        Nat.succ_mul fewer (maxEntries * 2)
      refine .inl ⟨_, rfl, by omega, by omega, by omega, ?_⟩
      rw [show (fewer + 1) * (maxEntries * 2) + encoded - 1 - maxEntries * 2 =
        fewer * (maxEntries * 2) + (encoded - 1) by omega]
      exact remainder fewer
  · split
    · refine .inr ⟨rfl, fun count sendable => ?_⟩
      have parts := windows count sendable
      obtain ⟨atLeast, -⟩ := sendable
      omega
    · refine .inl ⟨_, rfl, by omega, by omega, by omega, ?_⟩
      rw [Nat.add_sub_assoc positive]
      exact remainder wraps

/-- For every encoded count whose reconstruction fits 64 bits, the count that is reconstructed is
the one sendable count it stands for, every sendable count is reconstructed, and any other encoded
count than zero is refused. -/
theorem requiredInsertCount_exact (encoded maxEntries totalInserts : Nat) (entries : 0 < maxEntries)
    (doubled : maxEntries * 2 < 2 ^ 64) (bounded : totalInserts + maxEntries < 2 ^ 64)
    (wrapped : (totalInserts + maxEntries) / (maxEntries * 2) * (maxEntries * 2) + encoded <
      2 ^ 64) :
    (∀ count, (requiredInsertCount encoded maxEntries totalInserts = .ok count ∧ 0 < count) ↔
      (1 ≤ encoded ∧ encoded ≤ 2 * maxEntries) ∧
        Sendable maxEntries totalInserts encoded count ∧
        ∀ other, Sendable maxEntries totalInserts encoded other → other = count) ∧
    (∀ count, 1 ≤ count → totalInserts < count + maxEntries → count ≤ totalInserts + maxEntries →
      encoded = count % (2 * maxEntries) + 1 →
      requiredInsertCount encoded maxEntries totalInserts = .ok count) ∧
    (encoded ≠ 0 → (∀ count, ¬Sendable maxEntries totalInserts encoded count) →
      requiredInsertCount encoded maxEntries totalInserts = .error .requiredInsertCount) ∧
    (encoded = 0 → requiredInsertCount encoded maxEntries totalInserts = .ok 0) := by
  have zero : encoded = 0 → requiredInsertCount encoded maxEntries totalInserts = .ok 0 := by
    rintro rfl
    unfold requiredInsertCount
    rw [checked_ok doubled]
    rfl
  have beyond : 2 * maxEntries < encoded →
      requiredInsertCount encoded maxEntries totalInserts = .error .requiredInsertCount := by
    intro outside
    unfold requiredInsertCount
    rw [checked_ok doubled]
    dsimp only [bind, Except.bind, throw, throwThe, MonadExceptOf.throw]
    rw [if_neg (by omega), if_pos (by omega)]
  have received : ∀ count, Sendable maxEntries totalInserts encoded count →
      1 ≤ encoded ∧ encoded ≤ 2 * maxEntries ∧
        requiredInsertCount encoded maxEntries totalInserts = .ok count := by
    intro count sendable
    have small := Nat.mod_lt count (Nat.mul_pos Nat.two_pos entries)
    have same := sendable.2.2.2
    refine ⟨by omega, by omega, ?_⟩
    rcases requiredInsertCount_inside doubled bounded wrapped (by omega) (by omega) with
      ⟨other, done, another⟩ | ⟨-, none⟩
    · rw [done, sendable_unique sendable another]
    · exact absurd sendable (none count)
  refine ⟨fun count => ⟨fun done => ?_, fun sent => ?_⟩, ?_, fun nonzero none => ?_, zero⟩
  · obtain ⟨done, positive⟩ := done
    have inside : 1 ≤ encoded ∧ encoded ≤ 2 * maxEntries := by
      refine ⟨Nat.pos_of_ne_zero fun isZero => ?_, Nat.le_of_not_lt fun outside => ?_⟩
      · rw [zero isZero] at done
        cases done
        exact absurd positive (Nat.lt_irrefl 0)
      · rw [beyond outside] at done
        cases done
    rcases requiredInsertCount_inside doubled bounded wrapped inside.1 (by omega) with
      ⟨other, again, sendable⟩ | ⟨failed, -⟩
    · rw [done] at again
      cases again
      exact ⟨inside, sendable, fun other another => sendable_unique another sendable⟩
    · rw [done] at failed
      cases failed
  · exact ⟨(received count sent.2.1).2.2, sent.2.1.1⟩
  · exact fun count atLeast after until_ same =>
      (received count ⟨atLeast, after, until_, same.symm⟩).2.2
  · rcases Nat.lt_or_ge (2 * maxEntries) encoded with outside | inside
    · exact beyond outside
    · rcases requiredInsertCount_inside doubled bounded wrapped (Nat.pos_of_ne_zero nonzero)
        (by omega) with ⟨count, -, sendable⟩ | ⟨failed, -⟩
      · exact absurd sendable (none count)
      · exact failed

/-- An encoded value of 4 means 9 once 10 inserts were received, modulo 6. -/
theorem requiredInsertCount_exact_nine :
    requiredInsertCount 4 3 10 = .ok 9 ∧ Sendable 3 10 4 9 :=
  have exact := (requiredInsertCount_exact 4 3 10 (by decide) (by decide) (by decide) (by decide)).1 9
  ⟨rfl, (exact.mp ⟨rfl, by decide⟩).2.1⟩

end ZeroServer.Qpack

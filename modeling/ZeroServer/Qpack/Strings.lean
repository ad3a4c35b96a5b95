/-
This file models string literals: a flag for Huffman coding, the length of the encoded string as a
prefixed integer, and its octets.
-/

import ZeroServer.Qpack.Huffman
import ZeroServer.Qpack.Integer

namespace ZeroServer.Qpack

open Http1
open Huffman (HuffmanError)

/-- How many low bits of its first octet a string literal starts in. -/
inductive StringPrefixBits where
  | p2 | p3 | p4 | p5 | p6 | p7 | p8
  deriving DecidableEq

namespace StringPrefixBits

def huffmanFlag : StringPrefixBits → UInt8
  | p2 => 0x02
  | p3 => 0x04
  | p4 => 0x08
  | p5 => 0x10
  | p6 => 0x20
  | p7 => 0x40
  | p8 => 0x80

def lengthPrefix : StringPrefixBits → PrefixBits
  | p2 => .p1
  | p3 => .p2
  | p4 => .p3
  | p5 => .p4
  | p6 => .p5
  | p7 => .p6
  | p8 => .p7

def mask (bits : StringPrefixBits) : UInt8 := bits.huffmanFlag ||| bits.lengthPrefix.mask

/-- The bits of the first octet around the length. -/
def flags (bits : StringPrefixBits) (flags : UInt8) (huffman : Bool) : UInt8 :=
  if huffman then (flags &&& ~~~bits.mask) ||| bits.huffmanFlag else flags &&& ~~~bits.mask

end StringPrefixBits

/-- A string literal as it is held on the wire. -/
structure StringLiteral where
  huffman : Bool
  data : Bytes
  deriving DecidableEq

namespace StringLiteral

/-- The literal at the start of the input and the octets it spans, once they are all there. -/
def parse (input : Bytes) (bits : StringPrefixBits) (cap : Nat) :
    Except IntegerError (Option (StringLiteral × Nat)) :=
  match input with
  | [] => .ok none
  | first :: rest =>
    let huffman := first &&& bits.huffmanFlag != 0
    match Integer.decode (first :: rest) bits.lengthPrefix cap with
    | .error fault => .error fault
    | .ok none => .ok none
    | .ok (some (len, used)) =>
      let rest := (first :: rest).drop used
      if rest.length < len then .ok none
      else .ok (some (⟨huffman, rest.take len⟩, used + len))

def decode (literal : StringLiteral) : Except HuffmanError Bytes :=
  if literal.huffman then
    match Huffman.decodeToVec literal.data [] with
    | (_, .error fault) => .error fault
    | (out, .ok ()) => .ok out
  else .ok literal.data

/-- Append the literal as it is held. -/
def encode (literal : StringLiteral) (bits : StringPrefixBits) (flags : UInt8) (out : Bytes) :
    Option Bytes :=
  (Integer.push literal.data.length bits.lengthPrefix (bits.flags flags literal.huffman) out).map
    fun out => out ++ literal.data

/-- Append a text as a literal. -/
def encodeText (text : Bytes) (huffman : Bool) (bits : StringPrefixBits) (flags : UInt8)
    (out : Bytes) : Option Bytes :=
  if huffman then
    (Integer.push (Huffman.encodedLen text) bits.lengthPrefix (bits.flags flags true) out).map
      fun out => Huffman.encode text out
  else (StringLiteral.mk false text).encode bits flags out

/-! ### Round trips -/

variable {literal : StringLiteral}

/-- A literal as it is on the wire. -/
def wire (literal : StringLiteral) (bits : StringPrefixBits) (flags : UInt8) : Bytes :=
  Integer.wire literal.data.length bits.lengthPrefix (bits.flags flags literal.huffman) ++
    literal.data

/-- The literal a text is written as. -/
def ofText (text : Bytes) (huffman : Bool) : StringLiteral :=
  ⟨huffman, if huffman then Huffman.encode text [] else text⟩

theorem encode_eq (inRange : literal.data.length ≤ Integer.maxValue) (bits : StringPrefixBits)
    (flags : UInt8) (out : Bytes) :
    literal.encode bits flags out = some (out ++ literal.wire bits flags) := by
  rw [encode, Integer.push_eq inRange, Option.map_some, wire, List.append_assoc]

theorem encode_none (beyond : Integer.maxValue < literal.data.length) (bits : StringPrefixBits)
    (flags : UInt8) (out : Bytes) : literal.encode bits flags out = none := by
  rw [encode, Integer.push_none beyond, Option.map_none]

theorem encodeText_eq (text : Bytes) (huffman : Bool) (bits : StringPrefixBits) (flags : UInt8)
    (out : Bytes) :
    encodeText text huffman bits flags out = (ofText text huffman).encode bits flags out := by
  cases huffman with
  | false => rfl
  | true =>
    rw [encodeText, if_pos rfl, encode, ofText, if_pos rfl, Huffman.length_encode]
    exact congrArg (Option.map · _) (funext fun out => Huffman.encode_append text out)

theorem decode_ofText (text : Bytes) (huffman : Bool) : (ofText text huffman).decode = .ok text := by
  cases huffman with
  | false => rfl
  | true =>
    rw [decode, ofText, if_pos rfl, if_pos rfl, Huffman.decodeToVec_encode]
    rfl

theorem flags_and_huffmanFlag (bits : StringPrefixBits) (flags : UInt8) (huffman : Bool) :
    (bits.flags flags huffman &&& bits.huffmanFlag != 0) = huffman := by
  have cleared : ~~~bits.mask &&& bits.huffmanFlag = 0 := by cases bits <;> decide
  cases huffman with
  | false =>
    rw [StringPrefixBits.flags, if_neg Bool.false_ne_true, UInt8.and_assoc, cleared, UInt8.and_zero]
    rfl
  | true =>
    rw [StringPrefixBits.flags, if_pos rfl, Integer.and_or_distrib, UInt8.and_assoc, cleared,
      UInt8.and_zero, UInt8.zero_or]
    cases bits <;> decide

theorem wire_cons (literal : StringLiteral) (bits : StringPrefixBits) (flags : UInt8) :
    ∃ low rest, low ≤ bits.lengthPrefix.limit ∧ literal.wire bits flags =
      ((bits.flags flags literal.huffman &&& ~~~bits.lengthPrefix.mask) ||| UInt8.ofNat low) ::
        rest := by
  obtain ⟨low, rest, small, same⟩ := Integer.wire_cons literal.data.length bits.lengthPrefix
    (bits.flags flags literal.huffman)
  refine ⟨low, rest ++ literal.data, small, ?_⟩
  rw [wire, same, List.cons_append]

/-- The bits around a literal are those of the representation it belongs to. -/
theorem flags_and_other (bits : StringPrefixBits) (flags other : UInt8) (huffman : Bool)
    (keeps : ~~~bits.mask &&& other = other) :
    bits.flags flags huffman &&& other = flags &&& other := by
  have flagApart : bits.huffmanFlag &&& other = 0 := by
    rw [← keeps, ← UInt8.and_assoc,
      show bits.huffmanFlag &&& ~~~bits.mask = 0 by cases bits <;> decide, UInt8.zero_and]
  cases huffman with
  | false =>
    rw [StringPrefixBits.flags, if_neg Bool.false_ne_true, UInt8.and_assoc, keeps]
  | true =>
    rw [StringPrefixBits.flags, if_pos rfl, Integer.and_or_distrib, UInt8.and_assoc, keeps,
      flagApart, UInt8.or_zero]

theorem wire_first (literal : StringLiteral) (bits : StringPrefixBits) (flags : UInt8) :
    ∃ first rest, literal.wire bits flags = first :: rest ∧
      ∀ other, ~~~bits.mask &&& other = other → first &&& other = flags &&& other := by
  obtain ⟨low, rest, small, same⟩ := literal.wire_cons bits flags
  refine ⟨_, rest, same, fun other keeps => ?_⟩
  have keepsLength : ~~~bits.lengthPrefix.mask &&& other = other := by
    rw [← keeps, ← UInt8.and_assoc,
      show ~~~bits.lengthPrefix.mask &&& ~~~bits.mask = ~~~bits.mask by cases bits <;> decide]
  rw [Integer.and_other_mask _ _ _ small keepsLength, flags_and_other _ _ _ _ keeps]

/-- A literal within the cap is read back, whatever follows it. -/
theorem parse_wire {cap : Nat} (inRange : literal.data.length ≤ Integer.maxValue)
    (within : literal.data.length ≤ cap) (bits : StringPrefixBits) (flags : UInt8) (more : Bytes) :
    parse (literal.wire bits flags ++ more) bits cap =
      .ok (some (literal, (literal.wire bits flags).length)) := by
  obtain ⟨low, rest, small, same⟩ := literal.wire_cons bits flags
  have length := Integer.decode_wire inRange within bits.lengthPrefix
    (bits.flags flags literal.huffman) (literal.data ++ more)
  rw [← List.append_assoc, ← wire, same, List.cons_append] at length
  have flag : (((bits.flags flags literal.huffman &&& ~~~bits.lengthPrefix.mask) |||
      UInt8.ofNat low) &&& bits.huffmanFlag != 0) = literal.huffman := by
    rw [Integer.and_other_mask _ _ _ small (by cases bits <;> decide), flags_and_huffmanFlag]
  rw [same, List.cons_append, parse, length, flag]
  dsimp only
  rw [← List.cons_append, ← same, wire, List.append_assoc, List.drop_left, if_neg, List.take_left,
    List.length_append]
  rw [List.length_append]
  omega

end StringLiteral

end ZeroServer.Qpack

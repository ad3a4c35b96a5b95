/-
This file models the static Huffman code of QPACK string literals: the code table, the four tables
of the canonical decoder, the encoder that packs codes into octets and the decoder that reads one
bit at a time.
-/

import ZeroServer.Http1.Types
import ZeroServer.Lib.Bits

namespace ZeroServer.Qpack

open Http1 Lib

namespace Huffman

/-! ### Tables -/

/-- The code of each symbol and its length in bits; symbol 256 is EOS. -/
def codes : List (Nat × Nat) :=
  [(0x1ff8, 13), (0x7fffd8, 23), (0xfffffe2, 28), (0xfffffe3, 28), (0xfffffe4, 28),
    (0xfffffe5, 28), (0xfffffe6, 28), (0xfffffe7, 28), (0xfffffe8, 28), (0xffffea, 24),
    (0x3ffffffc, 30), (0xfffffe9, 28), (0xfffffea, 28), (0x3ffffffd, 30), (0xfffffeb, 28),
    (0xfffffec, 28), (0xfffffed, 28), (0xfffffee, 28), (0xfffffef, 28), (0xffffff0, 28),
    (0xffffff1, 28), (0xffffff2, 28), (0x3ffffffe, 30), (0xffffff3, 28), (0xffffff4, 28),
    (0xffffff5, 28), (0xffffff6, 28), (0xffffff7, 28), (0xffffff8, 28), (0xffffff9, 28),
    (0xffffffa, 28), (0xffffffb, 28), (0x14, 6), (0x3f8, 10), (0x3f9, 10), (0xffa, 12),
    (0x1ff9, 13), (0x15, 6), (0xf8, 8), (0x7fa, 11), (0x3fa, 10), (0x3fb, 10), (0xf9, 8),
    (0x7fb, 11), (0xfa, 8), (0x16, 6), (0x17, 6), (0x18, 6), (0x0, 5), (0x1, 5), (0x2, 5),
    (0x19, 6), (0x1a, 6), (0x1b, 6), (0x1c, 6), (0x1d, 6), (0x1e, 6), (0x1f, 6), (0x5c, 7),
    (0xfb, 8), (0x7ffc, 15), (0x20, 6), (0xffb, 12), (0x3fc, 10), (0x1ffa, 13), (0x21, 6),
    (0x5d, 7), (0x5e, 7), (0x5f, 7), (0x60, 7), (0x61, 7), (0x62, 7), (0x63, 7), (0x64, 7),
    (0x65, 7), (0x66, 7), (0x67, 7), (0x68, 7), (0x69, 7), (0x6a, 7), (0x6b, 7), (0x6c, 7),
    (0x6d, 7), (0x6e, 7), (0x6f, 7), (0x70, 7), (0x71, 7), (0x72, 7), (0xfc, 8), (0x73, 7),
    (0xfd, 8), (0x1ffb, 13), (0x7fff0, 19), (0x1ffc, 13), (0x3ffc, 14), (0x22, 6), (0x7ffd, 15),
    (0x3, 5), (0x23, 6), (0x4, 5), (0x24, 6), (0x5, 5), (0x25, 6), (0x26, 6), (0x27, 6),
    (0x6, 5), (0x74, 7), (0x75, 7), (0x28, 6), (0x29, 6), (0x2a, 6), (0x7, 5), (0x2b, 6),
    (0x76, 7), (0x2c, 6), (0x8, 5), (0x9, 5), (0x2d, 6), (0x77, 7), (0x78, 7), (0x79, 7),
    (0x7a, 7), (0x7b, 7), (0x7ffe, 15), (0x7fc, 11), (0x3ffd, 14), (0x1ffd, 13),
    (0xffffffc, 28), (0xfffe6, 20), (0x3fffd2, 22), (0xfffe7, 20), (0xfffe8, 20),
    (0x3fffd3, 22), (0x3fffd4, 22), (0x3fffd5, 22), (0x7fffd9, 23), (0x3fffd6, 22),
    (0x7fffda, 23), (0x7fffdb, 23), (0x7fffdc, 23), (0x7fffdd, 23), (0x7fffde, 23),
    (0xffffeb, 24), (0x7fffdf, 23), (0xffffec, 24), (0xffffed, 24), (0x3fffd7, 22),
    (0x7fffe0, 23), (0xffffee, 24), (0x7fffe1, 23), (0x7fffe2, 23), (0x7fffe3, 23),
    (0x7fffe4, 23), (0x1fffdc, 21), (0x3fffd8, 22), (0x7fffe5, 23), (0x3fffd9, 22),
    (0x7fffe6, 23), (0x7fffe7, 23), (0xffffef, 24), (0x3fffda, 22), (0x1fffdd, 21),
    (0xfffe9, 20), (0x3fffdb, 22), (0x3fffdc, 22), (0x7fffe8, 23), (0x7fffe9, 23),
    (0x1fffde, 21), (0x7fffea, 23), (0x3fffdd, 22), (0x3fffde, 22), (0xfffff0, 24),
    (0x1fffdf, 21), (0x3fffdf, 22), (0x7fffeb, 23), (0x7fffec, 23), (0x1fffe0, 21),
    (0x1fffe1, 21), (0x3fffe0, 22), (0x1fffe2, 21), (0x7fffed, 23), (0x3fffe1, 22),
    (0x7fffee, 23), (0x7fffef, 23), (0xfffea, 20), (0x3fffe2, 22), (0x3fffe3, 22),
    (0x3fffe4, 22), (0x7ffff0, 23), (0x3fffe5, 22), (0x3fffe6, 22), (0x7ffff1, 23),
    (0x3ffffe0, 26), (0x3ffffe1, 26), (0xfffeb, 20), (0x7fff1, 19), (0x3fffe7, 22),
    (0x7ffff2, 23), (0x3fffe8, 22), (0x1ffffec, 25), (0x3ffffe2, 26), (0x3ffffe3, 26),
    (0x3ffffe4, 26), (0x7ffffde, 27), (0x7ffffdf, 27), (0x3ffffe5, 26), (0xfffff1, 24),
    (0x1ffffed, 25), (0x7fff2, 19), (0x1fffe3, 21), (0x3ffffe6, 26), (0x7ffffe0, 27),
    (0x7ffffe1, 27), (0x3ffffe7, 26), (0x7ffffe2, 27), (0xfffff2, 24), (0x1fffe4, 21),
    (0x1fffe5, 21), (0x3ffffe8, 26), (0x3ffffe9, 26), (0xffffffd, 28), (0x7ffffe3, 27),
    (0x7ffffe4, 27), (0x7ffffe5, 27), (0xfffec, 20), (0xfffff3, 24), (0xfffed, 20),
    (0x1fffe6, 21), (0x3fffe9, 22), (0x1fffe7, 21), (0x1fffe8, 21), (0x7ffff3, 23),
    (0x3fffea, 22), (0x3fffeb, 22), (0x1ffffee, 25), (0x1ffffef, 25), (0xfffff4, 24),
    (0xfffff5, 24), (0x3ffffea, 26), (0x7ffff4, 23), (0x3ffffeb, 26), (0x7ffffe6, 27),
    (0x3ffffec, 26), (0x3ffffed, 26), (0x7ffffe7, 27), (0x7ffffe8, 27), (0x7ffffe9, 27),
    (0x7ffffea, 27), (0x7ffffeb, 27), (0xffffffe, 28), (0x7ffffec, 27), (0x7ffffed, 27),
    (0x7ffffee, 27), (0x7ffffef, 27), (0x7fffff0, 27), (0x3ffffee, 26), (0x3fffffff, 30)]

def eos : Nat := 256

def maxCodeLen : Nat := 30

/-- The first code of each length. -/
def first : List Nat :=
  [0x0, 0x0, 0x0, 0x0, 0x0, 0x0, 0x14, 0x5c, 0xf8, 0x0, 0x3f8, 0x7fa, 0xffa, 0x1ff8, 0x3ffc,
    0x7ffc, 0x0, 0x0, 0x0, 0x7fff0, 0xfffe6, 0x1fffdc, 0x3fffd2, 0x7fffd8, 0xffffea, 0x1ffffec,
    0x3ffffe0, 0x7ffffde, 0xfffffe2, 0x0, 0x3ffffffc]

/-- The number of codes of each length. -/
def count : List Nat :=
  [0, 0, 0, 0, 0, 10, 26, 32, 6, 0, 5, 3, 2, 6, 2, 3, 0, 0, 0, 3, 8, 13, 26, 29, 12, 4, 15, 19,
    29, 0, 4]

/-- The position of the first symbol of each length. -/
def index : List Nat :=
  [0, 0, 0, 0, 0, 0, 10, 36, 68, 0, 74, 79, 82, 84, 90, 92, 0, 0, 0, 95, 98, 106, 119, 145,
    174, 186, 190, 205, 224, 0, 253]

/-- The symbols by code length. -/
def symbols : List Nat :=
  [48, 49, 50, 97, 99, 101, 105, 111, 115, 116, 32, 37, 45, 46, 47, 51, 52, 53, 54, 55, 56, 57,
    61, 65, 95, 98, 100, 102, 103, 104, 108, 109, 110, 112, 114, 117, 58, 66, 67, 68, 69, 70,
    71, 72, 73, 74, 75, 76, 77, 78, 79, 80, 81, 82, 83, 84, 85, 86, 87, 89, 106, 107, 113, 118,
    119, 120, 121, 122, 38, 42, 44, 59, 88, 90, 33, 34, 40, 41, 63, 39, 43, 124, 35, 62, 0, 36,
    64, 91, 93, 126, 94, 125, 60, 96, 123, 92, 195, 208, 128, 130, 131, 162, 184, 194, 224, 226,
    153, 161, 167, 172, 176, 177, 179, 209, 216, 217, 227, 229, 230, 129, 132, 133, 134, 136,
    146, 154, 156, 160, 163, 164, 169, 170, 173, 178, 181, 185, 186, 187, 189, 190, 196, 198,
    228, 232, 233, 1, 135, 137, 138, 139, 140, 141, 143, 147, 149, 150, 151, 152, 155, 157, 158,
    165, 166, 168, 174, 175, 180, 182, 183, 188, 191, 197, 231, 239, 9, 142, 144, 145, 148, 159,
    171, 206, 215, 225, 236, 237, 199, 207, 234, 235, 192, 193, 200, 201, 202, 205, 210, 213,
    218, 219, 238, 240, 242, 243, 255, 203, 204, 211, 212, 214, 221, 222, 223, 241, 244, 245,
    246, 247, 248, 250, 251, 252, 253, 254, 2, 3, 4, 5, 6, 7, 8, 11, 12, 14, 15, 16, 17, 18, 19,
    20, 21, 23, 24, 25, 26, 27, 28, 29, 30, 31, 127, 220, 249, 10, 13, 22, 256]

/-- Why a Huffman string was refused. -/
inductive HuffmanError where
  | padding
  | paddingNotEos
  | eos
  | outputFull
  deriving DecidableEq

/-- The entry of a table, zero outside it. -/
def entry (table : List Nat) (place : Nat) : Nat := table[place]?.getD 0

def codeOf (symbol : Nat) : Nat × Nat := codes[symbol]?.getD (0, 0)

/-- The symbol whose code is read, when it is in the range of its length. -/
def matching (code len : Nat) : Option Nat :=
  if entry first len ≤ code ∧ code - entry first len < entry count len then
    some (symbols[entry index len + (code - entry first len)]?.getD eos)
  else none

/-! ### Lengths -/

/-- The most octets that so many Huffman octets decode to. -/
def decodedLenBound (encodedLen : Nat) : Nat := encodedLen / 5 * 8 + encodedLen % 5 * 8 / 5

def encodedLen (input : Bytes) : Nat :=
  (input.foldl (fun bits octet => bits + (codeOf octet.toNat).2) 0 + 7) >>> 3

/-! ### Encoding -/

/-- The encoder's state: code bits not yet written, how many they are, and the output. -/
structure Packing where
  pending : Nat
  bits : Nat
  out : Bytes
  deriving DecidableEq

def Packing.drain (packing : Packing) : Packing :=
  if 8 ≤ packing.bits then
    Packing.drain { packing with
      bits := packing.bits - 8
      out := packing.out ++ [UInt8.ofNat (packing.pending >>> (packing.bits - 8))] }
  else packing
termination_by packing.bits

def Packing.push (packing : Packing) (octet : UInt8) : Packing :=
  let len := (codeOf octet.toNat).2
  let drained := Packing.drain { packing with
    pending := packing.pending <<< len % 2 ^ 64 ||| (codeOf octet.toNat).1
    bits := packing.bits + len }
  { drained with pending := drained.pending &&& (2 ^ drained.bits - 1) }

def Packing.finish (packing : Packing) : Bytes :=
  if 0 < packing.bits then
    let pad := 8 - packing.bits
    packing.out ++ [UInt8.ofNat (packing.pending <<< pad % 2 ^ 64 ||| (2 ^ pad - 1))]
  else packing.out

/-- Append the encoding of the input, padded with the first bits of EOS. -/
def encode (input out : Bytes) : Bytes := (input.foldl Packing.push ⟨0, 0, out⟩).finish

/-! ### Decoding -/

/-- The bits read of the code that is next. -/
structure Reading where
  code : Nat
  len : Nat
  deriving DecidableEq

section Decoding

variable {Out : Type} (emit : Out → UInt8 → Except HuffmanError Out)

/-- Read bits, handing on each octet as its code ends. -/
def decodeBits : List Bool → Reading → Out → Out × Except HuffmanError Reading
  | [], reading, out => (out, .ok reading)
  | bit :: bits, reading, out =>
    let code := reading.code <<< 1 % 2 ^ 32 ||| bit.toNat
    let len := reading.len + 1
    match matching code len with
    | some symbol =>
      if symbol < 256 then
        match emit out (UInt8.ofNat symbol) with
        | .ok next => decodeBits bits ⟨0, 0⟩ next
        | .error fault => (out, .error fault)
      else (out, .error .eos)
    | none =>
      if maxCodeLen ≤ len then (out, .error .padding) else decodeBits bits ⟨code, len⟩ out

def countOnes (number : Nat) : Nat := (List.range 32).countP number.testBit

/-- The check of the padding after the last code. -/
def Reading.finish (reading : Reading) : Except HuffmanError Unit :=
  if 7 < reading.len then .error .padding
  else if countOnes reading.code ≠ reading.len then .error .paddingNotEos
  else .ok ()

def decodeWith (input : Bytes) (out : Out) : Out × Except HuffmanError Unit :=
  match decodeBits emit (octetsBits input) ⟨0, 0⟩ out with
  | (out, .ok reading) => (out, reading.finish)
  | (out, .error fault) => (out, .error fault)

end Decoding

/-- An output slice: the octets written and the slots after them. -/
structure Slots where
  written : Bytes
  left : Bytes
  deriving DecidableEq

def Slots.fill (slots : Slots) (octet : UInt8) : Except HuffmanError Slots :=
  match slots.left with
  | [] => .error .outputFull
  | _ :: left => .ok ⟨slots.written ++ [octet], left⟩

/-- Decode into a slice: the slice afterwards, and how many octets were written. -/
def decode (input out : Bytes) : Bytes × Except HuffmanError Nat :=
  let (slots, result) := decodeWith Slots.fill input ⟨[], out⟩
  (slots.written ++ slots.left, result.map fun _ => slots.written.length)

/-- Decode behind the octets a vector holds. -/
def decodeToVec (input out : Bytes) : Bytes × Except HuffmanError Unit :=
  decodeWith (fun out octet => .ok (out ++ [octet])) input out

/-! ### The tables agree -/

/-- Every code is found at its length, and nowhere inside it. -/
theorem matching_codes : ∀ pair ∈ codes.zipIdx,
    5 ≤ pair.1.2 ∧ pair.1.2 ≤ 30 ∧ pair.1.1 < 2 ^ pair.1.2 ∧
      matching pair.1.1 pair.1.2 = some pair.2 ∧
      ∀ len < pair.1.2, matching (pair.1.1 >>> (pair.1.2 - len)) len = none := by
  decide +kernel

/-- What is found has the code that was read. -/
theorem codeOf_entry : ∀ len < 31, ∀ offset < entry count len,
    codeOf (symbols[entry index len + offset]?.getD eos) = (entry first len + offset, len) := by
  decide +kernel

theorem codes_length : codes.length = 257 := by decide +kernel

theorem symbols_lt : ∀ symbol ∈ symbols, symbol < 257 := by decide +kernel

theorem matching_ones : ∀ len < 8, matching (2 ^ len - 1) len = none := by decide +kernel

theorem countOnes_eq : ∀ len < 8, ∀ code < 2 ^ len,
    (countOnes code = len ↔ code = 2 ^ len - 1) := by
  decide +kernel

/-- What the table says of one symbol. -/
structure Coded (symbol code len : Nat) : Prop where
  long : 5 ≤ len
  short : len ≤ 30
  fits : code < 2 ^ len
  found : matching code len = some symbol
  inside : ∀ left, 0 < left → left ≤ len → matching (code >>> left) (len - left) = none

theorem codeOf_coded {symbol : Nat} (known : symbol < 257) :
    Coded symbol (codeOf symbol).1 (codeOf symbol).2 := by
  have inTable : symbol < codes.length := codes_length ▸ known
  have pairOf : codeOf symbol = codes[symbol] := by
    rw [codeOf, List.getElem?_eq_getElem inTable, Option.getD_some]
  obtain ⟨long, short, fits, found, inside⟩ :=
    matching_codes (codes[symbol], symbol) (List.mk_mem_zipIdx_iff_getElem?.mpr
      (List.getElem?_eq_getElem inTable))
  rw [pairOf]
  refine ⟨long, short, fits, found, fun left positive le => ?_⟩
  have quiet := inside (codes[symbol].2 - left)
    (Nat.sub_lt (Nat.lt_of_lt_of_le positive le) positive)
  rwa [Nat.sub_sub_self le] at quiet

theorem matching_found {symbol code len : Nat} (short : len ≤ 30)
    (found : matching code len = some symbol) : codeOf symbol = (code, len) ∧ symbol < 257 := by
  unfold matching at found
  split at found
  · rename_i range
    cases found
    refine ⟨?_, ?_⟩
    · rw [codeOf_entry len (Nat.lt_succ_of_le short) _ range.2, Nat.add_sub_cancel' range.1]
    · rcases inTable : symbols[entry index len + (code - entry first len)]? with _ | symbol
      · exact Nat.lt_succ_self 256
      · exact symbols_lt symbol (List.mem_of_getElem? inTable)
  · cases found

/-! ### What the encoder writes -/

variable {packing : Packing}

/-- The bits of a symbol's code. -/
def codeBits (symbol : Nat) : List Bool := bitsOf (codeOf symbol).2 (codeOf symbol).1

/-- The codes of a text, one after the other. -/
def textBits (text : Bytes) : List Bool := text.flatMap fun octet => codeBits octet.toNat

@[simp] theorem textBits_nil : textBits [] = [] := rfl

@[simp] theorem textBits_cons (octet : UInt8) (text : Bytes) :
    textBits (octet :: text) = codeBits octet.toNat ++ textBits text := rfl

theorem octet_coded (octet : UInt8) :
    Coded octet.toNat (codeOf octet.toNat).1 (codeOf octet.toNat).2 :=
  codeOf_coded (Nat.lt_of_lt_of_le octet.toNat_lt (by decide))

theorem five_mul_length_le (text : Bytes) : 5 * text.length ≤ (textBits text).length := by
  induction text with
  | nil => exact Nat.le_refl 0
  | cons octet text inductionHypothesis =>
    have long := (octet_coded octet).long
    rw [textBits_cons, List.length_append, codeBits, length_bitsOf, List.length_cons]
    omega

/-- The bits written and those pending. -/
def Packing.written (packing : Packing) : List Bool :=
  octetsBits packing.out ++ bitsOf packing.bits packing.pending

/-- Less than an octet is pending. -/
structure Packing.Fits (packing : Packing) : Prop where
  short : packing.bits < 8
  small : packing.pending < 2 ^ packing.bits

theorem drain_bits (packing : Packing) : packing.drain.bits < 8 := by
  fun_induction Packing.drain packing with
  | case1 packing enough inductionHypothesis => exact inductionHypothesis
  | case2 packing few => exact Nat.lt_of_not_le few

/-- Writing whole octets moves bits from the pending ones to the output. -/
theorem drain_written (packing : Packing) : packing.drain.written = packing.written := by
  fun_induction Packing.drain packing with
  | case1 packing enough inductionHypothesis =>
    rw [inductionHypothesis, Packing.written, Packing.written, octetsBits_append, octetsBits_cons,
      octetsBits_nil, List.append_nil, octetBits_ofNat, List.append_assoc, ← bitsOf_add,
      Nat.add_sub_cancel' enough]
  | case2 => rfl

theorem join_eq {high low width : Nat} (small : low < 2 ^ width)
    (room : 2 ^ width * high + low < 2 ^ 64) :
    high <<< width % 2 ^ 64 ||| low = 2 ^ width * high + low := by
  have shifted : high <<< width = 2 ^ width * high := by
    rw [Nat.shiftLeft_eq, Nat.mul_comm]
  rw [Nat.mod_eq_of_lt (by rw [shifted]; omega), ← Nat.shiftLeft_add_eq_or_of_lt small, shifted]

theorem push_spec (fits : packing.Fits) (octet : UInt8) :
    (packing.push octet).Fits ∧
      (packing.push octet).written = packing.written ++ codeBits octet.toNat := by
  have coded := octet_coded octet
  unfold Packing.push codeBits
  dsimp only
  generalize (codeOf octet.toNat).1 = code at coded
  generalize (codeOf octet.toNat).2 = len at coded
  have room : 2 ^ len * packing.pending + code < 2 ^ (packing.bits + len) := by
    have spare : packing.pending + 1 ≤ 2 ^ packing.bits := fits.small
    calc 2 ^ len * packing.pending + code
        < 2 ^ len * packing.pending + 2 ^ len := Nat.add_lt_add_left coded.fits _
      _ = 2 ^ len * (packing.pending + 1) := rfl
      _ ≤ 2 ^ len * 2 ^ packing.bits := Nat.mul_le_mul_left _ spare
      _ = 2 ^ (packing.bits + len) := by rw [Nat.mul_comm, Nat.pow_add]
  have width : packing.bits + len ≤ 64 := by
    have := fits.short
    have := coded.short
    omega
  rw [join_eq coded.fits (Nat.lt_of_lt_of_le room (Nat.pow_le_pow_right (by decide) width))]
  generalize loaded : Packing.mk (2 ^ len * packing.pending + code) (packing.bits + len)
    packing.out = full
  refine ⟨⟨drain_bits full, ?_⟩, ?_⟩
  · rw [Nat.and_two_pow_sub_one_eq_mod]
    exact Nat.mod_lt _ (Nat.two_pow_pos _)
  · have kept := drain_written full
    rw [Packing.written] at kept ⊢
    dsimp only
    rw [Nat.and_two_pow_sub_one_eq_mod, bitsOf_mod, kept, ← loaded, Packing.written,
      bitsOf_join _ _ _ _ coded.fits, Packing.written, List.append_assoc]

theorem pushes_spec (input : Bytes) (fits : packing.Fits) :
    (input.foldl Packing.push packing).Fits ∧
      (input.foldl Packing.push packing).written = packing.written ++ textBits input := by
  induction input generalizing packing with
  | nil => exact ⟨fits, (List.append_nil _).symm⟩
  | cons octet rest inductionHypothesis =>
    obtain ⟨fitsNext, pushed⟩ := push_spec fits octet
    obtain ⟨fitsLast, written⟩ := inductionHypothesis fitsNext
    refine ⟨fitsLast, ?_⟩
    rw [List.foldl_cons, written, pushed, textBits_cons, List.append_assoc]

theorem finish_spec (fits : packing.Fits) :
    ∃ pad < 8, octetsBits packing.finish = packing.written ++ List.replicate pad true := by
  unfold Packing.finish
  by_cases some : 0 < packing.bits
  · have short := fits.short
    have ones : 2 ^ (8 - packing.bits) - 1 < 2 ^ (8 - packing.bits) :=
      Nat.sub_lt (Nat.two_pow_pos _) Nat.one_pos
    have octet : 2 ^ (8 - packing.bits) * packing.pending + (2 ^ (8 - packing.bits) - 1) <
        2 ^ 8 := by
      have spare : packing.pending + 1 ≤ 2 ^ packing.bits := fits.small
      calc 2 ^ (8 - packing.bits) * packing.pending + (2 ^ (8 - packing.bits) - 1)
          < 2 ^ (8 - packing.bits) * (packing.pending + 1) := Nat.add_lt_add_left ones _
        _ ≤ 2 ^ (8 - packing.bits) * 2 ^ packing.bits := Nat.mul_le_mul_left _ spare
        _ = 2 ^ 8 := by rw [← Nat.pow_add, Nat.sub_add_cancel (Nat.le_of_lt short)]
    refine ⟨8 - packing.bits, by omega, ?_⟩
    rw [if_pos some]
    dsimp only
    rw [join_eq ones (Nat.lt_trans octet (by decide)), octetsBits_append,
      octetsBits_cons, octetsBits_nil, List.append_nil, octetBits_ofNat, Packing.written,
      List.append_assoc]
    have split := bitsOf_join packing.bits (8 - packing.bits) packing.pending _ ones
    rw [Nat.add_sub_cancel' (Nat.le_of_lt short), bitsOf_ones] at split
    rw [split]
  · have none : packing.bits = 0 := Nat.eq_zero_of_not_pos some
    refine ⟨0, by decide, ?_⟩
    rw [if_neg some, Packing.written, none, bitsOf_zero, List.append_nil, List.replicate_zero,
      List.append_nil]

/-- The encoder appends the codes of the text and fills the last octet with ones. -/
theorem encode_bits (input out : Bytes) :
    ∃ pad < 8, octetsBits (encode input out) =
      octetsBits out ++ (textBits input ++ List.replicate pad true) := by
  have start : Packing.Fits ⟨0, 0, out⟩ := ⟨Nat.zero_lt_succ 7, Nat.one_pos⟩
  obtain ⟨fits, written⟩ := pushes_spec input start
  obtain ⟨pad, short, finished⟩ := finish_spec fits
  refine ⟨pad, short, ?_⟩
  rw [encode, finished, written, Packing.written, bitsOf_zero, List.append_nil, List.append_assoc]

/-- Whole octets leave one choice for the padding. -/
theorem padded_inj {first second : Bytes} {bits : List Bool} {pad other : Nat} (short : pad < 8)
    (shortOther : other < 8) (padded : octetsBits first = bits ++ List.replicate pad true)
    (paddedOther : octetsBits second = bits ++ List.replicate other true) : first = second := by
  have lengths := congrArg List.length padded
  have lengthsOther := congrArg List.length paddedOther
  rw [length_octetsBits, List.length_append, List.length_replicate] at lengths lengthsOther
  have same : pad = other := by omega
  refine octetsBits_inj ?_
  rw [padded, paddedOther, same]

theorem encode_append (input out : Bytes) : encode input out = out ++ encode input [] := by
  obtain ⟨pad, short, padded⟩ := encode_bits input out
  obtain ⟨other, shortOther, paddedOther⟩ := encode_bits input []
  refine @padded_inj _ _ (octetsBits out ++ textBits input) pad other short shortOther ?_ ?_
  · rw [padded, List.append_assoc]
  · rw [octetsBits_append, paddedOther, octetsBits_nil, List.nil_append, List.append_assoc]

theorem encodedLen_eq (input : Bytes) : encodedLen input = ((textBits input).length + 7) / 8 := by
  have sum : ∀ (input : Bytes) (bits : Nat),
      input.foldl (fun bits octet => bits + (codeOf octet.toNat).2) bits =
        bits + (textBits input).length := by
    intro input
    induction input with
    | nil => exact fun bits => rfl
    | cons octet rest inductionHypothesis =>
      intro bits
      rw [List.foldl_cons, inductionHypothesis, textBits_cons, List.length_append, codeBits,
        length_bitsOf, Nat.add_assoc]
  rw [encodedLen, sum, Nat.zero_add, Nat.shiftRight_eq_div_pow]

/-- The length computed ahead is the number of octets written. -/
theorem length_encode (input : Bytes) : (encode input []).length = encodedLen input := by
  obtain ⟨pad, short, padded⟩ := encode_bits input []
  have lengths := congrArg List.length padded
  rw [length_octetsBits, octetsBits_nil, List.nil_append, List.length_append,
    List.length_replicate] at lengths
  rw [encodedLen_eq]
  omega

theorem decodedLenBound_eq (encodedLen : Nat) : decodedLenBound encodedLen = 8 * encodedLen / 5 := by
  unfold decodedLenBound
  omega

/-! ### What the decoder reads -/

variable {reading : Reading}

/-- The bits of the code that is next. -/
def Reading.bits (reading : Reading) : List Bool := bitsOf reading.len reading.code

/-- What is read of a code is shorter than the longest one. -/
structure Reading.Fits (reading : Reading) : Prop where
  short : reading.len < 30
  small : reading.code < 2 ^ reading.len

theorem Reading.fits_start : Reading.Fits ⟨0, 0⟩ := ⟨by decide, by decide⟩

theorem Reading.Fits.next (fits : reading.Fits) (bit : Bool)
    (notLast : ¬maxCodeLen ≤ reading.len + 1) :
    Reading.Fits ⟨2 * reading.code + bit.toNat, reading.len + 1⟩ := by
  refine ⟨Nat.lt_of_not_le notLast, ?_⟩
  have small := fits.small
  have low : bit.toNat < 2 := by cases bit <;> decide
  dsimp only
  rw [Nat.pow_succ]
  omega

theorem shift_in {code : Nat} (small : code < 2 ^ 31) (bit : Bool) :
    code <<< 1 % 2 ^ 32 ||| bit.toNat = 2 * code + bit.toNat := by
  have low : bit.toNat < 2 ^ 1 := by cases bit <;> decide
  rw [Nat.mod_eq_of_lt (by rw [Nat.shiftLeft_eq]; omega), ← Nat.shiftLeft_add_eq_or_of_lt low,
    Nat.shiftLeft_eq, Nat.pow_one, Nat.mul_comm]

theorem Reading.Fits.shift (fits : reading.Fits) (bit : Bool) :
    reading.code <<< 1 % 2 ^ 32 ||| bit.toNat = 2 * reading.code + bit.toNat := by
  refine shift_in (Nat.lt_of_lt_of_le fits.small (Nat.pow_le_pow_right (by decide) ?_)) bit
  exact Nat.le_succ_of_le (Nat.le_of_lt fits.short)

theorem shiftRight_succ_testBit (code left : Nat) :
    2 * code >>> (left + 1) + (code.testBit left).toNat = code >>> left := by
  rw [Nat.shiftRight_succ, Nat.testBit, Nat.and_comm, Nat.and_one_is_mod]
  rcases Nat.mod_two_eq_zero_or_one (code >>> left) with even | odd
  · rw [even]
    simp only [bne_self_eq_false, Bool.toNat_false]
    omega
  · rw [odd]
    simp only [Nat.reduceBneDiff, Bool.toNat_true]
    omega

section Reading

variable {Out : Type} (emit : Out → UInt8 → Except HuffmanError Out)

/-- From inside a code the decoder reads to its end and hands its symbol on. -/
theorem decodeBits_inside (octet : UInt8) (more : List Bool) (out : Out) (left : Nat)
    (inside : left < (codeOf octet.toNat).2) :
    decodeBits emit (bitsOf (left + 1) (codeOf octet.toNat).1 ++ more)
        ⟨(codeOf octet.toNat).1 >>> (left + 1), (codeOf octet.toNat).2 - (left + 1)⟩ out =
      match emit out octet with
      | .ok next => decodeBits emit more ⟨0, 0⟩ next
      | .error fault => (out, .error fault) := by
  have coded := octet_coded octet
  generalize (codeOf octet.toNat).1 = code at coded ⊢
  generalize (codeOf octet.toNat).2 = len at coded inside ⊢
  have small : ∀ left, code >>> left < 2 ^ 31 := fun left =>
    Nat.lt_of_le_of_lt (Nat.shiftRight_le code left)
      (Nat.lt_of_lt_of_le coded.fits (Nat.pow_le_pow_right (by decide)
        (Nat.le_succ_of_le coded.short)))
  induction left with
  | zero =>
    rw [bitsOf_succ, bitsOf_zero, List.cons_append, List.nil_append, decodeBits]
    dsimp only
    rw [shift_in (small _), shiftRight_succ_testBit, Nat.shiftRight_zero,
      show len - (0 + 1) + 1 = len by omega, coded.found]
    dsimp only
    rw [if_pos octet.toNat_lt, UInt8.ofNat_toNat]
  | succ left inductionHypothesis =>
    rw [bitsOf_succ, List.cons_append, decodeBits]
    dsimp only
    rw [shift_in (small _), shiftRight_succ_testBit,
      show len - (left + 1 + 1) + 1 = len - (left + 1) by omega,
      coded.inside (left + 1) (Nat.succ_pos left) (Nat.le_of_lt inside)]
    dsimp only
    have notLast : ¬maxCodeLen ≤ len - (left + 1) := by
      have := coded.short
      rw [maxCodeLen]
      omega
    rw [if_neg notLast]
    exact inductionHypothesis (Nat.lt_of_succ_lt inside)

theorem decodeBits_code (octet : UInt8) (more : List Bool) (out : Out) :
    decodeBits emit (codeBits octet.toNat ++ more) ⟨0, 0⟩ out =
      match emit out octet with
      | .ok next => decodeBits emit more ⟨0, 0⟩ next
      | .error fault => (out, .error fault) := by
  have coded := octet_coded octet
  have whole := decodeBits_inside emit octet more out ((codeOf octet.toNat).2 - 1)
    (Nat.sub_lt (Nat.lt_of_lt_of_le (by decide) coded.long) Nat.one_pos)
  rw [Nat.sub_add_cancel (Nat.le_trans (by decide) coded.long), Nat.sub_self,
    Nat.shiftRight_eq_div_pow, Nat.div_eq_of_lt coded.fits] at whole
  exact whole

/-- Ones are read as padding, up to seven of them. -/
theorem decodeBits_ones (out : Out) (pad : Nat) {len : Nat} (short : len + pad < 8) :
    decodeBits emit (List.replicate pad true) ⟨2 ^ len - 1, len⟩ out =
      (out, .ok ⟨2 ^ (len + pad) - 1, len + pad⟩) := by
  induction pad generalizing len with
  | zero => rfl
  | succ pad inductionHypothesis =>
    have positive := Nat.two_pow_pos len
    have next : (2 ^ len - 1) <<< 1 % 2 ^ 32 ||| true.toNat = 2 ^ (len + 1) - 1 := by
      have bound : 2 ^ len ≤ 2 ^ 8 := Nat.pow_le_pow_right (by decide) (by omega)
      rw [shift_in (by omega), Nat.pow_succ, Bool.toNat_true]
      omega
    rw [List.replicate_succ, decodeBits]
    dsimp only
    rw [next, matching_ones _ (by omega)]
    dsimp only
    rw [if_neg (by rw [maxCodeLen]; omega), inductionHypothesis (by omega), Nat.add_right_comm,
      Nat.add_assoc]

end Reading

theorem Reading.finish_ones {len : Nat} (short : len < 8) :
    Reading.finish ⟨2 ^ len - 1, len⟩ = .ok () := by
  have small : 2 ^ len - 1 < 2 ^ len := Nat.sub_lt (Nat.two_pow_pos len) Nat.one_pos
  unfold Reading.finish
  rw [if_neg (by dsimp only; omega), if_neg (not_not.mpr ((countOnes_eq len short _ small).mpr rfl))]

theorem Reading.bits_of_finish (fits : reading.Fits) (finished : reading.finish = .ok ()) :
    reading.len < 8 ∧ reading.bits = List.replicate reading.len true := by
  unfold Reading.finish at finished
  split at finished
  · cases finished
  · rename_i short
    split at finished
    · cases finished
    · rename_i ones
      have few : reading.len < 8 := by omega
      have all := (countOnes_eq _ few _ fits.small).mp (not_not.mp ones)
      refine ⟨few, ?_⟩
      rw [Reading.bits, all, bitsOf_ones]

/-- Handing an octet on to a vector. -/
abbrev pushTo (out : Bytes) (octet : UInt8) : Except HuffmanError Bytes := .ok (out ++ [octet])

theorem decodeBits_text (text : Bytes) (more : List Bool) (out : Bytes) :
    decodeBits pushTo (textBits text ++ more) ⟨0, 0⟩ out =
      decodeBits pushTo more ⟨0, 0⟩ (out ++ text) := by
  induction text generalizing out with
  | nil => rw [textBits_nil, List.nil_append, List.append_nil]
  | cons octet text inductionHypothesis =>
    rw [textBits_cons, List.append_assoc, decodeBits_code]
    dsimp only
    rw [inductionHypothesis, List.append_assoc, List.singleton_append]

/-- What was encoded decodes back. -/
theorem decodeToVec_encode (text out : Bytes) :
    decodeToVec (encode text []) out = (out ++ text, .ok ()) := by
  obtain ⟨pad, short, padded⟩ := encode_bits text []
  have ones := @decodeBits_ones _ pushTo (out ++ text) pad 0 (by omega)
  rw [Nat.pow_zero, Nat.sub_self, Nat.zero_add] at ones
  rw [decodeToVec, decodeWith, padded, octetsBits_nil, List.nil_append, decodeBits_text, ones]
  dsimp only
  rw [Reading.finish_ones short]

/-- The bits read are the codes of the octets handed on and the start of a code. -/
theorem decodeBits_sound {bits : List Bool} {last : Reading} {out decoded : Bytes}
    (fits : reading.Fits) (read : decodeBits pushTo bits reading out = (decoded, .ok last)) :
    last.Fits ∧ ∃ text, decoded = out ++ text ∧
      reading.bits ++ bits = textBits text ++ last.bits := by
  induction bits generalizing reading out with
  | nil =>
    cases read
    exact ⟨fits, [], (List.append_nil _).symm, List.append_nil _⟩
  | cons bit bits inductionHypothesis =>
    rw [decodeBits] at read
    dsimp only at read
    rw [fits.shift] at read
    have grown : reading.bits ++ bit :: bits =
        bitsOf (reading.len + 1) (2 * reading.code + bit.toNat) ++ bits := by
      rw [bitsOf_two_mul_add, List.append_assoc, List.singleton_append, Reading.bits]
    rw [grown]
    have short := fits.short
    rcases found : matching (2 * reading.code + bit.toNat) (reading.len + 1) with _ | symbol
    · rw [found] at read
      dsimp only at read
      split at read
      · cases read
      · rename_i notLast
        exact inductionHypothesis (fits.next bit notLast) read
    · rw [found] at read
      dsimp only at read
      split at read
      · rename_i isOctet
        obtain ⟨fitsLast, text, same, tail⟩ := inductionHypothesis Reading.fits_start read
        obtain ⟨codeIs, -⟩ := matching_found (by omega) found
        refine ⟨fitsLast, UInt8.ofNat symbol :: text, ?_, ?_⟩
        · rw [same, List.append_assoc, List.singleton_append]
        · rw [textBits_cons, UInt8.toNat_ofNat_of_lt' isOctet, codeBits, codeIs, List.append_assoc,
            ← tail, Reading.bits, bitsOf_zero, List.nil_append]
      · cases read

/-- A text has one encoding that the decoder accepts: the one the encoder writes. -/
theorem encode_decodeToVec {input text : Bytes}
    (decoded : decodeToVec input [] = (text, .ok ())) : encode text [] = input := by
  rw [decodeToVec, decodeWith] at decoded
  rcases read : decodeBits pushTo (octetsBits input) ⟨0, 0⟩ [] with ⟨out, fault | last⟩
  · rw [read] at decoded
    cases decoded
  · rw [read] at decoded
    dsimp only at decoded
    obtain ⟨same, finished⟩ := Prod.mk.inj decoded
    obtain ⟨fits, text', same', bits⟩ := decodeBits_sound Reading.fits_start read
    obtain ⟨short, ones⟩ := Reading.bits_of_finish fits finished
    obtain ⟨pad, shortPad, padded⟩ := encode_bits text []
    rw [List.nil_append] at same'
    refine @padded_inj _ _ (textBits text) pad last.len shortPad short ?_ ?_
    · rw [padded, octetsBits_nil, List.nil_append]
    · rw [← same, same', ← ones, ← bits, Reading.bits, bitsOf_zero, List.nil_append]

/-- While the slice has room for a code of every five bits left, it takes what a vector takes. -/
theorem decodeBits_fill {bits : List Bool} {reading : Reading} {written left : Bytes}
    (fits : reading.Fits) (room : reading.len + bits.length < 5 * left.length + 5) :
    ∃ text, text.length ≤ left.length ∧
      (decodeBits pushTo bits reading written).1 = written ++ text ∧
      (decodeBits pushTo bits reading written).2 ≠ .error .outputFull ∧
      decodeBits Slots.fill bits reading ⟨written, left⟩ =
        (⟨written ++ text, left.drop text.length⟩, (decodeBits pushTo bits reading written).2) := by
  induction bits generalizing reading written left with
  | nil =>
    refine ⟨[], Nat.zero_le _, (List.append_nil _).symm, nofun, ?_⟩
    rw [decodeBits, decodeBits, List.append_nil, List.length_nil, List.drop_zero]
  | cons bit bits inductionHypothesis =>
    rw [List.length_cons] at room
    have short := fits.short
    have stopped : ∀ fault : HuffmanError, fault ≠ .outputFull →
        ∃ text : Bytes, text.length ≤ left.length ∧ written = written ++ text ∧
          (.error fault : Except HuffmanError Reading) ≠ .error .outputFull ∧
          ((⟨written, left⟩, .error fault) : Slots × Except HuffmanError Reading) =
            (⟨written ++ text, left.drop text.length⟩, .error fault) := by
      intro fault other
      refine ⟨[], Nat.zero_le _, (List.append_nil _).symm, ?_, ?_⟩
      · rintro ⟨⟩
        exact other rfl
      · rw [List.append_nil, List.length_nil, List.drop_zero]
    rw [decodeBits, decodeBits]
    dsimp only
    rw [fits.shift]
    rcases found : matching (2 * reading.code + bit.toNat) (reading.len + 1) with _ | symbol
    · dsimp only
      split
      · exact stopped .padding nofun
      · rename_i notLast
        refine inductionHypothesis (fits.next bit notLast) ?_
        dsimp only
        omega
    · dsimp only
      split
      · rename_i isOctet
        obtain ⟨codeIs, known⟩ := matching_found (by omega) found
        have long := (codeOf_coded known).long
        rw [codeIs] at long
        dsimp only at long
        cases left with
        | nil =>
          rw [List.length_nil] at room
          omega
        | cons slot left =>
          rw [List.length_cons] at room
          obtain ⟨text, within, vector, noFull, slots⟩ :=
            @inductionHypothesis ⟨0, 0⟩ (written ++ [UInt8.ofNat symbol]) left Reading.fits_start
              (by dsimp only; omega)
          refine ⟨UInt8.ofNat symbol :: text, Nat.succ_le_succ within, ?_, noFull, ?_⟩
          · rw [vector, List.append_assoc, List.singleton_append]
          · rw [Slots.fill]
            dsimp only
            rw [slots, List.append_assoc, List.singleton_append, List.length_cons,
              List.drop_succ_cons]
      · exact stopped .eos nofun

/-- Into a slice as long as the bound the decoder writes what it pushes to a vector. -/
theorem decode_eq_decodeToVec {input out : Bytes}
    (room : decodedLenBound input.length ≤ out.length) :
    (decodeToVec input []).1.length ≤ out.length ∧
      (decodeToVec input []).2 ≠ .error .outputFull ∧
      decode input out =
        ((decodeToVec input []).1 ++ out.drop (decodeToVec input []).1.length,
          (decodeToVec input []).2.map fun _ => (decodeToVec input []).1.length) := by
  rw [decodedLenBound_eq] at room
  obtain ⟨text, within, vector, noFull, slots⟩ :=
    @decodeBits_fill (octetsBits input) ⟨0, 0⟩ [] out Reading.fits_start
      (by dsimp only; rw [length_octetsBits]; omega)
  rw [decode, decodeToVec, decodeWith, decodeWith, slots]
  rcases read : decodeBits pushTo (octetsBits input) ⟨0, 0⟩ [] with ⟨decoded, fault | last⟩
  · rw [read] at vector noFull
    dsimp only at vector noFull ⊢
    rw [vector, List.nil_append]
    exact ⟨within, fun same => noFull (by cases same; rfl), rfl⟩
  · rw [read] at vector
    dsimp only at vector ⊢
    rw [vector, List.nil_append]
    refine ⟨within, ?_, rfl⟩
    unfold Reading.finish
    split
    · nofun
    · split <;> nofun

/-- The encoder is a bijection onto the octets the decoder accepts, it writes as many octets as it
says, and decoding into a slice of the length the bound gives is decoding into a vector. -/
theorem codec_bijective :
    (∀ text out : Bytes, encode text out = out ++ encode text [] ∧
      decodeToVec (encode text []) out = (out ++ text, .ok ()) ∧
      (encode text []).length = encodedLen text ∧
      text.length ≤ decodedLenBound (encode text []).length) ∧
    (∀ input text : Bytes, decodeToVec input [] = (text, .ok ()) → encode text [] = input) ∧
    (∀ input out : Bytes, decodedLenBound input.length ≤ out.length →
      (decode input out).2 ≠ .error .outputFull ∧
      decode input out =
        ((decodeToVec input []).1 ++ out.drop (decodeToVec input []).1.length,
          (decodeToVec input []).2.map fun _ => (decodeToVec input []).1.length)) := by
  refine ⟨fun text out => ?_, fun input text => encode_decodeToVec, fun input out room => ?_⟩
  · refine ⟨encode_append text out, decodeToVec_encode text out, length_encode text, ?_⟩
    have fives := five_mul_length_le text
    rw [decodedLenBound_eq, length_encode, encodedLen_eq]
    omega
  · obtain ⟨-, noFull, same⟩ := decode_eq_decodeToVec room
    refine ⟨?_, same⟩
    rw [same]
    rcases result : (decodeToVec input []).2 with fault | done
    · rintro ⟨⟩
      exact noFull result
    · nofun

/-- The octet of the letter a, and a slice of one octet. -/
theorem codec_bijective_letter :
    encode [97] [] = [0x1F] ∧ decode [0x1F] [0] = ([97], .ok 1) := by
  have decoded : decodeToVec [0x1F] [] = ([97], .ok ()) := by decide +kernel
  refine ⟨codec_bijective.2.1 [0x1F] [97] decoded, ?_⟩
  rw [(codec_bijective.2.2 [0x1F] [0] (by decide)).2, decoded]
  rfl

end Huffman

end ZeroServer.Qpack

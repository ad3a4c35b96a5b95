/-
This file models the kernels that scan and unmask many bytes per step: eight in a word, and sixteen
or thirty-two in a vector, each falling back for the bytes behind the last full chunk. Every kernel
returns what the loop over single bytes returns.
-/

import ZeroServer.Lib.Lanes
import ZeroServer.Sse.Decode
import ZeroServer.Sys.Cmsg
import ZeroServer.Ws.Frame

namespace ZeroServer.Simd

open Lib

/-! ### The kernels of a word -/

namespace Swar

def lo : BitVec 64 := 0x0101010101010101
def hi : BitVec 64 := 0x8080808080808080
def lo7 : BitVec 64 := 0x7F7F7F7F7F7F7F7F

/-- A byte in every lane. -/
def repeated (byte : UInt8) : BitVec 64 := byte.toBitVec.setWidth 64 * lo

/-- The lanes whose byte equals a byte. -/
def eqMask (word : BitVec 64) (byte : UInt8) : BitVec 64 :=
  let diff := word ^^^ repeated byte
  ~~~((diff &&& lo7) + lo7 ||| diff ||| lo7)

/-- The lanes whose byte is below a bound of at most 0x80. -/
def ltMask (word : BitVec 64) (bound : UInt8) : BitVec 64 :=
  let offset := repeated (0x80 - bound)
  ~~~((word &&& lo7) + offset ||| word) &&& hi

def nonAsciiMask (word : BitVec 64) : BitVec 64 := word &&& hi

/-- The first flagged lane. -/
def firstLane (mask : BitVec 64) : Option Nat :=
  if mask = 0 then none else some (mask.ctz.toNat >>> 3)

def load (chunk : Bytes) : BitVec 64 := BitVec.ofNat 64 (Sys.fromNeBytes .little chunk)

def position (flag : BitVec 64 → BitVec 64) (tail : Bytes → Option Nat) (bytes : Bytes) :
    Option Nat :=
  searchChunks 8 (fun chunk => firstLane (flag (load chunk))) tail bytes 0

def scanAscii (bytes : Bytes) : Nat :=
  (position nonAsciiMask (List.findIdx? fun byte => 0x80 ≤ byte) bytes).getD bytes.length

def scanTarget (bytes : Bytes) : Nat :=
  (position (fun word => ltMask word 0x21 ||| eqMask word 0x7F ||| word &&& hi)
    (List.findIdx? fun byte => !Http1.isTargetByte byte) bytes).getD bytes.length

def scanHeaderName (bytes : Bytes) : Nat :=
  (bytes.findIdx? fun byte => !Http1.isTchar byte).getD bytes.length

def scanHeaderValue (bytes : Bytes) : Nat :=
  (position (fun word => ltMask word 0x20 &&& ~~~eqMask word 0x09 ||| eqMask word 0x7F)
    (List.findIdx? fun byte => !Http1.isValueByte byte) bytes).getD bytes.length

def findByte (haystack : Bytes) (needle : UInt8) : Option Nat :=
  position (fun word => eqMask word needle) (List.findIdx? fun byte => byte = needle) haystack

def findCrOrLf (haystack : Bytes) : Option Nat :=
  position (fun word => eqMask word Http1.cr ||| eqMask word Http1.lf) Sse.Decoder.findCrOrLf
    haystack

def unmask (order : Sys.ByteOrder) (payload : Bytes) (key : Ws.Key) : Bytes :=
  let keyWord := Sys.fromNeBytes order [key.k0, key.k1, key.k2, key.k3, key.k0, key.k1, key.k2,
    key.k3]
  changeChunks 8 (fun chunk => Sys.toNeBytes order 8 (Sys.fromNeBytes order chunk ^^^ keyWord))
    (fun rest => Ws.unmask rest key) payload

end Swar

/-! ### The kernels of a vector -/

namespace X86

/-- The instruction sets, which differ in the lanes of a vector. -/
inductive Kernel where
  | sse2
  | avx2

def Kernel.lanes : Kernel → Nat
  | .sse2 => 16
  | .avx2 => 32

def set1Epi8 (kernel : Kernel) (byte : UInt8) : Bytes := List.replicate kernel.lanes byte

def cmpeqEpi8 : Bytes → Bytes → Bytes := List.zipWith fun one two => if one = two then 0xFF else 0

def maxEpu8 : Bytes → Bytes → Bytes := List.zipWith fun one two => if one ≤ two then two else one

def orSi : Bytes → Bytes → Bytes := List.zipWith (· ||| ·)

def subEpi8 : Bytes → Bytes → Bytes := List.zipWith (· - ·)

def xorSi : Bytes → Bytes → Bytes := List.zipWith (· ^^^ ·)

/-- The top bits of the lanes. -/
def movemaskEpi8 (v : Bytes) : BitVec 32 :=
  (BitVec.ofBoolListLE (v.map fun lane => decide (0x80 ≤ lane))).setWidth 32

variable (kernel : Kernel)

/-- The lanes below a bound of at least one. -/
def lt (v : Bytes) (bound : UInt8) : Bytes :=
  let limit := set1Epi8 kernel (bound - 1)
  cmpeqEpi8 (maxEpu8 v limit) limit

def eq (v : Bytes) (byte : UInt8) : Bytes := cmpeqEpi8 v (set1Epi8 kernel byte)

/-- The lanes from a byte to another, both included. -/
def between (v : Bytes) (low high : UInt8) : Bytes :=
  let shifted := subEpi8 v (set1Epi8 kernel low)
  let span := set1Epi8 kernel (high - low)
  cmpeqEpi8 (maxEpu8 shifted span) span

/-- The lanes outside the token class. -/
def notTchar (v : Bytes) : BitVec 32 :=
  let bad := orSi (orSi (lt kernel v 0x21) (eq kernel v 0x7F))
    (orSi (orSi (between kernel v 0x3A 0x40) (between kernel v 0x5B 0x5D))
      (orSi (orSi (eq kernel v 0x7B) (eq kernel v 0x7D))
        (orSi (orSi (between kernel v 0x28 0x29) (eq kernel v 0x2C))
          (orSi (eq kernel v 0x2F) (eq kernel v 0x22)))))
  movemaskEpi8 bad ||| movemaskEpi8 v

def tailPosition (tail : Bytes) (first : Nat) : Option Nat :=
  if first < tail.length then some first else none

def position (flag : Bytes → BitVec 32) (tail : Bytes → Option Nat) (bytes : Bytes) :
    Option Nat :=
  searchChunks kernel.lanes
    (fun chunk => if flag chunk = 0 then none else some (flag chunk).ctz.toNat) tail bytes 0

def scanAscii (bytes : Bytes) : Nat :=
  (position kernel movemaskEpi8 (fun tail => tailPosition tail (Swar.scanAscii tail)) bytes).getD
    bytes.length

def scanTarget (bytes : Bytes) : Nat :=
  (position kernel
    (fun v => movemaskEpi8 (orSi (lt kernel v 0x21) (eq kernel v 0x7F)) ||| movemaskEpi8 v)
    (fun tail => tailPosition tail (Swar.scanTarget tail)) bytes).getD bytes.length

def scanHeaderName (bytes : Bytes) : Nat :=
  (position kernel (notTchar kernel) (fun tail => tailPosition tail (Swar.scanHeaderName tail))
    bytes).getD bytes.length

def scanHeaderValue (bytes : Bytes) : Nat :=
  (position kernel
    (fun v => movemaskEpi8 (lt kernel v 0x20) &&& ~~~movemaskEpi8 (eq kernel v 0x09) |||
      movemaskEpi8 (eq kernel v 0x7F))
    (fun tail => tailPosition tail (Swar.scanHeaderValue tail)) bytes).getD bytes.length

def findByte (haystack : Bytes) (needle : UInt8) : Option Nat :=
  position kernel (fun v => movemaskEpi8 (eq kernel v needle))
    (fun tail => Swar.findByte tail needle) haystack

def findCrOrLf (haystack : Bytes) : Option Nat :=
  position kernel
    (fun v => movemaskEpi8 (orSi (eq kernel v Http1.cr) (eq kernel v Http1.lf))) Swar.findCrOrLf
    haystack

def unmask (payload : Bytes) (key : Ws.Key) : Bytes :=
  let keyVec := (List.replicate (kernel.lanes / 4) (Sys.toNeBytes .little 4
    (Sys.fromNeBytes .little [key.k0, key.k1, key.k2, key.k3]))).flatten
  changeChunks kernel.lanes (fun chunk => xorSi chunk keyVec)
    (fun rest => Swar.unmask .little rest key) payload

end X86

/-- Unmasking with the vectors of the other architecture. -/
def Neon.unmask (order : Sys.ByteOrder) (payload : Bytes) (key : Ws.Key) : Bytes :=
  let pattern := [key.k0, key.k1, key.k2, key.k3, key.k0, key.k1, key.k2, key.k3, key.k0, key.k1,
    key.k2, key.k3, key.k0, key.k1, key.k2, key.k3]
  changeChunks 16 (fun chunk => X86.xorSi chunk pattern) (fun rest => Swar.unmask order rest key)
    payload

/-! ### The lanes of a word -/

variable {flag : BitVec 64 → BitVec 64} {tail : Bytes → Option Nat} {test : UInt8 → Bool}

variable {bound : UInt8}

namespace Swar

variable {index : Nat}

theorem lane_lo7 (inside : index < 8) : lane lo7 index = 0x7F := by
  have table : ∀ index : Fin 8, lane lo7 index = 0x7F := by decide
  exact table ⟨index, inside⟩

theorem getLsbD_lo7 {place : Nat} (inside : place < 64) :
    lo7.getLsbD place = decide (place % 8 ≠ 7) ∧ hi.getLsbD place = decide (place % 8 = 7) := by
  have table : ∀ place : Fin 64, lo7.getLsbD place = decide (place.1 % 8 ≠ 7) ∧
      hi.getLsbD place = decide (place.1 % 8 = 7) := by decide
  exact table ⟨place, inside⟩

theorem fromNeBytes_little (byte : UInt8) (bytes : Bytes) :
    Sys.fromNeBytes .little (byte :: bytes) = Sys.fromNeBytes .little bytes * 256 + byte.toNat := by
  unfold Sys.fromNeBytes H3.Varint.fromBeBytes
  rw [List.reverse_cons, List.foldl_append]
  rfl

theorem fromNeBytes_lt (bytes : Bytes) : Sys.fromNeBytes .little bytes < 256 ^ bytes.length := by
  have bound := H3.Varint.fromBeBytes_lt bytes.reverse
  rwa [List.length_reverse] at bound

theorem lane_load {chunk : Bytes} (whole : chunk.length = 8) (inside : index < chunk.length) :
    lane (load chunk) index = chunk[index].toBitVec := by
  have place : ∀ (bytes : Bytes) (index : Nat) (inside : index < bytes.length),
      Sys.fromNeBytes .little bytes / 256 ^ index % 256 = bytes[index].toNat := by
    intro bytes
    induction bytes with
    | nil => exact fun index inside => absurd inside (Nat.not_lt_zero index)
    | cons byte bytes inductionHypothesis =>
      intro index inside
      have small := byte.toNat_lt
      rw [fromNeBytes_little]
      rcases index with - | index
      · rw [Nat.pow_zero, Nat.div_one, List.getElem_cons_zero]
        omega
      · rw [Nat.pow_succ, Nat.mul_comm (256 ^ index), ← Nat.div_div_eq_div_mul,
          List.getElem_cons_succ, ← inductionHypothesis index (Nat.lt_of_succ_lt_succ inside)]
        congr 2
        omega
  refine BitVec.eq_of_toNat_eq ?_
  have fits := fromNeBytes_lt chunk
  rw [whole] at fits
  change _ < 2 ^ 64 at fits
  rw [toNat_lane, load, BitVec.toNat_ofNat, Nat.mod_eq_of_lt fits, place chunk index inside]
  rfl

theorem lane_repeated (byte : UInt8) (inside : index < 8) :
    lane (repeated byte) index = byte.toBitVec := by
  have same : repeated byte = load (List.replicate 8 byte) := by
    refine BitVec.eq_of_toNat_eq ?_
    have small := byte.toNat_lt
    rw [repeated, BitVec.toNat_mul, BitVec.toNat_setWidth, load, BitVec.toNat_ofNat]
    simp only [List.replicate_succ, List.replicate_zero, fromNeBytes_little]
    change byte.toNat % 2 ^ 64 * 0x0101010101010101 % 2 ^ 64 = _
    rw [show Sys.fromNeBytes .little [] = 0 from rfl]
    omega
  rw [same, lane_load List.length_replicate (by rwa [List.length_replicate]),
    List.getElem_replicate]

theorem top_lane (byte : BitVec 8) : byte.getLsbD 7 = decide (128 ≤ byte.toNat) :=
  BitVec.msb_eq_decide byte

theorem toNat_and_lo7 (byte : BitVec 8) : (byte &&& 0x7F).toNat = byte.toNat % 128 := by
  rw [BitVec.toNat_and]
  exact Nat.and_two_pow_sub_one_eq_mod _ 7

/-- A mask is made by its top bits. -/
theorem flags_of_top {mask : BitVec 64} {flagged : Nat → Bool}
    (others : ∀ place < 64, place % 8 ≠ 7 → mask.getLsbD place = false)
    (top : ∀ index < 8, mask.getLsbD (8 * index + 7) = flagged index) : Flags 8 8 mask flagged := by
  intro place
  rcases Nat.lt_or_ge place 64 with inside | outside
  · by_cases last : place % 8 = 7
    · have whole := top (place / 8) (by omega)
      rw [show 8 * (place / 8) + 7 = place by omega] at whole
      rw [whole, decide_eq_true ⟨by omega, by omega⟩, Bool.true_and]
    · rw [others place inside last, decide_eq_false (by omega), Bool.false_and]
  · rw [BitVec.getLsbD_of_ge _ _ outside, decide_eq_false (by omega), Bool.false_and]

/-- Exactly the lanes equal to the byte are flagged. -/
theorem flags_eqMask (word : BitVec 64) (byte : UInt8) :
    Flags 8 8 (eqMask word byte) fun index => lane word index == byte.toBitVec := by
  unfold eqMask
  refine flags_of_top (fun place inside other => ?_) fun index inside => ?_
  · rw [BitVec.getLsbD_not, BitVec.getLsbD_or, (getLsbD_lo7 inside).1, decide_eq_true other,
      Bool.or_true, Bool.not_true, Bool.and_false]
  · have bound : 8 * index + 7 < 64 := by omega
    have same := lane_xor word (repeated byte) index
    rw [lane_repeated byte inside] at same
    generalize word ^^^ repeated byte = diff at same ⊢
    have sum : lane ((diff &&& lo7) + lo7) index = (lane diff index &&& 0x7F) + 0x7F := by
      rw [@lane_add 8 (diff &&& lo7) lo7 (fun other within => ?_) index inside, lane_and,
        lane_lo7 inside]
      rw [lane_and, lane_lo7 within, toNat_and_lo7]
      show _ + 127 < 256
      omega
    rw [BitVec.getLsbD_not, BitVec.getLsbD_or, BitVec.getLsbD_or, (getLsbD_lo7 bound).1,
      decide_eq_true bound, ← getLsbD_lane _ index (by decide),
      ← getLsbD_lane diff index (by decide), sum, top_lane, top_lane, BitVec.toNat_add,
      toNat_and_lo7, decide_eq_false (not_not.mpr (by omega)), Bool.or_false, Bool.true_and]
    have equal : lane word index = byte.toBitVec ↔ (lane diff index).toNat = 0 := by
      rw [← BitVec.xor_eq_zero_iff, ← same, ← BitVec.toNat_inj]
      rfl
    have small := (lane diff index).isLt
    rw [beq_eq_decide, ← Bool.decide_or, ← decide_not, decide_eq_decide, equal]
    show ¬(128 ≤ ((lane diff index).toNat % 128 + 127) % 256 ∨ _) ↔ _
    omega

/-- Exactly the lanes below the bound are flagged. -/
theorem flags_ltMask (word : BitVec 64) (low : bound ≤ 0x80) :
    Flags 8 8 (ltMask word bound) fun index => decide (lane word index < bound.toBitVec) := by
  unfold ltMask
  refine flags_of_top (fun place inside other => ?_) fun index inside => ?_
  · rw [BitVec.getLsbD_and, (getLsbD_lo7 inside).2, decide_eq_false other, Bool.and_false]
  · have bound_ : 8 * index + 7 < 64 := by omega
    have offset : (0x80 - bound).toBitVec.toNat = 128 - bound.toNat := UInt8.toNat_sub_of_le _ _ low
    have low' : bound.toNat ≤ 128 := UInt8.le_iff_toNat_le.mp low
    have sum : lane ((word &&& lo7) + repeated (0x80 - bound)) index =
        (lane word index &&& 0x7F) + (0x80 - bound).toBitVec := by
      rw [@lane_add 8 (word &&& lo7) (repeated (0x80 - bound)) (fun other within => ?_) index
        inside, lane_and, lane_lo7 inside, lane_repeated _ inside]
      rw [lane_and, lane_lo7 within, lane_repeated _ within, toNat_and_lo7, offset]
      omega
    have small := (lane word index).isLt
    rw [BitVec.getLsbD_and, BitVec.getLsbD_not, BitVec.getLsbD_or, (getLsbD_lo7 bound_).2,
      decide_eq_true bound_, ← getLsbD_lane _ index (by decide),
      ← getLsbD_lane word index (by decide), sum, top_lane, top_lane, BitVec.toNat_add,
      toNat_and_lo7, offset, decide_eq_true (show (8 * index + 7) % 8 = 7 by omega),
      Bool.and_true, Bool.true_and,
      ← Bool.decide_or, ← decide_not, decide_eq_decide, BitVec.lt_def]
    show ¬(128 ≤ ((lane word index).toNat % 128 + (128 - bound.toNat)) % 256 ∨ _) ↔
      (lane word index).toNat < bound.toNat
    omega

theorem flags_nonAsciiMask (word : BitVec 64) :
    Flags 8 8 (nonAsciiMask word) fun index => decide (128 ≤ (lane word index).toNat) := by
  unfold nonAsciiMask
  refine flags_of_top (fun place inside other => ?_) fun index inside => ?_
  · rw [BitVec.getLsbD_and, (getLsbD_lo7 inside).2, decide_eq_false other, Bool.and_false]
  · rw [BitVec.getLsbD_and, (getLsbD_lo7 (by omega)).2,
      decide_eq_true (show (8 * index + 7) % 8 = 7 by omega), Bool.and_true,
      ← getLsbD_lane word index (by decide), top_lane]

/-- A scan by flags finds the first byte that the flags test for. -/
theorem position_eq (flagged : BitVec 8 → Bool)
    (flags : ∀ word, Flags 8 8 (flag word) fun index => flagged (lane word index))
    (same : ∀ byte : UInt8, flagged byte.toBitVec = test byte)
    (rest : ∀ bytes, tail bytes = bytes.findIdx? test) (bytes : Bytes) :
    position flag tail bytes = bytes.findIdx? test := by
  unfold position
  rw [searchChunks_eq (fun chunk whole => ?_) rest]
  · rw [Option.map_congr fun _ _ => Nat.zero_add _, Option.map_id']
  · refine Eq.trans ?_ (@Flags.first_lane 64 8 (flag (load chunk)) UInt8 chunk test (by decide) ?_)
    · unfold firstLane
      rw [Nat.shiftRight_eq_div_pow]
    · rw [whole]
      refine (flags (load chunk)).congr fun index inside => ?_
      have inside' : index < chunk.length := whole ▸ inside
      rw [lane_load whole inside', List.getElem?_eq_getElem inside', same]
      rfl

end Swar

/-! ### The lanes of a vector -/

namespace X86

variable {kernel : Kernel} {v : Bytes}

/-- What a comparison makes of a lane. -/
def mark (holds : Bool) : UInt8 := if holds then 0xFF else 0

theorem mark_or (one two : Bool) : mark one ||| mark two = mark (one || two) := by
  cases one <;> cases two <;> rfl

theorem le_mark (holds : Bool) : decide (0x80 ≤ mark holds) = holds := by
  cases holds <;> rfl

theorem mark_of {condition : Prop} [Decidable condition] {holds : Bool}
    (same : condition ↔ holds = true) : (if condition then 0xFF else 0) = mark holds := by
  rw [mark, if_congr same rfl rfl]

theorem set1Epi8_eq (whole : v.length = kernel.lanes) (byte : UInt8) :
    set1Epi8 kernel byte = v.map fun _ => byte := by
  rw [List.map_const', whole, set1Epi8]

theorem zipWith_maps (make : UInt8 → UInt8 → UInt8) (one two : UInt8 → UInt8) :
    List.zipWith make (v.map one) (v.map two) = v.map fun byte => make (one byte) (two byte) := by
  rw [List.zipWith_map, List.zipWith_self]

theorem eq_map (whole : v.length = kernel.lanes) (byte : UInt8) :
    eq kernel v byte = v.map fun lane => mark (lane = byte) := by
  have made := zipWith_maps (v := v) (fun one two => if one = two then (0xFF : UInt8) else 0) id
    fun _ => byte
  rw [List.map_id] at made
  rw [eq, set1Epi8_eq whole, cmpeqEpi8, made]
  exact List.map_congr_left fun lane _ => mark_of decide_eq_true_iff.symm

theorem lt_map (whole : v.length = kernel.lanes) (positive : 0 < bound) :
    lt kernel v bound = v.map fun lane => mark (lane < bound) := by
  have limited := zipWith_maps (v := v) (fun one two => if one ≤ two then two else one) id
    fun _ => bound - 1
  rw [List.map_id] at limited
  rw [lt, set1Epi8_eq whole, maxEpu8, limited]
  refine (zipWith_maps _ _ _).trans (List.map_congr_left fun lane _ => mark_of ?_)
  have least : (bound - 1).toNat = bound.toNat - 1 :=
    UInt8.toNat_sub_of_le _ _ (UInt8.le_iff_toNat_le.mpr (UInt8.lt_iff_toNat_lt.mp positive))
  have positive' := UInt8.lt_iff_toNat_lt.mp positive
  rw [decide_eq_true_eq, UInt8.lt_iff_toNat_lt, id]
  split
  · next within =>
    rw [UInt8.le_iff_toNat_le, least] at within
    exact iff_of_true rfl (by omega)
  · next above =>
    rw [UInt8.le_iff_toNat_le, least] at above
    rw [← UInt8.toNat_inj, least]
    omega

theorem between_map (whole : v.length = kernel.lanes) {low high : UInt8} (ordered : low ≤ high) :
    between kernel v low high =
      v.map fun lane => mark (decide (low ≤ lane) && decide (lane ≤ high)) := by
  have shifted := zipWith_maps (v := v) (· - ·) id fun _ => low
  rw [List.map_id] at shifted
  rw [between, set1Epi8_eq whole, set1Epi8_eq whole, subEpi8, shifted, maxEpu8, zipWith_maps]
  refine (zipWith_maps _ _ _).trans (List.map_congr_left fun lane _ => mark_of ?_)
  have span : (high - low).toNat = high.toNat - low.toNat := UInt8.toNat_sub_of_le _ _ ordered
  have ordered' := UInt8.le_iff_toNat_le.mp ordered
  have small := lane.toNat_lt
  have small' := high.toNat_lt
  have shift : (lane - low).toNat = (2 ^ 8 - low.toNat + lane.toNat) % 2 ^ 8 := UInt8.toNat_sub ..
  rw [Bool.and_eq_true, decide_eq_true_eq, decide_eq_true_eq, @UInt8.le_iff_toNat_le low,
    @UInt8.le_iff_toNat_le lane, id]
  split
  · next within =>
    rw [UInt8.le_iff_toNat_le, span, shift] at within
    exact iff_of_true rfl (by omega)
  · next above =>
    rw [UInt8.le_iff_toNat_le, span, shift] at above
    rw [← UInt8.toNat_inj, span, shift]
    omega

/-- The top bits of the lanes flag them. -/
theorem flags_movemask (whole : v.length = kernel.lanes) (made : UInt8 → UInt8) :
    Flags 1 kernel.lanes (movemaskEpi8 (v.map made)) fun index =>
      decide (0x80 ≤ made (v.getD index 0)) := by
  intro place
  have fits : kernel.lanes ≤ 32 := by cases kernel <;> decide
  rw [movemaskEpi8, List.map_map, BitVec.getLsbD_setWidth, BitVec.getLsbD_ofBoolListLE,
    List.getD_eq_getElem?_getD, List.getElem?_map, Nat.mod_one, Nat.div_one, ← whole]
  dsimp only
  rcases Nat.lt_or_ge place v.length with inside | outside
  · rw [List.getD_eq_getElem?_getD, List.getElem?_eq_getElem inside, decide_eq_true (by omega),
      decide_eq_true ⟨rfl, inside⟩]
    rfl
  · have clear : ¬(0 + 1 = 1 ∧ place < v.length) := fun holds =>
      Nat.not_lt.mpr outside holds.2
    rw [List.getElem?_eq_none outside, decide_eq_false clear, Option.map_none, Option.getD_none,
      Bool.and_false, Bool.false_and]

theorem flags_movemask_mark (whole : v.length = kernel.lanes) (test : UInt8 → Bool) :
    Flags 1 kernel.lanes (movemaskEpi8 (v.map fun lane => mark (test lane))) fun index =>
      test (v.getD index 0) :=
  (flags_movemask whole _).congr fun _ _ => le_mark _

/-- A scan by flags finds the first byte that the flags test for. -/
theorem position_eq (flagged : UInt8 → Bool) {flag : Bytes → BitVec 32}
    (flags : ∀ v : Bytes, v.length = kernel.lanes →
      Flags 1 kernel.lanes (flag v) fun index => flagged (v.getD index 0))
    (same : ∀ byte, flagged byte = test byte) (rest : ∀ bytes, tail bytes = bytes.findIdx? test)
    (bytes : Bytes) : position kernel flag tail bytes = bytes.findIdx? test := by
  unfold position
  rw [searchChunks_eq (fun chunk whole => ?_) rest]
  · rw [Option.map_congr fun _ _ => Nat.zero_add _, Option.map_id']
  · have found := @Flags.first_lane 32 1 (flag chunk) UInt8 chunk test Nat.one_pos (by
      rw [whole]
      refine (flags chunk whole).congr fun index inside => ?_
      rw [List.getD_eq_getElem?_getD, List.getElem?_eq_getElem (whole ▸ inside)]
      exact same _)
    rwa [Nat.div_one] at found

theorem tailPosition_eq (tail : Bytes) (test : UInt8 → Bool) :
    tailPosition tail ((tail.findIdx? test).getD tail.length) = tail.findIdx? test := by
  unfold tailPosition
  rcases found : tail.findIdx? test with - | index
  · exact if_neg (Nat.lt_irrefl _)
  · obtain ⟨inside, -⟩ := List.findIdx?_eq_some_iff_getElem.mp found
    exact if_pos inside

end X86

/-! ### The tests of a byte -/

theorem target_test (byte : UInt8) :
    (decide (byte < 0x21) || decide (byte = 0x7F) || decide (0x80 ≤ byte)) =
      !Http1.isTargetByte byte := by
  have small := byte.toNat_lt
  rw [Bool.eq_iff_iff]
  simp only [Http1.isTargetByte, Bool.or_eq_true, Bool.not_eq_true', Bool.and_eq_false_iff,
    decide_eq_true_eq, decide_eq_false_iff_not, UInt8.lt_iff_toNat_lt, UInt8.le_iff_toNat_le,
    ← UInt8.toNat_inj, UInt8.reduceToNat]
  omega

theorem value_test (byte : UInt8) :
    (decide (byte < 0x20) && !decide (byte = 0x09) || decide (byte = 0x7F)) =
      !Http1.isValueByte byte := by
  have small := byte.toNat_lt
  rw [Bool.eq_iff_iff]
  simp only [Http1.isValueByte, Bool.or_eq_true, Bool.not_eq_true', Bool.and_eq_true,
    Bool.or_eq_false_iff, Bool.and_eq_false_iff, decide_eq_true_eq, decide_eq_false_iff_not,
    beq_eq_false_iff_ne, ne_eq, UInt8.lt_iff_toNat_lt, UInt8.le_iff_toNat_le, ← UInt8.toNat_inj,
    UInt8.reduceToNat]
  omega

/-- The comparisons of a vector leave out the bytes of no token. -/
theorem tchar_test (byte : UInt8) :
    ((decide (byte < 0x21) || decide (byte = 0x7F)) ||
      ((decide (0x3A ≤ byte) && decide (byte ≤ 0x40) ||
          decide (0x5B ≤ byte) && decide (byte ≤ 0x5D)) ||
        ((decide (byte = 0x7B) || decide (byte = 0x7D)) ||
          ((decide (0x28 ≤ byte) && decide (byte ≤ 0x29) || decide (byte = 0x2C)) ||
            (decide (byte = 0x2F) || decide (byte = 0x22))))) || decide (0x80 ≤ byte)) =
      !Http1.isTchar byte := by
  have table : ∀ number < 256, ((decide (number < 0x21) || decide (number = 0x7F)) ||
        ((decide (0x3A ≤ number) && decide (number ≤ 0x40) ||
            decide (0x5B ≤ number) && decide (number ≤ 0x5D)) ||
          ((decide (number = 0x7B) || decide (number = 0x7D)) ||
            ((decide (0x28 ≤ number) && decide (number ≤ 0x29) || decide (number = 0x2C)) ||
              (decide (number = 0x2F) || decide (number = 0x22))))) || decide (0x80 ≤ number)) =
        !([33, 35, 36, 37, 38, 39, 42, 43, 45, 46, 94, 95, 96, 124, 126].contains number ||
          (decide (48 ≤ number) && decide (number ≤ 57) ||
            decide (65 ≤ number) && decide (number ≤ 90) ||
              decide (97 ≤ number) && decide (number ≤ 122))) := by
    decide +kernel
  have spelled := table byte.toNat byte.toNat_lt
  have marks : (Http1.ascii "!#$%&'*+-.^_`|~").contains byte =
      [33, 35, 36, 37, 38, 39, 42, 43, 45, 46, 94, 95, 96, 124, 126].contains byte.toNat := by
    rw [show Http1.ascii "!#$%&'*+-.^_`|~" =
      [33, 35, 36, 37, 38, 39, 42, 43, 45, 46, 94, 95, 96, 124, 126] from rfl]
    simp only [List.contains_cons, List.contains_nil, beq_eq_decide, ← UInt8.toNat_inj,
      UInt8.reduceToNat]
  rw [Http1.isTchar, marks]
  simp only [Http1.isAsciiAlphanumeric, Http1.isAsciiUppercase,
    Http1.isAsciiLowercase, Http1.isAsciiDigit, UInt8.lt_iff_toNat_lt, UInt8.le_iff_toNat_le,
    ← UInt8.toNat_inj, UInt8.reduceToNat]
  exact spelled

/-! ### Scans -/

theorem scan_eq (bytes : Bytes) (allowed : UInt8 → Bool) :
    (bytes.findIdx? fun byte => !allowed byte).getD bytes.length = Http1.scan bytes allowed :=
  List.findIdx_eq_getD_findIdx?.symm

theorem scanAscii_spelled (bytes : Bytes) :
    scanAscii bytes = Http1.scan bytes fun byte => byte < 0x80 := by
  rw [scanAscii, scan, List.takeWhile_eq_take_findIdx_not, List.length_take]
  exact Nat.min_eq_left List.findIdx_le_length

theorem le_eq_not_lt (byte : UInt8) : decide (0x80 ≤ byte) = !decide (byte < 0x80) := by
  rcases h : decide (byte < 0x80) with - | -
  · exact decide_eq_true (UInt8.not_lt.mp (of_decide_eq_false h))
  · exact decide_eq_false (UInt8.not_le.mpr (of_decide_eq_true h))

theorem beq_toBitVec (byte other : UInt8) :
    (byte.toBitVec == other.toBitVec) = decide (byte = other) := by
  rw [beq_eq_decide, decide_eq_decide]
  exact UInt8.toBitVec_inj

variable {allowed : UInt8 → Bool}

namespace Swar

variable (bytes : Bytes)

/-- A scan by flags takes what the bytes before the first flagged one are. -/
theorem scan_of_flags (flagged : BitVec 8 → Bool)
    (flags : ∀ word, Flags 8 8 (flag word) fun index => flagged (lane word index))
    (same : ∀ byte : UInt8, flagged byte.toBitVec = !allowed byte)
    (rest : ∀ bytes, tail bytes = bytes.findIdx? fun byte => !allowed byte) :
    (position flag tail bytes).getD bytes.length = Http1.scan bytes allowed := by
  rw [position_eq flagged flags same rest]
  exact scan_eq bytes allowed

theorem scanAscii_eq : scanAscii bytes = Simd.scanAscii bytes := by
  rw [scanAscii_spelled]
  exact scan_of_flags bytes (fun lane => decide (128 ≤ lane.toNat)) flags_nonAsciiMask le_eq_not_lt
    fun rest => congrArg (List.findIdx? · rest) (funext le_eq_not_lt)

theorem scanTarget_eq : scanTarget bytes = Http1.scanTarget bytes :=
  scan_of_flags bytes
    (fun lane => decide (lane < (0x21 : UInt8).toBitVec) || lane == (0x7F : UInt8).toBitVec ||
      decide (128 ≤ lane.toNat))
    (fun word => ((flags_ltMask word (by decide)).or (flags_eqMask word 0x7F)).or
      (flags_nonAsciiMask word))
    (fun byte => by
      rw [← target_test, beq_toBitVec]
      rfl)
    fun _ => rfl

theorem scanHeaderName_eq : scanHeaderName bytes = Http1.scanHeaderName bytes :=
  scan_eq bytes _

theorem scanHeaderValue_eq : scanHeaderValue bytes = Http1.scanHeaderValue bytes :=
  scan_of_flags bytes
    (fun lane => decide (lane < (0x20 : UInt8).toBitVec) && !(lane == (0x09 : UInt8).toBitVec) ||
      lane == (0x7F : UInt8).toBitVec)
    (fun word => ((flags_ltMask word (by decide)).and_not (flags_eqMask word 0x09)).or
      (flags_eqMask word 0x7F))
    (fun byte => by
      rw [← value_test, beq_toBitVec, beq_toBitVec]
      rfl)
    fun _ => rfl

theorem findByte_eq (needle : UInt8) :
    findByte bytes needle = bytes.findIdx? fun byte => byte = needle :=
  position_eq (· == needle.toBitVec) (fun word => flags_eqMask word needle)
    (fun byte => beq_toBitVec byte needle) (fun _ => rfl) bytes

theorem findCrOrLf_eq : findCrOrLf bytes = Sse.Decoder.findCrOrLf bytes := by
  refine position_eq (fun lane => lane == Http1.cr.toBitVec || lane == Http1.lf.toBitVec)
    (fun word => (flags_eqMask word Http1.cr).or (flags_eqMask word Http1.lf)) (fun byte => ?_)
    (fun _ => rfl) bytes
  rw [beq_toBitVec, beq_toBitVec, ← Bool.decide_or]

end Swar

namespace X86

variable (kernel : Kernel) (bytes : Bytes)

/-- A scan by flags takes what the bytes before the first flagged one are, and leaves the bytes
behind the last full chunk to a scan that does the same. -/
theorem scan_of_flags (flagged : UInt8 → Bool) {flag : Bytes → BitVec 32} {behind : Bytes → Nat}
    (flags : ∀ v : Bytes, v.length = kernel.lanes →
      Flags 1 kernel.lanes (flag v) fun index => flagged (v.getD index 0))
    (same : ∀ byte, flagged byte = !allowed byte)
    (rest : ∀ bytes, behind bytes = Http1.scan bytes allowed) :
    (position kernel flag (fun tail => tailPosition tail (behind tail)) bytes).getD bytes.length =
      Http1.scan bytes allowed := by
  rw [position_eq flagged flags same fun tail => by rw [rest, ← scan_eq, tailPosition_eq]]
  exact scan_eq bytes allowed

theorem flags_high {v : Bytes} (whole : v.length = kernel.lanes) :
    Flags 1 kernel.lanes (movemaskEpi8 v) fun index => decide (0x80 ≤ v.getD index 0) := by
  have high := flags_movemask whole id
  rwa [List.map_id] at high

theorem scanAscii_eq : scanAscii kernel bytes = Simd.scanAscii bytes := by
  rw [scanAscii_spelled]
  exact scan_of_flags kernel bytes (fun byte => decide (0x80 ≤ byte)) (fun _ => flags_high kernel)
    le_eq_not_lt fun tail => (Swar.scanAscii_eq tail).trans (scanAscii_spelled tail)

theorem scanTarget_eq : scanTarget kernel bytes = Http1.scanTarget bytes := by
  refine scan_of_flags kernel bytes _ (fun v whole => ?_) target_test Swar.scanTarget_eq
  rw [lt_map whole (by decide), eq_map whole, orSi, zipWith_maps]
  simp only [mark_or]
  exact (flags_movemask_mark whole _).or (flags_high kernel whole)

theorem scanHeaderName_eq : scanHeaderName kernel bytes = Http1.scanHeaderName bytes := by
  refine scan_of_flags kernel bytes _ (fun v whole => ?_) tchar_test Swar.scanHeaderName_eq
  have low : (0 : UInt8) < 0x21 := by decide
  have marks : (0x3A : UInt8) ≤ 0x40 ∧ (0x5B : UInt8) ≤ 0x5D ∧ (0x28 : UInt8) ≤ 0x29 := by decide
  simp only [notTchar, lt_map whole low, eq_map whole, between_map whole marks.1,
    between_map whole marks.2.1, between_map whole marks.2.2, orSi, zipWith_maps, mark_or]
  exact (flags_movemask_mark whole _).or (flags_high kernel whole)

theorem scanHeaderValue_eq : scanHeaderValue kernel bytes = Http1.scanHeaderValue bytes := by
  refine scan_of_flags kernel bytes _ (fun v whole => ?_) value_test Swar.scanHeaderValue_eq
  rw [lt_map whole (by decide), eq_map whole, eq_map whole]
  exact ((flags_movemask_mark whole _).and_not (flags_movemask_mark whole _)).or
    (flags_movemask_mark whole _)

theorem findByte_eq (needle : UInt8) :
    findByte kernel bytes needle = bytes.findIdx? fun byte => byte = needle := by
  refine position_eq _ (fun v whole => ?_) (fun _ => rfl)
    (fun tail => Swar.findByte_eq tail needle) bytes
  rw [eq_map whole]
  exact flags_movemask_mark whole _

theorem findCrOrLf_eq : findCrOrLf kernel bytes = Sse.Decoder.findCrOrLf bytes := by
  refine position_eq (fun byte => decide (byte = Http1.cr) || decide (byte = Http1.lf))
    (fun v whole => ?_) (fun byte => (Bool.decide_or ..).symm) Swar.findCrOrLf_eq bytes
  rw [eq_map whole, eq_map whole, orSi, zipWith_maps]
  simp only [mark_or]
  exact flags_movemask_mark whole _

end X86

/-! ### Unmasking -/

/-- The XOR of two numbers is the XOR of their octets. -/
theorem xor_octets (high high' : Nat) {low low' : Nat} (small : low < 256) (small' : low' < 256) :
    (high * 256 + low) ^^^ (high' * 256 + low') = (high ^^^ high') * 256 + (low ^^^ low') := by
  refine Nat.eq_of_testBit_eq fun place => ?_
  rw [Nat.testBit_xor, Nat.mul_comm high, Nat.mul_comm high', Nat.mul_comm (high ^^^ high'),
    Nat.testBit_two_pow_mul_add (i := 8) _ small, Nat.testBit_two_pow_mul_add (i := 8) _ small',
    Nat.testBit_two_pow_mul_add (i := 8) _ (Nat.xor_lt_two_pow small small')]
  split
  · exact (Nat.testBit_xor ..).symm
  · exact (Nat.testBit_xor ..).symm

theorem fromBeBytes_xor {one two : Bytes} (same : one.length = two.length) :
    H3.Varint.fromBeBytes (List.zipWith (· ^^^ ·) one two) =
      H3.Varint.fromBeBytes one ^^^ H3.Varint.fromBeBytes two := by
  have folded : ∀ (one two : Bytes) (m n : Nat), one.length = two.length →
      (List.zipWith (· ^^^ ·) one two).foldl (fun value byte => value * 256 + byte.toNat)
          (m ^^^ n) =
        one.foldl (fun value byte => value * 256 + byte.toNat) m ^^^
          two.foldl (fun value byte => value * 256 + byte.toNat) n := by
    intro one
    induction one with
    | nil =>
      intro two m n same
      rw [List.eq_nil_of_length_eq_zero same.symm]
      rfl
    | cons byte one inductionHypothesis =>
      intro two m n same
      obtain _ | ⟨other, two⟩ := two
      · exact absurd same (Nat.succ_ne_zero _)
      · rw [List.zipWith_cons_cons, List.foldl_cons, List.foldl_cons, List.foldl_cons,
          ← inductionHypothesis two _ _ (Nat.succ.inj same), UInt8.toNat_xor,
          xor_octets m n byte.toNat_lt other.toNat_lt]
  exact folded one two 0 0 same

theorem toNeBytes_xor (order : Sys.ByteOrder) {one two : Bytes} (same : one.length = two.length) :
    Sys.toNeBytes order one.length (Sys.fromNeBytes order one ^^^ Sys.fromNeBytes order two) =
      X86.xorSi one two := by
  have big : ∀ one two : Bytes, one.length = two.length → H3.Varint.toBeBytes one.length
      (H3.Varint.fromBeBytes one ^^^ H3.Varint.fromBeBytes two) = X86.xorSi one two := by
    intro one two same
    have length_ : (List.zipWith (· ^^^ ·) one two).length = one.length := by
      rw [List.length_zipWith, ← same, Nat.min_self]
    rw [← fromBeBytes_xor same, ← length_]
    exact H3.Varint.toBeBytes_fromBeBytes _
  rcases order with - | -
  · have turned := big one.reverse two.reverse (by simpa only [List.length_reverse] using same)
    rw [List.length_reverse] at turned
    refine (congrArg List.reverse turned).trans ?_
    rw [X86.xorSi, ← List.reverse_zipWith same, List.reverse_reverse]
  · exact big one two same

/-- A whole number of keys unmasks a piece, and leaves the key as it is behind it. -/
theorem unmask_piece {size : Nat} (rotations : size % 4 = 0) {key : Ws.Key} {pattern : Bytes}
    (spelled : pattern = (List.range size).map key.get) {first : Bytes}
    (whole : first.length = size) (second : Bytes) :
    Ws.unmask (first ++ second) key = X86.xorSi first pattern ++ Ws.unmask second key := by
  have same : Ws.rotateKey key first.length = key := by
    rw [Ws.rotateKey, whole, rotations]
    rfl
  rw [Ws.unmask_append, same]
  refine congrArg (· ++ _) (List.ext_getElem ?_ fun index inside inside' => ?_)
  · rw [Ws.unmask, List.length_mapIdx, X86.xorSi, List.length_zipWith, spelled, List.length_map,
      List.length_range, whole, Nat.min_self]
  · simp only [Ws.unmask, X86.xorSi, spelled, List.getElem_mapIdx, List.getElem_zipWith,
      List.getElem_map, List.getElem_range]

theorem Swar.unmask_eq (order : Sys.ByteOrder) (payload : Bytes) (key : Ws.Key) :
    Swar.unmask order payload key = Ws.unmask payload key := by
  refine @changeChunks_eq _ _ _ _ (fun bytes => Ws.unmask bytes key)
    (fun first second whole => ?_) (fun _ => rfl) payload
  rw [unmask_piece (by rfl) (by rfl) whole, ← toNeBytes_xor order whole, whole]
  rfl

theorem X86.unmask_eq (kernel : Kernel) (payload : Bytes) (key : Ws.Key) :
    X86.unmask kernel payload key = Ws.unmask payload key := by
  refine @changeChunks_eq _ _ _ _ (fun bytes => Ws.unmask bytes key)
    (fun first second whole => ?_) (fun rest => Swar.unmask_eq .little rest key) payload
  have again : Sys.toNeBytes .little 4
      (Sys.fromNeBytes .little [key.k0, key.k1, key.k2, key.k3]) =
        [key.k0, key.k1, key.k2, key.k3] :=
    congrArg List.reverse (H3.Varint.toBeBytes_fromBeBytes [key.k3, key.k2, key.k1, key.k0])
  refine unmask_piece (by cases kernel <;> rfl) ?_ whole second
  rw [again]
  cases kernel <;> rfl

theorem Neon.unmask_eq (order : Sys.ByteOrder) (payload : Bytes) (key : Ws.Key) :
    Neon.unmask order payload key = Ws.unmask payload key :=
  @changeChunks_eq _ _ _ _ (fun bytes => Ws.unmask bytes key)
    (fun _ second whole => unmask_piece (by rfl) (by rfl) whole second)
    (fun rest => Swar.unmask_eq order rest key) payload

/-! ### The kernels -/

/-- **The kernels are exact.** The masks of a word flag exactly the lanes whose byte matches; every
scan of a word or of a vector returns what the loop over single bytes returns; and every unmasking
does what that loop does, also piece by piece. -/
theorem kernels_exact :
    (∀ (word : BitVec 64) (byte : UInt8),
      Flags 8 8 (Swar.eqMask word byte) fun index => lane word index == byte.toBitVec) ∧
      (∀ (word : BitVec 64) (bound : UInt8), bound ≤ 0x80 →
        Flags 8 8 (Swar.ltMask word bound) fun index =>
          decide (lane word index < bound.toBitVec)) ∧
      (∀ (bytes : Bytes) (needle : UInt8), Swar.scanAscii bytes = scanAscii bytes ∧
        Swar.scanTarget bytes = Http1.scanTarget bytes ∧
        Swar.scanHeaderName bytes = Http1.scanHeaderName bytes ∧
        Swar.scanHeaderValue bytes = Http1.scanHeaderValue bytes ∧
        (Swar.findByte bytes needle = bytes.findIdx? fun byte => byte = needle) ∧
        Swar.findCrOrLf bytes = Sse.Decoder.findCrOrLf bytes) ∧
      (∀ (kernel : X86.Kernel) (bytes : Bytes) (needle : UInt8),
        X86.scanAscii kernel bytes = scanAscii bytes ∧
        X86.scanTarget kernel bytes = Http1.scanTarget bytes ∧
        X86.scanHeaderName kernel bytes = Http1.scanHeaderName bytes ∧
        X86.scanHeaderValue kernel bytes = Http1.scanHeaderValue bytes ∧
        (X86.findByte kernel bytes needle = bytes.findIdx? fun byte => byte = needle) ∧
        X86.findCrOrLf kernel bytes = Sse.Decoder.findCrOrLf bytes) ∧
      (∀ (order : Sys.ByteOrder) (kernel : X86.Kernel) (payload : Bytes) (key : Ws.Key),
        Swar.unmask order payload key = Ws.unmask payload key ∧
        X86.unmask kernel payload key = Ws.unmask payload key ∧
        Neon.unmask order payload key = Ws.unmask payload key) ∧
      ∀ (first second : Bytes) (key : Ws.Key), Ws.unmask (first ++ second) key =
        Ws.unmask first key ++ Ws.unmask second (Ws.rotateKey key first.length) :=
  ⟨Swar.flags_eqMask, fun word _ => Swar.flags_ltMask word,
    fun bytes needle => ⟨Swar.scanAscii_eq bytes, Swar.scanTarget_eq bytes,
      Swar.scanHeaderName_eq bytes, Swar.scanHeaderValue_eq bytes, Swar.findByte_eq bytes needle,
      Swar.findCrOrLf_eq bytes⟩,
    fun kernel bytes needle => ⟨X86.scanAscii_eq kernel bytes, X86.scanTarget_eq kernel bytes,
      X86.scanHeaderName_eq kernel bytes, X86.scanHeaderValue_eq kernel bytes,
      X86.findByte_eq kernel bytes needle, X86.findCrOrLf_eq kernel bytes⟩,
    fun order kernel payload key => ⟨Swar.unmask_eq order payload key,
      X86.unmask_eq kernel payload key, Neon.unmask_eq order payload key⟩,
    Ws.unmask_append⟩

end ZeroServer.Simd

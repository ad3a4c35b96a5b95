/-
This file models the base 64 codec over a caller's buffer: three bytes are four characters, the last
quantum may be shorter, and the decoder refuses what the encoder does not write. Every byte string
comes back from its encoding, and nothing else decodes to it.
-/

import Mathlib.Data.List.TakeWhile
import ZeroServer.Http1.Types

namespace ZeroServer.Base64

open Http1 (Bytes ascii)

/-- Which alphabet of 64 characters is in use. -/
inductive Alphabet where
  | standard
  | urlSafe

def Alphabet.table : Alphabet → Bytes
  | .standard => ascii "ABCDEFGHIJKLMNOPQRSTUVWXYZabcdefghijklmnopqrstuvwxyz0123456789+/"
  | .urlSafe => ascii "ABCDEFGHIJKLMNOPQRSTUVWXYZabcdefghijklmnopqrstuvwxyz0123456789-_"

/-- The value of a character of the alphabet. -/
def Alphabet.value (alphabet : Alphabet) (byte : UInt8) : Option UInt8 :=
  if 0x41 ≤ byte ∧ byte ≤ 0x5A then some (byte - 0x41)
  else if 0x61 ≤ byte ∧ byte ≤ 0x7A then some (byte - 0x61 + 26)
  else if 0x30 ≤ byte ∧ byte ≤ 0x39 then some (byte - 0x30 + 52)
  else match alphabet with
    | .standard => if byte = 0x2B then some 62 else if byte = 0x2F then some 63 else none
    | .urlSafe => if byte = 0x2D then some 62 else if byte = 0x5F then some 63 else none

/-- The pad character. -/
def pad : UInt8 := 0x3D

/-- Why an encoding was refused. -/
inductive DecodeError where
  | invalidByte (offset : Nat) (byte : UInt8)
  | invalidLength
  | invalidPadding
  | nonZeroPadBits
  | full

/-- The length of the encoding of so many bytes, where it fits a `usize`. -/
def encodedLen (len : Nat) (padded : Bool) : Option Nat :=
  let full := len / 3 * 4
  let tail := match len % 3, padded with
    | 0, _ => 0
    | _, true => 4
    | 1, false => 2
    | _, false => 3
  if full < 2 ^ 64 ∧ full + tail < 2 ^ 64 then some (full + tail) else none

/-- The most bytes that the decoding of so many characters can hold. -/
def decodedLen (len : Nat) : Nat :=
  let tail := match len % 4 with
    | 0 => 0
    | 2 => 1
    | _ => 2
  min (min (len / 4 * 3) (2 ^ 64 - 1) + tail) (2 ^ 64 - 1)

/-- A buffer that is being written: what is written, and the places left. -/
structure Cursor where
  written : Bytes
  left : Bytes

/-! ### Encoding -/

def Alphabet.char (alphabet : Alphabet) (value : UInt8) : UInt8 :=
  (alphabet.table[(value &&& 0x3F).toNat]?).getD pad

/-- Write a character where there is a place for it. -/
def Cursor.putChar (alphabet : Alphabet) (cursor : Cursor) (value : UInt8) : Cursor :=
  match cursor.left with
  | [] => cursor
  | _ :: left => ⟨cursor.written ++ [alphabet.char value], left⟩

/-- The values of the characters, quantum by quantum. -/
def quanta : Bytes → Bytes
  | a :: b :: c :: rest =>
    a >>> 2 :: ((a &&& 0x03) <<< 4 ||| b >>> 4) :: ((b &&& 0x0F) <<< 2 ||| c >>> 6) ::
      (c &&& 0x3F) :: quanta rest
  | [a, b] => [a >>> 2, (a &&& 0x03) <<< 4 ||| b >>> 4, (b &&& 0x0F) <<< 2]
  | [a] => [a >>> 2, (a &&& 0x03) <<< 4]
  | [] => []

/-- Encode into a buffer: how many bytes were written, and the buffer. -/
def encodeSlice (input : Bytes) (alphabet : Alphabet) (padded : Bool) (out : Bytes) :
    Except DecodeError (Nat × Bytes) :=
  match encodedLen input.length padded with
  | none => .error .full
  | some needed =>
    if out.length < needed then .error .full
    else
      let cursor := (quanta input).foldl (Cursor.putChar alphabet) ⟨[], out.take needed⟩
      let rest := if padded then List.replicate cursor.left.length pad else cursor.left
      .ok (needed, cursor.written ++ rest ++ out.drop needed)

def encode (input : Bytes) (alphabet : Alphabet) (padded : Bool) : Bytes :=
  let out := List.replicate ((encodedLen input.length padded).getD 0) 0
  match encodeSlice input alphabet padded out with
  | .ok (written, bytes) => bytes.take written
  | .error _ => []

/-! ### Decoding -/

/-- Write a byte. -/
def Cursor.put (cursor : Cursor) (byte : UInt8) : Except DecodeError Cursor :=
  match cursor.left with
  | [] => .error .full
  | _ :: left => .ok ⟨cursor.written ++ [byte], left⟩

/-- Split the trailing pad characters off. -/
def splitPadding (input : Bytes) (padded : Bool) : Except DecodeError (Bytes × Nat) :=
  let pads := (input.reverse.takeWhile (· == pad)).length
  if padded = false then
    if pads ≠ 0 then .error .invalidPadding else .ok (input, 0)
  else if input.length % 4 ≠ 0 then .error .invalidLength
  else if 2 < pads then .error .invalidPadding
  else .ok (input.take (input.length - pads), pads)

/-- The values of characters, from an offset on. -/
def values (alphabet : Alphabet) : Bytes → Nat → Except DecodeError Bytes
  | [], _ => .ok []
  | byte :: chunk, offset =>
    match alphabet.value byte with
    | none => .error (.invalidByte offset byte)
    | some value => (values alphabet chunk (offset + 1)).map (value :: ·)

/-- The value at a place, zero where there is none. -/
def valueAt (values : Bytes) (place : Nat) : UInt8 := values.getD place 0

def decodeQuanta (alphabet : Alphabet) (padded : Bool) (pads : Nat) :
    Bytes → Nat → Cursor → Except DecodeError Cursor
  | a :: b :: c :: d :: rest, base, cursor => do
    let v ← values alphabet [a, b, c, d] base
    let cursor ← cursor.put (valueAt v 0 <<< 2 ||| valueAt v 1 >>> 4)
    let cursor ← cursor.put (valueAt v 1 <<< 4 ||| valueAt v 2 >>> 2)
    let cursor ← cursor.put (valueAt v 2 <<< 6 ||| valueAt v 3)
    decodeQuanta alphabet padded pads rest (base + 4) cursor
  | [a, b, c], base, cursor =>
    if padded = true ∧ pads ≠ 1 then .error .invalidPadding
    else do
      let v ← values alphabet [a, b, c] base
      if valueAt v 2 &&& 0x03 ≠ 0 then .error .nonZeroPadBits
      else
        let cursor ← cursor.put (valueAt v 0 <<< 2 ||| valueAt v 1 >>> 4)
        cursor.put (valueAt v 1 <<< 4 ||| valueAt v 2 >>> 2)
  | [a, b], base, cursor =>
    if padded = true ∧ pads ≠ 2 then .error .invalidPadding
    else do
      let v ← values alphabet [a, b] base
      if valueAt v 1 &&& 0x0F ≠ 0 then .error .nonZeroPadBits
      else cursor.put (valueAt v 0 <<< 2 ||| valueAt v 1 >>> 4)
  | [], _, cursor => if pads ≠ 0 then .error .invalidPadding else .ok cursor
  | [_], _, _ => .error .invalidLength

/-- Decode into a buffer: how many bytes were written, and the buffer. -/
def decodeSlice (input : Bytes) (alphabet : Alphabet) (padded : Bool) (out : Bytes) :
    Except DecodeError (Nat × Bytes) := do
  let (data, pads) ← splitPadding input padded
  let cursor ← decodeQuanta alphabet padded pads data 0 ⟨[], out⟩
  .ok (cursor.written.length, cursor.written ++ cursor.left)

def decode (input : Bytes) (alphabet : Alphabet) (padded : Bool) : Except DecodeError Bytes := do
  let (written, out) ← decodeSlice input alphabet padded
    (List.replicate (decodedLen input.length) 0)
  .ok (out.take written)

/-! ### One character -/

/-- The characters and the values of an alphabet are each other's, and padding is none of them. -/
theorem alphabet_table (alphabet : Alphabet) :
    (∀ value : Fin 64, alphabet.value (alphabet.char (UInt8.ofNat value)) =
        some (UInt8.ofNat value)) ∧
      (∀ byte : Fin 256, (alphabet.value (UInt8.ofNat byte)).all fun value =>
        decide (value < 64) && alphabet.char value == UInt8.ofNat byte) ∧
      alphabet.value pad = none := by
  cases alphabet <;> decide +kernel

theorem value_char (alphabet : Alphabet) {value : UInt8} (small : value.toNat < 64) :
    alphabet.value (alphabet.char value) = some value := by
  have known := (alphabet_table alphabet).1 ⟨value.toNat, small⟩
  rwa [UInt8.ofNat_toNat] at known

theorem char_of_value {alphabet : Alphabet} {byte value : UInt8}
    (known : alphabet.value byte = some value) : alphabet.char value = byte ∧ value.toNat < 64 := by
  have table := (alphabet_table alphabet).2.1 ⟨byte.toNat, byte.toNat_lt⟩
  rw [UInt8.ofNat_toNat, known, Option.all_some, Bool.and_eq_true] at table
  exact ⟨beq_iff_eq.mp table.2, UInt8.lt_iff_toNat_lt.mp (of_decide_eq_true table.1)⟩

theorem char_ne_pad (alphabet : Alphabet) {value : UInt8} (small : value.toNat < 64) :
    alphabet.char value ≠ pad := by
  intro same
  have known := value_char alphabet small
  rw [same, (alphabet_table alphabet).2.2] at known
  cases known

/-! ### One quantum -/

/-- Bits above a place and bits below it add up. -/
theorem toNat_or_add {high low : UInt8} (places : Nat) (above : 2 ^ places ∣ high.toNat)
    (below : low.toNat < 2 ^ places) : (high ||| low).toNat = high.toNat + low.toNat := by
  obtain ⟨factor, whole⟩ := above
  rw [UInt8.toNat_or, whole, Nat.two_pow_add_eq_or_of_lt below]

theorem toNat_shiftRight (byte : UInt8) :
    (byte >>> 2).toNat = byte.toNat / 4 ∧ (byte >>> 4).toNat = byte.toNat / 16 ∧
      (byte >>> 6).toNat = byte.toNat / 64 := by
  simp only [UInt8.toNat_shiftRight, Nat.shiftRight_eq_div_pow]
  exact ⟨rfl, rfl, rfl⟩

theorem toNat_shiftLeft (byte : UInt8) :
    (byte <<< 2).toNat = byte.toNat * 4 % 256 ∧ (byte <<< 4).toNat = byte.toNat * 16 % 256 ∧
      (byte <<< 6).toNat = byte.toNat * 64 % 256 := by
  simp only [UInt8.toNat_shiftLeft, Nat.shiftLeft_eq]
  exact ⟨rfl, rfl, rfl⟩

theorem toNat_and (byte : UInt8) :
    (byte &&& 0x03).toNat = byte.toNat % 4 ∧ (byte &&& 0x0F).toNat = byte.toNat % 16 ∧
      (byte &&& 0x3F).toNat = byte.toNat % 64 := by
  simp only [UInt8.toNat_and]
  exact ⟨Nat.and_two_pow_sub_one_eq_mod _ 2, Nat.and_two_pow_sub_one_eq_mod _ 4,
    Nat.and_two_pow_sub_one_eq_mod _ 6⟩

/-- The values of a quantum as numbers. -/
theorem toNat_quantum (a b c : UInt8) :
    (a >>> 2).toNat = a.toNat / 4 ∧
      ((a &&& 0x03) <<< 4).toNat = a.toNat % 4 * 16 ∧
      ((a &&& 0x03) <<< 4 ||| b >>> 4).toNat = a.toNat % 4 * 16 + b.toNat / 16 ∧
      ((b &&& 0x0F) <<< 2).toNat = b.toNat % 16 * 4 ∧
      ((b &&& 0x0F) <<< 2 ||| c >>> 6).toNat = b.toNat % 16 * 4 + c.toNat / 64 ∧
      (c &&& 0x3F).toNat = c.toNat % 64 := by
  have first : ((a &&& 0x03) <<< 4).toNat = a.toNat % 4 * 16 := by
    rw [(toNat_shiftLeft _).2.1, (toNat_and a).1]
    omega
  have second : ((b &&& 0x0F) <<< 2).toNat = b.toNat % 16 * 4 := by
    rw [(toNat_shiftLeft _).1, (toNat_and b).2.1]
    omega
  have third := (toNat_shiftRight b).2.1
  have fourth := (toNat_shiftRight c).2.2
  have small := b.toNat_lt
  have small' := c.toNat_lt
  refine ⟨(toNat_shiftRight a).1, first, ?_, second, ?_, (toNat_and c).2.2⟩
  · rw [toNat_or_add 4 (by omega) (by omega), first, third]
  · rw [toNat_or_add 2 (by omega) (by omega), second, fourth]

/-- The bytes of four values as numbers. -/
theorem toNat_joined {v w x y : UInt8} (smallW : w.toNat < 64) (smallX : x.toNat < 64)
    (smallY : y.toNat < 64) :
    (v <<< 2 ||| w >>> 4).toNat = v.toNat * 4 % 256 + w.toNat / 16 ∧
      (w <<< 4 ||| x >>> 2).toNat = w.toNat * 16 % 256 + x.toNat / 4 ∧
      (x <<< 6 ||| y).toNat = x.toNat * 64 % 256 + y.toNat := by
  have first := (toNat_shiftRight w).2.1
  have second := (toNat_shiftRight x).1
  have high := (toNat_shiftLeft v).1
  have high' := (toNat_shiftLeft w).2.1
  have high'' := (toNat_shiftLeft x).2.2
  refine ⟨?_, ?_, ?_⟩
  · rw [toNat_or_add 2 (by omega) (by omega), high, first]
  · rw [toNat_or_add 4 (by omega) (by omega), high', second]
  · rw [toNat_or_add 6 (by omega) (by omega), high'']

/-- What is joined from the values of bytes are the bytes. -/
theorem join_split (a b c : UInt8) :
    (a >>> 2) <<< 2 ||| ((a &&& 0x03) <<< 4 ||| b >>> 4) >>> 4 = a ∧
      (a >>> 2) <<< 2 ||| ((a &&& 0x03) <<< 4) >>> 4 = a ∧
      ((a &&& 0x03) <<< 4 ||| b >>> 4) <<< 4 ||| ((b &&& 0x0F) <<< 2 ||| c >>> 6) >>> 2 = b ∧
      ((a &&& 0x03) <<< 4 ||| b >>> 4) <<< 4 ||| ((b &&& 0x0F) <<< 2) >>> 2 = b ∧
      ((b &&& 0x0F) <<< 2 ||| c >>> 6) <<< 6 ||| (c &&& 0x3F) = c := by
  obtain ⟨first, short, second, short', third, fourth⟩ := toNat_quantum a b c
  have := a.toNat_lt
  have := b.toNat_lt
  have := c.toNat_lt
  refine ⟨?_, ?_, ?_, ?_, ?_⟩ <;> refine UInt8.toNat_inj.mp ?_
  · rw [(@toNat_joined _ _ 0 0 (by omega) (by decide) (by decide)).1]
    omega
  · rw [(@toNat_joined _ _ 0 0 (by omega) (by decide) (by decide)).1]
    omega
  · rw [(@toNat_joined 0 _ _ 0 (by omega) (by omega) (by decide)).2.1]
    omega
  · rw [(@toNat_joined 0 _ _ 0 (by omega) (by omega) (by decide)).2.1]
    omega
  · rw [(@toNat_joined 0 0 _ _ (by decide) (by omega) (by omega)).2.2]
    omega

/-- The values of what is joined from values are the values. -/
theorem split_join {v w x y : UInt8} (smallV : v.toNat < 64) (smallW : w.toNat < 64)
    (smallX : x.toNat < 64) (smallY : y.toNat < 64) :
    (v <<< 2 ||| w >>> 4) >>> 2 = v ∧
      ((v <<< 2 ||| w >>> 4) &&& 0x03) <<< 4 ||| (w <<< 4 ||| x >>> 2) >>> 4 = w ∧
      ((w <<< 4 ||| x >>> 2) &&& 0x0F) <<< 2 ||| (x <<< 6 ||| y) >>> 6 = x ∧
      (x <<< 6 ||| y) &&& 0x3F = y ∧
      (w &&& 0x0F = 0 → ((v <<< 2 ||| w >>> 4) &&& 0x03) <<< 4 = w) ∧
      (x &&& 0x03 = 0 → ((w <<< 4 ||| x >>> 2) &&& 0x0F) <<< 2 = x) := by
  obtain ⟨one, two, three⟩ := @toNat_joined v w x y smallW smallX smallY
  obtain ⟨first, short, second, short', third, fourth⟩ :=
    toNat_quantum (v <<< 2 ||| w >>> 4) (w <<< 4 ||| x >>> 2) (x <<< 6 ||| y)
  refine ⟨?_, ?_, ?_, ?_, fun zero => ?_, fun zero => ?_⟩ <;> refine UInt8.toNat_inj.mp ?_
  · omega
  · omega
  · omega
  · omega
  · have := congrArg UInt8.toNat zero
    rw [(toNat_and w).2.1] at this
    change _ = 0 at this
    omega
  · have := congrArg UInt8.toNat zero
    rw [(toNat_and x).1] at this
    change _ = 0 at this
    omega

/-! ### The buffer -/

/-- The buffer with bytes written into it. -/
def Cursor.fill (cursor : Cursor) (bytes : Bytes) : Cursor :=
  ⟨cursor.written ++ bytes, cursor.left.drop bytes.length⟩

theorem Cursor.fill_fill (cursor : Cursor) (first second : Bytes) :
    (cursor.fill first).fill second = cursor.fill (first ++ second) := by
  unfold fill
  rw [List.append_assoc, List.drop_drop, List.length_append]

theorem Cursor.length_left_fill (cursor : Cursor) (bytes : Bytes) :
    (cursor.fill bytes).left.length = cursor.left.length - bytes.length := List.length_drop

theorem foldl_putChar (alphabet : Alphabet) (values : Bytes) (cursor : Cursor)
    (room : values.length ≤ cursor.left.length) :
    values.foldl (Cursor.putChar alphabet) cursor = cursor.fill (values.map alphabet.char) := by
  induction values generalizing cursor with
  | nil =>
    unfold Cursor.fill
    rw [List.map_nil, List.append_nil]
    rfl
  | cons value values inductionHypothesis =>
    obtain ⟨written, _ | ⟨_, left⟩⟩ := cursor
    · cases room
    · rw [List.foldl_cons, inductionHypothesis _ (Nat.le_of_succ_le_succ room), List.map_cons]
      exact Cursor.fill_fill ⟨written, _ :: left⟩ [alphabet.char value] _

/-! ### The text of bytes -/

/-- The characters of the encoding, without padding. -/
def textOf (alphabet : Alphabet) (bytes : Bytes) : Bytes := (quanta bytes).map alphabet.char

/-- How many pad characters end the encoding. -/
def padsOf (bytes : Bytes) : Nat := (3 - bytes.length % 3) % 3

theorem quanta_small (bytes : Bytes) : ∀ value ∈ quanta bytes, value.toNat < 64 := by
  fun_induction quanta bytes with
  | case1 a b c rest inductionHypothesis =>
    obtain ⟨first, -, second, -, third, fourth⟩ := toNat_quantum a b c
    have := a.toNat_lt
    have := b.toNat_lt
    have := c.toNat_lt
    simp only [List.forall_mem_cons]
    exact ⟨by omega, by omega, by omega, by omega, inductionHypothesis⟩
  | case2 a b =>
    obtain ⟨first, -, second, third, -⟩ := toNat_quantum a b 0
    have := a.toNat_lt
    have := b.toNat_lt
    simp only [List.forall_mem_cons]
    exact ⟨by omega, by omega, by omega, List.forall_mem_nil _⟩
  | case3 a =>
    obtain ⟨first, second, -⟩ := toNat_quantum a 0 0
    have := a.toNat_lt
    simp only [List.forall_mem_cons]
    exact ⟨by omega, by omega, List.forall_mem_nil _⟩
  | case4 => exact List.forall_mem_nil _

theorem length_quanta (bytes : Bytes) : (quanta bytes).length = (bytes.length * 4 + 2) / 3 := by
  fun_induction quanta bytes with
  | case1 a b c rest inductionHypothesis =>
    simp only [List.length_cons, inductionHypothesis]
    omega
  | case2 | case3 | case4 => simp only [List.length_cons, List.length_nil, Nat.reduceAdd,
      Nat.reduceMul, Nat.reduceDiv]

/-- The values of characters are known exactly if each is a character of the alphabet. -/
theorem values_eq_ok {alphabet : Alphabet} {chunk found : Bytes} {offset : Nat} :
    values alphabet chunk offset = .ok found ↔
      (∀ value ∈ found, value.toNat < 64) ∧ chunk = found.map alphabet.char := by
  induction chunk generalizing found offset with
  | nil =>
    rw [values]
    constructor
    · rintro ⟨⟩
      exact ⟨List.forall_mem_nil _, rfl⟩
    · rintro ⟨-, same⟩
      rw [List.map_eq_nil_iff.mp same.symm]
  | cons byte chunk inductionHypothesis =>
    rw [values]
    constructor
    · intro read
      rcases known : alphabet.value byte with - | value
      · rw [known] at read
        cases read
      · rw [known] at read
        dsimp only at read
        rcases later : values alphabet chunk (offset + 1) with fault | more
        · rw [later] at read
          cases read
        · rw [later] at read
          cases read
          obtain ⟨spelled, small⟩ := char_of_value known
          obtain ⟨others, rfl⟩ := inductionHypothesis.mp later
          exact ⟨List.forall_mem_cons.mpr ⟨small, others⟩, by rw [List.map_cons, spelled]⟩
    · rintro ⟨small, spelled⟩
      rcases found with - | ⟨value, more⟩
      · cases spelled
      · obtain ⟨rfl, same⟩ := List.cons.inj spelled
        obtain ⟨first, others⟩ := List.forall_mem_cons.mp small
        rw [value_char alphabet first, inductionHypothesis.mpr ⟨others, same⟩]
        rfl

/-! ### What the decoder accepts -/

variable {alphabet : Alphabet} {padded : Bool} {pads : Nat}

variable {base : Nat} {cursor : Cursor}

/-- The padding that a decoder takes bytes to end in. -/
def Padded (padded : Bool) (pads : Nat) (bytes : Bytes) : Prop :=
  if bytes.length % 3 = 0 then pads = 0 else padded = true → pads = padsOf bytes

/-- The values of a text are read. -/
theorem values_map {found : Bytes} (small : ∀ value ∈ found, value.toNat < 64) (offset : Nat) :
    values alphabet (found.map alphabet.char) offset = .ok found := values_eq_ok.mpr ⟨small, rfl⟩

theorem decodeQuanta_four {a b c d v w x y : UInt8} {rest : Bytes}
    (read : values alphabet [a, b, c, d] base = .ok [v, w, x, y]) :
    decodeQuanta alphabet padded pads (a :: b :: c :: d :: rest) base cursor =
      if 3 ≤ cursor.left.length then
        decodeQuanta alphabet padded pads rest (base + 4)
          (cursor.fill [v <<< 2 ||| w >>> 4, w <<< 4 ||| x >>> 2, x <<< 6 ||| y])
      else .error .full := by
  rw [decodeQuanta, read]
  obtain ⟨written, _ | ⟨_, _ | ⟨_, _ | ⟨_, left⟩⟩⟩⟩ := cursor
  · rfl
  · rfl
  · rfl
  · rw [if_pos (by simp only [List.length_cons]; omega)]
    show decodeQuanta alphabet padded pads rest (base + 4) ⟨written ++ _ ++ _ ++ _, left⟩ = _
    rw [List.append_assoc, List.append_assoc]
    rfl

theorem decodeQuanta_three {a b c v w x : UInt8}
    (read : values alphabet [a, b, c] base = .ok [v, w, x]) :
    decodeQuanta alphabet padded pads [a, b, c] base cursor =
      if padded = true ∧ pads ≠ 1 then .error .invalidPadding
      else if x &&& 0x03 ≠ 0 then .error .nonZeroPadBits
      else if 2 ≤ cursor.left.length then
        .ok (cursor.fill [v <<< 2 ||| w >>> 4, w <<< 4 ||| x >>> 2])
      else .error .full := by
  rw [decodeQuanta, read]
  refine if_congr Iff.rfl rfl (if_congr Iff.rfl rfl ?_)
  obtain ⟨written, _ | ⟨_, _ | ⟨_, left⟩⟩⟩ := cursor
  · rfl
  · rfl
  · rw [if_pos (by simp only [List.length_cons]; omega)]
    show Except.ok (Cursor.mk (written ++ _ ++ _) left) = _
    rw [List.append_assoc]
    rfl

theorem decodeQuanta_two {a b v w : UInt8} (read : values alphabet [a, b] base = .ok [v, w]) :
    decodeQuanta alphabet padded pads [a, b] base cursor =
      if padded = true ∧ pads ≠ 2 then .error .invalidPadding
      else if w &&& 0x0F ≠ 0 then .error .nonZeroPadBits
      else if 1 ≤ cursor.left.length then .ok (cursor.fill [v <<< 2 ||| w >>> 4])
      else .error .full := by
  rw [decodeQuanta, read]
  refine if_congr Iff.rfl rfl (if_congr Iff.rfl rfl ?_)
  obtain ⟨written, _ | ⟨_, left⟩⟩ := cursor
  · rfl
  · exact (if_pos (Nat.succ_pos _)).symm

/-- The decoder reads back a text. -/
theorem decodeQuanta_textOf (bytes : Bytes) (ends : Padded padded pads bytes) (base : Nat)
    (cursor : Cursor) (room : bytes.length ≤ cursor.left.length) :
    decodeQuanta alphabet padded pads (textOf alphabet bytes) base cursor =
      .ok (cursor.fill bytes) := by
  have small := quanta_small bytes
  unfold textOf
  fun_induction quanta bytes generalizing base cursor with
  | case1 a b c rest inductionHypothesis =>
    obtain ⟨one, -, two, -, three⟩ := join_split a b c
    have read := @values_map alphabet [a >>> 2, (a &&& 0x03) <<< 4 ||| b >>> 4,
      (b &&& 0x0F) <<< 2 ||| c >>> 6, c &&& 0x3F]
      (fun value member => small value (List.mem_append_left (quanta rest) member)) base
    have ends' : Padded padded pads rest := by
      unfold Padded padsOf at ends ⊢
      simpa only [List.length_cons, Nat.add_assoc, Nat.reduceAdd, Nat.add_mod_right] using ends
    simp only [List.map_cons, List.map_nil] at read ⊢
    rw [decodeQuanta_four read, one, two, three, if_pos (by simp at room; omega),
      inductionHypothesis ends' _ _ ?_ fun value member =>
        small value (List.mem_append_right [_, _, _, _] member), Cursor.fill_fill]
    · rfl
    · rw [Cursor.length_left_fill]
      simp only [List.length_cons, List.length_nil] at room ⊢
      omega
  | case2 a b =>
    obtain ⟨one, -, -, two, -⟩ := join_split a b 0
    have read := @values_map alphabet _ small base
    have bits : (b &&& 0x0F) <<< 2 &&& 0x03 = 0 := by
      refine UInt8.toNat_inj.mp ?_
      rw [(toNat_and _).1, (toNat_quantum a b 0).2.2.2.1]
      exact Nat.mul_mod_left _ 4
    simp only [List.map_cons, List.map_nil] at read ⊢
    rw [decodeQuanta_three read, one, two, if_neg (fun bad => bad.2 (ends bad.1)),
      if_neg (not_not.mpr bits)]
    exact if_pos room
  | case3 a =>
    obtain ⟨-, one, -⟩ := join_split a 0 0
    have read := @values_map alphabet _ small base
    have bits : (a &&& 0x03) <<< 4 &&& 0x0F = 0 := by
      refine UInt8.toNat_inj.mp ?_
      rw [(toNat_and _).2.1, (toNat_quantum a 0 0).2.1]
      exact Nat.mul_mod_left _ 16
    simp only [List.map_cons, List.map_nil] at read ⊢
    rw [decodeQuanta_two read, one, if_neg (fun bad => bad.2 (ends bad.1)),
      if_neg (not_not.mpr bits)]
    exact if_pos room
  | case4 =>
    have none_ : pads = 0 := ends
    rw [List.map_nil, decodeQuanta, if_neg (not_not.mpr none_)]
    unfold Cursor.fill
    rw [List.append_nil]
    rfl

theorem values_ne_full (chunk : Bytes) (offset : Nat) :
    values alphabet chunk offset ≠ .error .full := by
  induction chunk generalizing offset with
  | nil => nofun
  | cons byte chunk inductionHypothesis =>
    rw [values]
    rcases alphabet.value byte with - | value
    · nofun
    · dsimp only
      rcases later : values alphabet chunk (offset + 1) with fault | more
      · rintro ⟨⟩
        exact inductionHypothesis _ later
      · nofun

/-- What a decoded text has to be, and what is left of the buffer behind it. -/
def Decoded (alphabet : Alphabet) (padded : Bool) (pads : Nat) (data : Bytes)
    (cursor after : Cursor) : Prop :=
  ∃ bytes, data = textOf alphabet bytes ∧ Padded padded pads bytes ∧ after = cursor.fill bytes

/-- What is decoded is a text, and room for three bytes a quantum is enough. -/
theorem decodeQuanta_sound : ∀ (data : Bytes) (base : Nat) (cursor : Cursor),
    (∀ after, decodeQuanta alphabet padded pads data base cursor = .ok after →
      Decoded alphabet padded pads data cursor after) ∧
    (data.length * 3 / 4 ≤ cursor.left.length →
      decodeQuanta alphabet padded pads data base cursor ≠ .error .full)
  | a :: b :: c :: d :: rest, base, cursor => by
    rcases read : values alphabet [a, b, c, d] base with fault | found
    · rw [decodeQuanta, read]
      exact ⟨nofun, fun _ same => values_ne_full _ _ (Except.error.inj same ▸ read)⟩
    · obtain ⟨small, spelled⟩ := values_eq_ok.mp read
      obtain _ | ⟨v, _ | ⟨w, _ | ⟨x, _ | ⟨y, _ | _⟩⟩⟩⟩ := found <;> cases spelled
      simp only [List.forall_mem_cons] at small
      obtain ⟨smallV, smallW, smallX, smallY, -⟩ := small
      obtain ⟨one, two, three, four, -⟩ := split_join smallV smallW smallX smallY
      obtain ⟨sound, enough⟩ := decodeQuanta_sound rest (base + 4) (cursor.fill
        [v <<< 2 ||| w >>> 4, w <<< 4 ||| x >>> 2, x <<< 6 ||| y])
      rw [decodeQuanta_four read]
      split
      · refine ⟨fun after decoded => ?_, fun room => enough ?_⟩
        · obtain ⟨bytes, rfl, ends, rfl⟩ := sound after decoded
          refine ⟨_ :: _ :: _ :: bytes, ?_, ?_, Cursor.fill_fill _ _ _⟩
          · unfold textOf
            rw [quanta, one, two, three, four]
            rfl
          · unfold Padded padsOf at ends ⊢
            simpa only [List.length_cons, Nat.add_assoc, Nat.reduceAdd, Nat.add_mod_right]
              using ends
        · rw [Cursor.length_left_fill]
          simp only [List.length_cons, List.length_nil] at room ⊢
          omega
      · next none_ =>
        refine ⟨nofun, fun room => absurd ?_ none_⟩
        simp only [List.length_cons] at room
        omega
  | [a, b, c], base, cursor => by
    rcases read : values alphabet [a, b, c] base with fault | found
    · rw [decodeQuanta, read]
      split
      · exact ⟨nofun, nofun⟩
      · exact ⟨nofun, fun _ same => values_ne_full _ _ (Except.error.inj same ▸ read)⟩
    · obtain ⟨small, spelled⟩ := values_eq_ok.mp read
      obtain _ | ⟨v, _ | ⟨w, _ | ⟨x, _ | _⟩⟩⟩ := found <;> cases spelled
      simp only [List.forall_mem_cons] at small
      obtain ⟨smallV, smallW, smallX, -⟩ := small
      obtain ⟨one, two, -, -, -, three⟩ := @split_join v w x 0 smallV smallW smallX (by decide)
      rw [decodeQuanta_three read]
      split
      · exact ⟨nofun, nofun⟩
      · next right =>
        split
        · exact ⟨nofun, nofun⟩
        · next zero =>
          split
          · refine ⟨fun after decoded => ⟨[_, _], ?_, fun some_ => ?_,
              (Except.ok.inj decoded).symm⟩, nofun⟩
            · unfold textOf
              rw [quanta, one, two, three (not_not.mp zero)]
              rfl
            · exact not_not.mp fun wrong => right ⟨some_, wrong⟩
          · next none_ =>
            refine ⟨nofun, fun room => absurd ?_ none_⟩
            simp only [List.length_cons, List.length_nil] at room
            omega
  | [a, b], base, cursor => by
    rcases read : values alphabet [a, b] base with fault | found
    · rw [decodeQuanta, read]
      split
      · exact ⟨nofun, nofun⟩
      · exact ⟨nofun, fun _ same => values_ne_full _ _ (Except.error.inj same ▸ read)⟩
    · obtain ⟨small, spelled⟩ := values_eq_ok.mp read
      obtain _ | ⟨v, _ | ⟨w, _ | _⟩⟩ := found <;> cases spelled
      simp only [List.forall_mem_cons] at small
      obtain ⟨smallV, smallW, -⟩ := small
      obtain ⟨one, -, -, -, two, -⟩ :=
        @split_join v w 0 0 smallV smallW (by decide) (by decide)
      rw [decodeQuanta_two read]
      split
      · exact ⟨nofun, nofun⟩
      · next right =>
        split
        · exact ⟨nofun, nofun⟩
        · next zero =>
          split
          · refine ⟨fun after decoded => ⟨[_], ?_, fun some_ => ?_,
              (Except.ok.inj decoded).symm⟩, nofun⟩
            · unfold textOf
              rw [quanta, one, two (not_not.mp zero)]
              rfl
            · exact not_not.mp fun wrong => right ⟨some_, wrong⟩
          · next none_ =>
            refine ⟨nofun, fun room => absurd ?_ none_⟩
            simp only [List.length_cons, List.length_nil] at room
            omega
  | [], base, cursor => by
    rw [decodeQuanta]
    split
    · exact ⟨nofun, nofun⟩
    · next zero =>
      refine ⟨fun after decoded => ⟨[], rfl, not_not.mp zero, ?_⟩, nofun⟩
      rw [← Except.ok.inj decoded, Cursor.fill, List.append_nil]
      rfl
  | [_], _, _ => ⟨nofun, nofun⟩

/-! ### One spelling -/

variable {bytes : Bytes}

/-- How many pad characters the encoding of bytes ends in. -/
def padding (padded : Bool) (bytes : Bytes) : Nat := if padded then padsOf bytes else 0

theorem encodedLen_eq (slice : bytes.length < 2 ^ 63) (padded : Bool) :
    encodedLen bytes.length padded = some ((quanta bytes).length + padding padded bytes) := by
  rw [length_quanta]
  unfold encodedLen padding padsOf
  generalize bytes.length = len at *
  have rest := Nat.mod_lt len (show 0 < 3 by decide)
  obtain left | left | left : len % 3 = 0 ∨ len % 3 = 1 ∨ len % 3 = 2 := by omega
  all_goals
    rw [left]
    cases padded <;> refine (if_pos ⟨by omega, ?_⟩).trans (congrArg some ?_) <;>
      simp only [Bool.false_eq_true, if_false, if_true] <;> omega

/-- The encoding is the text and its padding. -/
theorem encode_eq (slice : bytes.length < 2 ^ 63) :
    encode bytes alphabet padded =
      textOf alphabet bytes ++ List.replicate (padding padded bytes) pad := by
  have text : (textOf alphabet bytes).length = (quanta bytes).length := List.length_map _
  have whole : (textOf alphabet bytes ++ List.replicate (padding padded bytes) pad).length =
      (quanta bytes).length + padding padded bytes := by
    rw [List.length_append, text, List.length_replicate]
  have written := foldl_putChar alphabet (quanta bytes)
    ⟨[], List.replicate ((quanta bytes).length + padding padded bytes) 0⟩
    (by rw [List.length_replicate]; exact Nat.le_add_right _ _)
  unfold encode encodeSlice
  rw [encodedLen_eq slice, Option.getD_some]
  dsimp only
  rw [if_neg (by rw [List.length_replicate]; exact Nat.lt_irrefl _), List.take_replicate,
    Nat.min_self, written, List.drop_replicate, Nat.sub_self]
  dsimp only [Cursor.fill]
  rw [List.nil_append, List.length_map, List.drop_replicate, Nat.add_sub_cancel_left,
    List.length_replicate, List.replicate_zero, List.append_nil, ← whole]
  refine Eq.trans ?_ (List.take_length)
  congr 2
  unfold padding
  cases padded <;> rfl

theorem takeWhile_pads {text : Bytes} (plain : ∀ char ∈ text, char ≠ pad) (pads : Nat) :
    (text ++ List.replicate pads pad).reverse.takeWhile (· == pad) = List.replicate pads pad := by
  rw [List.reverse_append, List.reverse_replicate, List.takeWhile_append_of_pos fun char member =>
      beq_iff_eq.mpr (List.eq_of_mem_replicate member)]
  rcases backward : text.reverse with - | ⟨last, others⟩
  · exact List.append_nil _
  · have apart := plain last (List.mem_reverse.mp (backward ▸ List.mem_cons_self))
    rw [List.takeWhile_cons_of_neg (by rwa [beq_iff_eq]), List.append_nil]

/-- The padding of an encoding is split off. -/
theorem splitPadding_encoded (bytes : Bytes) :
    splitPadding (textOf alphabet bytes ++ List.replicate (padding padded bytes) pad) padded =
      .ok (textOf alphabet bytes, padding padded bytes) := by
  have plain : ∀ char ∈ textOf alphabet bytes, char ≠ pad := by
    intro char member
    obtain ⟨value, held, rfl⟩ := List.mem_map.mp member
    exact char_ne_pad alphabet (quanta_small bytes value held)
  have text : (textOf alphabet bytes).length = (bytes.length * 4 + 2) / 3 :=
    (List.length_map _).trans (length_quanta bytes)
  unfold splitPadding
  rw [takeWhile_pads plain, List.length_replicate, List.length_append, List.length_replicate]
  cases padded with
  | false =>
    rw [if_pos rfl, if_neg (show ¬padding false bytes ≠ 0 from not_not.mpr rfl)]
    exact congrArg (fun whole => Except.ok (whole, 0)) (List.append_nil _)
  | true =>
    have ends : padding true bytes = (3 - bytes.length % 3) % 3 := rfl
    have cases_ : bytes.length % 3 = 0 ∨ bytes.length % 3 = 1 ∨ bytes.length % 3 = 2 := by omega
    have whole : ((textOf alphabet bytes).length + padding true bytes) % 4 = 0 := by
      rcases cases_ with none_ | one | two <;> omega
    rw [if_neg nofun, if_neg (not_not.mpr whole), if_neg (by omega), Nat.add_sub_cancel,
      List.take_left]

/-- What is split off is padding. -/
theorem splitPadding_eq_ok {input data : Bytes} {pads : Nat}
    (found : splitPadding input padded = .ok (data, pads)) :
    input = data ++ List.replicate pads pad ∧
      if padded then input.length % 4 = 0 ∧ pads ≤ 2 else pads = 0 := by
  have whole := List.takeWhile_append_dropWhile (p := (· == pad)) (l := input.reverse)
  have same : input.reverse.takeWhile (· == pad) =
      List.replicate (input.reverse.takeWhile (· == pad)).length pad :=
    List.eq_replicate_iff.mpr ⟨rfl, fun char member =>
      by simpa using List.mem_takeWhile_imp member⟩
  have length_ := congrArg List.length whole
  rw [List.length_append, List.length_reverse] at length_
  have back := congrArg List.reverse whole
  rw [List.reverse_append, List.reverse_reverse, same, List.reverse_replicate] at back
  unfold splitPadding at found
  cases padded with
  | false =>
    rw [if_pos rfl] at found
    split at found
    · cases found
    · cases found
      exact ⟨(List.append_nil _).symm, rfl⟩
  | true =>
    rw [if_neg nofun] at found
    split at found
    · cases found
    · next even =>
      split at found
      · cases found
      · next few =>
        cases found
        refine ⟨?_, not_not.mp even, Nat.le_of_not_lt few⟩
        refine back.symm.trans (congrArg (· ++ _) ?_)
        generalize (input.reverse.takeWhile (· == pad)).length = pads at *
        exact (List.take_left' (by rw [List.length_reverse]; omega)).symm.trans
          (congrArg (List.take (input.length - pads)) back)

/-- A byte string that a slice can hold: no slice is longer than an `isize` counts. -/
abbrev Slice := { bytes : Bytes // bytes.length < 2 ^ 63 }

theorem splitPadding_ne_full (input : Bytes) : splitPadding input padded ≠ .error .full := by
  unfold splitPadding
  cases padded with
  | false =>
    rw [if_pos rfl]
    split <;> nofun
  | true =>
    rw [if_neg nofun]
    split
    · nofun
    · split <;> nofun

/-- The room that is made for a decoding is three bytes a quantum. -/
theorem decodedLen_room {len : Nat} (small : len < 2 ^ 64) : len * 3 / 4 ≤ decodedLen len := by
  have tail : len % 4 * 3 / 4 ≤ (match len % 4 with | 0 => 0 | 2 => 1 | _ => 2) := by
    obtain left | left | left | left :
        len % 4 = 0 ∨ len % 4 = 1 ∨ len % 4 = 2 ∨ len % 4 = 3 := by omega
    all_goals
      rw [left]
      decide
  unfold decodedLen
  generalize (match len % 4 with | 0 => 0 | 2 => 1 | _ => 2) = more at tail ⊢
  exact Nat.le_min.mpr ⟨by omega, by omega⟩

theorem padding_spec (bytes : Bytes) :
    Padded padded (padding padded bytes) bytes ∧
      bytes.length ≤ ((quanta bytes).length + padding padded bytes) * 3 / 4 := by
  rw [length_quanta]
  unfold Padded padding padsOf
  obtain left | left | left : bytes.length % 3 = 0 ∨ bytes.length % 3 = 1 ∨
    bytes.length % 3 = 2 := by omega
  all_goals
    rw [left]
    cases padded <;> refine ⟨by simp, ?_⟩ <;>
      simp only [Bool.false_eq_true, if_false, if_true] <;> omega

/-- Every byte string comes back from its encoding, which has the length that was computed for it;
what decodes is the encoding of what it decodes to; and the room for decoding is enough. -/
theorem base64_unique (alphabet : Alphabet) (padded : Bool) :
    (∀ bytes : Slice, decode (encode bytes.1 alphabet padded) alphabet padded = .ok bytes.1 ∧
      encodedLen bytes.1.length padded = some (encode bytes.1 alphabet padded).length) ∧
    (∀ (text : Slice) (bytes : Bytes), decode text.1 alphabet padded = .ok bytes →
      text.1 = encode bytes alphabet padded) ∧
    ∀ text : Slice, decode text.1 alphabet padded ≠ .error .full := by
  refine ⟨fun ⟨bytes, slice⟩ => ⟨?_, ?_⟩, fun ⟨text, slice⟩ bytes decoded => ?_,
    fun ⟨text, slice⟩ full => ?_⟩
  · rw [encode_eq slice]
    unfold decode decodeSlice
    rw [splitPadding_encoded]
    obtain ⟨ends, enough⟩ := @padding_spec padded bytes
    have room : bytes.length ≤ (List.replicate (decodedLen (textOf alphabet bytes ++
        List.replicate (padding padded bytes) pad).length) (0 : UInt8)).length := by
      have few : padding padded bytes ≤ 2 := by
        unfold padding padsOf
        split <;> omega
      rw [List.length_replicate, List.length_append, List.length_replicate, textOf,
        List.length_map]
      refine enough.trans (decodedLen_room ?_)
      rw [length_quanta]
      omega
    have read := @decodeQuanta_textOf alphabet padded _ bytes ends 0 ⟨[], _⟩ room
    dsimp only [bind, Except.bind]
    rw [read]
    exact congrArg Except.ok List.take_left
  · rw [encodedLen_eq slice, encode_eq slice, List.length_append, List.length_replicate, textOf,
      List.length_map]
  · unfold decode decodeSlice at decoded
    rcases split_ : splitPadding text padded with fault | ⟨data, pads⟩
    · rw [split_] at decoded
      cases decoded
    · obtain ⟨rfl, ends⟩ := splitPadding_eq_ok split_
      rw [split_] at decoded
      dsimp only [bind, Except.bind] at decoded
      rcases read : decodeQuanta alphabet padded pads data 0 ⟨[], List.replicate (decodedLen
          (data ++ List.replicate pads pad).length) 0⟩ with fault | after
      · rw [read] at decoded
        cases decoded
      · obtain ⟨found, rfl, ends', rfl⟩ := (decodeQuanta_sound data 0 _).1 after read
        rw [read] at decoded
        dsimp only [Cursor.fill] at decoded
        rw [List.nil_append, List.take_left] at decoded
        cases decoded
        have size := slice
        rw [List.length_append, textOf, List.length_map, length_quanta] at size
        rw [encode_eq (show bytes.length < 2 ^ 63 by omega)]
        have same : pads = padding padded bytes := by
          unfold Padded at ends'
          cases padded with
          | false => exact ends
          | true =>
            split at ends'
            · next whole =>
              rw [ends', padding, if_pos rfl, padsOf, whole]
            · exact ends' rfl
        exact congrArg (fun count => textOf alphabet bytes ++ List.replicate count pad) same
  · unfold decode decodeSlice at full
    rcases split_ : splitPadding text padded with fault | ⟨data, pads⟩
    · rw [split_] at full
      exact splitPadding_ne_full text (Except.error.inj full ▸ split_)
    · obtain ⟨rfl, ends⟩ := splitPadding_eq_ok split_
      rw [split_] at full
      dsimp only [bind, Except.bind] at full
      rcases read : decodeQuanta alphabet padded pads data 0 ⟨[], List.replicate (decodedLen
          (data ++ List.replicate pads pad).length) 0⟩ with fault | after
      · rw [read] at full
        cases full
        refine (decodeQuanta_sound data 0 _).2 ?_ read
        rw [List.length_replicate]
        refine Nat.le_trans ?_ (decodedLen_room (Nat.lt_trans slice (by decide)))
        rw [List.length_append]
        omega
      · rw [read] at full
        cases full

end ZeroServer.Base64

/-
This file models what writes HTTP/3 frames: the shortest and the fixed-length integers, frame
headers, settings and the frames themselves, each with the buffer it appends to. Every encoder
appends the whole of what it writes, or nothing.
-/

import ZeroServer.H3.Frame

namespace ZeroServer.H3

open Http1

/-! ### Integers in network order -/

namespace Varint

def toBeBytes : Nat → Nat → Bytes
  | 0, _ => []
  | count + 1, value => UInt8.ofNat (value / 256 ^ count) :: toBeBytes count value

@[simp] theorem length_toBeBytes (count value : Nat) : (toBeBytes count value).length = count := by
  induction count with
  | zero => rfl
  | succ count inductionHypothesis => rw [toBeBytes, List.length_cons, inductionHypothesis]

theorem foldl_fromBeBytes (start : Nat) (bytes : Bytes) :
    bytes.foldl (fun value byte => value * 256 + byte.toNat) start =
      start * 256 ^ bytes.length + fromBeBytes bytes := by
  induction bytes generalizing start with
  | nil => exact (Nat.mul_one start).symm
  | cons byte bytes inductionHypothesis =>
    unfold fromBeBytes at inductionHypothesis ⊢
    rw [List.foldl_cons, List.foldl_cons, inductionHypothesis, inductionHypothesis (0 * 256 + _),
      List.length_cons, Nat.pow_succ, Nat.zero_mul, Nat.zero_add, Nat.add_mul, Nat.add_assoc,
      Nat.mul_assoc, Nat.mul_comm 256]

theorem fromBeBytes_cons (byte : UInt8) (bytes : Bytes) :
    fromBeBytes (byte :: bytes) = byte.toNat * 256 ^ bytes.length + fromBeBytes bytes := by
  rw [fromBeBytes, List.foldl_cons, foldl_fromBeBytes, Nat.zero_mul, Nat.zero_add]

theorem fromBeBytes_lt (bytes : Bytes) : fromBeBytes bytes < 256 ^ bytes.length := by
  induction bytes with
  | nil => exact Nat.one_pos
  | cons byte bytes inductionHypothesis =>
    rw [fromBeBytes_cons, List.length_cons, Nat.pow_succ]
    calc byte.toNat * 256 ^ bytes.length + fromBeBytes bytes
        < byte.toNat * 256 ^ bytes.length + 256 ^ bytes.length :=
          Nat.add_lt_add_left inductionHypothesis _
      _ = (byte.toNat + 1) * 256 ^ bytes.length := (Nat.succ_mul _ _).symm
      _ ≤ 256 * 256 ^ bytes.length := Nat.mul_le_mul_right _ (UInt8.toNat_lt byte)
      _ = 256 ^ bytes.length * 256 := Nat.mul_comm _ _

theorem fromBeBytes_toBeBytes (count value : Nat) :
    fromBeBytes (toBeBytes count value) = value % 256 ^ count := by
  induction count with
  | zero => rw [Nat.pow_zero, Nat.mod_one]; rfl
  | succ count inductionHypothesis =>
    have grown : 256 ^ (count + 1) = 256 ^ count * 256 := Nat.pow_succ ..
    rw [toBeBytes, fromBeBytes_cons, inductionHypothesis, length_toBeBytes, UInt8.toNat_ofNat',
      grown, Nat.mod_mul, Nat.mul_comm, Nat.add_comm]

theorem toBeBytes_mod (count value : Nat) :
    toBeBytes count (value % 256 ^ count) = toBeBytes count value := by
  have high : ∀ more, toBeBytes count (value % 256 ^ (count + more)) = toBeBytes count value := by
    induction count with
    | zero => exact fun _ => rfl
    | succ count inductionHypothesis =>
      intro more
      rw [toBeBytes, toBeBytes, Nat.add_right_comm, Nat.add_assoc, inductionHypothesis]
      congr 1
      rw [Nat.pow_add, Nat.mod_mul_right_div_self, Nat.pow_succ, ← UInt8.toNat_inj,
        UInt8.toNat_ofNat', UInt8.toNat_ofNat', Nat.mod_mul_left_mod]
  exact high 0

theorem toBeBytes_fromBeBytes (bytes : Bytes) :
    toBeBytes bytes.length (fromBeBytes bytes) = bytes := by
  induction bytes with
  | nil => rfl
  | cons byte bytes inductionHypothesis =>
    have positive : 0 < 256 ^ bytes.length := Nat.pow_pos (by decide)
    rw [List.length_cons, toBeBytes, fromBeBytes_cons, ← toBeBytes_mod bytes.length,
      Nat.mul_comm byte.toNat, Nat.mul_add_div positive, Nat.div_eq_of_lt (fromBeBytes_lt bytes),
      Nat.add_zero, UInt8.ofNat_toNat, Nat.mul_add_mod, Nat.mod_eq_of_lt (fromBeBytes_lt bytes),
      inductionHypothesis]

/-! ### Writing integers -/

/-- The largest value. -/
def max : Nat := 0x3FFFFFFFFFFFFFFF

/-- The shortest encoded length. -/
def encodedLen (value : Nat) : Option Nat :=
  if value ≤ 0x3F then some 1
  else if value ≤ 0x3FFF then some 2
  else if value ≤ 0x3FFFFFFF then some 4
  else if value ≤ max then some 8
  else none

/-- The octets of a value on exactly so many octets. -/
def octets (value len : Nat) : Option Bytes :=
  match len with
  | 1 => if value ≤ 0x3F then some [UInt8.ofNat value] else none
  | 2 => if value ≤ 0x3FFF then some (toBeBytes 2 (value ||| 0x4000)) else none
  | 4 => if value ≤ 0x3FFFFFFF then some (toBeBytes 4 (value ||| 0x80000000)) else none
  | 8 => if max < value then none else some (toBeBytes 8 (value ||| 0xC000000000000000))
  | _ => none

/-- Write a value on exactly so many octets at the start of the buffer. -/
def encodeWithLen (value len : Nat) (out : Bytes) : Option Nat × Bytes :=
  match octets value len with
  | none => (none, out)
  | some bytes =>
    if out.length < len then (none, out) else (some len, bytes ++ out.drop len)

/-- Write the shortest encoding at the start of the buffer. -/
def encode (value : Nat) (out : Bytes) : Option Nat × Bytes :=
  match encodedLen value with
  | none => (none, out)
  | some len => encodeWithLen value len out

/-- A buffer the longest encoding fits in. -/
def scratch : Bytes := List.replicate 8 0

/-- Append the shortest encoding. -/
def push (value : Nat) (out : Bytes) : Option Unit × Bytes :=
  match encode value scratch with
  | (none, _) => (none, out)
  | (some len, bytes) => (some (), out ++ bytes.take len)

/-- The octets of the shortest encoding. -/
def shortest (value : Nat) : Option Bytes := (encodedLen value).bind (octets value)

/-- The octets are an encoding of the value, of any length. -/
def Encodes (value : Nat) (bytes : Bytes) : Prop := ∃ len, octets value len = some bytes

/-! ### Reading what was written -/

variable {value : Nat} {bytes : Bytes}

theorem lenFromFirst_eq (first : UInt8) : lenFromFirst first = 2 ^ (first.toNat / 64) := by
  have all : ∀ value : Fin 256, lenFromFirst (UInt8.ofNat value) = 2 ^ ((value : Nat) / 64) := by
    decide +kernel
  have one := all ⟨first.toNat, UInt8.toNat_lt first⟩
  rwa [UInt8.ofNat_toNat] at one

/-- How many values fit next to the two bits that give a length of `2 ^ tag`. -/
def room (tag : Nat) : Nat := 2 ^ (8 * 2 ^ tag - 2)

theorem room_eq (tag : Nat) : room tag = 64 * 256 ^ (2 ^ tag - 1) := by
  have positive : 0 < 2 ^ tag := Nat.two_pow_pos tag
  unfold room
  rw [show (256 : Nat) = 2 ^ 8 from rfl, ← Nat.pow_mul, show (64 : Nat) = 2 ^ 6 from rfl,
    ← Nat.pow_add]
  congr 1
  omega

theorem four_room (tag : Nat) : 4 * room tag = 256 ^ 2 ^ tag := by
  have positive : 0 < 2 ^ tag := Nat.two_pow_pos tag
  rw [room_eq, ← Nat.mul_assoc, Nat.mul_comm, ← Nat.pow_succ, Nat.succ_eq_add_one,
    Nat.sub_add_cancel positive]

theorem decode_eq (first : UInt8) (rest : Bytes) :
    decode (first :: rest) =
      if 2 ^ (first.toNat / 64) ≤ (first :: rest).length then
        some (fromBeBytes ((first :: rest).take (2 ^ (first.toNat / 64))) % room (first.toNat / 64),
          2 ^ (first.toNat / 64))
      else none := by
  have small : first.toNat / 64 < 4 := by have := UInt8.toNat_lt first; omega
  have length := lenFromFirst_eq first
  unfold decode
  dsimp only
  rw [length]
  have tags : first.toNat / 64 = 0 ∨ first.toNat / 64 = 1 ∨ first.toNat / 64 = 2 ∨
      first.toNat / 64 = 3 := by omega
  have chunk : ∀ count bits : Nat, (firstChunk count (first :: rest)).map (fun bytes =>
          (fromBeBytes bytes &&& 2 ^ bits - 1, count)) =
        if count ≤ (first :: rest).length then
          some (fromBeBytes ((first :: rest).take count) % 2 ^ bits, count)
        else none := by
    intro count bits
    unfold firstChunk
    split
    · rw [Option.map_some, Nat.and_two_pow_sub_one_eq_mod]
    · rfl
  rcases tags with tag | tag | tag | tag
  all_goals rw [tag]
  · have low : first.toNat % 64 = first.toNat := Nat.mod_eq_of_lt (by omega)
    have one : fromBeBytes [first] = first.toNat := by
      rw [fromBeBytes, List.foldl_cons, List.foldl_nil, Nat.zero_mul, Nat.zero_add]
    rw [if_pos (show 2 ^ 0 ≤ (first :: rest).length from Nat.succ_le_succ (Nat.zero_le _))]
    change some (first.toNat, 1) = some (fromBeBytes [first] % 64, 1)
    rw [one, low]
  · exact chunk 2 14
  · exact chunk 4 30
  · exact chunk 8 62

theorem octets_eq {tag : Nat} (known : tag < 4) (value : Nat) :
    octets value (2 ^ tag) =
      if value < room tag then some (toBeBytes (2 ^ tag) (tag * room tag + value)) else none := by
  have joined : ∀ bits upper, value < 2 ^ bits →
      value ||| 2 ^ bits * upper = upper * 2 ^ bits + value := by
    intro bits upper small
    rw [Nat.or_comm, ← Nat.two_pow_add_eq_or_of_lt small, Nat.mul_comm]
  match tag with
  | 0 =>
    change (if value ≤ 0x3F then some [UInt8.ofNat value] else none) =
      if value < 64 then some (toBeBytes 1 (0 * 64 + value)) else none
    refine ite_congr (propext Nat.lt_succ_iff.symm) (fun _ => ?_) fun _ => rfl
    simp [toBeBytes]
  | 1 =>
    change (if value ≤ 0x3FFF then some (toBeBytes 2 (value ||| 2 ^ 14 * 1)) else none) =
      if value < 2 ^ 14 then some (toBeBytes 2 (1 * 2 ^ 14 + value)) else none
    refine ite_congr (propext Nat.lt_succ_iff.symm) (fun small => ?_) fun _ => rfl
    rw [joined 14 1 small]
  | 2 =>
    change (if value ≤ 0x3FFFFFFF then some (toBeBytes 4 (value ||| 2 ^ 30 * 2)) else none) =
      if value < 2 ^ 30 then some (toBeBytes 4 (2 * 2 ^ 30 + value)) else none
    refine ite_congr (propext Nat.lt_succ_iff.symm) (fun small => ?_) fun _ => rfl
    rw [joined 30 2 small]
  | 3 =>
    change (if max < value then none else some (toBeBytes 8 (value ||| 2 ^ 62 * 3))) =
      if value < 2 ^ 62 then some (toBeBytes 8 (3 * 2 ^ 62 + value)) else none
    by_cases small : value < 2 ^ 62
    · have bound : value ≤ max := Nat.le_of_lt_succ small
      rw [if_neg (Nat.not_lt_of_le bound), if_pos small, joined 62 3 small]
    · rw [if_pos (Nat.lt_of_lt_of_le (by decide) (Nat.le_of_not_lt small)), if_neg small]

theorem octets_len {len : Nat} (written : octets value len = some bytes) :
    ∃ tag, tag < 4 ∧ len = 2 ^ tag := by
  unfold octets at written
  split at written
  · exact ⟨0, by decide, rfl⟩
  · exact ⟨1, by decide, rfl⟩
  · exact ⟨2, by decide, rfl⟩
  · exact ⟨3, by decide, rfl⟩
  · cases written

/-- What the first octet of an integer says of the rest. -/
theorem tag_of_octets {tag : Nat} (known : tag < 4) (small : value < room tag) :
    ∃ first rest, toBeBytes (2 ^ tag) (tag * room tag + value) = first :: rest ∧
      first.toNat / 64 = tag := by
  have positive : 0 < 2 ^ tag := Nat.two_pow_pos tag
  obtain ⟨count, length⟩ : ∃ count, 2 ^ tag = count + 1 := ⟨2 ^ tag - 1, by omega⟩
  have size : room tag = 64 * 256 ^ count := by rw [room_eq, length, Nat.add_sub_cancel]
  have scale : 0 < 256 ^ count := Nat.pow_pos (by decide)
  rw [size] at small ⊢
  refine ⟨_, _, by rw [length, toBeBytes], ?_⟩
  have high : value / 256 ^ count < 64 := (Nat.div_lt_iff_lt_mul scale).mpr small
  rw [← Nat.mul_assoc, Nat.mul_comm (tag * 64), Nat.mul_add_div scale,
    UInt8.toNat_ofNat_of_lt' (by rw [UInt8.size]; omega), Nat.mul_comm,
    Nat.mul_add_div (by decide), Nat.div_eq_of_lt high, Nat.add_zero]

/-- A written integer is read back, whatever follows it. -/
theorem decode_octets {len : Nat} (written : octets value len = some bytes) (more : Bytes) :
    decode (bytes ++ more) = some (value, len) ∧ bytes.length = len := by
  obtain ⟨tag, known, rfl⟩ := octets_len written
  rw [octets_eq known] at written
  obtain ⟨small, same⟩ := Option.ite_none_right_eq_some.mp written
  obtain rfl := Option.some.inj same
  have length := length_toBeBytes (2 ^ tag) (tag * room tag + value)
  refine ⟨?_, length⟩
  have whole : tag * room tag + value < 256 ^ 2 ^ tag := by
    rw [← four_room]
    calc tag * room tag + value < tag * room tag + room tag := Nat.add_lt_add_left small _
      _ = (tag + 1) * room tag := (Nat.succ_mul _ _).symm
      _ ≤ 4 * room tag := Nat.mul_le_mul_right _ known
  have read := fromBeBytes_toBeBytes (2 ^ tag) (tag * room tag + value)
  rw [Nat.mod_eq_of_lt whole] at read
  obtain ⟨first, rest, split, tagged⟩ := tag_of_octets known small
  rw [split] at length read ⊢
  rw [List.cons_append, decode_eq, tagged,
    if_pos (by rw [← length, ← List.cons_append, List.length_append]; exact Nat.le_add_right _ _),
    ← List.cons_append, ← length, List.take_left, read, Nat.mul_comm, Nat.mul_add_mod,
    Nat.mod_eq_of_lt small]

/-- An integer that is read was written on as many octets. -/
theorem octets_of_decode {input : Bytes} {taken : Nat} (read : decode input = some (value, taken)) :
    octets value taken = some (input.take taken) := by
  cases input with
  | nil => cases read
  | cons first rest =>
    rw [decode_eq] at read
    obtain ⟨enough, same⟩ := Option.ite_none_right_eq_some.mp read
    obtain ⟨rfl, rfl⟩ := Prod.mk.inj (Option.some.inj same)
    have known : first.toNat / 64 < 4 := by have := UInt8.toNat_lt first; omega
    generalize tagged : first.toNat / 64 = tag at enough known
    have length : ((first :: rest).take (2 ^ tag)).length = 2 ^ tag :=
      List.length_take_of_le enough
    have bound := fromBeBytes_lt ((first :: rest).take (2 ^ tag))
    have again := toBeBytes_fromBeBytes ((first :: rest).take (2 ^ tag))
    have positive : 0 < room tag := Nat.two_pow_pos _
    rw [length, ← four_room] at bound
    rw [length] at again
    have high : fromBeBytes ((first :: rest).take (2 ^ tag)) / room tag = tag := by
      obtain ⟨count, size⟩ : ∃ count, 2 ^ tag = count + 1 :=
        ⟨2 ^ tag - 1, by have := Nat.two_pow_pos tag; omega⟩
      have scale : 0 < 256 ^ count := Nat.pow_pos (by decide)
      have behind : (rest.take count).length = count := by
        refine List.length_take_of_le ?_
        rw [size, List.length_cons] at enough
        exact Nat.le_of_succ_le_succ enough
      have below := fromBeBytes_lt (rest.take count)
      rw [behind] at below
      rw [room_eq, size, Nat.add_sub_cancel, List.take_succ_cons, fromBeBytes_cons, behind,
        Nat.mul_comm 64, ← Nat.div_div_eq_div_mul, Nat.mul_comm, Nat.mul_add_div scale,
        Nat.div_eq_of_lt below, Nat.add_zero, tagged]
    rw [octets_eq known, if_pos (Nat.mod_lt _ positive)]
    refine congrArg some (Eq.trans ?_ again)
    congr 1
    conv_rhs => rw [← Nat.div_add_mod (fromBeBytes ((first :: rest).take (2 ^ tag))) (room tag),
      high, Nat.mul_comm]

theorem encodes_iff : Encodes value bytes ↔ decode bytes = some (value, bytes.length) := by
  constructor
  · rintro ⟨len, written⟩
    obtain ⟨read, length⟩ := decode_octets written []
    rw [List.append_nil] at read
    rw [length, read]
  · intro read
    have written := octets_of_decode read
    rw [List.take_length] at written
    exact ⟨_, written⟩

theorem encodes_some (encodes : Encodes value bytes) : bytes ≠ [] := by
  rintro rfl
  cases encodes_iff.mp encodes

/-- The shortest form is there for every value up to the largest one. -/
theorem shortest_spec (value : Nat) :
    (value ≤ max → ∃ bytes, shortest value = some bytes ∧ Encodes value bytes ∧
      bytes.length ≤ 8) ∧
    (max < value → shortest value = none) := by
  have length : ∀ {len bytes}, octets value len = some bytes → len ≤ 8 → bytes.length ≤ 8 := by
    intro len bytes written short
    rw [(decode_octets written []).2]
    exact short
  unfold shortest encodedLen
  constructor
  · intro bound
    by_cases one : value ≤ 0x3F
    · rw [if_pos one]
      have written : octets value 1 = some [UInt8.ofNat value] := if_pos one
      exact ⟨_, written, ⟨1, written⟩, length written (by decide)⟩
    rw [if_neg one]
    by_cases two : value ≤ 0x3FFF
    · rw [if_pos two]
      have written : octets value 2 = some (toBeBytes 2 (value ||| 0x4000)) := if_pos two
      exact ⟨_, written, ⟨2, written⟩, length written (by decide)⟩
    rw [if_neg two]
    by_cases four : value ≤ 0x3FFFFFFF
    · rw [if_pos four]
      have written : octets value 4 = some (toBeBytes 4 (value ||| 0x80000000)) := if_pos four
      exact ⟨_, written, ⟨4, written⟩, length written (by decide)⟩
    rw [if_neg four, if_pos bound]
    have written : octets value 8 = some (toBeBytes 8 (value ||| 0xC000000000000000)) :=
      if_neg (Nat.not_lt_of_le bound)
    exact ⟨_, written, ⟨8, written⟩, length written (by decide)⟩
  · intro large
    unfold max at large ⊢
    rw [if_neg (by omega), if_neg (by omega), if_neg (by omega), if_neg (by omega)]
    rfl

theorem shortest_encodes (written : shortest value = some bytes) : Encodes value bytes := by
  obtain ⟨len, -, octets_⟩ := Option.bind_eq_some_iff.mp written
  exact ⟨len, octets_⟩

theorem shortest_none : shortest value = none ↔ max < value := by
  obtain ⟨small, large⟩ := shortest_spec value
  refine ⟨fun none_ => Nat.lt_of_not_le fun bound => ?_, large⟩
  obtain ⟨bytes, written, -⟩ := small bound
  rw [none_] at written
  cases written

theorem encodedLen_none : encodedLen value = none ↔ max < value := by
  unfold encodedLen max
  grind

end Varint

/-! ### Writing whole or not at all -/

/-- What is written is appended whole, and where there is nothing to write the buffer is as it was. -/
def Writes (encoder : Bytes → Option Unit × Bytes) (wire : Option Bytes) : Prop :=
  ∀ out, encoder out =
    match wire with
    | none => (none, out)
    | some bytes => (some (), out ++ bytes)

theorem Varint.push_writes (value : Nat) : Writes (Varint.push value) (Varint.shortest value) := by
  intro out
  unfold Varint.push Varint.encode Varint.shortest
  rcases Varint.encodedLen value with _ | len
  · rfl
  · dsimp only [Option.bind_some]
    unfold Varint.encodeWithLen
    rcases written : Varint.octets value len with _ | bytes
    · rfl
    · obtain ⟨tag, known, rfl⟩ := Varint.octets_len written
      have size : 2 ^ tag ≤ 8 := Nat.pow_le_pow_right (by decide) (Nat.le_of_lt_succ known)
      have fits : ¬ Varint.scratch.length < 2 ^ tag := Nat.not_lt_of_le size
      have length := (Varint.decode_octets written []).2
      dsimp only
      rw [if_neg fits]
      dsimp only
      rw [← length, List.take_left]

namespace FrameHeader

/-- Append a frame header in the shortest encoding. -/
def encode (frameType : FrameType) (len : Nat) (out : Bytes) : Option Unit × Bytes :=
  match Varint.encodedLen frameType with
  | none => (none, out)
  | some _ =>
    match Varint.encodedLen len with
    | none => (none, out)
    | some _ =>
      match Varint.push frameType out with
      | (none, left) => (none, left)
      | (some (), left) => Varint.push len left

/-- The octets of a frame header. -/
def wire (frameType : FrameType) (len : Nat) : Option Bytes :=
  (Varint.shortest frameType).bind fun head => (Varint.shortest len).map (head ++ ·)

theorem encode_writes (frameType : FrameType) (len : Nat) :
    Writes (encode frameType len) (wire frameType len) := by
  intro out
  unfold encode wire
  rcases typed : Varint.encodedLen frameType with _ | typeLen
  · rw [Varint.shortest_none.mpr (Varint.encodedLen_none.mp typed)]
    rfl
  dsimp only
  rcases measured : Varint.encodedLen len with _ | lenLen
  · rw [Varint.shortest_none.mpr (Varint.encodedLen_none.mp measured)]
    cases Varint.shortest frameType <;> rfl
  · dsimp only
    rw [Varint.push_writes]
    rcases Varint.shortest frameType with _ | head
    · rfl
    · dsimp only [Option.bind_some]
      rw [Varint.push_writes]
      rcases written : Varint.shortest len with _ | rest
      · rw [Varint.encodedLen_none.mpr (Varint.shortest_none.mp written)] at measured
        cases measured
      · dsimp only [Option.map_some]
        rw [List.append_assoc]

end FrameHeader

/-- The octets of a frame. -/
def frameWire (frameType : FrameType) (payload : Bytes) : Option Bytes :=
  (FrameHeader.wire frameType payload.length).map (· ++ payload)

/-! ### Writing settings -/

/-- The largest index of a reserved value. -/
def maxN : Nat := 148764065110560899

/-- The reserved value of an index. -/
def reserved (n : Nat) : Option Nat := if maxN < n then none else some (n * 0x1F + 0x21)

/-- A reserved setting to send. -/
structure Reserved where
  n : Nat
  value : Nat
  deriving DecidableEq

/-- What an encoder left in its buffer, unless it gave up. -/
def written : Option Unit × Bytes → Option Bytes
  | (none, _) => none
  | (some (), out) => some out

theorem Writes.written {encoder : Bytes → Option Unit × Bytes} {wire : Option Bytes}
    (writes : Writes encoder wire) (out : Bytes) : written (encoder out) = wire.map (out ++ ·) := by
  rw [writes]
  cases wire <;> rfl

namespace Settings

/-- The settings in ascending order of their identifiers. -/
def pairs (settings : Settings) : List (Nat × Option Nat) :=
  [(0x01, settings.qpackMaxTableCapacity), (0x06, settings.maxFieldSectionSize),
    (0x07, settings.qpackBlockedStreams), (0x08, settings.enableConnectProtocol.map Bool.toNat),
    (0x33, settings.h3Datagram.map Bool.toNat)]

def pushPair (id value : Nat) (payload : Bytes) : Option Unit × Bytes :=
  match Varint.push id payload with
  | (none, left) => (none, left)
  | (some (), left) => Varint.push value left

def pushPairs : List (Nat × Option Nat) → Bytes → Option Unit × Bytes
  | [], payload => (some (), payload)
  | (_, none) :: rest, payload => pushPairs rest payload
  | (id, some value) :: rest, payload =>
    match pushPair id value payload with
    | (none, left) => (none, left)
    | (some (), left) => pushPairs rest left

def pushReserved : Option Reserved → Bytes → Option Unit × Bytes
  | none, payload => (some (), payload)
  | some ⟨n, value⟩, payload =>
    match reserved n with
    | none => (none, payload)
    | some id => pushPair id value payload

/-- Append a whole settings frame: the present settings, then the reserved one. -/
def encode (settings : Settings) (extra : Option Reserved) (out : Bytes) : Option Unit × Bytes :=
  match pushPairs settings.pairs [] with
  | (none, _) => (none, out)
  | (some (), present) =>
    match pushReserved extra present with
    | (none, _) => (none, out)
    | (some (), payload) =>
      match FrameHeader.encode FrameType.settings payload.length out with
      | (none, left) => (none, left)
      | (some (), left) => (some (), left ++ payload)

/-- Append the start of a control stream: its stream type, then the settings frame. -/
def encodeControlPreface (settings : Settings) (extra : Option Reserved) (out : Bytes) :
    Option Unit × Bytes :=
  match Varint.push 0x00 out with
  | (none, left) => (none, left)
  | (some (), left) =>
    match settings.encode extra left with
    | (none, more) => (none, more.take out.length)
    | (some (), more) => (some (), more)

/-- The octets of one pair. -/
def pairWire (id value : Nat) : Option Bytes :=
  (Varint.shortest id).bind fun first => (Varint.shortest value).map (first ++ ·)

/-- The octets of pairs one after the other. -/
def spell : List (Nat × Nat) → Option Bytes
  | [] => some []
  | (id, value) :: rest => (pairWire id value).bind fun first => (spell rest).map (first ++ ·)

/-- The pairs that are present. -/
def present (pairs : List (Nat × Option Nat)) : List (Nat × Nat) :=
  pairs.filterMap fun pair => pair.2.map (pair.1, ·)

/-- The pairs a settings frame carries. -/
def sent (settings : Settings) (extra : Option Reserved) : Option (List (Nat × Nat)) :=
  match extra with
  | none => some (present settings.pairs)
  | some ⟨n, value⟩ => (reserved n).map fun id => present settings.pairs ++ [(id, value)]

/-- The payload of a settings frame. -/
def payload (settings : Settings) (extra : Option Reserved) : Option Bytes :=
  (settings.sent extra).bind spell

theorem written_pushPair (id value : Nat) (payload : Bytes) :
    written (pushPair id value payload) = (pairWire id value).map (payload ++ ·) := by
  unfold pushPair pairWire
  rw [Varint.push_writes]
  rcases Varint.shortest id with _ | first
  · rfl
  · dsimp only [Option.bind_some]
    rw [(Varint.push_writes value).written, Option.map_map]
    refine congrFun (congrArg Option.map (funext fun second => ?_)) _
    exact List.append_assoc _ _ _

theorem written_pushPairs (pairs : List (Nat × Option Nat)) (payload : Bytes) :
    written (pushPairs pairs payload) = (spell (present pairs)).map (payload ++ ·) := by
  induction pairs generalizing payload with
  | nil => exact congrArg some (List.append_nil payload).symm
  | cons pair rest inductionHypothesis =>
    obtain ⟨id, _ | value⟩ := pair
    · exact inductionHypothesis payload
    · have pushed := written_pushPair id value payload
      have split : spell (present ((id, some value) :: rest)) =
          (pairWire id value).bind fun first => (spell (present rest)).map (first ++ ·) := rfl
      rw [split, pushPairs]
      generalize pushPair id value payload = outcome at pushed ⊢
      generalize pairWire id value = wire at pushed ⊢
      obtain ⟨_ | _, left⟩ := outcome
      · cases wire with
        | none => rfl
        | some first => cases pushed
      · cases wire with
        | none => cases pushed
        | some first =>
          obtain rfl : left = payload ++ first := Option.some.inj pushed
          dsimp only [Option.bind_some]
          rw [inductionHypothesis, Option.map_map]
          refine congrFun (congrArg Option.map (funext fun second => ?_)) _
          exact List.append_assoc _ _ _

theorem spell_append (first second : List (Nat × Nat)) :
    spell (first ++ second) =
      (spell first).bind fun left => (spell second).map (left ++ ·) := by
  induction first with
  | nil =>
    rw [List.nil_append]
    cases spell second <;> rfl
  | cons pair rest inductionHypothesis =>
    obtain ⟨id, value⟩ := pair
    rw [List.cons_append, spell, spell, inductionHypothesis]
    rcases pairWire id value with _ | head
    · rfl
    rcases spell rest with _ | left
    · rfl
    rcases spell second with _ | right
    · rfl
    · exact congrArg some (List.append_assoc head left right).symm

/-- A settings frame is written whole, or not at all. -/
theorem encode_writes (settings : Settings) (extra : Option Reserved) :
    Writes (settings.encode extra)
      ((settings.payload extra).bind (frameWire FrameType.settings)) := by
  intro out
  have present_ := written_pushPairs settings.pairs []
  have whole : ∀ first, spell (present settings.pairs) = some first →
      written (pushReserved extra first) = settings.payload extra := by
    intro first spelled
    unfold payload sent
    rcases extra with _ | ⟨n, value⟩
    · exact spelled.symm
    · unfold pushReserved
      dsimp only
      rcases reserved n with _ | id
      · rfl
      · rw [written_pushPair, Option.map_some, Option.bind_some, spell_append, spelled]
        simp [spell]
  have absent : spell (present settings.pairs) = none → settings.payload extra = none := by
    intro none_
    unfold payload sent
    rcases extra with _ | ⟨n, value⟩
    · exact none_
    · dsimp only
      rcases reserved n with _ | id
      · rfl
      · rw [Option.map_some, Option.bind_some, spell_append, none_]
        rfl
  unfold encode
  generalize pushPairs settings.pairs [] = outcome at present_
  generalize spell (present settings.pairs) = spelled at present_ whole absent
  obtain ⟨_ | _, left⟩ := outcome
  · cases spelled with
    | none => rw [absent rfl]; rfl
    | some first => cases present_
  · cases spelled with
    | none => cases present_
    | some first =>
      obtain rfl : left = first := Option.some.inj present_
      have pushed := whole left rfl
      dsimp only
      generalize pushReserved extra left = outcome at pushed ⊢
      generalize settings.payload extra = payload at pushed ⊢
      obtain ⟨_ | ⟨⟩, body⟩ := outcome
      · cases pushed
        rfl
      · cases pushed
        dsimp only [written, Option.bind_some]
        rw [FrameHeader.encode_writes]
        unfold frameWire
        rcases FrameHeader.wire FrameType.settings body.length with _ | head
        · rfl
        · dsimp only [Option.map_some]
          rw [List.append_assoc]

theorem encodeControlPreface_writes (settings : Settings) (extra : Option Reserved) :
    Writes (settings.encodeControlPreface extra)
      (((settings.payload extra).bind (frameWire FrameType.settings)).map (0x00 :: ·)) := by
  intro out
  have type : Varint.push 0x00 out = (some (), out ++ [0x00]) := Varint.push_writes 0x00 out
  unfold encodeControlPreface
  rw [type]
  dsimp only
  rw [encode_writes]
  rcases (settings.payload extra).bind (frameWire FrameType.settings) with _ | frame
  · dsimp only [Option.map_none]
    rw [List.take_left]
  · dsimp only [Option.map_some]
    rw [List.append_assoc, List.singleton_append]

end Settings

/-! ### Writing frames -/

/-- Append a frame whose payload is `head` then `body`. -/
def append (frameType : FrameType) (head body out : Bytes) : Option Unit × Bytes :=
  match FrameHeader.encode frameType (head.length + body.length) out with
  | (none, left) => (none, left)
  | (some (), left) => (some (), left ++ head ++ body)

/-- Append a frame whose payload is one integer. -/
def appendInteger (frameType : FrameType) (value : Nat) (out : Bytes) : Option Unit × Bytes :=
  match Varint.encode value Varint.scratch with
  | (none, _) => (none, out)
  | (some len, bytes) => append frameType (bytes.take len) [] out

/-- Append a DATA frame header; the caller writes the payload. -/
def encodeDataHeader (len : Nat) (out : Bytes) : Option Unit × Bytes :=
  FrameHeader.encode FrameType.data len out

/-- Append a frame of a reserved type. -/
def encodeReserved (n : Nat) (payload out : Bytes) : Option Unit × Bytes :=
  match reserved n with
  | none => (none, out)
  | some frameType => append frameType payload [] out

namespace Frame

def frameType : Frame → FrameType
  | .headers _ => FrameType.headers
  | .cancelPush _ => FrameType.cancelPush
  | .settings _ => FrameType.settings
  | .pushPromise _ _ => FrameType.pushPromise
  | .goaway _ => FrameType.goaway
  | .maxPushId _ => FrameType.maxPushId

/-- Append the frame: header and payload, every integer in the shortest encoding. -/
def encode (frame : Frame) (out : Bytes) : Option Unit × Bytes :=
  match frame with
  | .headers fieldSection => append FrameType.headers [] fieldSection out
  | .cancelPush pushId => appendInteger FrameType.cancelPush pushId out
  | .settings carried => carried.encode none out
  | .pushPromise pushId fieldSection =>
    match Varint.encode pushId Varint.scratch with
    | (none, _) => (none, out)
    | (some len, bytes) => append FrameType.pushPromise (bytes.take len) fieldSection out
  | .goaway id => appendInteger FrameType.goaway id out
  | .maxPushId pushId => appendInteger FrameType.maxPushId pushId out

/-- The payload of a frame. -/
def payload : Frame → Option Bytes
  | .headers fieldSection => some fieldSection
  | .settings carried => carried.payload none
  | .pushPromise pushId fieldSection => (Varint.shortest pushId).map (· ++ fieldSection)
  | .cancelPush value | .goaway value | .maxPushId value => Varint.shortest value

end Frame

theorem append_writes (frameType : FrameType) (head body : Bytes) :
    Writes (append frameType head body) (frameWire frameType (head ++ body)) := by
  intro out
  unfold append frameWire
  rw [FrameHeader.encode_writes, List.length_append]
  rcases FrameHeader.wire frameType (head.length + body.length) with _ | start
  · rfl
  · dsimp only [Option.map_some]
    rw [List.append_assoc, List.append_assoc, ← List.append_assoc start]

/-- An encoder that writes an integer into a scratch buffer first. -/
theorem scratch_writes (value : Nat) (next : Bytes → Bytes → Option Unit × Bytes)
    (wire : Bytes → Option Bytes) (writes : ∀ bytes, Writes (next bytes) (wire bytes)) :
    Writes
      (fun out =>
        match Varint.encode value Varint.scratch with
        | (none, _) => (none, out)
        | (some len, bytes) => next (bytes.take len) out)
      ((Varint.shortest value).bind wire) := by
  intro out
  have pushed := Varint.push_writes value []
  unfold Varint.push at pushed
  generalize Varint.encode value Varint.scratch = outcome at pushed ⊢
  generalize Varint.shortest value = shortest at pushed ⊢
  obtain ⟨_ | len, bytes⟩ := outcome
  · cases shortest with
    | none => rfl
    | some octets => cases pushed
  · cases shortest with
    | none => cases pushed
    | some octets =>
      obtain ⟨-, same⟩ := Prod.mk.inj pushed
      rw [List.nil_append, List.nil_append] at same
      dsimp only [Option.bind_some]
      rw [same]
      exact writes octets out

theorem appendInteger_writes (frameType : FrameType) (value : Nat) :
    Writes (appendInteger frameType value)
      ((Varint.shortest value).bind (frameWire frameType)) := by
  refine scratch_writes value (fun bytes => append frameType bytes []) _ fun bytes => ?_
  have writes := append_writes frameType bytes []
  rwa [List.append_nil] at writes

theorem encodeReserved_writes (n : Nat) (payload : Bytes) :
    Writes (encodeReserved n payload) ((reserved n).bind (frameWire · payload)) := by
  intro out
  unfold encodeReserved
  rcases reserved n with _ | frameType
  · rfl
  · dsimp only [Option.bind_some]
    rw [append_writes, List.append_nil]

/-- A frame is written whole, or not at all. -/
theorem Frame.encode_writes (frame : Frame) :
    Writes frame.encode (frame.payload.bind (frameWire frame.frameType)) := by
  cases frame with
  | headers fieldSection =>
    have writes := append_writes FrameType.headers [] fieldSection
    exact writes
  | cancelPush value => exact appendInteger_writes _ value
  | settings carried => exact carried.encode_writes none
  | pushPromise pushId fieldSection =>
    have writes := scratch_writes pushId
      (fun bytes => append FrameType.pushPromise bytes fieldSection) _
      fun bytes => append_writes _ bytes fieldSection
    have same : (pushPromise pushId fieldSection).payload.bind (frameWire FrameType.pushPromise) =
        (Varint.shortest pushId).bind fun bytes =>
          frameWire FrameType.pushPromise (bytes ++ fieldSection) := by
      change ((Varint.shortest pushId).map (· ++ fieldSection)).bind _ = _
      cases Varint.shortest pushId <;> rfl
    rw [← same] at writes
    exact writes
  | goaway value => exact appendInteger_writes _ value
  | maxPushId value => exact appendInteger_writes _ value

end ZeroServer.H3

/-
This file models a file as it is held for serving: its bytes, its modification time and the entity
tag made of time and length. The tag is a strong one, and no two states of a file share it.
-/

import ZeroServer.Http1.Grammar

namespace ZeroServer.Static

open Http1

/-! ### Times and lengths -/

/-- A modification time as a unix timestamp with its fraction. -/
structure Modified where
  seconds : UInt64
  nanos : UInt32
  deriving DecidableEq

/-- What the file system says of a file. The time is the one since the epoch; a file may have
none, or an earlier one. -/
structure Metadata where
  isFile : Bool
  len : UInt64
  modified : Option (UInt64 × UInt32)
  deriving DecidableEq

def Modified.of (metadata : Metadata) : Modified where
  seconds := (metadata.modified.map Prod.fst).getD 0
  nanos := (metadata.modified.map Prod.snd).getD 0

/-! ### The entity tag -/

def quote : UInt8 := 34
def hyphen : UInt8 := 45

/-- A hexadecimal digit in lower case. -/
def hexDigit (nibble : Nat) : UInt8 := UInt8.ofNat (if nibble < 10 then 48 + nibble else 87 + nibble)

/-- The loop that writes digits into so many slots, the least significant one first. -/
def hexLoop : Nat → Nat → Bytes
  | 0, _ => []
  | slots + 1, rest => if rest = 0 then [] else hexDigit (rest % 16) :: hexLoop slots (rest / 16)

def pushHex (value : UInt64) : Bytes :=
  if value = 0 then ascii "0" else (hexLoop 16 value.toNat).reverse

/-- A strong entity tag from the modification time and the length. -/
def etagOf (modified : Modified) (length : UInt64) : Bytes :=
  [quote] ++ pushHex modified.seconds ++ [hyphen] ++ pushHex modified.nanos.toUInt64 ++ [hyphen] ++
    pushHex length ++ [quote]

/-! ### The tag tells times and lengths apart -/

theorem hexDigit_injective : ∀ first < 16, ∀ second < 16, hexDigit first = hexDigit second →
    first = second := by
  decide

theorem hexDigit_alphanumeric : ∀ nibble < 16, isAsciiAlphanumeric (hexDigit nibble) = true := by
  decide

theorem hexLoop_digits : ∀ (slots rest : Nat), ∀ byte ∈ hexLoop slots rest,
    ∃ nibble < 16, byte = hexDigit nibble
  | 0, _, _, member => nomatch member
  | slots + 1, rest, byte, member => by
    unfold hexLoop at member
    split at member
    · cases member
    · rcases List.mem_cons.mp member with rfl | later
      · exact ⟨rest % 16, Nat.mod_lt _ (by decide), rfl⟩
      · exact hexLoop_digits slots (rest / 16) byte later

/-- In enough slots the digits tell the number. -/
theorem hexLoop_injective : ∀ {slots first second : Nat}, first < 16 ^ slots → second < 16 ^ slots →
    hexLoop slots first = hexLoop slots second → first = second
  | 0, first, second, small, small', _ => by
    rw [Nat.pow_zero] at small small'
    omega
  | slots + 1, first, second, small, small', same => by
    have below : ∀ {number : Nat}, number < 16 ^ (slots + 1) → number / 16 < 16 ^ slots :=
      fun bound => Nat.div_lt_of_lt_mul (by rwa [Nat.pow_succ, Nat.mul_comm] at bound)
    unfold hexLoop at same
    by_cases zero : first = 0 <;> by_cases zero' : second = 0
    · rw [zero, zero']
    · rw [if_pos zero, if_neg zero'] at same
      cases same
    · rw [if_neg zero, if_pos zero'] at same
      cases same
    · rw [if_neg zero, if_neg zero'] at same
      obtain ⟨digit, rest⟩ := List.cons.inj same
      have low := hexDigit_injective _ (Nat.mod_lt first (by decide)) _
        (Nat.mod_lt second (by decide)) digit
      have high := hexLoop_injective (below small) (below small') rest
      omega

theorem pushHex_digits (value : UInt64) : ∀ byte ∈ pushHex value,
    ∃ nibble < 16, byte = hexDigit nibble := by
  intro byte member
  unfold pushHex at member
  split at member
  · exact ⟨0, by decide, List.mem_singleton.mp member⟩
  · exact hexLoop_digits 16 _ byte (List.mem_reverse.mp member)

theorem pushHex_injective {first second : UInt64} (same : pushHex first = pushHex second) :
    first = second := by
  have nonzero : ∀ {value : UInt64}, value ≠ 0 → (hexLoop 16 value.toNat).reverse ≠ ascii "0" := by
    intro value some_ alone
    have single : hexLoop 16 value.toNat = ascii "0" := by
      rw [← List.reverse_reverse (hexLoop 16 value.toNat), alone]
      rfl
    have known : value.toNat ≠ 0 := fun zero => some_ (UInt64.toNat.inj zero)
    rw [hexLoop, if_neg known] at single
    obtain ⟨digit, rest⟩ := List.cons.inj single
    have low := hexDigit_injective _ (Nat.mod_lt value.toNat (by decide)) 0 (by decide) digit
    have high : value.toNat / 16 = 0 := by
      by_contra more
      rw [hexLoop, if_neg more] at rest
      cases rest
    omega
  unfold pushHex at same
  split at same <;> split at same
  · rename_i zero zero'
    rw [zero, zero']
  · rename_i some_
    exact absurd same.symm (nonzero some_)
  · rename_i some_ _
    exact absurd same (nonzero some_)
  · exact UInt64.toNat.inj (hexLoop_injective first.toNat_lt second.toNat_lt
      (List.reverse_injective same))

theorem hyphen_notMem_pushHex (value : UInt64) : hyphen ∉ pushHex value := by
  intro member
  obtain ⟨nibble, small, same⟩ := pushHex_digits value _ member
  have alphanumeric := hexDigit_alphanumeric nibble small
  rw [← same] at alphanumeric
  cases alphanumeric

/-- What stands in front of the first mark is what stood there. -/
theorem append_mark_inj {mark : UInt8} {first second rest rest' : Bytes} (fresh : mark ∉ first)
    (fresh' : mark ∉ second) (same : first ++ [mark] ++ rest = second ++ [mark] ++ rest') :
    first = second ∧ rest = rest' := by
  rw [List.append_assoc, List.append_assoc] at same
  have cut : ∀ {front behind : Bytes}, mark ∉ front →
      (front ++ ([mark] ++ behind)).takeWhile (· ≠ mark) = front := by
    intro front behind plain
    have inside : ∀ byte ∈ front, decide (byte ≠ mark) = true := fun byte member =>
      decide_eq_true fun equal => plain (by rw [← equal]; exact member)
    rw [List.takeWhile_append_of_pos inside]
    simp
  have fronts := congrArg (List.takeWhile (· ≠ mark)) same
  rw [cut fresh, cut fresh'] at fronts
  subst fronts
  exact ⟨rfl, List.append_cancel_left (List.append_cancel_left same)⟩

/-- Two states of a file with the same tag were modified at the same time and have one length. -/
theorem etagOf_injective {modified modified' : Modified} {length length' : UInt64}
    (same : etagOf modified length = etagOf modified' length') :
    modified = modified' ∧ length = length' := by
  obtain ⟨seconds, nanos⟩ := modified
  obtain ⟨seconds', nanos'⟩ := modified'
  unfold etagOf at same
  have inner := List.append_cancel_right same
  simp only [List.append_assoc] at inner
  have tail := List.append_cancel_left inner
  simp only [← List.append_assoc] at tail
  obtain ⟨first, others⟩ := append_mark_inj (hyphen_notMem_pushHex _) (hyphen_notMem_pushHex _)
    (by simpa only [List.append_assoc] using tail)
  obtain ⟨second, third⟩ := append_mark_inj (hyphen_notMem_pushHex _) (hyphen_notMem_pushHex _)
    (by simpa only [List.append_assoc] using others)
  have exactNanos : nanos = nanos' := by
    have wide := congrArg UInt64.toNat (pushHex_injective second)
    rw [UInt32.toNat_toUInt64, UInt32.toNat_toUInt64] at wide
    exact UInt32.toNat.inj wide
  refine ⟨?_, pushHex_injective third⟩
  rw [pushHex_injective first, exactNanos]

/-! ### Entries -/

/-- One file as it is held. -/
structure Entry where
  bytes : Bytes
  modified : Modified
  etag : Bytes
  contentType : Bytes
  deriving DecidableEq

/-- The media type of a file whose extension names none. -/
def octetStream : Bytes := ascii "application/octet-stream"

/-- The entry made of what was loaded for a key, the media type being looked up for the key. -/
def Entry.fresh (fromPath : Bytes → Option Bytes) (key bytes : Bytes) (metadata : Metadata) :
    Entry where
  bytes := bytes
  modified := Modified.of metadata
  etag := etagOf (Modified.of metadata) metadata.len
  contentType := (fromPath key).getD octetStream

end ZeroServer.Static

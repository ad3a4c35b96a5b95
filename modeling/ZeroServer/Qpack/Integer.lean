/-
This file models prefixed integers: the low bits of a first octet and continuation octets of seven
bits each, with the limits on their value and on their length.
-/

import ZeroServer.Http1.Types

namespace ZeroServer.Qpack

open Http1

/-- How many low bits of its first octet an integer starts in. -/
inductive PrefixBits where
  | p1 | p2 | p3 | p4 | p5 | p6 | p7 | p8
  deriving DecidableEq

variable {value : Nat}

namespace PrefixBits

def mask : PrefixBits → UInt8
  | p1 => 0x01
  | p2 => 0x03
  | p3 => 0x07
  | p4 => 0x0F
  | p5 => 0x1F
  | p6 => 0x3F
  | p7 => 0x7F
  | p8 => 0xFF

/-- The value at which continuation octets start. -/
def limit : PrefixBits → Nat
  | p1 => 0x01
  | p2 => 0x03
  | p3 => 0x07
  | p4 => 0x0F
  | p5 => 0x1F
  | p6 => 0x3F
  | p7 => 0x7F
  | p8 => 0xFF

theorem toNat_mask (bits : PrefixBits) : bits.mask.toNat = bits.limit := by cases bits <;> rfl

theorem limit_le (bits : PrefixBits) : bits.limit ≤ 0xFF := by cases bits <;> decide

/-- What fits in the low bits keeps its value under their mask. -/
theorem and_mask_of_le (bits : PrefixBits) (small : value ≤ bits.limit) :
    UInt8.ofNat value &&& bits.mask = UInt8.ofNat value := by
  have all : ∀ bits : PrefixBits, bits ∈ [p1, p2, p3, p4, p5, p6, p7, p8] →
      ∀ value < 256, value ≤ bits.limit → UInt8.ofNat value &&& bits.mask = UInt8.ofNat value := by
    decide +kernel
  have known : bits ∈ [p1, p2, p3, p4, p5, p6, p7, p8] := by cases bits <;> decide
  exact all bits known value (Nat.lt_succ_of_le (Nat.le_trans small bits.limit_le)) small

end PrefixBits

/-- Why an integer was refused. -/
inductive IntegerError where
  | tooLong
  | tooLarge
  deriving DecidableEq

namespace Integer

def maxValue : Nat := 2 ^ 62 - 1

def maxLen : Nat := 10

def maxContinuation : Nat := 9

def low7 (value : Nat) : UInt8 := UInt8.ofNat (value &&& 0x7F)

/-! ### Decoding -/

/-- Read continuation octets, of which so many were read before. -/
def continued (cap : Nat) : Bytes → Nat → Nat → Nat → Except IntegerError (Option (Nat × Nat))
  | [], _, _, _ => .ok none
  | octet :: rest, count, shift, value =>
    if 64 ≤ shift then .error .tooLarge
    else
      let value := value + (octet &&& 0x7F).toNat <<< shift % 2 ^ 64
      if 2 ^ 64 ≤ value then .error .tooLarge
      else if cap < value then .error .tooLarge
      else if octet &&& 0x80 = 0 then .ok (some (value, count + 2))
      else if maxContinuation ≤ count + 1 then .error .tooLong
      else continued cap rest (count + 1) (shift + 7) value

/-- The integer at the start of the input and the octets it took, once they are all there. -/
def decode (input : Bytes) (bits : PrefixBits) (cap : Nat) :
    Except IntegerError (Option (Nat × Nat)) :=
  match input with
  | [] => .ok none
  | first :: rest =>
    let cap := min cap maxValue
    let value := (first &&& bits.mask).toNat
    if cap < value then .error .tooLarge
    else if value < bits.limit then .ok (some (value, 1))
    else continued cap rest 0 0 value

/-! ### Encoding -/

/-- Count the groups of seven bits after the first. -/
def countGroups (rest len : Nat) : Nat :=
  if 0x80 ≤ rest then countGroups (rest >>> 7) (len + 1) else len
termination_by rest
decreasing_by
  rw [Nat.shiftRight_eq_div_pow]
  omega

def encodedLen (value : Nat) (bits : PrefixBits) : Option Nat :=
  if maxValue < value then none
  else if value < bits.limit then some 1
  else some (countGroups (value - bits.limit) 2)

/-- Fill slots with groups of seven bits. -/
def fillGroups : Bytes → Nat → Bytes
  | [], _ => []
  | _ :: slots, rest =>
    if 0x80 ≤ rest then (0x80 ||| low7 rest) :: fillGroups slots (rest >>> 7)
    else low7 rest :: fillGroups slots rest

/-- Encode into a slice: the slice afterwards, and the octets written. -/
def encode (value : Nat) (bits : PrefixBits) (flags : UInt8) (out : Bytes) :
    Option (Bytes × Nat) :=
  match encodedLen value bits with
  | none => none
  | some len =>
    match if len ≤ out.length then out.take len else [] with
    | [] => none
    | _ :: slots =>
      let flags := flags &&& ~~~bits.mask
      if value < bits.limit then some ((flags ||| UInt8.ofNat value) :: out.drop 1, 1)
      else
        some ((flags ||| bits.mask) :: fillGroups slots (value - bits.limit) ++ out.drop len, len)

/-- Append the encoding; nothing is appended for a value out of range. -/
def push (value : Nat) (bits : PrefixBits) (flags : UInt8) (out : Bytes) : Option Bytes :=
  match encode value bits flags (List.replicate maxLen 0) with
  | none => none
  | some (buffer, len) => some (out ++ buffer.take len)

/-! ### What is written -/

variable {bits : PrefixBits}

/-- A number in groups of seven bits, the least significant one first. -/
def groups (number : Nat) : Bytes :=
  if 0x80 ≤ number then (0x80 ||| low7 number) :: groups (number >>> 7) else [low7 number]
termination_by number
decreasing_by
  rw [Nat.shiftRight_eq_div_pow]
  omega

/-- An integer as it is on the wire. -/
def wire (value : Nat) (bits : PrefixBits) (flags : UInt8) : Bytes :=
  if value < bits.limit then [(flags &&& ~~~bits.mask) ||| UInt8.ofNat value]
  else ((flags &&& ~~~bits.mask) ||| bits.mask) :: groups (value - bits.limit)

theorem shiftRight_seven (number : Nat) : number >>> 7 = number / 128 :=
  Nat.shiftRight_eq_div_pow number 7

theorem countGroups_eq (rest len : Nat) :
    countGroups rest (len + 1) = len + (groups rest).length := by
  induction rest using Nat.strongRecOn generalizing len with
  | _ rest inductionHypothesis =>
    rw [countGroups, groups]
    by_cases more : 0x80 ≤ rest
    · have lower : rest >>> 7 < rest := by
        rw [shiftRight_seven]
        omega
      rw [if_pos more, if_pos more, inductionHypothesis _ lower, List.length_cons]
      omega
    · rw [if_neg more, if_neg more, List.length_singleton]

theorem fillGroups_eq (slots : Bytes) (rest : Nat) (enough : slots.length = (groups rest).length) :
    fillGroups slots rest = groups rest := by
  induction slots generalizing rest with
  | nil =>
    rw [groups] at enough
    split at enough <;> cases enough
  | cons slot slots inductionHypothesis =>
    rw [groups] at enough ⊢
    rw [fillGroups]
    by_cases more : 0x80 ≤ rest
    · rw [if_pos more] at enough ⊢
      rw [if_pos more, inductionHypothesis _ (Nat.succ.inj enough)]
    · rw [if_neg more] at enough ⊢
      have last : slots = [] := List.eq_nil_of_length_eq_zero (Nat.succ.inj enough)
      rw [if_neg more, last, fillGroups]

theorem length_groups_le {number count : Nat} (small : number < 2 ^ (7 * (count + 1))) :
    (groups number).length ≤ count + 1 := by
  induction count generalizing number with
  | zero =>
    rw [groups, if_neg (by omega)]
    exact Nat.le_refl 1
  | succ count inductionHypothesis =>
    rw [groups]
    split
    · refine Nat.succ_le_succ (inductionHypothesis ?_)
      rw [Nat.mul_succ, Nat.pow_add] at small
      rw [shiftRight_seven]
      exact Nat.div_lt_of_lt_mul (Nat.mul_comm _ _ ▸ small)
    · exact Nat.le_add_left 1 _

theorem length_wire_le (inRange : value ≤ maxValue) (bits : PrefixBits) (flags : UInt8) :
    (wire value bits flags).length ≤ maxLen := by
  unfold wire
  split
  · exact Nat.le_add_left 1 9
  · refine Nat.succ_le_succ (@length_groups_le _ 8 ?_)
    rw [maxValue] at inRange
    omega

theorem wire_cons (value : Nat) (bits : PrefixBits) (flags : UInt8) :
    ∃ low rest, low ≤ bits.limit ∧
      wire value bits flags = ((flags &&& ~~~bits.mask) ||| UInt8.ofNat low) :: rest := by
  unfold wire
  split
  · rename_i small
    exact ⟨value, [], Nat.le_of_lt small, rfl⟩
  · refine ⟨bits.limit, groups (value - bits.limit), Nat.le_refl _, ?_⟩
    rw [← bits.toNat_mask, UInt8.ofNat_toNat]

/-- An integer in range is appended as it is on the wire. -/
theorem push_eq (inRange : value ≤ maxValue) (bits : PrefixBits) (flags : UInt8) (out : Bytes) :
    push value bits flags out = some (out ++ wire value bits flags) := by
  have fits := length_wire_le inRange bits flags
  unfold wire at fits ⊢
  unfold push encode encodedLen
  rw [if_neg (Nat.not_lt.mpr inRange)]
  by_cases small : value < bits.limit
  · rw [if_pos small, if_pos small]
    simp only [if_pos small]
    rfl
  · rw [if_neg small] at fits ⊢
    rw [if_neg small, countGroups_eq _ 1]
    rw [List.length_cons] at fits
    dsimp only
    generalize same : value - bits.limit = rest at fits ⊢
    have room : (groups rest).length + 1 ≤ maxLen := fits
    rw [List.length_replicate, Nat.add_comm 1, if_pos room, List.take_replicate,
      Nat.min_eq_left room, List.replicate_succ]
    dsimp only
    rw [if_neg small, fillGroups_eq _ _ List.length_replicate]
    dsimp only
    rw [List.take_left' (by rw [List.length_cons])]

theorem push_none (beyond : maxValue < value) (bits : PrefixBits) (flags : UInt8) (out : Bytes) :
    push value bits flags out = none := by
  unfold push encode encodedLen
  rw [if_pos beyond]

theorem push_some {flags : UInt8} {out after : Bytes}
    (pushed : push value bits flags out = some after) :
    value ≤ maxValue ∧ after = out ++ wire value bits flags := by
  rcases Nat.lt_or_ge maxValue value with beyond | inRange
  · rw [push_none beyond] at pushed
    cases pushed
  · rw [push_eq inRange] at pushed
    cases pushed
    exact ⟨inRange, rfl⟩

/-! ### Reading what was written -/

variable {cap : Nat}

/-- What the octets of a group say. -/
theorem low7_octets (number : Nat) :
    (low7 number &&& 0x7F).toNat = number % 128 ∧ low7 number &&& 0x80 = 0 ∧
      ((0x80 ||| low7 number) &&& 0x7F).toNat = number % 128 ∧
      ¬(0x80 ||| low7 number) &&& 0x80 = 0 := by
  have all : ∀ low < 128, (UInt8.ofNat low &&& 0x7F).toNat = low ∧ UInt8.ofNat low &&& 0x80 = 0 ∧
      ((0x80 ||| UInt8.ofNat low) &&& 0x7F).toNat = low ∧
      ¬(0x80 ||| UInt8.ofNat low) &&& 0x80 = 0 := by
    decide
  have low : number &&& 0x7F = number % 128 := Nat.and_two_pow_sub_one_eq_mod number 7
  rw [low7, low]
  exact all _ (Nat.mod_lt _ (by decide))

theorem continued_groups (cap number count value : Nat) (more : Bytes)
    (small : number < 2 ^ (7 * (9 - count))) (few : count < 9)
    (within : value + number * 2 ^ (7 * count) ≤ cap) (inRange : cap ≤ maxValue) :
    continued cap (groups number ++ more) count (7 * count) value =
      .ok (some (value + number * 2 ^ (7 * count), count + 1 + (groups number).length)) := by
  induction number using Nat.strongRecOn generalizing count value with
  | _ number inductionHypothesis =>
    obtain ⟨lastLow, lastEnds, moreLow, moreContinues⟩ := low7_octets number
    rw [maxValue] at inRange
    have whole : number % 128 * 2 ^ (7 * count) + number / 128 * 2 ^ (7 * (count + 1)) =
        number * 2 ^ (7 * count) := by
      rw [Nat.mul_succ 7 count, Nat.pow_add, Nat.mul_comm (2 ^ (7 * count)) (2 ^ 7),
        ← Nat.mul_assoc, ← Nat.add_mul, Nat.mul_comm (number / 128), Nat.mod_add_div]
    have shifted : (number % 128) <<< (7 * count) % 2 ^ 64 = number % 128 * 2 ^ (7 * count) := by
      rw [Nat.shiftLeft_eq, Nat.mod_eq_of_lt (by omega)]
    rw [groups]
    by_cases another : 0x80 ≤ number
    · rw [if_pos another, List.cons_append, continued, if_neg (by omega)]
      dsimp only
      rw [moreLow, shifted, if_neg (by omega), if_neg (by omega), if_neg moreContinues]
      have spare : count + 1 < 9 := by
        refine Nat.lt_of_not_le fun last => ?_
        rw [show 9 - count = 1 by omega] at small
        omega
      rw [if_neg (by rw [maxContinuation]; omega), shiftRight_seven, ← Nat.mul_succ 7 count,
        inductionHypothesis (number / 128) (by omega) (count + 1) _ ?_ spare
          (by rw [Nat.add_assoc, whole]; exact within),
        Nat.add_assoc, whole, List.length_cons]
      · congr 3
        omega
      · rw [show 9 - count = 9 - (count + 1) + 1 by omega, Nat.mul_succ, Nat.pow_add] at small
        exact Nat.div_lt_of_lt_mul (Nat.mul_comm _ _ ▸ small)
    · have last : number % 128 = number := Nat.mod_eq_of_lt (Nat.lt_of_not_le another)
      rw [last] at lastLow shifted
      rw [if_neg another, List.cons_append, continued, if_neg (by omega)]
      dsimp only
      rw [lastLow, shifted, if_neg (by omega), if_neg (by omega), if_pos lastEnds]
      rfl

theorem and_or_distrib (mask left right : UInt8) :
    (left ||| right) &&& mask = (left &&& mask) ||| (right &&& mask) :=
  UInt8.toBitVec_inj.mp BitVec.and_or_distrib_right

theorem and_self_mask (bits : PrefixBits) (flags : UInt8) {low : Nat} (small : low ≤ bits.limit) :
    ((flags &&& ~~~bits.mask) ||| UInt8.ofNat low) &&& bits.mask = UInt8.ofNat low := by
  have cleared : ~~~bits.mask &&& bits.mask = 0 := by cases bits <;> decide
  rw [and_or_distrib, UInt8.and_assoc, cleared, UInt8.and_zero, UInt8.zero_or,
    bits.and_mask_of_le small]

/-- Bits beside the integer are those of the representation around it. -/
theorem and_other_mask (bits : PrefixBits) (flags other : UInt8) {low : Nat}
    (small : low ≤ bits.limit) (keeps : ~~~bits.mask &&& other = other) :
    ((flags &&& ~~~bits.mask) ||| UInt8.ofNat low) &&& other = flags &&& other := by
  have apart : bits.mask &&& other = 0 := by
    rw [← keeps, ← UInt8.and_assoc, show bits.mask &&& ~~~bits.mask = 0 by cases bits <;> decide,
      UInt8.zero_and]
  rw [← bits.and_mask_of_le small, and_or_distrib, UInt8.and_assoc, keeps, UInt8.and_assoc, apart,
    UInt8.and_zero, UInt8.or_zero]

theorem wire_first (value : Nat) (bits : PrefixBits) (flags : UInt8) :
    ∃ first rest, wire value bits flags = first :: rest ∧
      ∀ other, ~~~bits.mask &&& other = other → first &&& other = flags &&& other := by
  obtain ⟨low, rest, small, same⟩ := wire_cons value bits flags
  exact ⟨_, rest, same, fun other keeps => and_other_mask bits flags other small keeps⟩

/-- An integer within the cap is read back, whatever follows it. -/
theorem decode_wire (inRange : value ≤ maxValue) (within : value ≤ cap) (bits : PrefixBits)
    (flags : UInt8) (more : Bytes) :
    decode (wire value bits flags ++ more) bits cap =
      .ok (some (value, (wire value bits flags).length)) := by
  have smallLimit := bits.limit_le
  unfold wire
  by_cases small : value < bits.limit
  · have low : (UInt8.ofNat value).toNat = value :=
      UInt8.toNat_ofNat_of_lt' (Nat.lt_of_lt_of_le small (Nat.le_succ_of_le smallLimit))
    rw [if_pos small, List.cons_append, decode]
    rw [and_self_mask bits flags (Nat.le_of_lt small), low, if_neg (by omega), if_pos small]
    rfl
  · have low : (UInt8.ofNat bits.limit).toNat = bits.limit :=
      UInt8.toNat_ofNat_of_lt' (Nat.lt_succ_of_le smallLimit)
    have full : bits.mask = UInt8.ofNat bits.limit := by
      rw [← bits.toNat_mask, UInt8.ofNat_toNat]
    have masked := and_self_mask bits flags (Nat.le_refl bits.limit)
    have loop := continued_groups (min cap maxValue) (value - bits.limit) 0 bits.limit more
      (by rw [maxValue] at inRange; omega) (by decide) (by omega) (Nat.min_le_right _ _)
    rw [if_neg small, List.cons_append, decode]
    rw [← full] at masked low
    rw [masked, low, if_neg (by omega), if_neg (Nat.lt_irrefl _), loop, Nat.mul_zero, Nat.pow_zero,
      Nat.mul_one, List.length_cons, Nat.add_sub_cancel' (Nat.le_of_not_lt small), Nat.zero_add,
      Nat.add_comm]

/-! ### Reading in parts -/

variable {rest input : Bytes} {count : Nat}

variable {shift taken : Nat}

variable {whole : Nat}

/-- An octet decides the integer, or it says that another one follows. -/
theorem continued_step (cap : Nat) (octet : UInt8) (count shift value : Nat) :
    (∃ fault, ∀ rest, continued cap (octet :: rest) count shift value = .error fault) ∨
    (∃ whole ≤ cap, ∀ rest,
      continued cap (octet :: rest) count shift value = .ok (some (whole, count + 2))) ∨
    (count + 1 < 9 ∧ ∃ next, ∀ rest, continued cap (octet :: rest) count shift value =
        continued cap rest (count + 1) (shift + 7) next) := by
  simp only [continued]
  generalize value + (octet &&& 0x7F).toNat <<< shift % 2 ^ 64 = next
  by_cases far : 64 ≤ shift
  · exact .inl ⟨.tooLarge, fun rest => if_pos far⟩
  by_cases overflow : 2 ^ 64 ≤ next
  · exact .inl ⟨.tooLarge, fun rest => by rw [if_neg far, if_pos overflow]⟩
  by_cases beyond : cap < next
  · exact .inl ⟨.tooLarge, fun rest => by rw [if_neg far, if_neg overflow, if_pos beyond]⟩
  by_cases last : octet &&& 0x80 = 0
  · refine .inr (.inl ⟨next, Nat.le_of_not_lt beyond, fun rest => ?_⟩)
    rw [if_neg far, if_neg overflow, if_neg beyond, if_pos last]
  by_cases long : maxContinuation ≤ count + 1
  · refine .inl ⟨.tooLong, fun rest => ?_⟩
    rw [if_neg far, if_neg overflow, if_neg beyond, if_neg last, if_pos long]
  · refine .inr (.inr ⟨Nat.lt_of_not_le long, next, fun rest => ?_⟩)
    rw [if_neg far, if_neg overflow, if_neg beyond, if_neg last, if_neg long]

theorem continued_append (few : count < 9)
    (decided : continued cap rest count shift value ≠ .ok none) (more : Bytes) :
    continued cap (rest ++ more) count shift value = continued cap rest count shift value := by
  induction rest generalizing count shift value with
  | nil => exact absurd rfl decided
  | cons octet rest inductionHypothesis =>
    rw [List.cons_append]
    rcases continued_step cap octet count shift value with
      ⟨fault, failed⟩ | ⟨whole, -, done⟩ | ⟨fewer, next, goesOn⟩
    · rw [failed, failed]
    · rw [done, done]
    · rw [goesOn] at decided
      rw [goesOn, goesOn, inductionHypothesis fewer decided]

theorem continued_waits (few : count < 9)
    (undecided : continued cap rest count shift value = .ok none) : rest.length + count < 9 := by
  induction rest generalizing count shift value with
  | nil =>
    rw [List.length_nil, Nat.zero_add]
    exact few
  | cons octet rest inductionHypothesis =>
    rcases continued_step cap octet count shift value with
      ⟨fault, failed⟩ | ⟨whole, -, done⟩ | ⟨fewer, next, goesOn⟩
    · rw [failed] at undecided
      cases undecided
    · rw [done] at undecided
      cases undecided
    · rw [goesOn] at undecided
      have shorter := inductionHypothesis fewer undecided
      rw [List.length_cons]
      omega

theorem continued_some (few : count < 9)
    (done : continued cap rest count shift value = .ok (some (whole, taken))) :
    whole ≤ cap ∧ 0 < taken ∧ taken ≤ count + 1 + rest.length := by
  induction rest generalizing count shift value with
  | nil => cases done
  | cons octet rest inductionHypothesis =>
    rw [List.length_cons]
    rcases continued_step cap octet count shift value with
      ⟨fault, failed⟩ | ⟨whole, within, ended⟩ | ⟨fewer, next, goesOn⟩
    · rw [failed] at done
      cases done
    · rw [ended] at done
      cases done
      exact ⟨within, Nat.succ_pos _, by omega⟩
    · rw [goesOn] at done
      obtain ⟨within, positive, inside⟩ := inductionHypothesis fewer done
      exact ⟨within, positive, by omega⟩

theorem continued_past (done : continued cap rest count shift value = .ok (some (whole, taken))) :
    count + 2 ≤ taken := by
  induction rest generalizing count shift value with
  | nil => cases done
  | cons octet rest inductionHypothesis =>
    rcases continued_step cap octet count shift value with
      ⟨fault, failed⟩ | ⟨whole, within, ended⟩ | ⟨fewer, next, goesOn⟩
    · rw [failed] at done
      cases done
    · rw [ended] at done
      cases done
      exact Nat.le_refl _
    · rw [goesOn] at done
      exact Nat.le_of_succ_le (inductionHypothesis done)

/-- A verdict does not change with what follows. -/
theorem decode_append (decided : decode input bits cap ≠ .ok none) (more : Bytes) :
    decode (input ++ more) bits cap = decode input bits cap := by
  cases input with
  | nil => exact absurd rfl decided
  | cons first rest =>
    rw [List.cons_append, decode, decode]
    rw [decode] at decided
    by_cases beyond : min cap maxValue < (first &&& bits.mask).toNat
    · rw [if_pos beyond, if_pos beyond]
    rw [if_neg beyond] at decided
    rw [if_neg beyond, if_neg beyond]
    by_cases small : (first &&& bits.mask).toNat < bits.limit
    · rw [if_pos small, if_pos small]
    · rw [if_neg small] at decided
      rw [if_neg small, if_neg small, continued_append (by decide) decided]

/-- No integer is waited for beyond the longest encoding. -/
theorem decode_waits (undecided : decode input bits cap = .ok none) : input.length < maxLen := by
  cases input with
  | nil => decide
  | cons first rest =>
    rw [decode] at undecided
    split at undecided
    · cases undecided
    · split at undecided
      · cases undecided
      · exact Nat.succ_lt_succ (continued_waits (by decide) undecided)

theorem decode_some (done : decode input bits cap = .ok (some (value, taken))) :
    value ≤ cap ∧ value ≤ maxValue ∧ 0 < taken ∧ taken ≤ input.length := by
  cases input with
  | nil => cases done
  | cons first rest =>
    rw [decode] at done
    split at done
    · cases done
    · rename_i within
      split at done
      · cases done
        exact ⟨by omega, by omega, Nat.one_pos, Nat.le_add_left 1 _⟩
      · obtain ⟨within, positive, inside⟩ := continued_some (by decide) done
        rw [List.length_cons]
        exact ⟨by omega, by omega, positive, by omega⟩

theorem continued_take (done : continued cap rest count shift value = .ok (some (whole, taken))) :
    continued cap (rest.take (taken - (count + 1))) count shift value =
      .ok (some (whole, taken)) := by
  induction rest generalizing count shift value with
  | nil => cases done
  | cons octet rest inductionHypothesis =>
    rcases continued_step cap octet count shift value with
      ⟨fault, failed⟩ | ⟨whole, within, ended⟩ | ⟨fewer, next, goesOn⟩
    · rw [failed] at done
      cases done
    · rw [ended] at done
      cases done
      rw [Nat.add_sub_add_left, List.take_succ_cons, ended]
    · rw [goesOn] at done
      have later := inductionHypothesis done
      have past := continued_past done
      rw [show taken - (count + 1) = taken - (count + 1 + 1) + 1 by omega, List.take_succ_cons,
        goesOn, later]

/-- An integer is decided by the octets it takes. -/
theorem decode_take (done : decode input bits cap = .ok (some (value, taken))) :
    decode (input.take taken) bits cap = .ok (some (value, taken)) := by
  cases input with
  | nil => cases done
  | cons first rest =>
    obtain ⟨-, -, positive, -⟩ := decode_some done
    rw [show taken = taken - 1 + 1 by omega, List.take_succ_cons]
    rw [decode] at done ⊢
    split at done
    · cases done
    · rename_i within
      rw [if_neg within]
      split at done
      · rename_i small
        cases done
        rw [if_pos small]
      · rename_i large
        rw [if_neg large, ← show 0 + 1 = 1 from rfl, continued_take done,
          show taken - (0 + 1) + (0 + 1) = taken by omega]

/-! ### What the octets stand for -/

/-- The sum of groups of seven bits, the least significant one first. -/
def groupsSum : Bytes → Nat
  | [] => 0
  | octet :: rest => (octet &&& 0x7F).toNat + 2 ^ 7 * groupsSum rest

/-- The value the octets of an integer add up to. -/
def sumOf (bits : PrefixBits) : Bytes → Nat
  | [] => 0
  | first :: rest => (first &&& bits.mask).toNat + groupsSum rest

theorem and_low7_lt (octet : UInt8) : (octet &&& 0x7F).toNat < 2 ^ 7 := by
  rw [UInt8.toNat_and]
  exact Nat.lt_succ_of_le Nat.and_le_right

theorem and_mask_le (first : UInt8) (bits : PrefixBits) :
    (first &&& bits.mask).toNat ≤ bits.limit := by
  rw [UInt8.toNat_and, bits.toNat_mask]
  exact Nat.and_le_right

theorem groupsSum_lt (octets : Bytes) : groupsSum octets < 2 ^ (7 * octets.length) := by
  induction octets with
  | nil => exact Nat.one_pos
  | cons octet rest inductionHypothesis =>
    have low := and_low7_lt octet
    rw [groupsSum, List.length_cons, Nat.mul_succ, Nat.pow_add, Nat.mul_comm _ (2 ^ 7)]
    omega

/-- A group of seven bits at the shift it is read at loses none of them, and no sum overflows. -/
theorem shifted_lt (octet : UInt8) (few : count < 9) :
    (octet &&& 0x7F).toNat <<< (7 * count) < 2 ^ 63 := by
  have low := and_low7_lt octet
  have place : 2 ^ (7 * count) ≤ 2 ^ 56 := Nat.pow_le_pow_right (by decide) (by omega)
  rw [Nat.shiftLeft_eq]
  calc (octet &&& 0x7F).toNat * 2 ^ (7 * count)
      < 2 ^ 7 * 2 ^ (7 * count) := Nat.mul_lt_mul_of_pos_right low (Nat.two_pow_pos _)
    _ ≤ 2 ^ 7 * 2 ^ 56 := Nat.mul_le_mul_left _ place

/-- What is read adds up, the octets before it included. -/
theorem continued_sum (few : count < 9) (within : value ≤ cap)
    (done : continued cap rest count (7 * count) value = .ok (some (whole, taken))) :
    whole = value + 2 ^ (7 * count) * groupsSum (rest.take (taken - (count + 1))) ∧
      taken ≤ maxLen := by
  induction rest generalizing count value with
  | nil => cases done
  | cons octet rest inductionHypothesis =>
    have small := shifted_lt octet few
    have exact : (octet &&& 0x7F).toNat <<< (7 * count) % 2 ^ 64 =
        2 ^ (7 * count) * (octet &&& 0x7F).toNat := by
      rw [Nat.mod_eq_of_lt (by omega), Nat.shiftLeft_eq, Nat.mul_comm]
    have past := continued_past done
    rw [continued, if_neg (by omega)] at done
    dsimp only at done
    rw [exact] at done
    split at done
    · cases done
    split at done
    · cases done
    rename_i within
    split at done
    · cases done
      rw [Nat.add_sub_add_left, List.take_succ_cons, List.take_zero, groupsSum, groupsSum,
        Nat.mul_zero, Nat.add_zero]
      exact ⟨rfl, by rw [maxLen]; omega⟩
    split at done
    · cases done
    · rename_i fewer
      rw [maxContinuation] at fewer
      rw [← Nat.mul_succ] at done
      have later := continued_past done
      obtain ⟨sum, fits⟩ := inductionHypothesis (by omega) (Nat.le_of_not_lt within) done
      refine ⟨?_, fits⟩
      rw [sum, show taken - (count + 1) = taken - (count + 1 + 1) + 1 by omega,
        List.take_succ_cons, groupsSum, Nat.mul_succ, Nat.pow_add, Nat.mul_add, Nat.mul_assoc,
        Nat.add_assoc]

/-- An integer is what its octets add up to, and takes no fewer of them than its encoding. -/
theorem decode_sum (done : decode input bits cap = .ok (some (value, taken))) :
    value = sumOf bits (input.take taken) ∧ taken ≤ maxLen ∧
      ∃ len ≤ taken, encodedLen value bits = some len := by
  obtain ⟨-, inRange, positive, -⟩ := decode_some done
  have lenOf : ∀ octets : Nat, 0 < octets → value < bits.limit ∨
      value - bits.limit < 2 ^ (7 * octets) ∧ octets + 1 ≤ taken →
      ∃ len ≤ taken, encodedLen value bits = some len := by
    intro octets several bound
    unfold encodedLen
    rw [if_neg (Nat.not_lt.mpr inRange)]
    split
    · exact ⟨1, positive, rfl⟩
    · rename_i large
      obtain ⟨small, enough⟩ := bound.resolve_left large
      refine ⟨_, ?_, rfl⟩
      rw [countGroups_eq _ 1]
      have short := @length_groups_le _ (octets - 1) (by rwa [Nat.sub_add_cancel several])
      omega
  cases input with
  | nil => cases done
  | cons first rest =>
    have low := and_mask_le first bits
    rw [decode] at done
    split at done
    · cases done
    rename_i within
    split at done
    · rename_i small
      cases done
      refine ⟨?_, by decide, lenOf 1 Nat.one_pos (.inl small)⟩
      rw [List.take_succ_cons, List.take_zero, sumOf, groupsSum, Nat.add_zero]
    · rename_i large
      obtain ⟨sum, fits⟩ := continued_sum (by decide) (Nat.le_of_not_lt within) done
      have past := continued_past done
      have bound := groupsSum_lt (rest.take (taken - (0 + 1)))
      rw [Nat.mul_zero, Nat.pow_zero, Nat.one_mul] at sum
      refine ⟨?_, fits, lenOf (taken - 1) (by omega) (.inr ⟨?_, by omega⟩)⟩
      · rw [show taken = taken - 1 + 1 by omega, List.take_succ_cons, sumOf]
        exact sum
      · refine Nat.lt_of_lt_of_le (Nat.lt_of_le_of_lt ?_ bound)
          (Nat.pow_le_pow_right (by decide) (Nat.mul_le_mul_left 7 (List.length_take_le _ _)))
        omega

/-! ### Arithmetic that traps -/

/-- The loop over continuation octets on a machine that stops at the first shift that loses a bit
and at the first sum that does not fit. -/
def continuedTrapping (cap : Nat) :
    Bytes → Nat → Nat → Nat → Option (Except IntegerError (Option (Nat × Nat)))
  | [], _, _, _ => some (.ok none)
  | octet :: rest, count, shift, value =>
    let group := (octet &&& 0x7F).toNat <<< shift
    if 64 ≤ shift ∨ 2 ^ 64 ≤ group ∨ 2 ^ 64 ≤ value + group then none
    else
      let value := value + group
      if cap < value then some (.error .tooLarge)
      else if octet &&& 0x80 = 0 then some (.ok (some (value, count + 2)))
      else if maxContinuation ≤ count + 1 then some (.error .tooLong)
      else continuedTrapping cap rest (count + 1) (shift + 7) value

def decodeTrapping (input : Bytes) (bits : PrefixBits) (cap : Nat) :
    Option (Except IntegerError (Option (Nat × Nat))) :=
  match input with
  | [] => some (.ok none)
  | first :: rest =>
    let cap := min cap maxValue
    let value := (first &&& bits.mask).toNat
    if cap < value then some (.error .tooLarge)
    else if value < bits.limit then some (.ok (some (value, 1)))
    else continuedTrapping cap rest 0 0 value

theorem continuedTrapping_eq (inRange : cap ≤ maxValue) (rest : Bytes) (few : count < 9)
    (within : value ≤ cap) :
    continuedTrapping cap rest count (7 * count) value =
      some (continued cap rest count (7 * count) value) := by
  induction rest generalizing count value with
  | nil => rfl
  | cons octet rest inductionHypothesis =>
    have small := shifted_lt octet few
    rw [maxValue] at inRange
    have exact : (octet &&& 0x7F).toNat <<< (7 * count) % 2 ^ 64 =
        (octet &&& 0x7F).toNat <<< (7 * count) := Nat.mod_eq_of_lt (by omega)
    rw [continuedTrapping, continued]
    dsimp only
    have near : ¬64 ≤ 7 * count := by omega
    have fits : ¬2 ^ 64 ≤ value + (octet &&& 0x7F).toNat <<< (7 * count) := by omega
    have quiet : ¬(64 ≤ 7 * count ∨ 2 ^ 64 ≤ (octet &&& 0x7F).toNat <<< (7 * count) ∨
        2 ^ 64 ≤ value + (octet &&& 0x7F).toNat <<< (7 * count)) := by omega
    rw [exact, if_neg quiet, if_neg near, if_neg fits]
    by_cases beyond : cap < value + (octet &&& 0x7F).toNat <<< (7 * count)
    · rw [if_pos beyond, if_pos beyond]
    rw [if_neg beyond, if_neg beyond]
    by_cases last : octet &&& 0x80 = 0
    · rw [if_pos last, if_pos last]
    rw [if_neg last, if_neg last]
    by_cases long : maxContinuation ≤ count + 1
    · rw [if_pos long, if_pos long]
    rw [if_neg long, if_neg long, ← Nat.mul_succ]
    exact inductionHypothesis (Nat.lt_of_not_le long) (Nat.le_of_not_lt beyond)

/-- No shift of the decoder loses a bit and no sum of it overflows, whatever it reads. -/
theorem decodeTrapping_eq (input : Bytes) (bits : PrefixBits) (cap : Nat) :
    decodeTrapping input bits cap = some (decode input bits cap) := by
  cases input with
  | nil => rfl
  | cons first rest =>
    rw [decodeTrapping, decode]
    split
    · rfl
    · rename_i within
      split
      · rfl
      · exact continuedTrapping_eq (Nat.min_le_right _ _) rest (by decide)
          (Nat.le_of_not_lt within)

/-! ### Integers on the wire -/

theorem encodedLen_wire (inRange : value ≤ maxValue) (bits : PrefixBits) (flags : UInt8) :
    encodedLen value bits = some (wire value bits flags).length := by
  unfold encodedLen wire
  rw [if_neg (Nat.not_lt.mpr inRange)]
  split
  · rfl
  · rw [countGroups_eq _ 1, List.length_cons, Nat.add_comm]

/-- An integer in range is written at the front of a slice with room for it. -/
theorem encode_wire (inRange : value ≤ maxValue) (bits : PrefixBits) (flags : UInt8) {out : Bytes}
    (room : (wire value bits flags).length ≤ out.length) :
    encode value bits flags out =
      some (wire value bits flags ++ out.drop (wire value bits flags).length,
        (wire value bits flags).length) := by
  unfold encode
  rw [encodedLen_wire inRange bits flags]
  dsimp only
  rw [if_pos room]
  unfold wire at room ⊢
  cases out with
  | nil =>
    split at room <;> exact absurd room (Nat.not_succ_le_zero _)
  | cons slot slots =>
    by_cases small : value < bits.limit
    · simp only [if_pos small]
      rfl
    · simp only [if_neg small] at room ⊢
      rw [List.length_cons, List.length_cons] at room
      rw [List.length_cons, List.take_succ_cons]
      dsimp only
      rw [fillGroups_eq _ _ (List.length_take_of_le (Nat.le_of_succ_le_succ room))]

/-- An integer is read back from what is written of it, whatever follows, with the flags around it
kept; what is read is what the octets add up to, within the limits and in no fewer octets than are
written; a verdict does not change with what follows, and one is there after ten octets; and no
arithmetic of the decoder overflows. -/
theorem integers_exact (bits : PrefixBits) (flags : UInt8) (cap : Nat) :
    (∀ value ≤ maxValue, value ≤ cap → ∃ len ≤ maxLen, encodedLen value bits = some len ∧
      ∀ out : Bytes, len ≤ out.length → ∃ written : Bytes,
        encode value bits flags out = some (written ++ out.drop len, len) ∧ written.length = len ∧
        (∃ first rest, written = first :: rest ∧ first &&& ~~~bits.mask = flags &&& ~~~bits.mask) ∧
        ∀ suffix, decode (written ++ suffix) bits cap = .ok (some (value, len))) ∧
    (∀ input value taken, decode input bits cap = .ok (some (value, taken)) →
      taken ≤ min input.length maxLen ∧ value ≤ min cap maxValue ∧
      value = sumOf bits (input.take taken) ∧ ∃ len ≤ taken, encodedLen value bits = some len) ∧
    (∀ input more, decode input bits cap ≠ .ok none →
      decode (input ++ more) bits cap = decode input bits cap) ∧
    (∀ input, decode input bits cap = .ok none → input.length < maxLen) ∧
    ∀ input, decodeTrapping input bits cap = some (decode input bits cap) := by
  refine ⟨fun value inRange within => ?_, fun input value taken done => ?_,
    fun input more decided => decode_append decided more, fun input => decode_waits,
    fun input => decodeTrapping_eq input bits cap⟩
  · refine ⟨_, length_wire_le inRange bits flags, encodedLen_wire inRange bits flags,
      fun out room => ⟨_, encode_wire inRange bits flags room, rfl, ?_,
        decode_wire inRange within bits flags⟩⟩
    obtain ⟨first, rest, same, keeps⟩ := wire_first value bits flags
    exact ⟨first, rest, same, keeps _ (UInt8.and_self ..)⟩
  · obtain ⟨within, inRange, -, inside⟩ := decode_some done
    obtain ⟨sum, fits, shortest⟩ := decode_sum done
    exact ⟨Nat.le_min.mpr ⟨inside, fits⟩, Nat.le_min.mpr ⟨within, inRange⟩, sum, shortest⟩

end Integer

end ZeroServer.Qpack

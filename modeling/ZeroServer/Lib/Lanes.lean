/-
This file develops tests of many bytes at once: the bytes of a word as its lanes, sums that carry
nothing from a lane into the next, masks that flag a lane by its top bit, and the search for the
first flagged lane, chunk by chunk.
-/

import Mathlib.Data.Nat.ModEq

namespace ZeroServer.Lib

variable {width : Nat}

/-- The byte of a word at an index, the lowest first. -/
def lane (word : BitVec width) (index : Nat) : BitVec 8 := word.extractLsb' (8 * index) 8

theorem getLsbD_lane (word : BitVec width) (index : Nat) {place : Nat} (inside : place < 8) :
    (lane word index).getLsbD place = word.getLsbD (8 * index + place) := by
  rw [lane, BitVec.getLsbD_extractLsb', decide_eq_true inside, Bool.true_and]

theorem lane_and (one two : BitVec width) (index : Nat) :
    lane (one &&& two) index = lane one index &&& lane two index := BitVec.extractLsb'_and

theorem lane_xor (one two : BitVec width) (index : Nat) :
    lane (one ^^^ two) index = lane one index ^^^ lane two index := BitVec.extractLsb'_xor

theorem toNat_lane (word : BitVec width) (index : Nat) :
    (lane word index).toNat = word.toNat / 256 ^ index % 256 := by
  rw [lane, BitVec.extractLsb'_toNat, Nat.shiftRight_eq_div_pow, Nat.pow_mul]

/-- A sum of words is the sum of their lanes, where no lane overflows. -/
theorem lane_add {lanes : Nat} {one two : BitVec (8 * lanes)}
    (apart : ∀ index < lanes, (lane one index).toNat + (lane two index).toNat < 256) {index : Nat}
    (inside : index < lanes) : lane (one + two) index = lane one index + lane two index := by
  have low : ∀ count ≤ lanes, one.toNat % 256 ^ count + two.toNat % 256 ^ count < 256 ^ count := by
    intro count within
    induction count with
    | zero => simp only [Nat.pow_zero, Nat.mod_one, Nat.add_zero, Nat.zero_lt_one]
    | succ count inductionHypothesis =>
      have below := inductionHypothesis (Nat.le_of_succ_le within)
      have here := apart count within
      rw [toNat_lane, toNat_lane] at here
      rw [Nat.mod_pow_succ, Nat.mod_pow_succ, Nat.pow_succ]
      generalize one.toNat / 256 ^ count % 256 = high at *
      generalize two.toNat / 256 ^ count % 256 = high' at *
      calc one.toNat % 256 ^ count + 256 ^ count * high +
            (two.toNat % 256 ^ count + 256 ^ count * high')
          = one.toNat % 256 ^ count + two.toNat % 256 ^ count + 256 ^ count * (high + high') := by
            rw [Nat.mul_add]
            omega
        _ < 256 ^ count * 1 + 256 ^ count * (high + high') := by omega
        _ = 256 ^ count * (1 + (high + high')) := (Nat.mul_add _ _ _).symm
        _ ≤ 256 ^ count * 256 := Nat.mul_le_mul_left _ (by omega)
  have whole := low lanes (Nat.le_refl _)
  have size : 256 ^ lanes = 2 ^ (8 * lanes) := (Nat.pow_mul 2 8 lanes).symm
  rw [size, Nat.mod_eq_of_lt one.isLt, Nat.mod_eq_of_lt two.isLt] at whole
  refine BitVec.eq_of_toNat_eq ?_
  rw [toNat_lane, BitVec.toNat_add, Nat.mod_eq_of_lt whole, BitVec.toNat_add, toNat_lane,
    toNat_lane, Nat.add_div_eq_of_add_mod_lt (low index (Nat.le_of_lt inside)), Nat.add_mod]

/-! ### Flags -/

/-- A mask of so many lanes: the top bit of a lane says whether it is flagged, and no other bit is
set. -/
def Flags (stride lanes : Nat) (mask : BitVec width) (flagged : Nat → Bool) : Prop :=
  ∀ place, mask.getLsbD place = (decide (place % stride + 1 = stride ∧ place / stride < lanes) &&
    flagged (place / stride))

variable {stride lanes : Nat} {one two mask : BitVec width} {first second flagged : Nat → Bool}

theorem Flags.or (left : Flags stride lanes one first) (right : Flags stride lanes two second) :
    Flags stride lanes (one ||| two) fun index => first index || second index := fun place => by
  rw [BitVec.getLsbD_or, left place, right place, ← Bool.and_or_distrib_left]

theorem Flags.and_not (left : Flags stride lanes one first) (right : Flags stride lanes two second) :
    Flags stride lanes (one &&& ~~~two) fun index => first index && !second index := fun place => by
  rcases Nat.lt_or_ge place width with inside | outside
  · rw [BitVec.getLsbD_and, BitVec.getLsbD_not, left place, right place, decide_eq_true inside]
    cases decide (place % stride + 1 = stride ∧ place / stride < lanes) <;> rfl
  · have none_ := left place
    rw [BitVec.getLsbD_of_ge _ _ outside] at none_ ⊢
    rw [← Bool.and_assoc, ← none_]
    rfl

theorem Flags.congr (flags : Flags stride lanes mask first)
    (same : ∀ index < lanes, first index = second index) : Flags stride lanes mask second :=
  fun place => by
    rw [flags place]
    by_cases inside : place / stride < lanes
    · rw [same _ inside]
    · rw [decide_eq_false fun holds => inside holds.2]
      rfl

/-- The trailing zeros of a mask lead to the first flagged lane. -/
theorem Flags.first_lane {Item : Type} {chunk : List Item} {test : Item → Bool}
    (positive : 0 < stride)
    (flags : Flags stride chunk.length mask fun index => chunk[index]?.any test) :
    (if mask = 0 then none else some (mask.ctz.toNat / stride)) = chunk.findIdx? test := by
  have top : ∀ index < chunk.length, mask.getLsbD (stride * index + (stride - 1)) =
      chunk[index]?.any test := by
    intro index inside
    have rest : (stride * index + (stride - 1)) % stride + 1 = stride := by
      rw [Nat.mul_add_mod, Nat.mod_eq_of_lt (by omega)]
      omega
    have whole : (stride * index + (stride - 1)) / stride = index := by
      rw [Nat.mul_add_div positive, Nat.div_eq_of_lt (by omega), Nat.add_zero]
    rw [flags, rest, whole, decide_eq_true ⟨rfl, inside⟩, Bool.true_and]
  split
  · next zero =>
    refine (List.findIdx?_eq_none_iff.mpr fun item member => ?_).symm
    obtain ⟨index, inside, rfl⟩ := List.getElem_of_mem member
    have none_ := top index inside
    rw [zero, show (0 : BitVec width).getLsbD _ = false from BitVec.getLsbD_zero, List.getElem?_eq_getElem inside] at none_
    exact none_.symm
  · next some_ =>
    have set_ := BitVec.getLsbD_true_ctz_of_ne_zero some_
    rw [flags, Bool.and_eq_true, decide_eq_true_eq] at set_
    obtain ⟨⟨rest, inside⟩, holds⟩ := set_
    dsimp only at holds
    rw [List.getElem?_eq_getElem inside] at holds
    refine (List.findIdx?_eq_some_iff_getElem.mpr ⟨inside, holds, fun other before => ?_⟩).symm
    have clear := @BitVec.getLsbD_false_of_lt_ctz width (stride * other + (stride - 1)) mask (by
      have := Nat.div_add_mod mask.ctz.toNat stride
      have := Nat.mul_le_mul_left stride before
      rw [Nat.mul_succ] at this
      omega)
    rw [top other (Nat.lt_trans before inside),
      List.getElem?_eq_getElem (Nat.lt_trans before inside)] at clear
    exact Bool.eq_false_iff.mp clear

/-! ### Chunks -/

/-- Search whole chunks for the first place, and then the rest. -/
def searchChunks {Item : Type} (size : Nat) (inChunk inRest : List Item → Option Nat)
    (items : List Item) (offset : Nat) : Option Nat :=
  if 0 < size ∧ size ≤ items.length then
    match inChunk (items.take size) with
    | some found => some (offset + found)
    | none => searchChunks size inChunk inRest (items.drop size) (offset + size)
  else (inRest items).map (offset + ·)
termination_by items.length
decreasing_by
  rw [List.length_drop]
  omega

theorem searchChunks_eq {Item : Type} {size : Nat} {inChunk inRest : List Item → Option Nat}
    {test : Item → Bool}
    (exact_ : ∀ chunk : List Item, chunk.length = size → inChunk chunk = chunk.findIdx? test)
    (rest : ∀ items, inRest items = items.findIdx? test) (items : List Item) (offset : Nat) :
    searchChunks size inChunk inRest items offset = (items.findIdx? test).map (offset + ·) := by
  fun_induction searchChunks size inChunk inRest items offset with
  | case1 items offset more found here =>
    rw [exact_ _ (List.length_take_of_le more.2)] at here
    conv_rhs => rw [← List.take_append_drop size items, List.findIdx?_append, here]
    rfl
  | case2 items offset more none_ inductionHypothesis =>
    have length_ := List.length_take_of_le more.2
    rw [exact_ _ length_] at none_
    conv_rhs => rw [← List.take_append_drop size items, List.findIdx?_append, none_]
    rw [inductionHypothesis, Option.none_or, Option.map_map, length_]
    congr 1
    funext found
    rw [Function.comp_apply, Nat.add_comm found, Nat.add_assoc]
  | case3 items offset short => rw [rest]

/-- Change whole chunks, and then the rest. -/
def changeChunks {Item : Type} (size : Nat) (chunk rest : List Item → List Item)
    (items : List Item) : List Item :=
  if 0 < size ∧ size ≤ items.length then
    chunk (items.take size) ++ changeChunks size chunk rest (items.drop size)
  else rest items
termination_by items.length
decreasing_by
  rw [List.length_drop]
  omega

/-- A change that is made of the changes of the pieces. -/
theorem changeChunks_eq {Item : Type} {size : Nat} {chunk rest whole : List Item → List Item}
    (pieces : ∀ first second : List Item, first.length = size →
      whole (first ++ second) = chunk first ++ whole second)
    (rest_ : ∀ items, rest items = whole items) (items : List Item) :
    changeChunks size chunk rest items = whole items := by
  fun_induction changeChunks size chunk rest items with
  | case1 items more inductionHypothesis =>
    conv_rhs => rw [← List.take_append_drop size items, pieces _ _ (List.length_take_of_le more.2)]
    rw [inductionHypothesis]
  | case2 items short => exact rest_ items

end ZeroServer.Lib

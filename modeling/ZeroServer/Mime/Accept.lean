/-
This file models negotiation: the ranges of an `Accept` value with their weights, and the choice of
one of the available types. On a well-formed value whose quoted strings hold no separator, a type
has the weight of the first of the most specific ranges for it, whatever their parameters are.
-/

import ZeroServer.Lib.Pick
import ZeroServer.Lib.Trim
import ZeroServer.Mime.Grammar

namespace ZeroServer.Mime

open Http1 Lib

def comma : UInt8 := 44
def star : UInt8 := 42
def dot : UInt8 := 46
def letterQ : Bytes := ascii "q"

/-- One media range with its weight in thousandths. -/
structure Range where
  kind : Bytes
  subtype : Bytes
  weight : Nat
  deriving DecidableEq

/-- How specific the range is for a type: 3 for an exact type, 2 for `type/*`, 1 for `*/*`, 0 when
it does not match. -/
def Range.specificity (range : Range) (kind subtype : Bytes) : Nat :=
  if range.kind = [star] then if range.subtype = [star] then 1 else 0
  else if eqIgnoreAsciiCase range.kind kind = false then 0
  else if range.subtype = [star] then 2
  else if eqIgnoreAsciiCase range.subtype subtype then 3
  else 0

def splitEssence (mediaType : Bytes) : Option (Bytes × Bytes) :=
  (mediaType.findIdx? (· == slash)).map fun slashAt =>
    (mediaType.take slashAt, mediaType.drop (slashAt + 1))

def trim (bytes : Bytes) : Bytes := trimBoth isOws bytes

/-- Add the digits of a fraction, from a scale down. -/
def addDigits : Nat → Nat → Bytes → Option Nat
  | thousandths, _, [] => some thousandths
  | thousandths, scale, digit :: rest =>
    if isAsciiDigit digit then
      addDigits (thousandths + (digit.toNat - 48) * scale) (scale / 10) rest
    else none

/-- The digits behind the first one and the dot, when there are at most three. -/
def fractionOf (rest : Bytes) : Option Bytes :=
  match rest with
  | [] => some []
  | mark :: digits => if mark = dot ∧ digits.length ≤ 3 then some digits else none

def qvalue (value : Bytes) : Option Nat :=
  match value with
  | [] => none
  | whole :: rest =>
    (fractionOf rest).bind fun fraction =>
      (if whole = 48 then some 0 else if whole = 49 then some 1000 else none).bind
        fun thousandths =>
          (addDigits thousandths 100 fraction).bind fun thousandths =>
            if 1000 < thousandths then none else some thousandths

/-- What a piece between semicolons says of the weight, when it is a `q` parameter. -/
def pieceWeight (parameter : Bytes) : Option Nat :=
  ((trim parameter).findIdx? (· == equals)).bind fun equalsAt =>
    let name := (trim parameter).take equalsAt
    let value := (trim parameter).drop (equalsAt + 1)
    if eqIgnoreAsciiCase (trim name) letterQ = false then none
    else some ((qvalue (trim value)).getD 1000)

/-- The weight among the parameters; 1000 when it is absent or no `qvalue`. -/
def weight (parameters : Bytes) : Nat :=
  ((parameters.splitOn semicolon).findSome? pieceWeight).getD 1000

/-- The range of a member; one the grammar refuses has none. -/
def rangeOf (member : Bytes) : Option Range :=
  if trim member = [] then none
  else
    let (essence, parameters) :=
      match (trim member).findIdx? (· == semicolon) with
      | some semicolonAt =>
        (trim ((trim member).take semicolonAt), (trim member).drop semicolonAt)
      | none => (trim member, [])
    (splitEssence essence).bind fun (kind, subtype) =>
      if kind = [] ∨ subtype = [] ∨ (kind ++ subtype).any (· == sp) then none
      else some ⟨kind, subtype, weight parameters⟩

def ranges (accept : Bytes) : List Range := (accept.splitOn comma).filterMap rangeOf

/-- The weight a type gets, how specific the range is that set it, and whether one matched. -/
def settle (kind subtype : Bytes) (ranges : List Range) : Nat × Nat × Bool :=
  ranges.foldl (fun (weight, specificity, matched) range =>
    let found := range.specificity kind subtype
    if specificity < found then (range.weight, found, true) else (weight, specificity, matched))
    (0, 0, false)

/-- The best weight so far and its place, after one more available type. -/
def consider (accept : Bytes) (best : Option (Nat × Nat)) (entry : Bytes × Nat) :
    Option (Nat × Nat) :=
  match splitEssence entry.1 with
  | none => best
  | some (kind, subtype) =>
    let (weight, _, matched) := settle kind subtype (ranges accept)
    if matched = false ∨ weight = 0 then best
    else if best.all fun held => held.1 < weight then some (weight, entry.2)
    else best

/-- The place of the available type to send. -/
def negotiate (accept : Option Bytes) (available : List Bytes) : Option Nat :=
  match accept with
  | none => if available = [] then none else some 0
  | some accept => (available.zipIdx.foldl (consider accept) none).map Prod.snd

/-! ### The grammar -/

/-- A weight as its grammar writes it: a fraction behind `0`, or zeros behind `1`. -/
inductive Qvalue where
  | zero (fraction : Option (List (Fin 10))) (short : ∀ digits ∈ fraction, digits.length ≤ 3)
  | one (zeros : Option Nat) (short : ∀ count ∈ zeros, count ≤ 3)

def digitByte (digit : Fin 10) : UInt8 := UInt8.ofNat (48 + digit)

/-- The thousandths of a fraction. -/
def fractionValue : Nat → List (Fin 10) → Nat
  | _, [] => 0
  | scale, digit :: digits => digit * scale + fractionValue (scale / 10) digits

namespace Qvalue

def text : Qvalue → Bytes
  | zero fraction _ => 48 :: (fraction.elim [] fun digits => dot :: digits.map digitByte)
  | one zeros _ => 49 :: (zeros.elim [] fun count => dot :: List.replicate count 48)

def value : Qvalue → Nat
  | zero fraction _ => fraction.elim 0 (fractionValue 100)
  | one _ _ => 1000

end Qvalue

/-- A `q` parameter in either case. -/
structure Quality where
  before : Blank
  after : Blank
  upper : Bool
  value : Qvalue

/-- Parameters that are no weight, whose quoted strings hold no comma and no semicolon. -/
structure Plain (slots : List Slot) : Prop where
  other : ∀ parameter ∈ parametersOf slots, eqIgnoreAsciiCase parameter.1.text letterQ = false
  quoted : ∀ parameter ∈ parametersOf slots, ∀ letters, parameter.2 = .quoted letters →
    ∀ letter ∈ letters, letter.byte ≠ comma ∧ letter.byte ≠ semicolon

/-- A media range with parameters, and a weight among them if there is one. -/
structure Member where
  kind : Token
  subtype : Token
  front : List Slot
  quality : Option Quality
  behind : List Slot
  frontPlain : Plain front
  behindPlain : Plain behind

def Quality.text (quality : Quality) : Bytes :=
  quality.before.text ++ semicolon :: quality.after.text ++
    ((if quality.upper then 81 else 113) :: equals :: quality.value.text)

namespace Member

def text (member : Member) : Bytes :=
  member.kind.text ++ slash :: member.subtype.text ++ member.front.flatMap Slot.text ++
    member.quality.elim [] Quality.text ++ member.behind.flatMap Slot.text

/-- The weight, one where it is absent. -/
def weight (member : Member) : Nat := member.quality.elim 1000 fun quality => quality.value.value

def range (member : Member) : Range := ⟨member.kind.text, member.subtype.text, member.weight⟩

end Member

/-- One element of a value: a member or none, with whitespace around it. -/
structure Element where
  before : Blank
  after : Blank
  member : Option Member

def Element.text (element : Element) : Bytes :=
  element.before.text ++ element.member.elim [] Member.text ++ element.after.text

def acceptText (elements : List Element) : Bytes := [comma].intercalate (elements.map Element.text)

def membersOf (elements : List Element) : List Member := elements.filterMap Element.member

/-! ### The choice -/

variable {kind subtype : Bytes} {accept : Bytes}

/-- The weight is that of the range picked by specificity. -/
theorem settle_eq (kind subtype : Bytes) (ranges : List Range) :
    settle kind subtype ranges =
      match pick (fun range => range.specificity kind subtype) ranges with
      | none => (0, 0, false)
      | some range => (range.weight, range.specificity kind subtype, true) := by
  induction ranges using List.reverseRecOn with
  | nil => rfl
  | append_singleton ranges range inductionHypothesis =>
    have last : settle kind subtype (ranges ++ [range]) =
        if (settle kind subtype ranges).2.1 < range.specificity kind subtype then
          (range.weight, range.specificity kind subtype, true)
        else settle kind subtype ranges := by
      rw [settle, List.foldl_append]
      rfl
    rw [last, inductionHypothesis, pick_concat]
    rcases picked : pick (fun range => range.specificity kind subtype) ranges with - | held
    · simp only [better, Above, picked, Option.elim_none]
      split <;> rfl
    · simp only [better, Above, picked, Option.elim_some]
      split <;> rfl

/-- The weight of an available type; none where no range matches. -/
def typeWeight (ranges : List Range) (mediaType : Bytes) : Nat :=
  match splitEssence mediaType with
  | none => 0
  | some (kind, subtype) =>
    (pick (fun range => range.specificity kind subtype) ranges).elim 0 Range.weight

theorem consider_eq (best : Option (Nat × Nat)) (entry : Bytes × Nat) :
    consider accept best entry =
      if best.elim 0 Prod.fst < typeWeight (ranges accept) entry.1 then
        some (typeWeight (ranges accept) entry.1, entry.2)
      else best := by
  unfold consider typeWeight
  rcases splitEssence entry.1 with - | ⟨kind, subtype⟩
  · exact (if_neg (Nat.not_lt_zero _)).symm
  · have settled := settle_eq kind subtype (ranges accept)
    dsimp only
    rcases picked : pick (fun range => range.specificity kind subtype) (ranges accept)
      with - | range
    · rw [picked] at settled
      simp only [settled, picked, Option.elim_none, true_or, if_true, Nat.not_lt_zero, if_false]
    · rw [picked] at settled
      simp only [settled, picked, Option.elim_some]
      rcases Nat.eq_zero_or_pos range.weight with zero | positive
      · rw [if_pos (.inr zero), zero, if_neg (Nat.not_lt_zero _)]
      · rw [if_neg fun either => either.elim nofun (Nat.ne_of_gt positive)]
        rcases best with - | held
        · rw [Option.elim_none, if_pos positive]
          rfl
        · rcases Nat.lt_or_ge held.1 range.weight with above | below
          · simp only [Option.all_some, decide_eq_true_eq, Option.elim_some, above, if_true]
          · simp only [Option.all_some, decide_eq_true_eq, Option.elim_some,
              Nat.not_lt_of_le below, if_false]

/-- What is chosen is the type picked by weight. -/
theorem negotiate_eq (accept : Bytes) (available : List Bytes) :
    negotiate (some accept) available =
      (pick (fun entry : Bytes × Nat => typeWeight (ranges accept) entry.1)
        available.zipIdx).map Prod.snd := by
  have folded : ∀ entries : List (Bytes × Nat), entries.foldl (consider accept) none =
        (pick (fun entry : Bytes × Nat => typeWeight (ranges accept) entry.1) entries).map
          fun entry => (typeWeight (ranges accept) entry.1, entry.2) := by
    intro entries
    induction entries using List.reverseRecOn with
    | nil => rfl
    | append_singleton entries entry inductionHypothesis =>
      rw [List.foldl_append, List.foldl_cons, List.foldl_nil, inductionHypothesis, consider_eq,
        pick_concat]
      rcases pick (fun entry : Bytes × Nat => typeWeight (ranges accept) entry.1) entries
        with - | held
      · rcases Nat.eq_zero_or_pos (typeWeight (ranges accept) entry.1) with zero | positive
        · simp only [better, Above, Option.elim_none, Option.map_none, zero, Nat.lt_irrefl,
            if_false]
        · simp only [better, Above, Option.elim_none, Option.map_none, positive, if_true,
            Option.map_some]
      · rcases Nat.lt_or_ge (typeWeight (ranges accept) held.1) (typeWeight (ranges accept) entry.1)
          with above | below
        · simp only [better, Above, Option.elim_some, Option.map_some, above, if_true]
        · simp only [better, Above, Option.elim_some, Option.map_some, Nat.not_lt_of_le below,
            if_false]
  rw [negotiate, folded, Option.map_map]
  rfl

/-! ### Weights -/

theorem digit_byte (digit : Fin 10) :
    isAsciiDigit (digitByte digit) = true ∧ (digitByte digit).toNat - 48 = digit ∧
      isTchar (digitByte digit) = true := by
  revert digit
  decide

theorem addDigits_map (digits : List (Fin 10)) (thousandths scale : Nat) :
    addDigits thousandths scale (digits.map digitByte) =
      some (thousandths + fractionValue scale digits) := by
  induction digits generalizing thousandths scale with
  | nil => rfl
  | cons digit digits inductionHypothesis =>
    obtain ⟨isDigit, same, -⟩ := digit_byte digit
    rw [List.map_cons, addDigits, if_pos isDigit, same, inductionHypothesis, fractionValue,
      Nat.add_assoc]

theorem fractionValue_le {digits : List (Fin 10)} (short : digits.length ≤ 3) :
    fractionValue 100 digits ≤ 999 := by
  match digits, short with
  | [], _ => exact Nat.zero_le _
  | [tenths], _ =>
    have := tenths.isLt
    simp only [fractionValue]
    omega
  | [tenths, hundredths], _ =>
    have := tenths.isLt
    have := hundredths.isLt
    simp only [fractionValue]
    omega
  | [tenths, hundredths, thousandths], _ =>
    have := tenths.isLt
    have := hundredths.isLt
    have := thousandths.isLt
    simp only [fractionValue]
    omega

theorem addDigits_zeros (count thousandths scale : Nat) :
    addDigits thousandths scale (List.replicate count 48) = some thousandths := by
  induction count generalizing scale with
  | zero => rfl
  | succ count inductionHypothesis =>
    rw [List.replicate_succ, addDigits, if_pos (by decide), show (48 : UInt8).toNat - 48 = 0 from rfl,
      Nat.zero_mul, Nat.add_zero, inductionHypothesis]

namespace Qvalue

/-- A weight of the grammar is read as what it says. -/
theorem qvalue_text (value : Qvalue) : qvalue value.text = some value.value := by
  rcases value with ⟨- | digits, short⟩ | ⟨- | count, short⟩
  · rfl
  · have few : digits.length ≤ 3 := short digits rfl
    have fraction : fractionOf (dot :: digits.map digitByte) = some (digits.map digitByte) :=
      if_pos ⟨rfl, by rw [List.length_map]; exact few⟩
    have bound := fractionValue_le few
    have read : qvalue (48 :: dot :: digits.map digitByte) =
        if 1000 < 0 + fractionValue 100 digits then none
        else some (0 + fractionValue 100 digits) := by
      rw [qvalue, fraction]
      exact congrArg (Option.bind · _) (addDigits_map digits 0 100)
    rw [text, Option.elim_some, read, Nat.zero_add, if_neg (by omega)]
    rfl
  · rfl
  · have few : count ≤ 3 := short count rfl
    have fraction : fractionOf (dot :: List.replicate count 48) = some (List.replicate count 48) :=
      if_pos ⟨rfl, by rw [List.length_replicate]; exact few⟩
    have read : qvalue (49 :: dot :: List.replicate count 48) = some 1000 := by
      rw [qvalue, fraction]
      exact congrArg (Option.bind · _) (addDigits_zeros count 1000 100)
    exact read

theorem text_word (value : Qvalue) : ∀ byte ∈ value.text, isTchar byte = true := by
  have dotWord : isTchar dot = true := by decide
  rcases value with ⟨- | digits, short⟩ | ⟨- | count, short⟩
  · exact List.forall_mem_singleton.mpr (by decide)
  · refine List.forall_mem_cons.mpr ⟨by decide, List.forall_mem_cons.mpr ⟨dotWord, ?_⟩⟩
    intro byte member
    obtain ⟨digit, -, rfl⟩ := List.mem_map.mp member
    exact (digit_byte digit).2.2
  · exact List.forall_mem_singleton.mpr (by decide)
  · refine List.forall_mem_cons.mpr ⟨by decide, List.forall_mem_cons.mpr ⟨dotWord, ?_⟩⟩
    intro byte member
    rw [(List.mem_replicate.mp member).2]
    decide

def token (value : Qvalue) : Token :=
  ⟨value.text, by rcases value with ⟨_, _⟩ | ⟨_, _⟩ <;> exact List.cons_ne_nil _ _,
    value.text_word⟩

end Qvalue

namespace Quality

def token (quality : Quality) : Token :=
  ⟨[if quality.upper then 81 else 113], List.cons_ne_nil _ _, by
    rcases quality.upper with - | - <;> exact List.forall_mem_singleton.mpr (by decide)⟩

/-- A weight as a parameter. -/
def slot (quality : Quality) : Slot :=
  ⟨quality.before, quality.after, some (quality.token, .token quality.value.token)⟩

theorem slot_text (quality : Quality) : quality.slot.text = quality.text := rfl

theorem token_isQ (quality : Quality) : eqIgnoreAsciiCase quality.token.text letterQ = true := by
  have both : ∀ upper : Bool,
      eqIgnoreAsciiCase [if upper then 81 else 113] letterQ = true := by decide
  exact both quality.upper

end Quality

namespace Member

def slots (member : Member) : List Slot :=
  member.front ++ member.quality.toList.map Quality.slot ++ member.behind

def essence (member : Member) : Bytes := member.kind.text ++ slash :: member.subtype.text

theorem text_eq (member : Member) :
    member.text = member.essence ++ member.slots.flatMap Slot.text := by
  unfold text essence slots
  rcases member.quality with - | quality
  · simp only [Option.elim_none, Option.toList_none, List.map_nil, List.append_nil,
      List.flatMap_append, List.append_assoc]
  · simp only [Option.elim_some, Option.toList_some, List.map_cons, List.map_nil,
      List.flatMap_append, List.flatMap_singleton, List.append_assoc, Quality.slot_text]

end Member

end ZeroServer.Mime

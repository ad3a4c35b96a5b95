/-
This file models the byte ranges a `Range` field asks for: the grammar of its members, clipping to
the length of the representation, and coalescing with the range before. The ranges that are
resolved select the offsets that the members select.
-/

import ZeroServer.Http1.Framing
import ZeroServer.Lib.Intervals
import ZeroServer.Static.Entry

namespace ZeroServer.Static

open Http1 Lib

/-! ### The field -/

/-- How many ranges one request may name. -/
def maxRanges : Nat := 16

def u64Max : Nat := 2 ^ 64 - 1

/-- What a `Range` field asks for, against a representation of a known length. -/
inductive Ranges where
  | ignore
  | unsatisfiable
  | refused
  | satisfiable (ranges : List (Nat × Nat))
  deriving DecidableEq

/-- One `range-spec` of the `bytes` unit. -/
inductive Spec where
  | int (first : Nat) (last : Option Nat)
  | suffix (count : Nat)
  deriving DecidableEq

def equals : UInt8 := 61
def comma : UInt8 := 44

/-- The rest of a numeral, each step checked. -/
def digitsFrom : Nat → Bytes → Option Nat
  | value, [] => some value
  | value, byte :: rest =>
    if value * 10 ≤ u64Max ∧ value * 10 + (byte.toNat - 48) ≤ u64Max then
      digitsFrom (value * 10 + (byte.toNat - 48)) rest
    else none

def digits (bytes : Bytes) : Option Nat :=
  if bytes = [] ∨ bytes.all isAsciiDigit = false then none else digitsFrom 0 bytes

/-- The bytes before and after the first separator. -/
def splitAtByte (bytes : Bytes) (separator : UInt8) : Option (Bytes × Bytes) :=
  (bytes.findIdx? (· == separator)).map fun place => (bytes.take place, bytes.drop (place + 1))

/-- One `range-spec`; an invalid one is none. -/
def spec (member : Bytes) : Option Spec :=
  match splitAtByte member hyphen with
  | none => none
  | some (first, last) =>
    if first = [] then (digits last).map Spec.suffix
    else
      match digits first with
      | none => none
      | some first =>
        if last = [] then some (.int first none)
        else
          match digits last with
          | none => none
          | some last => if last < first then none else some (.int first (some last))

/-- The members of a set, those that are empty left out. -/
def readSpecs : List Bytes → Option (List Spec)
  | [] => some []
  | member :: rest =>
    if trimOws member = [] then readSpecs rest
    else
      match spec (trimOws member) with
      | none => none
      | some spec => (readSpecs rest).map (spec :: ·)

/-! ### Resolving -/

/-- The offsets one member selects of a representation that is not empty. -/
def resolveSpec (length : Nat) : Spec → Option (Nat × Nat)
  | .int first last =>
    if length ≤ first then none
    else some (first, last.elim (length - 1) fun last => min last (length - 1))
  | .suffix count => if count = 0 then none else some (length - count, length - 1)

/-- Addition that stops at the largest number. -/
def saturatingAdd (first second : Nat) : Nat := min (first + second) u64Max

section Resolving

variable (add : Nat → Nat → Nat)

/-- A range is coalesced with the one before it, put behind it, or refused. -/
def mergeRange (ranges : List (Nat × Nat)) (resolved : Nat × Nat) : Option (List (Nat × Nat)) :=
  match ranges.getLast? with
  | none => some (ranges ++ [resolved])
  | some previous =>
    if resolved.1 ≤ add previous.2 1 then
      if resolved.1 < previous.1 then none
      else some (ranges.dropLast ++ [(previous.1, max previous.2 resolved.2)])
    else if resolved.1 < previous.1 then none
    else some (ranges ++ [resolved])

/-- The loop over the members. -/
def mergeSpecs (length : Nat) : List Spec → List (Nat × Nat) → Option (List (Nat × Nat))
  | [], ranges => some ranges
  | spec :: rest, ranges =>
    match resolveSpec length spec with
    | none => mergeSpecs length rest ranges
    | some resolved =>
      match mergeRange add ranges resolved with
      | none => none
      | some ranges => mergeSpecs length rest ranges

/-- Resolve a `Range` field, counting with some addition. -/
def resolveWith (value : Bytes) (length : UInt64) : Ranges :=
  match splitAtByte (trimOws value) equals with
  | none => .ignore
  | some (unit, set) =>
    if !eqIgnoreAsciiCase (trimOws unit) (ascii "bytes") then .ignore
    else
      match readSpecs (set.splitOn comma) with
      | none => .ignore
      | some specs =>
        if specs = [] then .ignore
        else if maxRanges < specs.length then .refused
        else if length = 0 then .ignore
        else
          match mergeSpecs add length.toNat specs [] with
          | none => .refused
          | some ranges => if ranges = [] then .unsatisfiable else .satisfiable ranges

end Resolving

/-- Resolve a `Range` field against a representation of some length. -/
def resolveRange (value : Bytes) (length : UInt64) : Ranges := resolveWith saturatingAdd value length

/-! ### What a field selects -/

/-- A string of digits and the number it stands for. -/
def IsNumeral (text : Bytes) (number : Nat) : Prop :=
  text ≠ [] ∧ text.all isAsciiDigit = true ∧ decimalValue text = number

/-- The grammar of a member: positions or a suffix length, the last position not before the first. -/
inductive Spells : Bytes → Spec → Prop
  | onwards {text : Bytes} {first : Nat} (numeral : IsNumeral text first) :
    Spells (text ++ [hyphen]) (.int first none)
  | between {text text' : Bytes} {first last : Nat} (numeral : IsNumeral text first)
    (numeral' : IsNumeral text' last) (ordered : first ≤ last) :
    Spells (text ++ [hyphen] ++ text') (.int first (some last))
  | suffix {text : Bytes} {count : Nat} (numeral : IsNumeral text count) :
    Spells ([hyphen] ++ text) (.suffix count)

/-- A valid field of the `bytes` unit and its members. -/
structure IsField (value : Bytes) (specs : List Spec) : Prop where
  set : ∃ unit set, trimOws value = unit ++ [equals] ++ set ∧ equals ∉ unit ∧
    eqIgnoreAsciiCase (trimOws unit) (ascii "bytes") = true ∧
    List.Forall₂ Spells (listElements set) specs

/-- The offsets of a representation that a member selects. A last position is clipped to the
length, and a suffix longer than the representation is all of it. -/
def Spec.Selects (length : Nat) : Spec → Nat → Prop
  | .int first last, offset => first ≤ offset ∧ offset < length ∧ ∀ bound ∈ last, offset ≤ bound
  | .suffix count, offset => offset < length ∧ length ≤ offset + count

/-! ### Members are read by their grammar -/

variable {member : Bytes} {read : Spec} {members : List Bytes}

variable {bytes : Bytes} {specs : List Spec}

theorem digitsFrom_eq_some {start value : Nat} (small : start ≤ u64Max) :
    digitsFrom start bytes = some value ↔
      numeral 10 start (bytes.map fun digit => digit.toNat - 48) = value ∧ value ≤ u64Max := by
  induction bytes generalizing start with
  | nil =>
    show some start = some value ↔ start = value ∧ value ≤ u64Max
    rw [Option.some.injEq]
    exact ⟨fun same => ⟨same, same ▸ small⟩, And.left⟩
  | cons byte rest inductionHypothesis =>
    rw [List.map_cons, numeral_cons, digitsFrom]
    by_cases fits : start * 10 + (byte.toNat - 48) ≤ u64Max
    · rw [if_pos ⟨Nat.le_trans (Nat.le_add_right _ _) fits, fits⟩]
      exact inductionHypothesis fits
    · rw [if_neg fun both => fits both.2]
      refine ⟨fun none_ => (nomatch none_), fun ⟨same, bounded⟩ => absurd ?_ fits⟩
      exact (le_numeral (by decide) _ _).trans (same.trans_le bounded)

/-- A numeral is read exactly if it is one and fits. -/
theorem digits_eq_some {value : Nat} :
    digits bytes = some value ↔ IsNumeral bytes value ∧ value ≤ u64Max := by
  unfold digits IsNumeral
  by_cases empty : bytes = []
  · rw [if_pos (.inl empty)]
    exact ⟨fun none_ => (nomatch none_), fun ⟨⟨some_, _⟩, _⟩ => absurd empty some_⟩
  · cases every : bytes.all isAsciiDigit with
    | false =>
      rw [if_pos (.inr rfl)]
      exact ⟨fun none_ => (nomatch none_), fun ⟨⟨_, all, _⟩, _⟩ => (nomatch all)⟩
    | true =>
      rw [if_neg (not_or.mpr ⟨empty, Bool.noConfusion⟩), digitsFrom_eq_some (Nat.zero_le _)]
      exact ⟨fun ⟨same, bounded⟩ => ⟨⟨empty, rfl, same⟩, bounded⟩,
        fun ⟨⟨_, _, same⟩, bounded⟩ => ⟨same, bounded⟩⟩

theorem splitAtByte_eq_some {front behind : Bytes} {separator : UInt8} :
    splitAtByte bytes separator = some (front, behind) ↔
      bytes = front ++ [separator] ++ behind ∧ separator ∉ front := by
  unfold splitAtByte
  constructor
  · intro split
    obtain ⟨place, found, same⟩ := Option.map_eq_some_iff.mp split
    obtain ⟨inside, here, earlier⟩ := List.findIdx?_eq_some_iff_getElem.mp found
    cases same
    refine ⟨?_, fun member => ?_⟩
    · rw [← beq_iff_eq.mp here, List.append_assoc, List.singleton_append,
        List.getElem_cons_drop, List.take_append_drop]
    · obtain ⟨index, bound, same⟩ := List.getElem_of_mem member
      rw [List.length_take] at bound
      rw [List.getElem_take] at same
      exact earlier index (by omega) (beq_iff_eq.mpr same)
  · rintro ⟨rfl, fresh⟩
    have found : (front ++ separator :: behind).findIdx? (· == separator) = some front.length := by
      refine List.findIdx?_eq_some_iff_getElem.mpr ⟨by simp, by simp, fun index earlier => ?_⟩
      rw [List.getElem_append_left earlier, beq_iff_eq]
      exact fun same => fresh (same ▸ List.getElem_mem earlier)
    rw [List.append_assoc, List.singleton_append, found]
    simp

theorem IsNumeral.plain {text : Bytes} {number : Nat} (numeral : IsNumeral text number) :
    hyphen ∉ text := by
  intro member
  cases List.all_eq_true.mp numeral.2.1 hyphen member

/-- The numbers of a member fit. -/
def Spec.Fits : Spec → Prop
  | .int first last => first ≤ u64Max ∧ ∀ bound ∈ last, bound ≤ u64Max
  | .suffix count => count ≤ u64Max

theorem spec_eq_some : spec member = some read ↔ Spells member read ∧ read.Fits := by
  constructor
  · intro known
    unfold spec at known
    split at known
    · cases known
    rename_i front behind split_
    obtain ⟨rfl, -⟩ := splitAtByte_eq_some.mp split_
    split at known
    · rename_i empty
      obtain ⟨count, counted, rfl⟩ := Option.map_eq_some_iff.mp known
      obtain ⟨numeral, bounded⟩ := digits_eq_some.mp counted
      rw [empty]
      exact ⟨.suffix numeral, bounded⟩
    split at known
    · cases known
    rename_i first firstRead
    obtain ⟨numeral, bounded⟩ := digits_eq_some.mp firstRead
    split at known
    · rename_i empty
      cases known
      rw [empty, List.append_nil]
      refine ⟨.onwards numeral, bounded, fun bound held => ?_⟩
      cases held
    split at known
    · cases known
    rename_i last lastRead
    obtain ⟨numeral', bounded'⟩ := digits_eq_some.mp lastRead
    split at known
    · cases known
    rename_i ordered
    cases known
    refine ⟨.between numeral numeral' (Nat.le_of_not_lt ordered), bounded, fun bound held => ?_⟩
    cases held
    exact bounded'
  · rintro ⟨spells, fits⟩
    unfold spec
    cases spells with
    | onwards numeral =>
      rw [splitAtByte_eq_some.mpr ⟨(List.append_nil _).symm, numeral.plain⟩]
      dsimp only
      rw [if_neg numeral.1, digits_eq_some.mpr ⟨numeral, fits.1⟩]
      rfl
    | between numeral numeral' ordered =>
      rw [splitAtByte_eq_some.mpr ⟨rfl, numeral.plain⟩]
      dsimp only
      rw [if_neg numeral.1, digits_eq_some.mpr ⟨numeral, fits.1⟩]
      dsimp only
      rw [if_neg numeral'.1, digits_eq_some.mpr ⟨numeral', fits.2 _ rfl⟩]
      dsimp only
      rw [if_neg (Nat.not_lt_of_le ordered)]
    | @suffix text count numeral =>
      have cut : splitAtByte ([hyphen] ++ text) hyphen = some ([], text) :=
        splitAtByte_eq_some.mpr ⟨rfl, List.not_mem_nil⟩
      rw [cut]
      dsimp only
      rw [if_pos rfl, digits_eq_some.mpr ⟨numeral, fits⟩]
      rfl

theorem readSpecs_eq_some :
    readSpecs members = some specs ↔
      List.Forall₂ (fun member read => Spells member read ∧ read.Fits)
        ((members.map trimOws).filter fun element => !element.isEmpty) specs := by
  induction members generalizing specs with
  | nil =>
    show some [] = some specs ↔ List.Forall₂ _ [] specs
    rw [Option.some.injEq, List.forall₂_nil_left_iff]
    exact eq_comm
  | cons member rest inductionHypothesis =>
    rw [List.map_cons, readSpecs]
    by_cases empty : trimOws member = []
    · have filled : (!(trimOws member).isEmpty) ≠ true := by
        rw [empty]
        decide
      rw [if_pos empty, List.filter_cons, if_neg filled]
      exact inductionHypothesis
    · have filled : (!(trimOws member).isEmpty) = true := by
        rw [Bool.not_eq_true', List.isEmpty_eq_false_iff]
        exact empty
      rw [if_neg empty, List.filter_cons, if_pos filled, List.forall₂_cons_left_iff]
      constructor
      · intro known
        split at known
        · cases known
        rename_i read here
        obtain ⟨others, later, rfl⟩ := Option.map_eq_some_iff.mp known
        exact ⟨read, others, spec_eq_some.mp here, inductionHypothesis.mp later, rfl⟩
      · rintro ⟨read, others, here, later, rfl⟩
        rw [spec_eq_some.mpr here, inductionHypothesis.mpr later]
        rfl

/-! ### A field has one reading -/

variable {value : Bytes}

/-- What stands around the first hyphen of a member tells what it is. -/
theorem Spells.cut (spells : Spells member read) :
    ∃ front behind, splitAtByte member hyphen = some (front, behind) ∧
      (front = [] ∧ (∃ count, IsNumeral behind count ∧ read = .suffix count) ∨
        front ≠ [] ∧ behind = [] ∧ (∃ first, IsNumeral front first ∧ read = .int first none) ∨
        front ≠ [] ∧ behind ≠ [] ∧ ∃ first last, IsNumeral front first ∧ IsNumeral behind last ∧
          read = .int first (some last)) := by
  cases spells with
  | onwards numeral =>
    exact ⟨_, [], splitAtByte_eq_some.mpr ⟨(List.append_nil _).symm, numeral.plain⟩,
      .inr (.inl ⟨numeral.1, rfl, _, numeral, rfl⟩)⟩
  | between numeral numeral' ordered =>
    exact ⟨_, _, splitAtByte_eq_some.mpr ⟨rfl, numeral.plain⟩,
      .inr (.inr ⟨numeral.1, numeral'.1, _, _, numeral, numeral', rfl⟩)⟩
  | suffix numeral =>
    exact ⟨[], _, splitAtByte_eq_some.mpr ⟨rfl, List.not_mem_nil⟩, .inl ⟨rfl, _, numeral, rfl⟩⟩

theorem IsNumeral.unique {text : Bytes} {first second : Nat} (numeral : IsNumeral text first)
    (numeral' : IsNumeral text second) : first = second := numeral.2.2.symm.trans numeral'.2.2

theorem Spells.unique {first second : Spec} (spells : Spells member first)
    (spells' : Spells member second) : first = second := by
  obtain ⟨front, behind, split_, shape⟩ := spells.cut
  obtain ⟨front', behind', split', shape'⟩ := spells'.cut
  rw [split_] at split'
  cases split'
  rcases shape with ⟨empty, count, numeral, rfl⟩ | ⟨some_, none_, position, numeral, rfl⟩ |
    ⟨some_, more, position, last, numeral, numeralLast, rfl⟩
  · rcases shape' with ⟨-, count', numeral', rfl⟩ | ⟨some', -⟩ | ⟨some', -⟩
    · rw [numeral.unique numeral']
    · exact absurd empty some'
    · exact absurd empty some'
  · rcases shape' with ⟨empty', -⟩ | ⟨-, -, position', numeral', rfl⟩ | ⟨-, more', -⟩
    · exact absurd empty' some_
    · rw [numeral.unique numeral']
    · exact absurd none_ more'
  · rcases shape' with ⟨empty', -⟩ | ⟨-, none', -⟩ |
      ⟨-, -, position', last', numeral', numeralLast', rfl⟩
    · exact absurd empty' some_
    · exact absurd none' more
    · rw [numeral.unique numeral', numeralLast.unique numeralLast']

theorem forall₂_unique {first second : List Spec} (all : List.Forall₂ Spells members first)
    (all' : List.Forall₂ Spells members second) : first = second := by
  induction all generalizing second with
  | nil => exact (List.forall₂_nil_left_iff.mp all').symm
  | cons here _ inductionHypothesis =>
    obtain ⟨read, others, here', later, rfl⟩ := List.forall₂_cons_left_iff.mp all'
    rw [here.unique here', inductionHypothesis later]

theorem IsField.unique {first second : List Spec} (field : IsField value first)
    (field' : IsField value second) : first = second := by
  obtain ⟨unit, set, whole, plain, -, all⟩ := field.set
  obtain ⟨unit', set', whole', plain', -, all'⟩ := field'.set
  have cut := splitAtByte_eq_some.mpr ⟨whole, plain⟩
  rw [splitAtByte_eq_some.mpr ⟨whole', plain'⟩] at cut
  cases cut
  exact forall₂_unique all all'

/-! ### Ranges are resolved soundly -/

variable {length : UInt64} {resolved : Nat × Nat} {add : Nat → Nat → Nat}
  {ranges : List (Nat × Nat)}

/-- The last position of a member is not before its first. -/
def Spec.Ordered : Spec → Prop
  | .int first (some last) => first ≤ last
  | _ => True

theorem Spells.ordered (spells : Spells member read) : read.Ordered := by
  cases spells with
  | onwards | suffix => trivial
  | between _ _ ordered => exact ordered

theorem resolveSpec_some {length : Nat} (positive : 0 < length) (ordered : read.Ordered)
    (known : resolveSpec length read = some resolved) :
    (resolved.1 ≤ resolved.2 ∧ resolved.2 < length) ∧
      ∀ offset, read.Selects length offset ↔ resolved.1 ≤ offset ∧ offset ≤ resolved.2 := by
  cases read with
  | int first last =>
    rw [resolveSpec] at known
    split at known
    · cases known
    cases last with
    | none =>
      cases known
      refine ⟨by dsimp only [Option.elim]; omega, fun offset => ?_⟩
      show first ≤ offset ∧ offset < length ∧ (∀ bound ∈ none, offset ≤ bound) ↔ _
      simp only [Option.not_mem_none, false_implies, implies_true, and_true, Option.elim]
      omega
    | some last =>
      cases known
      have inOrder : first ≤ last := ordered
      refine ⟨by dsimp only [Option.elim]; omega, fun offset => ?_⟩
      show first ≤ offset ∧ offset < length ∧ (∀ bound ∈ some last, offset ≤ bound) ↔ _
      simp only [Option.mem_some_iff, forall_eq', Option.elim]
      omega
  | suffix count =>
    rw [resolveSpec] at known
    split at known
    · cases known
    cases known
    refine ⟨by dsimp only; omega, fun offset => ?_⟩
    show offset < length ∧ length ≤ offset + count ↔ _
    dsimp only
    omega

theorem resolveSpec_none {length : Nat} (known : resolveSpec length read = none) (offset : Nat) :
    ¬ read.Selects length offset := by
  cases read with
  | int first last =>
    rw [resolveSpec] at known
    split at known
    · rename_i late
      rintro ⟨above, below, -⟩
      omega
    · cases known
  | suffix count =>
    rw [resolveSpec] at known
    split at known
    · rename_i zero
      rintro ⟨below, reach⟩
      omega
    · cases known

/-- Below the bound the addition does not stop. -/
theorem mergeRange_exact {bound : Nat} (exactAdd : ∀ number < bound, add number 1 = number + 1)
    (separated : Separated bound ranges) (resolved : Nat × Nat) :
    mergeRange add ranges resolved = mergeRange (· + ·) ranges resolved := by
  unfold mergeRange
  cases ended : ranges.getLast? with
  | none => rfl
  | some previous =>
    dsimp only
    rw [exactAdd _ (separated.proper previous (List.mem_of_getLast? ended)).2]

/-- One range more: the ranges stay apart and cover it as well. -/
theorem mergeRange_some {bound : Nat} {next : List (Nat × Nat)} (separated : Separated bound ranges)
    (fits : resolved.1 ≤ resolved.2 ∧ resolved.2 < bound)
    (merged : mergeRange (· + ·) ranges resolved = some next) :
    Separated bound next ∧
      (∀ offset, Covers next offset ↔
        Covers ranges offset ∨ resolved.1 ≤ offset ∧ offset ≤ resolved.2) ∧
      next.length ≤ ranges.length + 1 := by
  unfold mergeRange at merged
  rcases List.eq_nil_or_concat ranges with rfl | ⟨front, previous, rfl⟩
  · cases merged
    have pushed := fun offset => @Separated.push bound offset [] resolved separated fits nofun
    exact ⟨(pushed 0).1, fun offset => (pushed offset).2, Nat.le_refl _⟩
  rw [List.concat_eq_append] at separated merged ⊢
  rw [List.getLast?_concat] at merged
  dsimp only at merged
  split at merged
  · rename_i touches
    split at merged
    · cases merged
    rename_i onwards
    cases merged
    have grown := fun offset =>
      @Separated.grow bound offset front previous resolved separated fits touches
        (Nat.le_of_not_lt onwards)
    rw [List.dropLast_concat]
    refine ⟨(grown 0).1, fun offset => (grown offset).2, ?_⟩
    rw [List.length_append, List.length_append]
    exact Nat.le_succ _
  · rename_i gap
    split at merged
    · cases merged
    cases merged
    have behind : ∀ last ∈ (front ++ [previous]).getLast?, last.2 + 1 < resolved.1 := by
      intro last ended
      rw [List.getLast?_concat] at ended
      cases ended
      exact Nat.lt_of_not_le gap
    have pushed := fun offset => @Separated.push bound offset _ resolved separated fits behind
    refine ⟨(pushed 0).1, fun offset => (pushed offset).2, ?_⟩
    simp only [List.length_append, List.length_singleton, Nat.le_refl]

/-- The loop counts exactly, and what it covers is what the members select. -/
theorem mergeSpecs_some {length : Nat} (positive : 0 < length)
    (exactAdd : ∀ number < length, add number 1 = number + 1)
    (ordered : ∀ read ∈ specs, read.Ordered) (separated : Separated length ranges) :
    mergeSpecs add length specs ranges = mergeSpecs (· + ·) length specs ranges ∧
      ∀ next, mergeSpecs (· + ·) length specs ranges = some next →
        Separated length next ∧
          (∀ offset, Covers next offset ↔
            Covers ranges offset ∨ ∃ read ∈ specs, read.Selects length offset) ∧
          next.length ≤ ranges.length + specs.length := by
  induction specs generalizing ranges with
  | nil =>
    refine ⟨rfl, fun next merged => ?_⟩
    cases merged
    exact ⟨separated, fun offset => (or_iff_left (fun ⟨_, none_, _⟩ => nomatch none_)).symm,
      Nat.le_refl _⟩
  | cons read rest inductionHypothesis =>
    have others : ∀ read ∈ rest, read.Ordered := fun read member =>
      ordered read (List.mem_cons_of_mem _ member)
    have either : ∀ offset, (∃ other ∈ read :: rest, other.Selects length offset) ↔
        read.Selects length offset ∨ ∃ other ∈ rest, other.Selects length offset := by
      intro offset
      simp only [List.mem_cons, exists_eq_or_imp]
    unfold mergeSpecs
    cases known : resolveSpec length read with
    | none =>
      dsimp only
      obtain ⟨same, sound⟩ := inductionHypothesis others separated
      refine ⟨same, fun next merged => ?_⟩
      obtain ⟨apart, covered, short⟩ := sound next merged
      refine ⟨apart, fun offset => ?_, short.trans (Nat.le_succ _)⟩
      rw [covered, either, or_iff_right (resolveSpec_none known offset)]
    | some resolved =>
      obtain ⟨fits, selects⟩ := resolveSpec_some positive (ordered read List.mem_cons_self) known
      dsimp only
      rw [mergeRange_exact exactAdd separated]
      cases merged : mergeRange (· + ·) ranges resolved with
      | none => exact ⟨rfl, nofun⟩
      | some longer =>
        obtain ⟨apart, covered, short⟩ := mergeRange_some separated fits merged
        obtain ⟨same, sound⟩ := inductionHypothesis others apart
        refine ⟨same, fun next merged => ?_⟩
        obtain ⟨apart', covered', short'⟩ := sound next merged
        refine ⟨apart', fun offset => ?_, ?_⟩
        · rw [covered', covered, either, selects, or_assoc]
        · rw [List.length_cons]
          omega

/-- A field is resolved by its members. -/
theorem resolveWith_cases (add : Nat → Nat → Nat) (value : Bytes) (length : UInt64) :
    resolveWith add value length = .ignore ∨ resolveWith add value length = .refused ∨
      ∃ specs, IsField value specs ∧ specs.length ≤ maxRanges ∧ length ≠ 0 ∧
        resolveWith add value length =
          match mergeSpecs add length.toNat specs [] with
          | none => .refused
          | some ranges => if ranges = [] then .unsatisfiable else .satisfiable ranges := by
  unfold resolveWith
  cases cut : splitAtByte (trimOws value) equals with
  | none => exact .inl rfl
  | some parts =>
    obtain ⟨unit, set⟩ := parts
    obtain ⟨whole, plain⟩ := splitAtByte_eq_some.mp cut
    dsimp only
    split
    · exact .inl rfl
    rename_i named
    rw [Bool.not_eq_true', Bool.not_eq_false] at named
    cases known : readSpecs (set.splitOn comma) with
    | none => exact .inl rfl
    | some specs =>
      dsimp only
      split
      · exact .inl rfl
      split
      · exact .inr (.inl rfl)
      rename_i few
      split
      · exact .inl rfl
      rename_i some_
      refine .inr (.inr ⟨specs, ⟨unit, set, whole, plain, named, ?_⟩, Nat.le_of_not_lt few, some_,
        rfl⟩)
      exact (readSpecs_eq_some.mp known).imp fun _ _ both => both.1

theorem ordered_of_spells (all : List.Forall₂ Spells members specs) :
    ∀ read ∈ specs, read.Ordered := by
  induction all with
  | nil => exact nofun
  | cons spells _ inductionHypothesis =>
    exact List.forall_mem_cons.mpr ⟨spells.ordered, inductionHypothesis⟩

theorem saturatingAdd_exact : ∀ number < length.toNat, saturatingAdd number 1 = number + 1 := by
  intro number below
  have bounded := length.toNat_lt
  unfold saturatingAdd u64Max
  omega

theorem toNat_pos (some_ : length ≠ 0) : 0 < length.toNat :=
  Nat.pos_of_ne_zero fun zero => some_ (UInt64.toNat.inj zero)

/-- No addition of the loop stops at the largest number. -/
theorem resolveRange_exact (value : Bytes) (length : UInt64) :
    resolveRange value length = resolveWith (· + ·) value length := by
  have inner : ∀ specs : List Spec, IsField value specs → length ≠ 0 →
      mergeSpecs saturatingAdd length.toNat specs [] = mergeSpecs (· + ·) length.toNat specs [] :=
    fun specs ⟨⟨_, _, _, _, _, all⟩⟩ some_ =>
      (mergeSpecs_some (toNat_pos some_) saturatingAdd_exact (ordered_of_spells all)
        separated_nil).1
  unfold resolveRange resolveWith
  cases cut : splitAtByte (trimOws value) equals with
  | none => rfl
  | some parts =>
    obtain ⟨unit, set⟩ := parts
    obtain ⟨whole, plain⟩ := splitAtByte_eq_some.mp cut
    dsimp only
    cases named : eqIgnoreAsciiCase (trimOws unit) (ascii "bytes") with
    | false => rfl
    | true =>
      cases known : readSpecs (set.splitOn comma) with
      | none => rfl
      | some specs =>
        have field : IsField value specs :=
          ⟨unit, set, whole, plain, named, (readSpecs_eq_some.mp known).imp fun _ _ both => both.1⟩
        by_cases some_ : length = 0
        · dsimp only
          rw [if_pos some_, if_pos some_]
        · dsimp only
          rw [inner specs field some_]

/-- What a field that is not ignored or refused comes to. -/
theorem resolveRange_field {answer : Ranges} (known : resolveRange value length = answer)
    (taken : answer ≠ .ignore) (allowed : answer ≠ .refused) :
    ∃ specs ranges, IsField value specs ∧ 0 < length.toNat ∧ ranges.length ≤ maxRanges ∧
      Separated length.toNat ranges ∧
      (∀ offset, Covers ranges offset ↔ ∃ read ∈ specs, read.Selects length.toNat offset) ∧
      answer = if ranges = [] then .unsatisfiable else .satisfiable ranges := by
  rw [resolveRange_exact] at known
  rcases resolveWith_cases (· + ·) value length with ignored | refused | ⟨specs, field, few, some_, same⟩
  · exact absurd (known.symm.trans ignored) taken
  · exact absurd (known.symm.trans refused) allowed
  rw [known] at same
  have positive := toNat_pos some_
  obtain ⟨unit, set, -, -, -, all⟩ := field.set
  have sound := (mergeSpecs_some positive (fun _ _ => rfl) (ordered_of_spells all)
    (@separated_nil length.toNat)).2
  cases merged : mergeSpecs (· + ·) length.toNat specs [] with
  | none =>
    rw [merged] at same
    exact absurd same allowed
  | some ranges =>
    rw [merged] at same
    obtain ⟨separated, covered, short⟩ := sound ranges merged
    rw [List.length_nil, Nat.zero_add] at short
    refine ⟨specs, ranges, field, positive, short.trans few, separated, fun offset => ?_, same⟩
    rw [covered]
    exact or_iff_right fun ⟨_, none_, _⟩ => nomatch none_

end ZeroServer.Static

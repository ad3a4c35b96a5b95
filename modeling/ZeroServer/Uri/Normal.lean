/-
This file proves that path normalization is a canonical form. A path is read as bytes that stand for
themselves and triplets; normalization rewrites each of them on its own and then removes
dot-segments, and what comes out is what the check at its start accepts as normal.
-/

import ZeroServer.Uri.Path

namespace ZeroServer.Uri

open Http1

/-! ### A path as bytes and triplets -/

/-- One unit of a path: a byte that stands for itself, or a triplet with its two digits. -/
inductive Item where
  | plain (byte : UInt8)
  | triplet (high low : UInt8)
  deriving DecidableEq

/-- The octet two hexadecimal digits stand for. -/
def octetOf (high low : UInt8) : UInt8 :=
  (hexValue high).getD 0 <<< 4 ||| (hexValue low).getD 0

namespace Item

def text : Item → Bytes
  | plain byte => [byte]
  | triplet high low => [percent, high, low]

/-- What a path may hold. -/
def Valid : Item → Prop
  | plain byte => byte = slash ∨ isPchar byte = true
  | triplet high low => (hexValue high).isSome = true ∧ (hexValue low).isSome = true

/-- Whether a triplet stays as it is: its octet is reserved and its digits are in upper case. -/
def normal : Item → Bool
  | plain _ => true
  | triplet high low => !(isUnreserved (octetOf high low) || [high, low].any isAsciiLowercase)

/-- What normalization makes of one unit. -/
def normalize : Item → Item
  | plain byte => plain byte
  | triplet high low =>
    if isUnreserved (octetOf high low) then plain (octetOf high low)
    else triplet (upperHex (octetOf high low >>> 4)) (upperHex (octetOf high low &&& 0x0F))

end Item

/-- The path units make. -/
def texts (items : List Item) : Bytes := items.flatMap Item.text

/-- The segments between the `/` of a path. -/
def segmentsOf (path : Bytes) : List Bytes := path.splitOn slash

/-- No segment is `.` or `..`. -/
def Dotless (path : Bytes) : Prop := ∀ segment ∈ segmentsOf path, isDotSegment segment = false

/-- A path of valid units, each of them in its normal form. -/
def Spelled (path : Bytes) : Prop :=
  ∃ items : List Item, path = texts items ∧ ∀ item ∈ items, item.Valid ∧ item.normal = true

theorem texts_cons (item : Item) (items : List Item) :
    texts (item :: items) = item.text ++ texts items := List.flatMap_cons

theorem texts_append (front behind : List Item) :
    texts (front ++ behind) = texts front ++ texts behind := List.flatMap_append

/-! ### Octets and their digits -/

variable {octet : UInt8}

theorem hexValue_lt {digit value : UInt8} (known : hexValue digit = some value) :
    value.toNat < 16 ∧ digit ≠ slash ∧
      (isAsciiLowercase digit = false → upperHex value = digit) := by
  have all : ∀ byte : Fin 256, (hexValue ⟨⟨byte⟩⟩).all (fun value => decide (value.toNat < 16 ∧
      (⟨⟨byte⟩⟩ : UInt8) ≠ slash ∧
      (isAsciiLowercase ⟨⟨byte⟩⟩ = false → upperHex value = ⟨⟨byte⟩⟩))) = true := by decide +kernel
  exact of_decide_eq_true ((Option.all_eq_true _ _).mp (all digit.toBitVec.toFin) value known)

/-- The digits written for an octet are upper case and read back as the octet. -/
theorem upperHex_octet (octet : UInt8) :
    (hexValue (upperHex (octet >>> 4))).isSome = true ∧
      (hexValue (upperHex (octet &&& 0x0F))).isSome = true ∧
      octetOf (upperHex (octet >>> 4)) (upperHex (octet &&& 0x0F)) = octet ∧
      [upperHex (octet >>> 4), upperHex (octet &&& 0x0F)].any isAsciiLowercase = false := by
  have all : ∀ byte : Fin 256, (hexValue (upperHex ((⟨⟨byte⟩⟩ : UInt8) >>> 4))).isSome = true ∧
      (hexValue (upperHex ((⟨⟨byte⟩⟩ : UInt8) &&& 0x0F))).isSome = true ∧
      octetOf (upperHex ((⟨⟨byte⟩⟩ : UInt8) >>> 4)) (upperHex ((⟨⟨byte⟩⟩ : UInt8) &&& 0x0F)) =
        ⟨⟨byte⟩⟩ ∧
      [upperHex ((⟨⟨byte⟩⟩ : UInt8) >>> 4), upperHex ((⟨⟨byte⟩⟩ : UInt8) &&& 0x0F)].any
        isAsciiLowercase = false := by decide +kernel
  exact all octet.toBitVec.toFin

theorem nibbles_octet {high low : UInt8} (small : high.toNat < 16) (small' : low.toNat < 16) :
    (high <<< 4 ||| low) >>> 4 = high ∧ (high <<< 4 ||| low) &&& 0x0F = low := by
  have all : ∀ high : Fin 16, ∀ low : Fin 16,
      ((UInt8.ofNat high <<< 4 ||| UInt8.ofNat low) >>> 4 = UInt8.ofNat high) ∧
        ((UInt8.ofNat high <<< 4 ||| UInt8.ofNat low) &&& 0x0F = UInt8.ofNat low) := by
    decide +kernel
  have both := all ⟨high.toNat, small⟩ ⟨low.toNat, small'⟩
  simpa using both

/-- An unreserved octet may stand in a path as it is. -/
theorem isPchar_of_unreserved (unreserved : isUnreserved octet = true) : isPchar octet = true := by
  unfold isPchar
  rw [unreserved]
  rfl

theorem isPchar_marks : isPchar percent = false ∧ isPchar slash = false := by decide +kernel

variable {item : Item}

namespace Item

theorem Valid.ne_percent {byte : UInt8} (valid : (plain byte).Valid) : byte ≠ percent := by
  rintro rfl
  rcases valid with same | allowed
  · exact absurd same (by decide)
  · rw [isPchar_marks.1] at allowed
    cases allowed

theorem normalize_unreserved {high low : UInt8}
    (unreserved : isUnreserved (octetOf high low) = true) :
    (triplet high low).normalize = plain (octetOf high low) := if_pos unreserved

theorem normalize_reserved {high low : UInt8} (reserved : ¬isUnreserved (octetOf high low) = true) :
    (triplet high low).normalize =
      triplet (upperHex (octetOf high low >>> 4)) (upperHex (octetOf high low &&& 0x0F)) :=
  if_neg reserved

/-- Normalization leaves a unit in its normal form. -/
theorem normalize_normal (valid : item.Valid) :
    item.normalize.Valid ∧ item.normalize.normal = true := by
  cases item with
  | plain byte => exact ⟨valid, rfl⟩
  | triplet high low =>
    obtain ⟨high', low', octet, upper⟩ := upperHex_octet (octetOf high low)
    by_cases unreserved : isUnreserved (octetOf high low) = true
    · rw [normalize_unreserved unreserved]
      exact ⟨.inr (isPchar_of_unreserved unreserved), rfl⟩
    · rw [normalize_reserved unreserved]
      refine ⟨⟨high', low'⟩, ?_⟩
      show (!(isUnreserved (octetOf _ _) || _)) = true
      rw [octet, upper, Bool.eq_false_iff.mpr unreserved]
      rfl

/-- A unit in its normal form stays. -/
theorem normal_fixed (valid : item.Valid) (normal : item.normal = true) :
    item.normalize = item := by
  cases item with
  | plain byte => rfl
  | triplet high low =>
    unfold Item.normal at normal
    rw [Bool.not_eq_true', Bool.or_eq_false_iff] at normal
    obtain ⟨reserved, upper⟩ := normal
    obtain ⟨highValue, highKnown⟩ := Option.isSome_iff_exists.mp valid.1
    obtain ⟨lowValue, lowKnown⟩ := Option.isSome_iff_exists.mp valid.2
    obtain ⟨highSmall, -, highUpper⟩ := hexValue_lt highKnown
    obtain ⟨lowSmall, -, lowUpper⟩ := hexValue_lt lowKnown
    simp only [List.any_cons, List.any_nil, Bool.or_false, Bool.or_eq_false_iff] at upper
    have octet : octetOf high low = highValue <<< 4 ||| lowValue := by
      unfold octetOf
      rw [highKnown, lowKnown]
      rfl
    obtain ⟨first, second⟩ := nibbles_octet highSmall lowSmall
    rw [normalize_reserved (by rw [reserved]; decide), octet, first, second, highUpper upper.1,
      lowUpper upper.2]

theorem slash_mem_text (valid : item.Valid) (held : slash ∈ item.text) : item = plain slash := by
  cases item with
  | plain byte => rw [List.mem_singleton.mp held]
  | triplet high low =>
    obtain ⟨highValue, highKnown⟩ := Option.isSome_iff_exists.mp valid.1
    obtain ⟨lowValue, lowKnown⟩ := Option.isSome_iff_exists.mp valid.2
    rcases List.mem_cons.mp held with same | held
    · exact absurd same (by decide)
    · rcases List.mem_cons.mp held with same | held
      · exact absurd same.symm (hexValue_lt highKnown).2.1
      · exact absurd (List.mem_singleton.mp held).symm (hexValue_lt lowKnown).2.1

end Item

/-! ### The check reads the units -/

variable {segment path : Bytes} {items : List Item}

theorem percentOctet_valid {high low : UInt8} (valid : (Item.triplet high low).Valid) (rest : Bytes)
    (offset : Nat) : percentOctet (high :: low :: rest) offset = .ok (octetOf high low) := by
  obtain ⟨highValue, highKnown⟩ := Option.isSome_iff_exists.mp valid.1
  obtain ⟨lowValue, lowKnown⟩ := Option.isSome_iff_exists.mp valid.2
  unfold percentOctet octetOf
  simp [highKnown, lowKnown]

theorem percentOctet_ok {behind : Bytes} {offset : Nat}
    (read : percentOctet behind offset = .ok octet) :
    ∃ high low rest, behind = high :: low :: rest ∧ (Item.triplet high low).Valid ∧
      octet = octetOf high low := by
  unfold percentOctet at read
  split at read
  · rename_i high low highRead lowRead
    match behind, highRead, lowRead with
    | first :: second :: rest, highRead, lowRead =>
      have highKnown : hexValue first = some high := highRead
      have lowKnown : hexValue second = some low := lowRead
      refine ⟨first, second, rest, rfl, ⟨by rw [highKnown]; rfl, by rw [lowKnown]; rfl⟩, ?_⟩
      cases read
      unfold octetOf
      rw [highKnown, lowKnown]
      rfl
  · cases read

theorem segmentsOf_plain (plain : slash ∉ segment) :
    segmentsOf segment = [segment] := List.splitOn_eq_singleton plain

theorem segmentsOf_append (front behind : Bytes) :
    segmentsOf (front ++ slash :: behind) = segmentsOf front ++ segmentsOf behind :=
  List.splitOn_append_cons_self front behind

/-- Over a path of valid units the check says whether each is in its normal form and no segment is a
dot-segment. -/
theorem isNormalFrom_texts {items : List Item} (valid : ∀ item ∈ items, item.Valid)
    (offset : Nat) {segment : Bytes} (plain : slash ∉ segment) (normal : Bool) :
    isNormalFrom (texts items) offset segment normal =
      .ok (normal && items.all Item.normal &&
        (segmentsOf (segment ++ texts items)).all fun segment => !isDotSegment segment) := by
  induction items generalizing offset segment normal with
  | nil =>
    show isNormalFrom [] offset segment normal = _
    rw [isNormalFrom, show texts [] = [] from rfl, List.append_nil, segmentsOf_plain plain]
    simp
  | cons item items inductionHypothesis =>
    have rest := inductionHypothesis fun item member => valid item (List.mem_cons_of_mem _ member)
    have here := valid item List.mem_cons_self
    rw [texts_cons]
    cases item with
    | plain byte =>
      show isNormalFrom (byte :: texts items) offset segment normal = _
      rw [isNormalFrom, if_neg here.ne_percent]
      by_cases separator : byte = slash
      · subst separator
        rw [if_pos rfl, rest _ List.not_mem_nil]
        show _ = Except.ok (_ && _ && (segmentsOf (segment ++ slash :: texts items)).all _)
        rw [segmentsOf_append, segmentsOf_plain plain]
        simp only [List.nil_append, List.all_append, List.all_cons, List.all_nil, Bool.and_true,
          Item.normal, Bool.true_and]
        grind
      · rw [if_neg separator, if_pos (here.resolve_left separator),
          rest _ (by simpa [plain] using Ne.symm separator)]
        simp [Item.normal, Item.text]
    | triplet high low =>
      show isNormalFrom (percent :: high :: low :: texts items) offset segment normal = _
      have inside : slash ∉ segment ++ [percent, high, low] := by
        intro held
        rcases List.mem_append.mp held with old | new
        · exact plain old
        · cases Item.slash_mem_text here new
      rw [isNormalFrom, if_pos rfl, percentOctet_valid here]
      dsimp only
      rw [rest _ inside]
      simp only [List.all_cons, Item.normal, Item.text, List.append_assoc, Bool.and_assoc]

/-- What the check accepts is a path of valid units. -/
theorem isNormalFrom_ok {offset : Nat} {normal answer : Bool}
    (checked : isNormalFrom path offset segment normal = .ok answer) :
    ∃ items : List Item, path = texts items ∧ ∀ item ∈ items, item.Valid := by
  fun_induction isNormalFrom path offset segment normal with
  | case1 => exact ⟨[], rfl, nofun⟩
  | case2 => cases checked
  | case3 offset segment normal octet high low rest spelled read inductionHypothesis =>
    obtain ⟨items, rfl, valid⟩ := inductionHypothesis checked
    obtain ⟨first, second, after, same, here, -⟩ := percentOctet_ok read
    cases same
    refine ⟨.triplet high low :: items, rfl, fun item member => ?_⟩
    rcases List.mem_cons.mp member with rfl | member
    · exact here
    · exact valid item member
  | case4 => cases checked
  | case5 behind offset segment normal _ inductionHypothesis =>
    obtain ⟨items, rfl, valid⟩ := inductionHypothesis checked
    refine ⟨.plain slash :: items, rfl, fun item member => ?_⟩
    rcases List.mem_cons.mp member with rfl | member
    · exact .inl rfl
    · exact valid item member
  | case6 byte behind offset segment normal _ _ allowed inductionHypothesis =>
    obtain ⟨items, rfl, valid⟩ := inductionHypothesis checked
    refine ⟨.plain byte :: items, rfl, fun item member => ?_⟩
    rcases List.mem_cons.mp member with rfl | member
    · exact .inr allowed
    · exact valid item member
  | case7 => cases checked

/-- The percent-encoding pass rewrites each unit on its own. -/
theorem normalizeTriplets_texts (valid : ∀ item ∈ items, item.Valid) (offset : Nat) :
    normalizeTriplets (texts items) offset = .ok (texts (items.map Item.normalize)) := by
  induction items generalizing offset with
  | nil => rfl
  | cons item items inductionHypothesis =>
    have rest := inductionHypothesis fun item member => valid item (List.mem_cons_of_mem _ member)
    have here := valid item List.mem_cons_self
    rw [texts_cons, List.map_cons, texts_cons]
    cases item with
    | plain byte =>
      show normalizeTriplets (byte :: texts items) offset = _
      rw [normalizeTriplets, if_neg here.ne_percent, rest]
      rfl
    | triplet high low =>
      show normalizeTriplets (percent :: high :: low :: texts items) offset = _
      rw [normalizeTriplets, if_pos rfl, percentOctet_valid here]
      dsimp only
      rw [rest]
      by_cases unreserved : isUnreserved (octetOf high low) = true
      · rw [Item.normalize_unreserved unreserved]
        show (if _ then _ else _) = _
        rw [if_pos unreserved]
        rfl
      · rw [Item.normalize_reserved unreserved]
        show (if _ then _ else _) = _
        rw [if_neg unreserved]
        rfl

/-! ### Removing dot-segments -/

variable {rest : Bytes}

variable {output : Bytes}

/-- What one round does: the input and the output before it, and after it. -/
inductive DotStep : Bytes → Bytes → Bytes → Bytes → Prop
  | skip {dots : Bytes} (isDots : isDotSegment dots = true) (after output : Bytes) :
    DotStep (dots ++ slash :: after) output after output
  | last {dots : Bytes} (isDots : isDotSegment dots = true) (output : Bytes) :
    DotStep dots output [] output
  | stay (after output : Bytes) :
    DotStep (slash :: dot :: slash :: after) output (slash :: after) output
  | stayLast (output : Bytes) : DotStep [slash, dot] output [slash] output
  | close (output : Bytes) : DotStep [slash, dot, slash] output [] (output ++ [slash])
  | pop (after output : Bytes) :
    DotStep (slash :: dot :: dot :: slash :: after) output (slash :: after) (popSegment output)
  | popLast (output : Bytes) : DotStep [slash, dot, dot] output [slash] (popSegment output)
  | first {segment next : Bytes} (plain : slash ∉ segment) (some_ : segment ≠ [])
    (undotted : isDotSegment segment = false) (ends : next = [] ∨ next.head? = some slash)
    (output : Bytes) : DotStep (segment ++ next) output next (output ++ segment)
  | move {segment next : Bytes} (plain : slash ∉ segment)
    (undotted : isDotSegment segment = false) (ends : next = [] ∨ next.head? = some slash)
    (output : Bytes) : DotStep (slash :: (segment ++ next)) output next (output ++ slash :: segment)

theorem take_eq_append {text : Bytes} {count : Nat} (lead : rest.take count = text) :
    ∃ after, rest = text ++ after ∧ (text.length = count → rest.drop count = after) := by
  refine ⟨rest.drop count, ?_, fun _ => rfl⟩
  rw [← lead, List.take_append_drop]

theorem findIdx_slash (path : Bytes) :
    ∃ segment next, path = segment ++ next ∧ slash ∉ segment ∧
      path.findIdx (· == slash) = segment.length ∧ (next = [] ∨ next.head? = some slash) := by
  induction path with
  | nil => exact ⟨[], [], rfl, List.not_mem_nil, rfl, .inl rfl⟩
  | cons byte path inductionHypothesis =>
    by_cases separator : byte = slash
    · refine ⟨[], byte :: path, rfl, List.not_mem_nil, ?_, .inr (by simp [separator])⟩
      rw [separator, List.findIdx_cons]
      rfl
    · obtain ⟨segment, next, rfl, plain, place, ends⟩ := inductionHypothesis
      refine ⟨byte :: segment, next, rfl, by simpa [plain] using Ne.symm separator, ?_, ends⟩
      rw [List.findIdx_cons, beq_false_of_ne separator, place]
      rfl

/-- Every round of the loop is one of the steps. -/
theorem removeDotStep_step (more : rest ≠ []) (output : Bytes) :
    DotStep rest output (removeDotStep rest output).1 (removeDotStep rest output).2 := by
  unfold removeDotStep
  split
  · rename_i lead
    obtain ⟨after, rfl, -⟩ := take_eq_append lead
    exact @DotStep.skip [dot, dot] rfl after output
  split
  · rename_i lead
    obtain ⟨after, rfl, -⟩ := take_eq_append lead
    exact @DotStep.skip [dot] rfl after output
  split
  · rename_i lead
    obtain ⟨after, rfl, -⟩ := take_eq_append lead
    split
    · rename_i none_
      obtain rfl : after = [] := none_
      exact .close output
    · exact .stay after output
  split
  · rename_i same
    rw [same]
    exact .stayLast output
  split
  · rename_i lead
    obtain ⟨after, rfl, -⟩ := take_eq_append lead
    exact .pop after output
  split
  · rename_i same
    rw [same]
    exact .popLast output
  split
  · rename_i same
    rcases same with rfl | rfl
    · exact .last rfl output
    · exact .last rfl output
  · rename_i notUp notHere notStay notStayLast notPop notPopLast notDots
    by_cases lead : rest.head? = some slash
    · obtain ⟨behind, rfl⟩ : ∃ behind, rest = slash :: behind := by
        cases rest with
        | nil => cases lead
        | cons first behind =>
          cases lead
          exact ⟨behind, rfl⟩
      obtain ⟨segment, next, rfl, plain, place, ends⟩ := findIdx_slash behind
      have length : firstSegment (slash :: (segment ++ next)) = segment.length + 1 := by
        unfold firstSegment
        dsimp only
        rw [List.head?_cons, if_pos rfl, List.drop_one, List.tail_cons, place, Nat.add_comm]
      rw [length, List.drop_succ_cons, List.take_succ_cons, List.drop_left, List.take_left]
      refine .move plain (Bool.eq_false_iff.mpr fun dots => ?_) ends output
      rcases decide_eq_true_iff.mp dots with rfl | rfl
      · rcases ends with rfl | ahead
        · exact notStayLast rfl
        · cases next with
          | nil => cases ahead
          | cons first next =>
            cases ahead
            exact notStay rfl
      · rcases ends with rfl | ahead
        · exact notPopLast rfl
        · cases next with
          | nil => cases ahead
          | cons first next =>
            cases ahead
            exact notPop rfl
    · obtain ⟨segment, next, rfl, plain, place, ends⟩ := findIdx_slash rest
      have length : firstSegment (segment ++ next) = segment.length := by
        unfold firstSegment
        dsimp only
        rw [if_neg lead, List.drop_zero, place, Nat.zero_add]
      rw [length, List.drop_left, List.take_left]
      have some_ : segment ≠ [] := by
        rintro rfl
        exact (ends.elim more lead)
      refine .first plain some_ (Bool.eq_false_iff.mpr fun dots => ?_) ends output
      rcases decide_eq_true_iff.mp dots with rfl | rfl
      · rcases ends with rfl | ahead
        · exact notDots (.inl rfl)
        · cases next with
          | nil => cases ahead
          | cons first next =>
            cases ahead
            exact notHere rfl
      · rcases ends with rfl | ahead
        · exact notDots (.inr rfl)
        · cases next with
          | nil => cases ahead
          | cons first next =>
            cases ahead
            exact notUp rfl

/-- The output without its last segment. -/
theorem popSegment_cases (output : Bytes) :
    (slash ∉ output ∧ popSegment output = []) ∨
      ∃ front segment, output = front ++ slash :: segment ∧ slash ∉ segment ∧
        popSegment output = front := by
  obtain ⟨segment, next, whole, plain, place, ends⟩ := findIdx_slash output.reverse
  have whole' : output = next.reverse ++ segment.reverse := by
    rw [← List.reverse_append, ← whole, List.reverse_reverse]
  have length : output.length = next.length + segment.length := by
    rw [whole', List.length_append, List.length_reverse, List.length_reverse]
  unfold popSegment
  rw [place]
  rcases ends with rfl | ahead
  · refine .inl ⟨?_, ?_⟩
    · rw [whole']
      simpa using plain
    · rw [length, List.length_nil, show 0 + segment.length - 1 - segment.length = 0 by omega]
      rfl
  · cases next with
    | nil => cases ahead
    | cons first next =>
      cases ahead
      rw [List.reverse_cons, List.append_assoc, List.singleton_append] at whole'
      refine .inr ⟨next.reverse, segment.reverse, whole', by simpa using plain, ?_⟩
      rw [length, List.length_cons,
        show next.length + 1 + segment.length - 1 - segment.length = next.reverse.length by
          rw [List.length_reverse]; omega, whole', List.take_left]

theorem notMem_of_isDotSegment {dots : Bytes} (isDots : isDotSegment dots = true) :
    slash ∉ dots := by
  rcases decide_eq_true_iff.mp isDots with rfl | rfl <;> decide

/-- The units in front of a `/` and those behind it. -/
theorem Spelled.cut {front behind : Bytes} (spelled : Spelled (front ++ slash :: behind)) :
    Spelled front ∧ Spelled behind := by
  obtain ⟨items, same, fine⟩ := spelled
  induction items generalizing front with
  | nil => exact absurd same (List.append_ne_nil_of_right_ne_nil _ (List.cons_ne_nil _ _))
  | cons item items inductionHypothesis =>
    have here := fine item List.mem_cons_self
    have others : ∀ item ∈ items, item.Valid ∧ item.normal = true :=
      fun item member => fine item (List.mem_cons_of_mem _ member)
    rw [texts_cons] at same
    have grow : ∀ {front : Bytes}, Spelled front → Spelled (item.text ++ front) := by
      rintro front ⟨more, rfl, moreFine⟩
      refine ⟨item :: more, (texts_cons item more).symm, fun other member => ?_⟩
      rcases List.mem_cons.mp member with rfl | member
      · exact here
      · exact moreFine other member
    rcases List.append_eq_append_iff.mp same with ⟨middle, whole, split⟩ | ⟨middle, whole, split⟩
    · cases middle with
      | nil =>
        rw [List.append_nil] at whole
        have inner := @inductionHypothesis [] split others
        exact ⟨whole ▸ List.append_nil item.text ▸ grow inner.1, inner.2⟩
      | cons first middle =>
        have inside : slash ∈ item.text := by
          rw [whole]
          exact List.mem_append_right _
            (by rw [← (List.cons.inj split).1]; exact List.mem_cons_self)
        obtain rfl := Item.slash_mem_text here.1 inside
        have alone : front = [] ∧ middle = [] := by
          have lengths := congrArg List.length whole
          simp only [Item.text, List.length_append, List.length_cons, List.length_nil] at lengths
          exact ⟨List.length_eq_zero_iff.mp (by omega), List.length_eq_zero_iff.mp (by omega)⟩
        rw [alone.2] at split
        refine ⟨⟨[], alone.1, nofun⟩, ⟨items, (List.cons.inj split).2, others⟩⟩
    · obtain ⟨front', behind'⟩ := inductionHypothesis split.symm others
      exact ⟨whole ▸ grow front', behind'⟩

theorem Spelled.append {front behind : Bytes} (first : Spelled front) (second : Spelled behind) :
    Spelled (front ++ behind) := by
  obtain ⟨items, rfl, fine⟩ := first
  obtain ⟨more, rfl, moreFine⟩ := second
  refine ⟨items ++ more, (texts_append items more).symm, fun item member => ?_⟩
  exact (List.mem_append.mp member).elim (fine item) (moreFine item)

theorem spelled_nil : Spelled [] := ⟨[], rfl, nofun⟩

theorem spelled_slash : Spelled [slash] :=
  ⟨[.plain slash], rfl, fun item member => by
    rw [List.mem_singleton.mp member]
    exact ⟨.inl rfl, rfl⟩⟩

theorem Spelled.behind {behind : Bytes} (spelled : Spelled (slash :: behind)) : Spelled behind :=
  (Spelled.cut (show Spelled ([] ++ slash :: behind) from spelled)).2

/-- Both sides of an append that breaks at a `/`. -/
theorem Spelled.split {front next : Bytes} (spelled : Spelled (front ++ next))
    (ends : next = [] ∨ next.head? = some slash) : Spelled front ∧ Spelled next := by
  rcases ends with rfl | ahead
  · rw [List.append_nil] at spelled
    exact ⟨spelled, spelled_nil⟩
  · cases next with
    | nil => cases ahead
    | cons first next =>
      cases ahead
      obtain ⟨before, behind⟩ := spelled.cut
      exact ⟨before, spelled_slash.append behind⟩

/-- Between two rounds: both sides are well spelled and are left of the path, the output has no
dot-segment, and what is left of the input starts a segment. -/
structure Removing (path rest output : Bytes) : Prop where
  spelledRest : Spelled rest
  spelledOutput : Spelled output
  dotless : Dotless output
  aligned : output = [] ∨ rest = [] ∨ rest.head? = some slash
  kept : (output ++ rest).Sublist path

theorem dotless_nil : Dotless [] := by
  intro segment member
  rw [List.mem_singleton.mp (show segment ∈ [[]] from member)]
  rfl

theorem Dotless.concat (dotless : Dotless output) (plain : slash ∉ segment)
    (undotted : isDotSegment segment = false) : Dotless (output ++ slash :: segment) := by
  intro other member
  rw [segmentsOf_append, segmentsOf_plain plain] at member
  rcases List.mem_append.mp member with old | new
  · exact dotless other old
  · rw [List.mem_singleton.mp new]
    exact undotted

theorem Removing.step {path rest output next out : Bytes} (held : Removing path rest output)
    (moved : DotStep rest output next out) : Removing path next out := by
  have popped : (popSegment output).Sublist output ∧ Spelled (popSegment output) ∧
      Dotless (popSegment output) := by
    rcases popSegment_cases output with ⟨-, none_⟩ | ⟨front, segment, whole, -, same⟩
    · rw [none_]
      exact ⟨List.nil_sublist _, spelled_nil, dotless_nil⟩
    · rw [same]
      have spelled := held.spelledOutput
      have dotless := held.dotless
      rw [whole] at spelled dotless
      refine ⟨whole ▸ List.sublist_append_left _ _, spelled.cut.1, fun other member => ?_⟩
      refine dotless other ?_
      rw [segmentsOf_append]
      exact List.mem_append_left _ member
  cases moved with
  | skip isDots =>
    have spelled := held.spelledRest.cut
    have start : output = [] := by
      rcases held.aligned with none_ | none_ | ahead
      · exact none_
      · exact absurd none_ (List.append_ne_nil_of_right_ne_nil _ (List.cons_ne_nil _ _))
      · rcases decide_eq_true_iff.mp isDots with rfl | rfl <;> cases ahead
    refine ⟨spelled.2, held.spelledOutput, held.dotless, .inl start, ?_⟩
    refine List.Sublist.trans ?_ held.kept
    exact (List.Sublist.refl output).append
      ((List.sublist_cons_self slash _).trans (List.sublist_append_right _ _))
  | last isDots =>
    refine ⟨spelled_nil, held.spelledOutput, held.dotless, .inr (.inl rfl), ?_⟩
    exact List.Sublist.trans ((List.Sublist.refl output).append (List.nil_sublist _)) held.kept
  | stay after =>
    have spelled := held.spelledRest.behind
    refine ⟨(Spelled.cut (show Spelled ([dot] ++ slash :: after) from spelled)).2 |>
      spelled_slash.append, held.spelledOutput, held.dotless, .inr (.inr rfl), ?_⟩
    refine List.Sublist.trans ((List.Sublist.refl output).append ?_) held.kept
    exact ((List.sublist_cons_self dot _).trans (List.sublist_cons_self slash _))
  | stayLast =>
    refine ⟨spelled_slash, held.spelledOutput, held.dotless, .inr (.inr rfl), ?_⟩
    refine List.Sublist.trans ((List.Sublist.refl output).append ?_) held.kept
    exact List.sublist_append_left [slash] [dot]
  | close =>
    refine ⟨spelled_nil, held.spelledOutput.append spelled_slash,
      held.dotless.concat List.not_mem_nil rfl, .inr (.inl rfl), ?_⟩
    rw [List.append_nil]
    refine List.Sublist.trans ((List.Sublist.refl output).append ?_) held.kept
    exact List.sublist_append_left [slash] [dot, slash]
  | pop after =>
    have spelled := held.spelledRest.behind
    refine ⟨(Spelled.cut (show Spelled ([dot, dot] ++ slash :: after) from spelled)).2 |>
      spelled_slash.append, popped.2.1, popped.2.2, .inr (.inr rfl), ?_⟩
    refine List.Sublist.trans (popped.1.append ?_) held.kept
    exact (List.sublist_append_right [slash, dot, dot] (slash :: after))
  | popLast =>
    refine ⟨spelled_slash, popped.2.1, popped.2.2, .inr (.inr rfl), ?_⟩
    refine List.Sublist.trans (popped.1.append ?_) held.kept
    exact List.sublist_append_left [slash] [dot, dot]
  | @first segment next plain some_ undotted ends =>
    have start : output = [] := by
      rcases held.aligned with none_ | none_ | ahead
      · exact none_
      · exact absurd (List.append_eq_nil_iff.mp none_).1 some_
      · cases segment with
        | nil => exact absurd rfl some_
        | cons byte segment =>
          cases ahead
          exact absurd List.mem_cons_self plain
    obtain ⟨spelled, spelledNext⟩ := held.spelledRest.split ends
    rw [start, List.nil_append]
    refine ⟨spelledNext, spelled, fun other member => ?_, .inr ends, ?_⟩
    · rw [segmentsOf_plain plain] at member
      rw [List.mem_singleton.mp member]
      exact undotted
    · have kept := held.kept
      rwa [start, List.nil_append] at kept
  | move plain undotted ends =>
    obtain ⟨spelled, spelledNext⟩ := held.spelledRest.behind.split ends
    refine ⟨spelledNext, held.spelledOutput.append (spelled_slash.append spelled),
      held.dotless.concat plain undotted, .inr ends, ?_⟩
    have kept := held.kept
    rw [List.append_assoc]
    exact kept

theorem Removing.rounds (held : Removing path rest output) {rounds : Nat}
    (enough : rest.length ≤ rounds) : Removing path [] (removeDotRounds rounds rest output) := by
  induction rounds generalizing rest output with
  | zero =>
    obtain rfl := List.length_eq_zero_iff.mp (Nat.le_zero.mp enough)
    exact held
  | succ rounds inductionHypothesis =>
    rw [removeDotRounds]
    split
    · rename_i none_
      subst none_
      exact held
    · rename_i more
      have shorter := (removeDotStep_length more output).1
      exact inductionHypothesis (held.step (removeDotStep_step more output)) (by omega)

/-- What is left of a well spelled path is well spelled, has no dot-segment, and is left of the
path. -/
theorem removeDotSegments_removing (spelled : Spelled path) :
    Spelled (removeDotSegments path) ∧ Dotless (removeDotSegments path) ∧
      (removeDotSegments path).Sublist path := by
  have start : Removing path path [] :=
    ⟨spelled, spelled_nil, dotless_nil, .inl rfl, List.Sublist.refl path⟩
  have done := start.rounds (Nat.le_refl path.length)
  refine ⟨done.spelledOutput, done.dotless, ?_⟩
  have kept := done.kept
  rwa [List.append_nil] at kept

/-- A path without dot-segments stays. -/
theorem removeDotRounds_dotless {rounds : Nat} (dotless : Dotless rest)
    (enough : rest.length ≤ rounds) (output : Bytes) :
    removeDotRounds rounds rest output = output ++ rest := by
  induction rounds generalizing rest output with
  | zero =>
    obtain rfl := List.length_eq_zero_iff.mp (Nat.le_zero.mp enough)
    exact (List.append_nil output).symm
  | succ rounds inductionHypothesis =>
    rw [removeDotRounds]
    split
    · rename_i none_
      subst none_
      exact (List.append_nil output).symm
    · rename_i more
      have shorter := (removeDotStep_length more output).1
      have moved := removeDotStep_step more output
      have tail : ∀ {front next : Bytes}, Dotless (front ++ next) →
          (next = [] ∨ next.head? = some slash) → Dotless next := by
        intro front next dotless ends
        rcases ends with rfl | ahead
        · exact dotless_nil
        · cases next with
          | nil => cases ahead
          | cons first next =>
            cases ahead
            intro other member
            rw [show slash :: next = [] ++ slash :: next from rfl, segmentsOf_append] at member
            rcases List.mem_append.mp member with lead | behind
            · rw [List.mem_singleton.mp (show other ∈ [[]] from lead)]
              rfl
            · refine dotless other ?_
              rw [segmentsOf_append]
              exact List.mem_append_right _ behind
      have dotted : ∀ {front dots behind : Bytes}, isDotSegment dots = true →
          Dotless (front ++ slash :: (dots ++ slash :: behind)) → False := by
        intro front dots behind isDots dotless
        have apart := dotless dots (by
          rw [segmentsOf_append, segmentsOf_append,
            segmentsOf_plain (notMem_of_isDotSegment isDots)]
          exact List.mem_append_right _ (List.mem_append_left _ (List.mem_singleton_self _)))
        rw [isDots] at apart
        cases apart
      generalize removeDotStep rest output = result at moved shorter ⊢
      obtain ⟨next, out⟩ := result
      dsimp only at moved shorter ⊢
      cases moved with
      | @skip dots isDots =>
        have apart := dotless dots (by
          rw [segmentsOf_append, segmentsOf_plain (notMem_of_isDotSegment isDots)]
          exact List.mem_append_left _ (List.mem_singleton_self _))
        rw [isDots] at apart
        cases apart
      | last isDots =>
        have apart := dotless rest (by
          rw [segmentsOf_plain (notMem_of_isDotSegment isDots)]
          exact List.mem_singleton_self _)
        rw [isDots] at apart
        cases apart
      | stay after => exact (@dotted [] [dot] after rfl dotless).elim
      | stayLast => exact absurd (dotless [dot] (by decide)) (by decide)
      | close => exact absurd (dotless [dot] (by decide)) (by decide)
      | pop after => exact (@dotted [] [dot, dot] after rfl dotless).elim
      | popLast => exact absurd (dotless [dot, dot] (by decide)) (by decide)
      | first plain some_ undotted ends =>
        rw [inductionHypothesis (tail dotless ends) (by omega), List.append_assoc]
      | @move segment next plain undotted ends =>
        rw [inductionHypothesis (tail (show Dotless ((slash :: segment) ++ next) from dotless) ends)
          (by omega), List.append_assoc]
        rfl

theorem removeDotSegments_dotless (dotless : Dotless path) :
    removeDotSegments path = path := removeDotRounds_dotless dotless (Nat.le_refl _) []

/-! ### The canonical form -/

/-- Two units that differ at most in the case of their digits, and in whether an unreserved octet is
percent-encoded. -/
inductive Item.Alike : Item → Item → Prop
  | same (item : Item) : Alike item item
  | digits {high low high' low' : UInt8} (octet : octetOf high low = octetOf high' low') :
    Alike (triplet high low) (triplet high' low')
  | decoded {high low : UInt8} (unreserved : isUnreserved (octetOf high low) = true) :
    Alike (triplet high low) (plain (octetOf high low))
  | encoded {high low : UInt8} (unreserved : isUnreserved (octetOf high low) = true) :
    Alike (plain (octetOf high low)) (triplet high low)

/-- Two paths of valid units, pairwise alike. -/
def Alike (path other : Bytes) : Prop :=
  ∃ items others : List Item, path = texts items ∧ other = texts others ∧
    (∀ item ∈ items, item.Valid) ∧ (∀ item ∈ others, item.Valid) ∧
    List.Forall₂ Item.Alike items others

theorem Item.Alike.normalize_eq {other : Item} (alike : item.Alike other) :
    item.normalize = other.normalize := by
  cases alike with
  | same => rfl
  | digits octet =>
    unfold Item.normalize
    dsimp only
    rw [octet]
  | decoded unreserved => exact normalize_unreserved unreserved
  | encoded unreserved => exact (normalize_unreserved unreserved).symm

theorem map_normalize_alike {others : List Item} (alike : List.Forall₂ Item.Alike items others) :
    items.map Item.normalize = others.map Item.normalize := by
  induction alike with
  | nil => rfl
  | cons here _ inductionHypothesis =>
    rw [List.map_cons, List.map_cons, here.normalize_eq, inductionHypothesis]

theorem isNormalPath_texts (valid : ∀ item ∈ items, item.Valid) :
    isNormalPath (texts items) = .ok (items.all Item.normal &&
      (segmentsOf (texts items)).all fun segment => !isDotSegment segment) := by
  unfold isNormalPath
  rw [isNormalFrom_texts valid 0 List.not_mem_nil, List.nil_append, Bool.true_and]

/-- The check accepts exactly the paths in normal form. -/
theorem isNormalPath_true : isNormalPath path = .ok true ↔ Spelled path ∧ Dotless path := by
  have dotless : ∀ path, ((segmentsOf path).all fun segment => !isDotSegment segment) = true ↔
      Dotless path := by
    intro path
    simp [Dotless, List.all_eq_true]
  constructor
  · intro checked
    obtain ⟨items, rfl, valid⟩ := isNormalFrom_ok checked
    rw [isNormalPath_texts valid] at checked
    obtain ⟨normal, clean⟩ := Bool.and_eq_true_iff.mp (Except.ok.inj checked)
    exact ⟨⟨items, rfl,
        fun item member => ⟨valid item member, List.all_eq_true.mp normal item member⟩⟩,
      (dotless _).mp clean⟩
  · rintro ⟨⟨items, rfl, fine⟩, clean⟩
    rw [isNormalPath_texts fun item member => (fine item member).1, (dotless _).mpr clean,
      List.all_eq_true.mpr fun item member => (fine item member).2]
    rfl

theorem spelled_normalize (valid : ∀ item ∈ items, item.Valid) :
    Spelled (texts (items.map Item.normalize)) := by
  refine ⟨_, rfl, fun item member => ?_⟩
  obtain ⟨before, known, rfl⟩ := List.mem_map.mp member
  exact Item.normalize_normal (valid before known)

/-- The passes leave a normal path as it is. -/
theorem passes_of_normal (valid : ∀ item ∈ items, item.Valid)
    (normal : isNormalPath (texts items) = .ok true) :
    texts (items.map Item.normalize) = texts items ∧
      removeDotSegments (texts (items.map Item.normalize)) = texts items := by
  have same : texts (items.map Item.normalize) = texts items := by
    rw [isNormalPath_texts valid] at normal
    have all := (Bool.and_eq_true_iff.mp (Except.ok.inj normal)).1
    have fixed : items.map Item.normalize = items := by
      refine (List.map_congr_left fun item member => ?_).trans (List.map_id _)
      exact Item.normal_fixed (valid item member) (List.all_eq_true.mp all item member)
    rw [fixed]
  refine ⟨same, ?_⟩
  rw [same]
  exact removeDotSegments_dotless (isNormalPath_true.mp normal).2

/-- Whichever way it goes, normalization is the two passes over the units of the path. -/
theorem normalizePath_texts (valid : ∀ item ∈ items, item.Valid) :
    normalizePath (texts items) = .ok (removeDotSegments (texts (items.map Item.normalize))) := by
  unfold normalizePath
  rcases checked : isNormalPath (texts items) with refused | normal
  · rw [isNormalPath_texts valid] at checked
    cases checked
  · cases normal with
    | true => rw [(passes_of_normal valid checked).2]
    | false =>
      dsimp only
      rw [normalizeTriplets_texts valid]
      rfl

theorem normalizePath_ok {normal : Bytes} (done : normalizePath path = .ok normal) :
    ∃ items : List Item, path = texts items ∧ (∀ item ∈ items, item.Valid) ∧
      normal = removeDotSegments (texts (items.map Item.normalize)) := by
  have checked : ∃ answer, isNormalPath path = .ok answer := by
    rcases checked : isNormalPath path with refused | answer
    · unfold normalizePath at done
      rw [checked] at done
      cases done
    · exact ⟨answer, rfl⟩
  obtain ⟨answer, checked⟩ := checked
  obtain ⟨items, rfl, valid⟩ := isNormalFrom_ok checked
  refine ⟨items, rfl, valid, ?_⟩
  rw [normalizePath_texts valid] at done
  exact (Except.ok.inj done).symm

/-- Normalization is a canonical form: what it gives is normal and stays, the quick check agrees
with the passes, paths that are alike meet in one form, no encoded `/` becomes a separator, and an
absolute path stays absolute. -/
theorem normalizePath_canonical {path normal : Bytes} (done : normalizePath path = .ok normal) :
    normalizePath normal = .ok normal ∧
      (isNormalPath path = .ok true → ∃ spelled, normalizeTriplets path 0 = .ok spelled ∧
        removeDotSegments spelled = path) ∧
      (Spelled normal ∧ Dotless normal) ∧
      (∀ other otherNormal, normalizePath other = .ok otherNormal → Alike path other →
        otherNormal = normal) ∧
      (∃ items : List Item, path = texts items ∧ (∀ item ∈ items, item.Valid) ∧
        normal.Sublist (texts (items.map Item.normalize)) ∧
        ∀ item ∈ items, slash ∈ item.normalize.text → item = .plain slash) ∧
      (path.head? = some slash → normal.head? = some slash) := by
  obtain ⟨items, rfl, valid, rfl⟩ := normalizePath_ok done
  obtain ⟨spelled, dotless, kept⟩ := removeDotSegments_removing (spelled_normalize valid)
  refine ⟨?_, ?_, ⟨spelled, dotless⟩, ?_, ⟨items, rfl, valid, kept, ?_⟩,
    fun absolute => normalizePath_absolute absolute done⟩
  · unfold normalizePath
    rw [isNormalPath_true.mpr ⟨spelled, dotless⟩]
  · intro checked
    exact ⟨_, normalizeTriplets_texts valid 0, (passes_of_normal valid checked).2⟩
  · rintro other otherNormal otherDone ⟨mine, others, whole, rfl, mineValid, othersValid, alike⟩
    rw [whole, normalizePath_texts mineValid] at done
    rw [normalizePath_texts othersValid, ← map_normalize_alike alike, done] at otherDone
    exact (Except.ok.inj otherDone).symm
  · intro item member inside
    have slashed := Item.slash_mem_text (Item.normalize_normal (valid item member)).1 inside
    cases item with
    | plain byte => exact slashed
    | triplet high low =>
      exfalso
      by_cases unreserved : isUnreserved (octetOf high low) = true
      · rw [Item.normalize_unreserved unreserved] at slashed
        have allowed := isPchar_of_unreserved unreserved
        rw [Item.plain.inj slashed, isPchar_marks.2] at allowed
        cases allowed
      · rw [Item.normalize_reserved unreserved] at slashed
        cases slashed

/-- An encoded `..` climbs, and an encoded `/` stays inside its segment. -/
theorem normalizePath_canonical_escaped :
    normalizePath (ascii "/b%2FA") = .ok (ascii "/b%2FA") ∧
      Spelled (ascii "/b%2FA") ∧ Dotless (ascii "/b%2FA") := by
  have canonical := @normalizePath_canonical (ascii "/a/%2e%2E/b%2f%41") (ascii "/b%2FA")
    (by decide +kernel)
  exact ⟨canonical.1, canonical.2.2.1⟩

end ZeroServer.Uri

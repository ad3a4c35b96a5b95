/-
This file is about the grammar of the nodes in a `Forwarded` field: addresses with dots and in
brackets, names and ports. The readers take exactly the texts of the grammar, except that a port
number past what 16 bits hold is no port.
-/

import ZeroServer.Lib.Joined
import ZeroServer.Policy.Steps

namespace ZeroServer.Policy

open Http1 Lib

/-! ### Numbers -/

variable {radix value : Nat} {input rest : Bytes}

variable {allowZeroPrefix : Bool}

/-- Digits in a radix, and the number they spell. -/
def Digits (radix : Nat) (text : Bytes) (value : Nat) : Prop :=
  ∃ digits, List.Forall₂ (fun byte digit => toDigit radix byte = some digit) text digits ∧
    value = numeral radix 0 digits

/-- A number of at most some digits. -/
structure IsNumeral (radix most : Nat) (text : Bytes) (value : Nat) : Prop where
  some_ : text ≠ []
  few : text.length ≤ most
  digits : Digits radix text value

/-- A decimal octet, without a zero in front of other digits. -/
structure IsOctet (text : Bytes) (value : Nat) : Prop extends IsNumeral 10 3 text value where
  small : value < 256
  lead : text.head? = some 48 → text.length = 1

/-- What no further digit stands in front of. -/
def Stops (radix : Nat) (rest : Bytes) : Prop := ∀ byte ∈ rest.head?, toDigit radix byte = none

theorem readDigits_iff {most start count total : Nat} :
    readDigits radix most start count input = some (value, total, rest) ↔
      ∃ text digits, input = text ++ rest ∧
        List.Forall₂ (fun byte digit => toDigit radix byte = some digit) text digits ∧
        value = numeral radix start digits ∧ total = count + text.length ∧
        (text = [] ∨ total ≤ most) ∧ Stops radix rest := by
  induction input generalizing start count with
  | nil =>
    rw [readDigits]
    constructor
    · rintro ⟨⟩
      refine ⟨[], [], rfl, .nil, rfl, rfl, .inl rfl, ?_⟩
      rintro other ⟨⟩
    · rintro ⟨text, digits, empty, spelled, rfl, rfl, -, -⟩
      obtain ⟨rfl, rfl⟩ := List.append_eq_nil_iff.mp empty.symm
      cases spelled
      rfl
  | cons byte input inductionHypothesis =>
    rw [readDigits]
    constructor
    · intro read
      split at read
      · rename_i none_
        cases read
        refine ⟨[], [], rfl, .nil, rfl, rfl, .inl rfl, ?_⟩
        rintro other ⟨⟩
        exact none_
      · rename_i digit known
        split at read
        · cases read
        · rename_i few
          obtain ⟨text, digits, rfl, spelled, rfl, rfl, bound, stops⟩ := inductionHypothesis.mp read
          refine ⟨byte :: text, digit :: digits, rfl, .cons known spelled, rfl, ?_, .inr ?_, stops⟩
          · rw [List.length_cons, Nat.add_assoc, Nat.add_comm 1]
          · rcases bound with rfl | bound
            · exact Nat.le_of_not_lt few
            · exact bound
    · rintro ⟨text, digits, whole, spelled, rfl, rfl, bound, stops⟩
      cases spelled with
      | nil =>
        rw [List.nil_append] at whole
        rw [← whole] at stops ⊢
        rw [stops byte rfl]
        rfl
      | cons known spelled =>
        rename_i digit text digits
        cases whole
        rw [known]
        dsimp only
        have within := bound.resolve_left (List.cons_ne_nil _ _)
        rw [List.length_cons] at within
        rw [if_neg (by omega)]
        refine inductionHypothesis.mpr ⟨text, digits, rfl, spelled, rfl, ?_, .inr ?_, stops⟩
        · rw [List.length_cons, Nat.add_assoc, Nat.add_comm 1]
        · rwa [List.length_cons]

/-- A number is read as far as its digits go. -/
theorem readNumber_iff {most bound : Nat} :
    readNumber radix most bound allowZeroPrefix input = some (value, rest) ↔
      ∃ text, input = text ++ rest ∧ IsNumeral radix most text value ∧ value < bound ∧
        (allowZeroPrefix = true ∨ (text.head? = some 48 → text.length = 1)) ∧
        Stops radix rest := by
  unfold readNumber
  constructor
  · intro read
    split at read
    · cases read
    · rename_i total count behind known
      obtain ⟨text, digits, rfl, spelled, rfl, rfl, few, stops⟩ := readDigits_iff.mp known
      split at read
      · cases read
      · rename_i some_
        rw [Nat.zero_add, List.length_eq_zero_iff] at some_
        split at read
        · cases read
        · rename_i unprefixed
          split at read
          · rename_i small
            cases read
            refine ⟨text, rfl, ⟨some_, ?_, digits, spelled, rfl⟩, small, ?_, stops⟩
            · simpa using few.resolve_left some_
            · cases allowZeroPrefix with
              | true => exact .inl rfl
              | false =>
                refine .inr fun zero => ?_
                obtain ⟨text, rfl⟩ := List.head?_eq_some_iff.mp zero
                simp only [Bool.not_false, List.cons_append, List.head?_cons, BEq.rfl,
                  Bool.and_true, Nat.zero_add, Bool.true_and, decide_eq_true_eq] at unprefixed
                exact Nat.le_antisymm (Nat.le_of_not_lt unprefixed)
                  (List.length_pos_iff.mpr (List.cons_ne_nil _ _))
          · cases read
  · rintro ⟨text, rfl, ⟨some_, few, digits, spelled, rfl⟩, small, unprefixed, stops⟩
    have read : readDigits radix most 0 0 (text ++ rest) =
        some (numeral radix 0 digits, text.length, rest) :=
      readDigits_iff.mpr ⟨text, digits, rfl, spelled, rfl, (Nat.zero_add _).symm, .inr few, stops⟩
    rw [read]
    dsimp only
    rw [if_neg (by rwa [List.length_eq_zero_iff]), if_neg, if_pos small]
    intro prefixed
    simp only [Bool.and_eq_true, Bool.not_eq_true', decide_eq_true_eq, beq_iff_eq,
      List.head?_append_of_ne_nil _ some_] at prefixed
    obtain ⟨⟨strict, zero⟩, more⟩ := prefixed
    rcases unprefixed with free | single
    · rw [free] at strict
      cases strict
    · rw [single zero] at more
      exact lt_irrefl _ more

/-! ### Addresses with dots -/

variable {address : BitVec 32} {text : Bytes}

variable {index : Nat}

/-- Four octets with dots between them. -/
inductive Ipv4Text : Bytes → BitVec 32 → Prop
  | intro {first second third fourth : Bytes} {a b c d : Nat} (isFirst : IsOctet first a)
    (isSecond : IsOctet second b) (isThird : IsOctet third c) (isFourth : IsOctet fourth d) :
    Ipv4Text (first ++ 46 :: (second ++ 46 :: (third ++ 46 :: fourth)))
      (BitVec.ofNat 32 (((a * 256 + b) * 256 + c) * 256 + d))

theorem readSeparator_iff {Value : Type} {separator : UInt8} (later : index ≠ 0)
    {inner : Reader Value} {read : Value × Bytes} :
    readSeparator separator index inner input = some read ↔
      ∃ behind, input = separator :: behind ∧ inner behind = some read := by
  unfold readSeparator
  rw [if_neg later]
  cases input with
  | nil => exact iff_of_false nofun fun ⟨_, empty, _⟩ => nomatch empty
  | cons byte input =>
    dsimp only
    constructor
    · intro found
      split at found
      · rename_i same
        exact ⟨input, by rw [same], found⟩
      · cases found
    · rintro ⟨behind, ⟨⟩, found⟩
      rw [if_pos rfl, found]

theorem readNumber_octet :
    readNumber 10 3 256 false input = some (value, rest) ↔
      ∃ text, input = text ++ rest ∧ IsOctet text value ∧ Stops 10 rest := by
  rw [readNumber_iff]
  constructor
  · rintro ⟨text, rfl, isNumeral, small, lead, stops⟩
    exact ⟨text, rfl, ⟨isNumeral, small, lead.resolve_left Bool.false_ne_true⟩, stops⟩
  · rintro ⟨text, rfl, ⟨isNumeral, small, lead⟩, stops⟩
    exact ⟨text, rfl, isNumeral, small, .inr lead, stops⟩

theorem stops_dot (rest : Bytes) : Stops 10 (46 :: rest) := by
  rintro byte ⟨⟩
  decide

/-- An address with dots is read as far as its last digit. -/
theorem readIpv4_iff :
    readIpv4 input = some (address, rest) ↔
      ∃ text, input = text ++ rest ∧ Ipv4Text text address ∧ Stops 10 rest := by
  unfold readIpv4 readOctet
  constructor
  · intro read
    obtain ⟨⟨a, second⟩, one, read⟩ := Option.bind_eq_some_iff.mp read
    obtain ⟨⟨b, third⟩, two, read⟩ := Option.bind_eq_some_iff.mp read
    obtain ⟨⟨c, fourth⟩, three, read⟩ := Option.bind_eq_some_iff.mp read
    obtain ⟨⟨d, behind⟩, four, read⟩ := Option.bind_eq_some_iff.mp read
    cases read
    obtain ⟨text, rfl, isFirst, -⟩ := readNumber_octet.mp one
    obtain ⟨behind, rfl, two⟩ := (readSeparator_iff (by decide)).mp two
    obtain ⟨text', rfl, isSecond, -⟩ := readNumber_octet.mp two
    obtain ⟨behind, rfl, three⟩ := (readSeparator_iff (by decide)).mp three
    obtain ⟨text'', rfl, isThird, -⟩ := readNumber_octet.mp three
    obtain ⟨behind, rfl, four⟩ := (readSeparator_iff (by decide)).mp four
    obtain ⟨lastText, rfl, isFourth, stops⟩ := readNumber_octet.mp four
    refine ⟨_, ?_, .intro isFirst isSecond isThird isFourth, stops⟩
    simp only [List.append_assoc, List.cons_append]
  · rintro ⟨_, rfl, ⟨isFirst, isSecond, isThird, isFourth⟩, stops⟩
    simp only [List.append_assoc, List.cons_append]
    refine Option.bind_eq_some_iff.mpr ⟨_, readNumber_octet.mpr ⟨_, rfl, isFirst, stops_dot _⟩, ?_⟩
    refine Option.bind_eq_some_iff.mpr ⟨_, (readSeparator_iff (by decide)).mpr
      ⟨_, rfl, readNumber_octet.mpr ⟨_, rfl, isSecond, stops_dot _⟩⟩, ?_⟩
    refine Option.bind_eq_some_iff.mpr ⟨_, (readSeparator_iff (by decide)).mpr
      ⟨_, rfl, readNumber_octet.mpr ⟨_, rfl, isThird, stops_dot _⟩⟩, ?_⟩
    refine Option.bind_eq_some_iff.mpr ⟨_, (readSeparator_iff (by decide)).mpr
      ⟨_, rfl, readNumber_octet.mpr ⟨_, rfl, isFourth, stops⟩⟩, ?_⟩
    rfl

theorem Ipv4Text.short {text : Bytes} {address : BitVec 32} (spells : Ipv4Text text address) :
    text.length ≤ 15 := by
  obtain ⟨isFirst, isSecond, isThird, isFourth⟩ := spells
  have first := isFirst.few
  have second := isSecond.few
  have third := isThird.few
  have fourth := isFourth.few
  simp only [List.length_append, List.length_cons]
  omega

theorem parseIpv4_iff : parseIpv4 text = some address ↔ Ipv4Text text address := by
  unfold parseIpv4 parseWith
  constructor
  · intro parsed
    split at parsed
    · cases parsed
    · split at parsed
      · rename_i value read
        cases parsed
        obtain ⟨whole, same, spells, -⟩ := readIpv4_iff.mp read
        rw [same, List.append_nil]
        exact spells
      · cases parsed
  · intro spells
    have read : readIpv4 text = some (address, []) :=
      readIpv4_iff.mpr ⟨text, (List.append_nil _).symm, spells, fun _ => nofun⟩
    rw [if_neg (Nat.not_lt_of_le spells.short), read]

/-! ### Addresses in brackets -/

variable {left : Nat} {groups : List Nat}

variable {embedded : Bool}

/-- Groups of an address with colons between them, of which an address with dots may be the last
two. -/
inductive Groups : Bytes → List Nat → Bool → Prop
  | last {text : Bytes} {value : Nat} (isGroup : IsNumeral 16 4 text value) :
    Groups text [value] false
  | embedded {text : Bytes} {address : BitVec 32} (spells : Ipv4Text text address) :
    Groups text [address.toNat / 65536, address.toNat % 65536] true
  | more {text rest : Bytes} {value : Nat} {groups : List Nat} {embedded : Bool}
    (isGroup : IsNumeral 16 4 text value) (later : Groups rest groups embedded) :
    Groups (text ++ colon :: rest) (value :: groups) embedded

/-- Groups that may be missing. -/
def SomeGroups (text : Bytes) (groups : List Nat) (embedded : Bool) : Prop :=
  text = [] ∧ groups = [] ∧ embedded = false ∨ Groups text groups embedded

/-- An address of eight groups, or of at most seven around two colons that stand for the groups of
zeros left out. -/
inductive Ipv6Text : Bytes → BitVec 128 → Prop
  | full {text : Bytes} {groups : List Nat} {embedded : Bool}
    (spells : Groups text groups embedded) (eight : groups.length = 8) :
    Ipv6Text text (ofGroups groups)
  | short {front back : Bytes} {head tail : List Nat} {embedded : Bool}
    (isFront : SomeGroups front head false) (isBack : SomeGroups back tail embedded)
    (few : head.length + tail.length ≤ 7) :
    Ipv6Text (front ++ colon :: colon :: back)
      (ofGroups (head ++ List.replicate (8 - tail.length - head.length) 0 ++ tail))

theorem Digits.lt (large : 1 < radix) (digits : Digits radix text value) :
    value < radix ^ text.length := by
  obtain ⟨values, spelled, rfl⟩ := digits
  rw [spelled.length_eq]
  refine numeral_lt_pow large fun digit member => ?_
  obtain ⟨place, bound, rfl⟩ := List.getElem_of_mem member
  have known := spelled.get (by rw [spelled.length_eq]; exact bound) bound
  exact of_decide_eq_true (Option.filter_eq_some_iff.mp known).2

theorem readGroup_iff :
    readNumber 16 4 65536 true input = some (value, rest) ↔
      ∃ text, input = text ++ rest ∧ IsNumeral 16 4 text value ∧ Stops 16 rest := by
  rw [readNumber_iff]
  constructor
  · rintro ⟨text, rfl, isGroup, -, -, stops⟩
    exact ⟨text, rfl, isGroup, stops⟩
  · rintro ⟨text, rfl, isGroup, stops⟩
    refine ⟨text, rfl, isGroup, ?_, .inl rfl, stops⟩
    exact (isGroup.digits.lt (by decide)).trans_le
      (Nat.pow_le_pow_right (by decide) isGroup.few)

/-- A text behind a colon, except at the front. -/
def behindColon (index : Nat) (text : Bytes) : Bytes := if index = 0 then text else colon :: text

theorem readColon_iff {Value : Type} {inner : Reader Value} {read : Value × Bytes} :
    readSeparator colon index inner input = some read ↔
      ∃ behind, input = behindColon index behind ∧ inner behind = some read := by
  unfold behindColon
  by_cases front : index = 0
  · subst front
    exact ⟨fun found => ⟨input, rfl, found⟩, fun ⟨_, same, found⟩ => same ▸ found⟩
  · simp only [if_neg front]
    exact readSeparator_iff front

theorem behindColon_append (index : Nat) (text rest : Bytes) :
    behindColon index (text ++ rest) = behindColon index text ++ rest := by
  unfold behindColon
  split <;> rfl

/-- What is read as groups is groups, as many as there is room for. -/
theorem readGroups_sound (read : readGroups left index input = (groups, embedded, rest)) :
    groups.length ≤ left ∧ (groups = [] ∧ embedded = false ∧ rest = input ∨
      ∃ text, input = behindColon index text ++ rest ∧ Groups text groups embedded) := by
  induction left generalizing index input groups embedded rest with
  | zero =>
    cases read
    exact ⟨Nat.le_refl 0, .inl ⟨rfl, rfl, rfl⟩⟩
  | succ left inductionHypothesis =>
    rw [readGroups] at read
    split at read
    · rename_i address behind known
      cases read
      split at known
      · cases known
      · rename_i room
        obtain ⟨front, rfl, found⟩ := readColon_iff.mp known
        obtain ⟨text, rfl, spells, -⟩ := readIpv4_iff.mp found
        refine ⟨Nat.succ_le_succ (Nat.one_le_iff_ne_zero.mpr room),
          .inr ⟨text, ?_, .embedded spells⟩⟩
        exact behindColon_append index text _
    · split at read
      · rename_i group behind known
        obtain ⟨front, rfl, found⟩ := readColon_iff.mp known
        obtain ⟨text, rfl, isGroup, -⟩ := readGroup_iff.mp found
        rcases more : readGroups left (index + 1) behind with ⟨later, ended, last⟩
        rw [more] at read
        cases read
        obtain ⟨room, none_ | ⟨next, rfl, spells⟩⟩ := inductionHypothesis more
        · obtain ⟨rfl, rfl, rfl⟩ := none_
          exact ⟨Nat.succ_le_succ room, .inr ⟨text, behindColon_append _ _ _, .last isGroup⟩⟩
        · refine ⟨Nat.succ_le_succ room, .inr ⟨_, ?_, .more isGroup spells⟩⟩
          rw [behindColon_append, behindColon_append]
          unfold behindColon
          rw [if_neg (Nat.succ_ne_zero index), List.append_assoc, List.cons_append]
      · cases read
        exact ⟨Nat.zero_le _, .inl ⟨rfl, rfl, rfl⟩⟩

/-- What stands behind groups: nothing, or a colon. -/
def Breaks (rest : Bytes) : Prop := ∀ byte ∈ rest.head?, byte = colon

theorem Breaks.stops (breaks : Breaks rest) : Stops radix rest := by
  intro byte first
  rw [breaks byte first]
  rfl

theorem breaks_colon (rest : Bytes) : Breaks (colon :: rest) := by
  rintro byte ⟨⟩
  rfl

theorem Digits.known (digits : Digits radix text value) :
    ∀ byte ∈ text, ∃ digit, toDigit radix byte = some digit := by
  obtain ⟨values, spelled, -⟩ := digits
  intro byte member
  obtain ⟨place, bound, rfl⟩ := List.getElem_of_mem member
  exact ⟨_, spelled.get bound (by rw [← spelled.length_eq]; exact bound)⟩

/-- A group is no address with dots. -/
theorem readIpv4_group (isGroup : IsNumeral 16 4 text value) (breaks : Breaks rest) :
    readIpv4 (text ++ rest) = none := by
  have undotted : (46 : UInt8) ∉ text := by
    intro held
    obtain ⟨digit, known⟩ := isGroup.digits.known 46 held
    cases known
  rw [Option.eq_none_iff_forall_ne_some]
  rintro ⟨address, behind⟩ read
  obtain ⟨_, whole, ⟨isFirst, -, -, -⟩, -⟩ := readIpv4_iff.mp read
  rw [List.append_assoc, List.cons_append] at whole
  rcases List.append_eq_append_iff.mp whole with ⟨more, longer, same⟩ | ⟨more, longer, same⟩
  · cases more with
    | nil =>
      rw [List.nil_append] at same
      exact absurd (breaks 46 (by rw [same]; rfl)) (by decide)
    | cons byte more =>
      have first := breaks byte (by rw [same]; rfl)
      subst first
      obtain ⟨digit, known⟩ := isFirst.digits.known colon (by rw [longer]; simp)
      cases known
  · cases more with
    | nil =>
      rw [List.nil_append] at same
      exact absurd (breaks 46 (by rw [← same]; rfl)) (by decide)
    | cons byte more =>
      have first : (46 : UInt8) = byte := (List.cons.inj same).1
      exact undotted (by rw [longer, first]; simp)

/-- Where the groups of a text end. -/
def Ends (rest : Bytes) : Prop := rest = [] ∨ ∃ more, rest = colon :: colon :: more

theorem Ends.breaks (ends : Ends rest) : Breaks rest := by
  rcases ends with rfl | ⟨more, rfl⟩
  · exact fun _ => nofun
  · exact breaks_colon _

theorem readNumber_none {most bound : Nat} (stops : Stops radix input) :
    readNumber radix most bound allowZeroPrefix input = none := by
  rw [Option.eq_none_iff_forall_ne_some]
  rintro ⟨value, rest⟩ read
  obtain ⟨text, rfl, isNumeral, -⟩ := readNumber_iff.mp read
  obtain ⟨byte, text, rfl⟩ := List.exists_cons_of_ne_nil isNumeral.some_
  obtain ⟨digit, known⟩ := isNumeral.digits.known byte List.mem_cons_self
  rw [stops byte rfl] at known
  cases known

theorem readIpv4_none (stops : Stops 10 input) : readIpv4 input = none := by
  unfold readIpv4 readOctet
  exact Option.bind_eq_none_iff.mpr fun read found => by
    have front : readSeparator 46 0 (readNumber 10 3 256 false) input =
        readNumber 10 3 256 false input := rfl
    rw [front, readNumber_none stops] at found
    cases found

/-- No group is read where groups end, or from a colon. -/
theorem readGroups_stuck (stuck : index = 0 ∧ Breaks rest ∨ Ends rest) :
    readGroups left index rest = ([], false, rest) := by
  have none_ : ∀ {Value : Type} {inner : Reader Value},
      (∀ input, Breaks input → inner input = none) →
      readSeparator colon index inner rest = none := by
    intro Value inner fails
    rw [Option.eq_none_iff_forall_ne_some]
    rintro read found
    obtain ⟨behind, whole, found⟩ := readColon_iff.mp found
    have breaks : Breaks behind := by
      unfold behindColon at whole
      split at whole
      · rw [← whole]
        exact stuck.elim (fun front => front.2) Ends.breaks
      · rename_i later
        rcases stuck.resolve_left fun front => later front.1 with rfl | ⟨more, rfl⟩
        · cases whole
        · cases whole
          exact breaks_colon more
    rw [fails behind breaks] at found
    cases found
  cases left with
  | zero => rfl
  | succ left =>
    rw [readGroups, none_ fun input breaks => readIpv4_none breaks.stops, ite_self,
      none_ fun input breaks => readNumber_none breaks.stops]

/-- Groups are read where there is room for them. -/
theorem Groups.read (spells : Groups text groups embedded) (room : groups.length ≤ left)
    (ends : Ends rest) :
    readGroups left index (behindColon index text ++ rest) = (groups, embedded, rest) := by
  have group : ∀ {text : Bytes} {value : Nat} {rest : Bytes} (left index : Nat),
      IsNumeral 16 4 text value → Breaks rest →
      readGroups (left + 1) index (behindColon index text ++ rest) =
        (value :: (readGroups left (index + 1) rest).1, (readGroups left (index + 1) rest).2) := by
    intro text value rest left index isGroup breaks
    have apart : readSeparator colon index readIpv4 (behindColon index text ++ rest) = none := by
      rw [Option.eq_none_iff_forall_ne_some]
      intro read found
      obtain ⟨behind, whole, found⟩ := readColon_iff.mp found
      rw [← behindColon_append] at whole
      have same : behind = text ++ rest := by
        unfold behindColon at whole
        split at whole
        · exact whole.symm
        · exact (List.cons_inj_right _).mp whole.symm
      rw [same, readIpv4_group isGroup breaks] at found
      cases found
    have number : readSeparator colon index (readNumber 16 4 65536 true)
        (behindColon index text ++ rest) = some (value, rest) := by
      rw [← behindColon_append]
      exact readColon_iff.mpr ⟨_, rfl, readGroup_iff.mpr ⟨text, rfl, isGroup, breaks.stops⟩⟩
    rw [readGroups, apart, ite_self, number]
  induction spells generalizing left index with
  | last isGroup =>
    obtain ⟨left, rfl⟩ := Nat.exists_eq_succ_of_ne_zero (Nat.one_le_iff_ne_zero.mp room)
    rw [group left index isGroup ends.breaks, readGroups_stuck (.inr ends)]
  | embedded spells =>
    rename_i text address
    obtain ⟨left, rfl⟩ := Nat.exists_eq_add_of_le' room
    have found : readSeparator colon index readIpv4 (behindColon index text ++ rest) =
        some (address, rest) := by
      rw [← behindColon_append]
      exact readColon_iff.mpr ⟨_, rfl, readIpv4_iff.mpr ⟨text, rfl, spells, ends.breaks.stops⟩⟩
    change readGroups (left + 1 + 1) index _ = _
    rw [readGroups, if_neg (Nat.succ_ne_zero left), found]
  | more isGroup later inductionHypothesis =>
    rename_i text next value groups embedded
    obtain ⟨left, rfl⟩ := Nat.exists_eq_succ_of_ne_zero
      (Nat.ne_of_gt (Nat.lt_of_lt_of_le (Nat.succ_pos _) room))
    have whole : behindColon index (text ++ colon :: next) ++ rest =
        behindColon index text ++ (behindColon (index + 1) next ++ rest) := by
      rw [behindColon_append, List.append_assoc]
      rfl
    have breaks : Breaks (behindColon (index + 1) next ++ rest) := breaks_colon _
    rw [whole, group left index isGroup breaks, inductionHypothesis (Nat.le_of_succ_le_succ room)]

theorem parseIpv6_iff {address : BitVec 128} :
    parseIpv6 text = some address ↔ Ipv6Text text address := by
  unfold parseIpv6 parseWith
  constructor
  · intro parsed
    split at parsed
    · rename_i value read
      cases parsed
      unfold readIpv6 at read
      rcases front : readGroups 8 0 text with ⟨head, embedded, rest⟩
      rw [front] at read
      obtain ⟨room, known⟩ := readGroups_sound front
      dsimp only at read
      split at read
      · rename_i eight
        cases read
        rcases known with ⟨rfl, -, -⟩ | ⟨whole, same, spells⟩
        · cases eight
        · rw [List.append_nil] at same
          rw [same]
          exact .full spells eight
      · rename_i fewer
        split at read
        · cases read
        · rename_i plain
          rw [Bool.not_eq_true] at plain
          subst plain
          split at read
          · rename_i first second behind
            split at read
            · rename_i colons
              obtain ⟨rfl, rfl⟩ := colons
              rcases back : readGroups (8 - (head.length + 1)) 0 behind with ⟨tail, ended, last⟩
              rw [back] at read
              cases read
              obtain ⟨room', known'⟩ := readGroups_sound back
              have few : head.length + tail.length ≤ 7 := by omega
              have isBack : SomeGroups behind tail ended := by
                rcases known' with ⟨rfl, rfl, same⟩ | ⟨whole, same, spells⟩
                · exact .inl ⟨same.symm, rfl, rfl⟩
                · rw [List.append_nil] at same
                  exact .inr (same ▸ spells)
              rcases known with ⟨rfl, -, same⟩ | ⟨whole, same, spells⟩
              · rw [← same]
                exact .short (.inl ⟨rfl, rfl, rfl⟩) isBack few
              · rw [same]
                exact .short (.inr spells) isBack few
            · cases read
          · cases read
    · cases parsed
  · intro spells
    have some_ : ∀ {text : Bytes} {groups : List Nat} {embedded : Bool} {left : Nat} {rest : Bytes},
        SomeGroups text groups embedded → groups.length ≤ left → Ends rest →
        readGroups left 0 (text ++ rest) = (groups, embedded, rest) := by
      intro text groups embedded left rest isSome room ends
      rcases isSome with ⟨rfl, rfl, rfl⟩ | spells
      · exact readGroups_stuck (.inr ends)
      · exact spells.read room ends
    have read : readIpv6 text = some (address, []) := by
      unfold readIpv6
      cases spells with
      | full spells eight =>
        have front := some_ (.inr spells) (Nat.le_of_eq eight) (.inl rfl)
        rw [List.append_nil] at front
        rw [front]
        dsimp only
        rw [if_pos eight]
      | short isFront isBack few =>
        rename_i front back head tail embedded
        have first := some_ isFront (show head.length ≤ 8 by omega) (.inr ⟨back, rfl⟩)
        have second := some_ isBack (show tail.length ≤ 8 - (head.length + 1) by omega) (.inl rfl)
        rw [List.append_nil] at second
        rw [first]
        dsimp only
        rw [if_neg (show head.length ≠ 8 by omega), if_neg Bool.false_ne_true,
          if_pos (show colon = colon ∧ colon = colon from ⟨rfl, rfl⟩), second]
    rw [read]

/-! ### Nodes -/

variable {name : NodeName}

/-- A generated identifier, with its leading underscore. -/
structure IsIdentifier (text : Bytes) : Prop where
  lead : text.head? = some 95
  more : 1 < text.length
  each : ∀ byte ∈ text, isAsciiAlphanumeric byte = true ∨ byte ∈ ascii "._-"

/-- A name without brackets: an address with dots, `unknown` in any case or an identifier. -/
inductive PlainName : Bytes → NodeName → Prop
  | ipv4 {text : Bytes} {address : BitVec 32} (spells : Ipv4Text text address) :
    PlainName text (.ip (.v4 address))
  | unknown {text : Bytes} (named : eqIgnoreAsciiCase text (ascii "unknown") = true) :
    PlainName text .unknown
  | obfuscated {text : Bytes} (isIdentifier : IsIdentifier text) :
    PlainName text (.obfuscated text)

inductive NameText : Bytes → NodeName → Prop
  | plain {text : Bytes} {name : NodeName} (spells : PlainName text name) : NameText text name
  | ipv6 {text : Bytes} {address : BitVec 128} (spells : Ipv6Text text address) :
    NameText (91 :: (text ++ [93])) (.ip (.v6 address))

/-- A port: a number of up to five digits or an identifier. -/
inductive PortText : Bytes → Port → Prop
  | number {text : Bytes} {value : Nat} (spells : IsNumeral 10 5 text value) :
    PortText text (.number value)
  | obfuscated {text : Bytes} (isIdentifier : IsIdentifier text) : PortText text (.obfuscated text)

/-- A node: a name, and behind a colon a port. -/
inductive NodeText : Bytes → Node → Prop
  | alone {text : Bytes} {name : NodeName} (spells : NameText text name) :
    NodeText text ⟨name, none⟩
  | ported {text behind : Bytes} {name : NodeName} {port : Port} (spells : NameText text name)
    (spellsPort : PortText behind port) : NodeText (text ++ colon :: behind) ⟨name, some port⟩

/-- A port that 16 bits hold. -/
def Port.Fits (port : Port) : Prop := ∀ value, port = .number value → value < 65536

theorem isObfuscated_iff : isObfuscated text = true ↔ IsIdentifier text := by
  have marks : ∀ byte : UInt8, byte ∈ ascii "._-" ↔ byte = 46 ∨ byte = 95 ∨ byte = 45 := by
    intro byte
    rw [show ascii "._-" = [46, 95, 45] from by decide]
    simp only [List.mem_cons, List.not_mem_nil, or_false]
  unfold isObfuscated
  simp only [Bool.and_eq_true, decide_eq_true_eq, beq_iff_eq, List.all_eq_true, Bool.or_eq_true]
  constructor
  · rintro ⟨⟨more, lead⟩, each⟩
    refine ⟨lead, more, fun byte member => ?_⟩
    rw [marks]
    rcases each byte member with ((alphanum | same) | same) | same
    · exact .inl alphanum
    · exact .inr (.inl same)
    · exact .inr (.inr (.inl same))
    · exact .inr (.inr (.inr same))
  · rintro ⟨lead, more, each⟩
    refine ⟨⟨more, lead⟩, fun byte member => ?_⟩
    have known := each byte member
    rw [marks] at known
    rcases known with alphanum | same | same | same
    · exact .inl (.inl (.inl alphanum))
    · exact .inl (.inl (.inr same))
    · exact .inl (.inr same)
    · exact .inr same

theorem toDigit_ten {byte : UInt8} (digit : isAsciiDigit byte = true) :
    toDigit 10 byte = some (byte.toNat - 48) := by
  unfold toDigit hexDigit
  rw [if_pos digit]
  have small : byte.toNat ≤ 57 := by
    unfold isAsciiDigit at digit
    simp only [Bool.and_eq_true, decide_eq_true_eq, UInt8.le_iff_toNat_le] at digit
    exact digit.2
  exact Option.filter_eq_some_iff.mpr ⟨rfl, decide_eq_true (by omega)⟩

theorem digits_ten : Digits 10 text value ↔
    text.all isAsciiDigit = true ∧ value = numeral 10 0 (text.map fun byte => byte.toNat - 48) := by
  constructor
  · rintro ⟨digits, spelled, rfl⟩
    have each : text.all isAsciiDigit = true ∧ digits = text.map fun byte => byte.toNat - 48 := by
      induction spelled with
      | nil => exact ⟨rfl, rfl⟩
      | cons known spelled inductionHypothesis =>
        obtain ⟨all, same⟩ := inductionHypothesis
        have digit := isAsciiDigit_of_toDigit known
        rw [toDigit_ten digit] at known
        cases known
        rw [List.all_cons, digit, all, same]
        exact ⟨rfl, rfl⟩
    exact ⟨each.1, by rw [← each.2]⟩
  · rintro ⟨all, rfl⟩
    refine ⟨_, ?_, rfl⟩
    rw [List.forall₂_map_right_iff, List.forall₂_same]
    exact fun byte member => toDigit_ten (List.all_eq_true.mp all byte member)

/-- A port is a text of the grammar whose number 16 bits hold. -/
theorem Port.parse_iff {port : Port} :
    Port.parse text = some port ↔ PortText text port ∧ port.Fits := by
  have unnumbered : IsIdentifier text → ∀ value, ¬IsNumeral 10 5 text value := by
    intro isIdentifier value spells
    obtain ⟨digit, known⟩ := spells.digits.known 95 (List.mem_of_head? isIdentifier.lead)
    cases known
  unfold Port.parse
  by_cases isIdentifier : isObfuscated text = true
  · rw [if_pos isIdentifier]
    have named := isObfuscated_iff.mp isIdentifier
    constructor
    · rintro ⟨⟩
      exact ⟨.obfuscated named, fun _ => nofun⟩
    · rintro ⟨spells, -⟩
      cases spells with
      | number spells => exact absurd spells (unnumbered named _)
      | obfuscated _ => rfl
  · rw [if_neg isIdentifier]
    constructor
    · intro parsed
      split at parsed
      · cases parsed
      · rename_i digits
        obtain ⟨some_, few, all⟩ := not_or.mp digits |>.imp_right not_or.mp
        rw [Bool.not_eq_true, Bool.not_eq_false'] at all
        dsimp only at parsed
        split at parsed
        · rename_i small
          cases parsed
          refine ⟨.number ⟨some_, Nat.le_of_not_lt few, digits_ten.mpr ⟨all, rfl⟩⟩, ?_⟩
          rintro value ⟨⟩
          exact small
        · cases parsed
    · rintro ⟨spells, fits⟩
      cases spells with
      | number spells =>
        obtain ⟨all, rfl⟩ := digits_ten.mp spells.digits
        rw [if_neg, if_pos (fits _ rfl)]
        rintro (none_ | many | other)
        · exact spells.some_ none_
        · exact absurd spells.few (Nat.not_le_of_lt many)
        · rw [all] at other
          cases other
      | obfuscated named => exact absurd (isObfuscated_iff.mpr named) isIdentifier

theorem Ipv4Text.bytes (spells : Ipv4Text text address) :
    text ≠ [] ∧ text.all isIpv4Byte = true := parseIpv4_bytes (parseIpv4_iff.mpr spells)

/-- A word in any case is letters. -/
theorem letters_of_eqIgnoreAsciiCase {word : Bytes}
    (lower : (word.map toAsciiLowercase).all isAsciiLowercase = true)
    (same : eqIgnoreAsciiCase text word = true) :
    ∀ byte ∈ text, isAsciiAlphanumeric byte = true := by
  have letter : ∀ byte : Fin 256, isAsciiLowercase (toAsciiLowercase ⟨⟨byte⟩⟩) = true →
      isAsciiAlphanumeric ⟨⟨byte⟩⟩ = true := by decide +kernel
  intro byte member
  refine letter byte.toBitVec.toFin (List.all_eq_true.mp lower _ ?_)
  rw [← beq_iff_eq.mp same]
  exact List.mem_map_of_mem member

theorem PlainName.bytes (spells : PlainName text name) :
    text ≠ [] ∧ ∀ byte ∈ text, isAsciiAlphanumeric byte = true ∨ byte ∈ ascii "._-" := by
  cases spells with
  | ipv4 spells =>
    obtain ⟨some_, all⟩ := spells.bytes
    refine ⟨some_, fun byte member => ?_⟩
    rcases (Bool.or_eq_true _ _).mp (List.all_eq_true.mp all byte member) with digit | dot
    · refine .inl ?_
      unfold isAsciiAlphanumeric
      rw [digit]
      rfl
    · rw [beq_iff_eq.mp dot]
      exact .inr (by decide)
  | unknown named =>
    refine ⟨?_, fun byte member =>
      .inl (letters_of_eqIgnoreAsciiCase (by decide) named byte member)⟩
    rintro rfl
    exact absurd named (by decide)
  | obfuscated isIdentifier =>
    refine ⟨?_, isIdentifier.each⟩
    rintro rfl
    cases isIdentifier.lead

theorem NodeName.parse_iff : NodeName.parse text = some name ↔ PlainName text name := by
  constructor
  · intro parsed
    unfold NodeName.parse at parsed
    split at parsed
    · rename_i named
      cases parsed
      exact .unknown named
    · split at parsed
      · rename_i isIdentifier
        cases parsed
        exact .obfuscated (isObfuscated_iff.mp isIdentifier)
      · obtain ⟨address, known, rfl⟩ := Option.map_eq_some_iff.mp parsed
        exact .ipv4 (parseIpv4_iff.mp known)
  · intro spells
    cases spells with
    | ipv4 spells => exact nodeName_ipv4 (parseIpv4_iff.mpr spells)
    | unknown named =>
      unfold NodeName.parse
      rw [if_pos named]
    | obfuscated isIdentifier =>
      unfold NodeName.parse
      rw [if_neg, if_pos (isObfuscated_iff.mpr isIdentifier)]
      intro named
      obtain ⟨rest, rfl⟩ := List.head?_eq_some_iff.mp isIdentifier.lead
      have first := congrArg List.head? (beq_iff_eq.mp named)
      exact absurd first (by rw [List.map_cons, List.head?_cons]; decide)

/-! ### What is read as a node -/

variable {node : Node}

theorem name_marks : isAsciiAlphanumeric colon = false ∧ colon ∉ ascii "._-" ∧
    isAsciiAlphanumeric 91 = false ∧ (91 : UInt8) ∉ ascii "._-" := by decide

theorem PlainName.plain {text : Bytes} {name : NodeName} (spells : PlainName text name) :
    colon ∉ text ∧ text.head? ≠ some 91 := by
  obtain ⟨dark, mark, dark', mark'⟩ := name_marks
  constructor
  · intro held
    rcases spells.bytes.2 colon held with alphanum | same
    · rw [dark] at alphanum
      cases alphanum
    · exact mark same
  · intro first
    rcases spells.bytes.2 91 (List.mem_of_head? first) with alphanum | same
    · rw [dark'] at alphanum
      cases alphanum
    · exact mark' same

theorem Ipv6Text.plain {text : Bytes} {address : BitVec 128} (spells : Ipv6Text text address) :
    (93 : UInt8) ∉ text :=
  fun held => ne_of_all (parseIpv6_bytes (parseIpv6_iff.mpr spells)) (by decide) 93 held rfl

/-- What may stand behind a name. -/
def PortTail (tail : Bytes) (port : Option Port) : Prop :=
  tail = [] ∧ port = none ∨ ∃ behind port', tail = colon :: behind ∧ port = some port' ∧
    PortText behind port' ∧ port'.Fits

theorem nodeText_iff :
    NodeText text node ∧ (∀ port ∈ node.port, port.Fits) ↔
      ∃ front tail, text = front ++ tail ∧ NameText front node.name ∧ PortTail tail node.port := by
  constructor
  · rintro ⟨spells, fits⟩
    cases spells with
    | alone spells => exact ⟨text, [], (List.append_nil _).symm, spells, .inl ⟨rfl, rfl⟩⟩
    | ported spells spellsPort =>
      exact ⟨_, _, rfl, spells, .inr ⟨_, _, rfl, rfl, spellsPort, fits _ rfl⟩⟩
  · obtain ⟨name, port⟩ := node
    rintro ⟨front, tail, rfl, spells, ⟨rfl, same⟩ | ⟨behind, port', rfl, same, spellsPort, fits⟩⟩
    · cases same
      rw [List.append_nil]
      exact ⟨.alone spells, fun _ => nofun⟩
    · cases same
      refine ⟨.ported spells spellsPort, ?_⟩
      rintro other ⟨⟩
      exact fits

theorem parseBracketed_iff :
    Node.parseBracketed rest = some node ↔ ∃ inner tail address, rest = inner ++ 93 :: tail ∧
      Ipv6Text inner address ∧ node.name = .ip (.v6 address) ∧ PortTail tail node.port := by
  unfold Node.parseBracketed
  constructor
  · intro parsed
    obtain ⟨close, place, parsed⟩ := Option.bind_eq_some_iff.mp parsed
    obtain ⟨address, known, parsed⟩ := Option.bind_eq_some_iff.mp parsed
    refine ⟨_, _, address, (findIdx?_split place).2, parseIpv6_iff.mp known, ?_⟩
    dsimp only at parsed
    split at parsed
    · rename_i lead
      obtain ⟨behind, same⟩ := List.head?_eq_some_iff.mp lead
      obtain ⟨port, spelled, parsed⟩ := Option.bind_eq_some_iff.mp parsed
      cases parsed
      rw [same, List.tail_cons] at spelled
      exact ⟨rfl, .inr ⟨behind, port, same, rfl, Port.parse_iff.mp spelled⟩⟩
    · split at parsed
      · rename_i none_
        cases parsed
        exact ⟨rfl, .inl ⟨none_, rfl⟩⟩
      · cases parsed
  · obtain ⟨name, port⟩ := node
    rintro ⟨inner, tail, address, rfl, spells, same, isTail⟩
    cases same
    rw [findIdx?_mark spells.plain]
    have behind : (inner ++ 93 :: tail).drop (inner.length + 1) = tail := by
      rw [← List.drop_drop, List.drop_left, List.drop_succ_cons, List.drop_zero]
    refine Option.bind_eq_some_iff.mpr ⟨_, rfl, ?_⟩
    rw [List.take_left, parseIpv6_iff.mpr spells]
    refine Option.bind_eq_some_iff.mpr ⟨_, rfl, ?_⟩
    dsimp only
    rw [behind]
    rcases isTail with ⟨rfl, same⟩ | ⟨text, port', rfl, same, spellsPort⟩
    · cases same
      rfl
    · cases same
      rw [if_pos (show (colon :: text).head? = some colon from rfl), List.tail_cons,
        Port.parse_iff.mpr spellsPort]
      rfl

theorem parsePlain_iff :
    Node.parsePlain text = some node ↔ ∃ front tail, text = front ++ tail ∧
      PlainName front node.name ∧ PortTail tail node.port := by
  unfold Node.parsePlain
  constructor
  · intro parsed
    split at parsed
    · rename_i place found
      obtain ⟨port, spelled, parsed⟩ := Option.bind_eq_some_iff.mp parsed
      obtain ⟨name, named, parsed⟩ := Option.bind_eq_some_iff.mp parsed
      cases parsed
      exact ⟨_, _, (findIdx?_split found).2, NodeName.parse_iff.mp named,
        .inr ⟨_, port, rfl, rfl, Port.parse_iff.mp spelled⟩⟩
    · obtain ⟨name, named, rfl⟩ := Option.map_eq_some_iff.mp parsed
      exact ⟨text, [], (List.append_nil _).symm, NodeName.parse_iff.mp named, .inl ⟨rfl, rfl⟩⟩
  · obtain ⟨name, port⟩ := node
    rintro ⟨front, tail, rfl, spells, ⟨rfl, same⟩ | ⟨behind, port', rfl, same, spellsPort⟩⟩
    · cases same
      rw [List.append_nil, findIdx?_plain spells.plain.1]
      dsimp only
      rw [NodeName.parse_iff.mpr spells]
      rfl
    · cases same
      have after : (front ++ colon :: behind).drop (front.length + 1) = behind := by
        rw [← List.drop_drop, List.drop_left, List.drop_succ_cons, List.drop_zero]
      rw [findIdx?_mark spells.plain.1]
      dsimp only
      rw [after, Port.parse_iff.mpr spellsPort, List.take_left, NodeName.parse_iff.mpr spells]
      rfl

/-- A node is read exactly from the texts of the grammar that spell it, when 16 bits hold its
port. -/
theorem Node.parse_iff :
    Node.parse text = some node ↔ NodeText text node ∧ ∀ port ∈ node.port, port.Fits := by
  rw [nodeText_iff]
  unfold Node.parse
  constructor
  · intro parsed
    split at parsed
    · rename_i lead
      obtain ⟨rest, rfl⟩ := List.head?_eq_some_iff.mp lead
      obtain ⟨inner, tail, address, same, spells, named, isTail⟩ := parseBracketed_iff.mp parsed
      rw [List.tail_cons] at same
      subst same
      refine ⟨91 :: (inner ++ [93]), tail, ?_, ?_, isTail⟩
      · rw [List.cons_append, List.append_assoc, List.singleton_append]
      · rw [named]
        exact .ipv6 spells
    · obtain ⟨front, tail, same, spells, isTail⟩ := parsePlain_iff.mp parsed
      exact ⟨front, tail, same, .plain spells, isTail⟩
  · rintro ⟨front, tail, rfl, spells, isTail⟩
    obtain ⟨name, port⟩ := node
    cases spells with
    | plain spells =>
      have lead : (front ++ tail).head? ≠ some 91 := by
        rw [List.head?_append_of_ne_nil _ spells.bytes.1]
        exact spells.plain.2
      rw [if_neg lead]
      exact parsePlain_iff.mpr ⟨front, tail, rfl, spells, isTail⟩
    | ipv6 spells =>
      rename_i inner address
      have lead : ((91 : UInt8) :: (inner ++ [93]) ++ tail).head? = some 91 := rfl
      rw [if_pos lead]
      refine parseBracketed_iff.mpr ⟨inner, tail, address, ?_, spells, rfl, isTail⟩
      rw [List.cons_append, List.tail_cons, List.append_assoc, List.singleton_append]

end ZeroServer.Policy

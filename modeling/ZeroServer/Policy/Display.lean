/-
This file models how an IP address is displayed: an IPv4 address by its octets, an IPv6 address by
its segments, with the longest run of zeros left out. What is displayed is a text of the address,
and no reader minds the case of the letters it reads.
-/

import ZeroServer.Policy.Grammar

namespace ZeroServer.Policy

open Http1 Lib

/-! ### Display -/

/-- The small letter or decimal digit of a digit. -/
def digitByte (digit : Nat) : UInt8 := UInt8.ofNat (if digit < 10 then 48 + digit else 87 + digit)

def showNumber (radix number : Nat) : Bytes := (lowDigits radix number).reverse.map digitByte

def showIpv4 (address : BitVec 32) : Bytes :=
  let octet (place : Nat) := showNumber 10 (address.toNat / 256 ^ place % 256)
  octet 3 ++ 46 :: (octet 2 ++ 46 :: (octet 1 ++ 46 :: octet 0))

/-- The lowest segments of a number, the highest of them first. -/
def lastSegments : Nat → Nat → List Nat
  | 0, _ => []
  | count + 1, number => number / 65536 ^ count % 65536 :: lastSegments count number

def segments (address : BitVec 128) : List Nat := lastSegments 8 address.toNat

/-- A run of segments that are zero. -/
structure ZeroRun where
  start : Nat
  len : Nat

/-- Take a segment into the longest run and the run before it. -/
def ZeroRun.turn (runs : ZeroRun × ZeroRun) (segment : Nat × Nat) : ZeroRun × ZeroRun :=
  if segment.1 = 0 then
    let current : ZeroRun :=
      ⟨if runs.2.len = 0 then segment.2 else runs.2.start, runs.2.len + 1⟩
    (if runs.1.len < current.len then current else runs.1, current)
  else (runs.1, ⟨0, 0⟩)

def longestZeros (segments : List Nat) : ZeroRun :=
  (segments.zipIdx.foldl ZeroRun.turn (⟨0, 0⟩, ⟨0, 0⟩)).1

def fmtSubslice : List Nat → Bytes
  | [] => []
  | first :: tail =>
    showNumber 16 first ++ tail.flatMap fun segment => colon :: showNumber 16 segment

def showIpv6 (address : BitVec 128) : Bytes :=
  match toIpv4Mapped address with
  | some mapped => ascii "::ffff:" ++ showIpv4 mapped
  | none =>
    let segments := segments address
    let zeroes := longestZeros segments
    if 1 < zeroes.len then
      fmtSubslice (segments.take zeroes.start) ++
        colon :: colon :: fmtSubslice (segments.drop (zeroes.start + zeroes.len))
    else fmtSubslice segments

/-! ### Numbers -/

variable {radix number : Nat}

theorem digitByte_digit : ∀ digit < 16, hexDigit (digitByte digit) = some digit ∧
    toAsciiLowercase (digitByte digit) = digitByte digit := by decide

theorem digits_showNumber (large : 1 < radix) (most : radix ≤ 16) (number : Nat) :
    Digits radix (showNumber radix number) number := by
  refine ⟨(lowDigits radix number).reverse, ?_, (numeral_lowDigits radix number).symm⟩
  unfold showNumber
  rw [List.forall₂_map_left_iff, List.forall₂_same]
  intro digit member
  have small := lowDigits_lt large number digit (List.mem_reverse.mp member)
  unfold toDigit
  rw [(digitByte_digit digit (small.trans_le most)).1]
  exact Option.filter_some_pos (decide_eq_true small)

theorem isNumeral_showNumber {most : Nat} (large : 1 < radix) (within : radix ≤ 16)
    (some_ : 0 < most) (small : number < radix ^ most) :
    IsNumeral radix most (showNumber radix number) number := by
  refine ⟨fun none_ => ?_, ?_, digits_showNumber large within number⟩
  · exact lowDigits_ne_nil large number (List.reverse_eq_nil_iff.mp (List.map_eq_nil_iff.mp none_))
  · rw [showNumber, List.length_map, List.length_reverse]
    exact length_lowDigits_le large some_ small

/-- A decimal number is displayed without a zero in front of other digits. -/
theorem isOctet_showNumber (small : number < 256) : IsOctet (showNumber 10 number) number := by
  refine ⟨isNumeral_showNumber (by decide) (by decide) (by decide) (by omega), small, ?_⟩
  intro zero
  rcases known : (lowDigits 10 number).reverse with - | ⟨first, rest⟩
  · exact absurd (List.reverse_eq_nil_iff.mp known) (lowDigits_ne_nil (by decide) number)
  · rw [showNumber, known] at zero ⊢
    have digits : ∀ digit ∈ first :: rest, digit < 10 := fun digit member =>
      lowDigits_lt (by decide) number digit (List.mem_reverse.mp (known ▸ member))
    have lead : first = 0 := by
      have table : ∀ digit < 10, digitByte digit = 48 → digit = 0 := by decide
      exact table first (digits first List.mem_cons_self) (Option.some.inj zero)
    have value := numeral_lowDigits 10 number
    rw [known, lead, numeral_cons] at value
    by_contra more
    have some_ : rest ≠ [] := by
      rintro rfl
      exact more rfl
    have short := lowDigits_shortest (by decide) some_
      (fun digit member => digits digit (List.mem_cons_of_mem _ member)) value
    have whole := congrArg List.length known
    rw [List.length_reverse, List.length_cons] at whole
    omega

theorem ipv4Text_show (address : BitVec 32) : Ipv4Text (showIpv4 address) address := by
  have octet : ∀ place, IsOctet (showNumber 10 (address.toNat / 256 ^ place % 256))
      (address.toNat / 256 ^ place % 256) := fun place =>
    isOctet_showNumber (Nat.mod_lt _ (by decide))
  have spells := Ipv4Text.intro (octet 3) (octet 2) (octet 1) (octet 0)
  have value : BitVec.ofNat 32 (((address.toNat / 256 ^ 3 % 256 * 256 +
      address.toNat / 256 ^ 2 % 256) * 256 + address.toNat / 256 ^ 1 % 256) * 256 +
        address.toNat / 256 ^ 0 % 256) = address := by
    refine BitVec.eq_of_toNat_eq ?_
    have small := address.isLt
    rw [BitVec.toNat_ofNat]
    omega
  rwa [value] at spells

/-! ### Segments -/

variable {run : ZeroRun} {address : BitVec 128}

theorem numeral_lastSegments (start count number : Nat) :
    numeral 65536 start (lastSegments count number) =
      start * 65536 ^ count + number % 65536 ^ count := by
  induction count generalizing start with
  | zero => rw [lastSegments, numeral_nil, Nat.pow_zero, Nat.mod_one, Nat.mul_one, Nat.add_zero]
  | succ count inductionHypothesis =>
    rw [lastSegments, numeral_cons, inductionHypothesis, Nat.mod_pow_succ, Nat.pow_succ]
    ring

theorem lastSegments_small (count number : Nat) : ∀ segment ∈ lastSegments count number,
    segment < 65536 := by
  induction count with
  | zero => exact nofun
  | succ count inductionHypothesis =>
    rw [lastSegments]
    exact List.forall_mem_cons.mpr ⟨Nat.mod_lt _ (by decide), inductionHypothesis⟩

theorem length_lastSegments (count number : Nat) : (lastSegments count number).length = count := by
  induction count with
  | zero => rfl
  | succ count inductionHypothesis => rw [lastSegments, List.length_cons, inductionHypothesis]

theorem ofGroups_segments (address : BitVec 128) : ofGroups (segments address) = address := by
  refine BitVec.eq_of_toNat_eq ?_
  have small : address.toNat < 65536 ^ 8 := address.isLt
  change (BitVec.ofNat 128 (numeral 65536 0 (lastSegments 8 address.toNat))).toNat = _
  rw [numeral_lastSegments, Nat.zero_mul, Nat.zero_add, Nat.mod_eq_of_lt small, BitVec.toNat_ofNat]
  exact Nat.mod_eq_of_lt small

theorem groups_fmt {first : Nat} {tail : List Nat}
    (small : ∀ segment ∈ first :: tail, segment < 65536) :
    Groups (fmtSubslice (first :: tail)) (first :: tail) false := by
  induction tail generalizing first with
  | nil =>
    rw [fmtSubslice, List.flatMap_nil, List.append_nil]
    exact .last (isNumeral_showNumber (by decide) (by decide) (by decide)
      (small first List.mem_cons_self))
  | cons second tail inductionHypothesis =>
    obtain ⟨here, later⟩ := List.forall_mem_cons.mp small
    rw [fmtSubslice, List.flatMap_cons]
    exact .more (isNumeral_showNumber (by decide) (by decide) (by decide) here)
      (inductionHypothesis later)

theorem someGroups_fmt {segments : List Nat} (small : ∀ segment ∈ segments, segment < 65536) :
    SomeGroups (fmtSubslice segments) segments false := by
  cases segments with
  | nil => exact .inl ⟨rfl, rfl, rfl⟩
  | cons first tail => exact .inr (groups_fmt small)

/-- A run stands in the segments and is all zeros. -/
def ZeroRun.Within (run : ZeroRun) (segments : List Nat) : Prop :=
  run.start + run.len ≤ segments.length ∧
    ∀ place, run.start ≤ place → place < run.start + run.len → segments[place]? = some 0

theorem ZeroRun.within_zero (segments : List Nat) : (⟨0, 0⟩ : ZeroRun).Within segments :=
  ⟨Nat.zero_le _, fun place _ before => absurd before (Nat.not_lt_zero place)⟩

theorem ZeroRun.Within.append {segments : List Nat} (within : run.Within segments) (segment : Nat) :
    run.Within (segments ++ [segment]) := by
  obtain ⟨inside, zero⟩ := within
  refine ⟨by rw [List.length_append]; omega, fun place from_ before => ?_⟩
  rw [List.getElem?_append_left (by omega)]
  exact zero place from_ before

theorem longestZeros_within (segments : List Nat) : (longestZeros segments).Within segments := by
  have both : ∀ segments : List Nat, let runs := segments.zipIdx.foldl ZeroRun.turn (⟨0, 0⟩, ⟨0, 0⟩)
      runs.1.Within segments ∧ runs.2.Within segments ∧
        (0 < runs.2.len → runs.2.start + runs.2.len = segments.length) := by
    intro segments
    induction segments using List.reverseRecOn with
    | nil => exact ⟨ZeroRun.within_zero [], ZeroRun.within_zero [], nofun⟩
    | append_singleton segments segment inductionHypothesis =>
      obtain ⟨longest, current, last⟩ := inductionHypothesis
      rw [List.zipIdx_append, List.foldl_append]
      generalize segments.zipIdx.foldl ZeroRun.turn (⟨0, 0⟩, ⟨0, 0⟩) = runs at longest current last
      rw [List.zipIdx_singleton, Nat.zero_add, List.foldl_cons, List.foldl_nil, ZeroRun.turn]
      by_cases zero : segment = 0
      · rw [if_pos zero]
        have grown : ZeroRun.Within ⟨if runs.2.len = 0 then segments.length else runs.2.start,
            runs.2.len + 1⟩ (segments ++ [segment]) ∧
            (if runs.2.len = 0 then segments.length else runs.2.start) + (runs.2.len + 1) =
              segments.length + 1 := by
          have ends : (if runs.2.len = 0 then segments.length else runs.2.start) +
              (runs.2.len + 1) = segments.length + 1 := by
            split
            · omega
            · have := last (by omega)
              omega
          refine ⟨⟨by rw [List.length_append]; exact Nat.le_of_eq ends,
            fun place from_ before => ?_⟩, ends⟩
          dsimp only at from_ before
          rcases Nat.lt_or_ge place segments.length with inside | behind
          · rw [List.getElem?_append_left inside]
            refine current.2 place ?_ ?_
            · split at from_ <;> omega
            · have := last (by split at from_ <;> omega)
              omega
          · rw [show place = segments.length by omega, List.getElem?_concat_length]
            exact congrArg some zero
        refine ⟨?_, grown.1, fun _ => ?_⟩
        · dsimp only
          split
          · exact grown.1
          · exact longest.append segment
        · rw [List.length_append]
          exact grown.2
      · rw [if_neg zero]
        exact ⟨longest.append segment, ZeroRun.within_zero _, nofun⟩
  exact (both segments).1

theorem ZeroRun.Within.split {segments : List Nat} (within : run.Within segments) :
    segments = segments.take run.start ++ List.replicate run.len 0 ++
      segments.drop (run.start + run.len) := by
  obtain ⟨inside, zero⟩ := within
  have middle : (segments.drop run.start).take run.len = List.replicate run.len 0 := by
    refine List.ext_getElem? fun place => ?_
    rcases Nat.lt_or_ge place run.len with before | behind
    · rw [List.getElem?_take_of_lt before, List.getElem?_drop,
        zero _ (Nat.le_add_right _ _) (by omega), List.getElem?_replicate_of_lt before]
    · rw [List.getElem?_take_eq_none behind,
        List.getElem?_eq_none (by rw [List.length_replicate]; exact behind)]
  rw [← middle, List.append_assoc, ← List.drop_drop, List.take_append_drop, List.take_append_drop]

/-- What is displayed of an address that stands for no IPv4 one is a text of it. -/
theorem ipv6Text_show (own : toIpv4Mapped address = none) :
    Ipv6Text (showIpv6 address) address := by
  have eight : (segments address).length = 8 := length_lastSegments 8 _
  have small : ∀ segment ∈ segments address, segment < 65536 := lastSegments_small 8 _
  have within := longestZeros_within (segments address)
  unfold showIpv6
  rw [own]
  dsimp only
  split
  · next long =>
    have inside := within.1
    have parts := within.split
    have front : ((segments address).take (longestZeros (segments address)).start).length =
        (longestZeros (segments address)).start := by
      rw [List.length_take]
      omega
    have behind : ((segments address).drop ((longestZeros (segments address)).start +
        (longestZeros (segments address)).len)).length =
          8 - ((longestZeros (segments address)).start +
            (longestZeros (segments address)).len) := by
      rw [List.length_drop, eight]
    have spells := Ipv6Text.short
      (someGroups_fmt fun segment member => small segment (List.mem_of_mem_take member))
      (someGroups_fmt fun segment member => small segment (List.mem_of_mem_drop member))
      (show ((segments address).take (longestZeros (segments address)).start).length +
        ((segments address).drop ((longestZeros (segments address)).start +
          (longestZeros (segments address)).len)).length ≤ 7 by omega)
    rwa [front, behind, show 8 - (8 - ((longestZeros (segments address)).start +
      (longestZeros (segments address)).len)) - (longestZeros (segments address)).start =
        (longestZeros (segments address)).len by omega, ← parts, ofGroups_segments] at spells
  · obtain ⟨first, tail, same⟩ := List.exists_cons_of_length_eq_add_one eight
    have spells := Ipv6Text.full (groups_fmt (same ▸ small)) (same ▸ eight)
    rwa [← same, ofGroups_segments] at spells

/-! ### Letters of either case -/

/-- A reader that reads the same from small letters. -/
def CaseBlind {Value : Type} (reader : Reader Value) : Prop :=
  ∀ input, reader (input.map toAsciiLowercase) =
    (reader input).map fun read => (read.1, read.2.map toAsciiLowercase)

theorem lowercase_mark {byte mark : UInt8} (dark : mark < 65 ∨ 90 < mark ∧ mark < 97 ∨ 122 < mark) :
    toAsciiLowercase byte = mark ↔ byte = mark := by
  have small := byte.toNat_lt
  have small' := mark.toNat_lt
  simp only [UInt8.lt_iff_toNat_lt, UInt8.reduceToNat] at dark
  unfold toAsciiLowercase
  split
  · next upper =>
    simp only [UInt8.le_iff_toNat_le, UInt8.reduceToNat] at upper
    rw [← UInt8.toNat_inj, ← UInt8.toNat_inj, UInt8.toNat_add]
    simp only [UInt8.reduceToNat]
    omega
  · exact Iff.rfl

theorem toDigit_lowercase (radix : Nat) (byte : UInt8) :
    toDigit radix (toAsciiLowercase byte) = toDigit radix byte := by
  have table : ∀ byte : Fin 256, hexDigit (toAsciiLowercase (UInt8.ofNat byte)) =
      hexDigit (UInt8.ofNat byte) := by decide +kernel
  have same := table ⟨byte.toNat, byte.toNat_lt⟩
  rw [UInt8.ofNat_toNat] at same
  rw [toDigit, toDigit, same]

theorem readDigits_lowercase (radix maxDigits value count : Nat) (input : Bytes) :
    readDigits radix maxDigits value count (input.map toAsciiLowercase) =
      (readDigits radix maxDigits value count input).map fun read =>
        (read.1, read.2.1, read.2.2.map toAsciiLowercase) := by
  induction input generalizing value count with
  | nil => rfl
  | cons byte rest inductionHypothesis =>
    rw [List.map_cons, readDigits, readDigits, toDigit_lowercase]
    cases toDigit radix byte with
    | none => rfl
    | some digit =>
      dsimp only
      split
      · rfl
      · exact inductionHypothesis _ _

theorem readNumber_blind (radix maxDigits bound : Nat) (allowZeroPrefix : Bool) :
    CaseBlind (readNumber radix maxDigits bound allowZeroPrefix) := by
  intro input
  have lead : ((input.map toAsciiLowercase).head? == some 48) = (input.head? == some 48) := by
    cases input with
    | nil => rfl
    | cons byte rest =>
      rw [Bool.eq_iff_iff, beq_iff_eq, beq_iff_eq, List.map_cons, List.head?_cons, List.head?_cons,
        Option.some_inj, Option.some_inj]
      exact lowercase_mark (.inl (by decide))
  unfold readNumber
  rw [readDigits_lowercase, lead]
  rcases readDigits radix maxDigits 0 0 input with - | ⟨value, count, rest⟩
  · rfl
  · dsimp only [Option.map]
    split
    · rfl
    · split
      · rfl
      · split <;> rfl

theorem readSeparator_blind {Value : Type} {separator : UInt8} (dark : separator < 65)
    (index : Nat) {inner : Reader Value} (blind : CaseBlind inner) :
    CaseBlind (readSeparator separator index inner) := by
  intro input
  unfold readSeparator
  split
  · exact blind input
  · cases input with
    | nil => rfl
    | cons byte rest =>
      rw [List.map_cons]
      dsimp only
      rw [if_congr (lowercase_mark (.inl dark)) (blind rest) rfl]
      split <;> rfl

theorem readOctet_blind (index : Nat) : CaseBlind (readOctet index) :=
  readSeparator_blind (by decide) index (readNumber_blind _ _ _ _)

/-- Two readers one behind the other read the same from small letters where both do. -/
theorem CaseBlind.bind {First Second : Type} {first : Reader First} {second : First → Reader Second}
    (blind : CaseBlind first) (then_ : ∀ value, CaseBlind (second value)) :
    CaseBlind fun input => first input >>= fun read => second read.1 read.2 := by
  intro input
  dsimp only
  rw [blind]
  rcases first input with - | ⟨value, rest⟩
  · rfl
  · exact then_ value rest

theorem readIpv4_blind : CaseBlind readIpv4 := by
  have last : ∀ value : Nat → BitVec 32, CaseBlind fun input =>
      readOctet 3 input >>= fun read => some (value read.1, read.2) := fun value =>
    @CaseBlind.bind _ _ _ (fun fourth rest => some (value fourth, rest)) (readOctet_blind 3)
      fun _ _ => rfl
  exact (readOctet_blind 0).bind fun first => (readOctet_blind 1).bind fun second =>
    (readOctet_blind 2).bind fun third => last fun fourth =>
      BitVec.ofNat 32 (((first * 256 + second) * 256 + third) * 256 + fourth)

theorem readGroups_lowercase (left index : Nat) (input : Bytes) :
    readGroups left index (input.map toAsciiLowercase) =
      ((readGroups left index input).1, (readGroups left index input).2.1,
        (readGroups left index input).2.2.map toAsciiLowercase) := by
  induction left generalizing index input with
  | zero => rfl
  | succ left inductionHypothesis =>
    have dark : colon < 65 := by decide
    rw [readGroups, readGroups, readSeparator_blind dark index readIpv4_blind,
      readSeparator_blind dark index (readNumber_blind _ _ _ _)]
    by_cases last : left = 0
    · rw [if_pos last, if_pos last]
      dsimp only
      rcases readSeparator colon index (readNumber 16 4 65536 true) input with - | read
      · rfl
      · dsimp only [Option.map]
        rw [inductionHypothesis]
    · rw [if_neg last, if_neg last]
      rcases readSeparator colon index readIpv4 input with - | read
      · dsimp only [Option.map]
        rcases readSeparator colon index (readNumber 16 4 65536 true) input with - | read
        · rfl
        · dsimp only
          rw [inductionHypothesis]
      · rfl

theorem readIpv6_blind : CaseBlind readIpv6 := by
  intro input
  unfold readIpv6
  rw [readGroups_lowercase]
  rcases readGroups 8 0 input with ⟨head, headIpv4, rest⟩
  dsimp only
  split
  · rfl
  · split
    · rfl
    · rcases rest with - | ⟨first, - | ⟨second, rest⟩⟩
      · rfl
      · rfl
      · simp only [List.map_cons]
        rw [if_congr (and_congr (lowercase_mark (.inl (by decide)))
          (lowercase_mark (.inl (by decide)))) rfl rfl, readGroups_lowercase]
        split <;> rfl

theorem parseWith_lowercase {Value : Type} {reader : Reader Value} (blind : CaseBlind reader)
    (text : Bytes) : parseWith reader (text.map toAsciiLowercase) = parseWith reader text := by
  unfold parseWith
  rw [blind]
  rcases reader text with - | ⟨value, - | ⟨byte, rest⟩⟩ <;> rfl

theorem parseIpv4_lowercase (text : Bytes) :
    parseIpv4 (text.map toAsciiLowercase) = parseIpv4 text := by
  rw [parseIpv4, parseIpv4, List.length_map, parseWith_lowercase readIpv4_blind]

theorem parseIpv6_lowercase (text : Bytes) :
    parseIpv6 (text.map toAsciiLowercase) = parseIpv6 text :=
  parseWith_lowercase readIpv6_blind text

/-! ### Addresses of either kind -/

variable {text : Bytes}

/-- A text of an address. -/
inductive AddressText : Bytes → IpAddr → Prop
  | v4 {text : Bytes} {address : BitVec 32} (spells : Ipv4Text text address) :
    AddressText text (.v4 address)
  | v6 {text : Bytes} {address : BitVec 128} (spells : Ipv6Text text address) :
    AddressText text (.v6 address)

/-- No address with dots stands at the front of one with colons. -/
theorem Ipv6Text.readIpv4_none (spells : Ipv6Text text address) : readIpv4 text = none := by
  cases spells with
  | full spells eight =>
    cases spells with
    | last => cases eight
    | embedded => cases eight
    | more isGroup later => exact readIpv4_group isGroup (breaks_colon _)
  | short isFront isBack few =>
    rcases isFront with ⟨rfl, -, -⟩ | spells
    · exact Policy.readIpv4_none (breaks_colon _).stops
    · cases spells with
      | last isGroup => exact readIpv4_group isGroup (breaks_colon _)
      | more isGroup later =>
        rw [List.append_assoc]
        exact readIpv4_group isGroup (breaks_colon _)

theorem parseWith_iff {Value : Type} {reader : Reader Value} {value : Value} :
    parseWith reader text = some value ↔ reader text = some (value, []) := by
  unfold parseWith
  rcases reader text with - | ⟨known, - | ⟨byte, rest⟩⟩
  · exact iff_of_false nofun nofun
  · simp
  · exact iff_of_false nofun fun same => by cases same

theorem parseIpAddr_iff {address : IpAddr} :
    parseIpAddr text = some address ↔ AddressText text address := by
  unfold parseIpAddr
  rw [parseWith_iff]
  constructor
  · intro read
    rcases Option.or_eq_some_iff.mp read with four | ⟨-, six⟩
    · obtain ⟨⟨known, behind⟩, front, same⟩ := Option.map_eq_some_iff.mp four
      cases same
      obtain ⟨whole, same, spells, -⟩ := readIpv4_iff.mp front
      rw [same, List.append_nil]
      exact .v4 spells
    · obtain ⟨⟨known, behind⟩, front, same⟩ := Option.map_eq_some_iff.mp six
      cases same
      exact .v6 (parseIpv6_iff.mp (parseWith_iff.mpr front))
  · rintro (spells | spells)
    · rw [readIpv4_iff.mpr ⟨text, (List.append_nil _).symm, spells, fun _ => nofun⟩]
      rfl
    · rw [spells.readIpv4_none, parseWith_iff.mp (parseIpv6_iff.mpr spells)]
      rfl

theorem parseIpAddr_lowercase (text : Bytes) :
    parseIpAddr (text.map toAsciiLowercase) = parseIpAddr text := by
  refine parseWith_lowercase (fun input => ?_) text
  rw [readIpv4_blind, readIpv6_blind]
  rcases readIpv4 input with - | read
  · rcases readIpv6 input with - | read <;> rfl
  · rfl

theorem lowercase_showNumber (large : 1 < radix) (most : radix ≤ 16) (number : Nat) :
    (showNumber radix number).map toAsciiLowercase = showNumber radix number := by
  rw [showNumber, List.map_map]
  refine List.map_congr_left fun digit member => (digitByte_digit digit ?_).2
  exact (lowDigits_lt large number digit (List.mem_reverse.mp member)).trans_le most

theorem lowercase_showIpv4 (address : BitVec 32) :
    (showIpv4 address).map toAsciiLowercase = showIpv4 address := by
  have octet := lowercase_showNumber (show 1 < 10 by decide) (by decide)
  have point : toAsciiLowercase 46 = 46 := by decide
  simp only [showIpv4, List.map_append, List.map_cons, octet, point]

theorem lowercase_fmtSubslice (segments : List Nat) :
    (fmtSubslice segments).map toAsciiLowercase = fmtSubslice segments := by
  have segment := lowercase_showNumber (show 1 < 16 by decide) (Nat.le_refl 16)
  have mark : toAsciiLowercase colon = colon := by decide
  cases segments with
  | nil => rfl
  | cons first tail => simp only [fmtSubslice, List.map_append, List.map_flatMap, List.map_cons,
      segment, mark]

theorem lowercase_showIpv6 (address : BitVec 128) :
    (showIpv6 address).map toAsciiLowercase = showIpv6 address := by
  have mark : toAsciiLowercase colon = colon := by decide
  unfold showIpv6
  split
  · rw [List.map_append, lowercase_showIpv4]
    rfl
  · dsimp only
    split
    · simp only [List.map_append, List.map_cons, lowercase_fmtSubslice, mark]
    · exact lowercase_fmtSubslice _

end ZeroServer.Policy

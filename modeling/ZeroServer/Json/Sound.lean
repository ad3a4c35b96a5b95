/-
This file proves that the parser takes nothing outside the grammar: whatever it answers stands for
the text it took, and whatever it refuses is refused at a place inside the input.
-/

import ZeroServer.Json.Numbers
import ZeroServer.Json.Strings

namespace ZeroServer.Json

open Http1 Lib

/-! ### Moving over texts -/

namespace Parser

theorem rest_skip (parser : Parser) (count : Nat) :
    (parser.skip count).rest = parser.rest.drop count := List.drop_drop.symm

theorem peek_rest (parser : Parser) : parser.input[parser.at_]? = parser.rest.head? :=
  (List.head?_drop).symm

end Parser

/-- The cursor moved over a text. -/
structure Took (parser : Parser) (text : Bytes) (after : Parser) : Prop where
  begins : text <+: parser.rest
  moved : after = { parser.skip text.length with depth := after.depth }

variable {after : Parser} {text : Bytes}

variable {parser : Parser}

theorem Took.rest (took : Took parser text after) : parser.rest = text ++ after.rest := by
  obtain ⟨rest, whole⟩ := took.begins
  have behind : after.rest = (parser.skip text.length).rest := by rw [took.moved]; rfl
  rw [behind, Parser.rest_skip, ← whole, List.drop_left]

theorem took_moving : Moving Took where
  stay state := ⟨List.nil_prefix, rfl⟩
  behind {state middle last first second} left right := by
    have same := left.rest
    refine ⟨?_, ?_⟩
    · obtain ⟨rest, whole⟩ := right.begins
      exact ⟨rest, by rw [same, ← whole, List.append_assoc]⟩
    · rw [right.moved, left.moved, List.length_append]
      unfold Parser.skip
      dsimp only
      rw [Nat.add_assoc]

/-- A refusal of the text, at a place inside it. -/
def Refusal (input : Bytes) (stop : Stop) : Prop :=
  ∃ error, stop = .refused error ∧ error.offset ≤ input.length

section Sound

variable (input : Bytes) (maxDepth : Nat) (bigIntegers : BigIntegers)

/-- A parser of the input with some open containers. -/
structure Stands (depth : Nat) (parser : Parser) : Prop where
  source : parser.input = input
  cap : parser.maxDepth = maxDepth
  mode : parser.bigIntegers = bigIntegers
  level : parser.depth = depth
  inside : parser.at_ ≤ input.length

/-- A parser that answers as it should about what it took, and leaves the depth as it was. -/
def Sound {Answer : Type} (depth : Nat) (parsing : Parsing Answer) (parser : Parser)
    (Spells : Answer → Bytes → Prop) : Prop :=
  parsing.Sound Took (Refusal input) parser fun answer text after =>
    after.depth = depth ∧ Spells answer text

variable {input maxDepth bigIntegers} {depth : Nat} {parser : Parser} {Answer Other : Type}
  {parsing : Parsing Answer} {next : Answer → Parsing Other} {Spells : Answer → Bytes → Prop}
  {Next : Other → Bytes → Prop}

theorem Stands.length (stands : Stands input maxDepth bigIntegers depth parser) :
    parser.at_ + parser.rest.length = input.length := by
  unfold Parser.rest
  rw [List.length_drop, stands.source]
  exact Nat.add_sub_cancel' stands.inside

theorem Stands.took (stands : Stands input maxDepth bigIntegers depth parser)
    (took : Took parser text after) : Stands input maxDepth bigIntegers after.depth after := by
  have length := stands.length
  rw [took.rest, List.length_append] at length
  have place : after.at_ = parser.at_ + text.length := by rw [took.moved]; rfl
  refine ⟨?_, ?_, ?_, rfl, by omega⟩
  · rw [took.moved]; exact stands.source
  · rw [took.moved]; exact stands.cap
  · rw [took.moved]; exact stands.mode

theorem Sound.bind (stands : Stands input maxDepth bigIntegers depth parser)
    (first : Sound input depth parsing parser Spells)
    (later : ∀ answer text after, Stands input maxDepth bigIntegers depth after →
      Took parser text after → Spells answer text →
      Sound input depth (next answer) after fun other rest => Next other (text ++ rest)) :
    Sound input depth (parsing >>= next) parser Next := by
  refine Parse.Sound.bind took_moving first fun answer text after took yields => ?_
  obtain ⟨level, spells⟩ := yields
  exact later answer text after (level ▸ stands.took took) took spells

theorem Sound.weaken (sound : Sound input depth parsing parser Spells)
    {Weaker : Answer → Bytes → Prop}
    (weaker : ∀ answer text, Spells answer text → Weaker answer text) :
    Sound input depth parsing parser Weaker :=
  Parse.Sound.weaken sound fun answer text _ _ yields =>
    ⟨yields.1, weaker answer text yields.2⟩

theorem Sound.map (sound : Sound input depth parsing parser Spells) {f : Answer → Other}
    (spells : ∀ answer text, Spells answer text → Next (f answer) text) :
    Sound input depth (f <$> parsing) parser Next :=
  Parse.Sound.map sound fun answer text _ _ yields => ⟨yields.1, spells answer text yields.2⟩

variable {answer : Answer}

theorem Sound.pure (stands : Stands input maxDepth bigIntegers depth parser)
    (spells : Spells answer []) : Sound input depth (Pure.pure answer) parser Spells :=
  Parse.Sound.pure took_moving ⟨stands.level, spells⟩

theorem Sound.of_ok (ran : parsing parser = .ok (answer, after)) (took : Took parser text after)
    (level : after.depth = depth) (spells : Spells answer text) :
    Sound input depth parsing parser Spells := by
  unfold Sound Parse.Sound
  rw [ran]
  exact ⟨text, took, level, spells⟩

theorem Sound.of_error {error : ParseError} (ran : parsing parser = .error (.refused error))
    (inside : error.offset ≤ input.length) : Sound input depth parsing parser Spells := by
  unfold Sound Parse.Sound
  rw [ran]
  exact ⟨error, rfl, inside⟩

/-! ### Steps of the cursor -/

variable {kind : ErrorKind} {offset : Nat}

theorem peek_sound {next : Option UInt8 → Parsing Other}
    (later : Sound input depth (next parser.rest.head?) parser Next) :
    Sound input depth (peek >>= next) parser Next := by
  unfold Sound Parse.Sound at later ⊢
  rw [Parse.bind_ok (show peek parser = .ok (parser.rest.head?, parser) by
    unfold peek
    rw [parser.peek_rest])]
  exact later

theorem get_sound {next : Parser → Parsing Other}
    (later : Sound input depth (next parser) parser Next) :
    Sound input depth (get >>= next) parser Next := by
  unfold Sound Parse.Sound at later ⊢
  rw [Parse.bind_ok (show (get : Parsing Parser) parser = .ok (parser, parser) from rfl)]
  exact later

theorem errorAt_sound (inside : offset ≤ input.length) :
    Sound input depth (errorAt kind offset : Parsing Answer) parser Spells :=
  ⟨⟨kind, offset⟩, rfl, inside⟩

theorem error_sound (stands : Stands input maxDepth bigIntegers depth parser) :
    Sound input depth (error kind : Parsing Answer) parser Spells :=
  ⟨⟨kind, parser.at_⟩, rfl, stands.inside⟩

theorem endOr_eq (kind : ErrorKind) (parser : Parser) :
    ∃ found, (endOr kind : Parsing Answer) parser = .error (.refused ⟨found, parser.at_⟩) := by
  unfold endOr
  split
  · exact ⟨.unexpectedEnd, rfl⟩
  · exact ⟨kind, rfl⟩

theorem endOr_sound (stands : Stands input maxDepth bigIntegers depth parser) :
    Sound input depth (endOr kind : Parsing Answer) parser Spells := by
  obtain ⟨found, refused⟩ := @endOr_eq Answer kind parser
  exact Sound.of_error refused stands.inside

theorem advance_sound (stands : Stands input maxDepth bigIntegers depth parser) {text : Bytes}
    (begins : text <+: parser.rest) :
    Sound input depth (advance text.length) parser fun _ taken => taken = text :=
  ⟨text, ⟨begins, rfl⟩, stands.level, rfl⟩

theorem advance_one_sound (stands : Stands input maxDepth bigIntegers depth parser) {byte : UInt8}
    (first : parser.rest.head? = some byte) :
    Sound input depth (advance 1) parser fun _ taken => taken = [byte] := by
  obtain ⟨rest, whole⟩ := List.head?_eq_some_iff.mp first
  exact @advance_sound _ _ _ _ _ stands [byte] ⟨rest, whole.symm⟩

theorem skipWhile_sound (stands : Stands input maxDepth bigIntegers depth parser)
    (test : UInt8 → Bool) :
    Sound input depth (skipWhile test) parser fun _ text =>
      text = parser.rest.takeWhile test :=
  ⟨parser.rest.takeWhile test, ⟨List.takeWhile_prefix test, rfl⟩, stands.level, rfl⟩

theorem skipWs_sound (stands : Stands input maxDepth bigIntegers depth parser) :
    Sound input depth skipWs parser fun _ text => Blank text :=
  (skipWhile_sound stands isWs).weaken fun _ _ same _ member =>
    List.mem_takeWhile_imp (same ▸ member)

theorem optional_sound (stands : Stands input maxDepth bigIntegers depth parser)
    (test : UInt8 → Bool) :
    Sound input depth (optional test) parser fun found text =>
      if found then ∃ byte, test byte = true ∧ text = [byte] else text = [] := by
  refine peek_sound ?_
  rcases first : parser.rest.head? with _ | byte
  · exact Sound.pure stands rfl
  · dsimp only
    split
    · exact (advance_one_sound stands first).map fun _ text same => ⟨byte, ‹_›, same⟩
    · exact Sound.pure stands rfl

/-! ### Literals -/

theorem literal_sound (stands : Stands input maxDepth bigIntegers depth parser) (word : Bytes)
    (value : Value) :
    Sound input depth (literal word value) parser fun answer text =>
      answer = value ∧ text = word := by
  by_cases begins : word.isPrefixOf parser.rest = true
  · refine Sound.of_ok (if_pos begins) ⟨List.isPrefixOf_iff_prefix.mp begins, rfl⟩ stands.level ?_
    exact ⟨rfl, rfl⟩
  · have short : ((parser.rest.zip word).takeWhile fun pair => pair.1 = pair.2).length ≤
        parser.rest.length := by
      refine Nat.le_trans (List.takeWhile_prefix _).length_le ?_
      rw [List.length_zip]
      exact Nat.min_le_left _ _
    have length := stands.length
    obtain ⟨found, refused⟩ := @endOr_eq Value .unexpectedByte (parser.skip
      ((parser.rest.zip word).takeWhile fun pair => pair.1 = pair.2).length)
    refine Sound.of_error ((if_neg begins).trans refused) ?_
    change parser.at_ + _ ≤ _
    omega

/-! ### Numbers -/

theorem someDigits_sound (stands : Stands input maxDepth bigIntegers depth parser) :
    Sound input depth someDigits parser fun _ text => Digits text := by
  refine peek_sound ?_
  rcases first : parser.rest.head? with _ | byte
  · exact endOr_sound stands
  · dsimp only
    split
    · next digit =>
      refine (skipWhile_sound stands isAsciiDigit).weaken fun _ text same => ?_
      obtain ⟨rest, whole⟩ := List.head?_eq_some_iff.mp first
      rw [whole, List.takeWhile_cons_of_pos digit] at same
      refine ⟨same ▸ List.cons_ne_nil _ _, fun other member => ?_⟩
      rw [same] at member
      rcases List.mem_cons.mp member with rfl | later
      · exact digit
      · exact List.mem_takeWhile_imp later
    · exact endOr_sound stands

theorem integerPart_sound (stands : Stands input maxDepth bigIntegers depth parser) :
    Sound input depth integerPart parser fun _ text =>
      Digits text ∧ (text.head? = some 48 → text = [48]) := by
  refine peek_sound ?_
  rcases first : parser.rest.head? with _ | byte
  · exact endOr_sound stands
  · dsimp only
    by_cases zero : byte = 48
    · rw [if_pos zero]
      refine (advance_one_sound stands first).weaken fun _ text same => ?_
      rw [same, zero]
      exact ⟨⟨nofun, List.all_eq_true.mp rfl⟩, fun _ => rfl⟩
    · rw [if_neg zero]
      split
      · next digit =>
        refine (skipWhile_sound stands isAsciiDigit).weaken fun _ text same => ?_
        obtain ⟨rest, whole⟩ := List.head?_eq_some_iff.mp first
        rw [whole, List.takeWhile_cons_of_pos digit] at same
        refine ⟨⟨same ▸ List.cons_ne_nil _ _, fun other member => ?_⟩, fun head => ?_⟩
        · rw [same] at member
          rcases List.mem_cons.mp member with rfl | later
          · exact digit
          · exact List.mem_takeWhile_imp later
        · rw [same] at head
          exact absurd (Option.some.inj head) zero
      · exact endOr_sound stands

theorem fractionPart_sound (stands : Stands input maxDepth bigIntegers depth parser) :
    Sound input depth fractionPart parser fun found text =>
      ∃ fraction : Option Bytes, found = fraction.isSome ∧
        (∀ digits, fraction = some digits → Digits digits) ∧
        text = fraction.elim [] fun digits => dot :: digits := by
  refine (optional_sound stands (· = dot)).bind stands fun found text after behind took spells => ?_
  cases found with
  | false => exact Sound.pure behind ⟨none, rfl, nofun, by rw [show text = [] from spells]; rfl⟩
  | true =>
    obtain ⟨byte, isDot, rfl⟩ := spells
    refine (someDigits_sound behind).map fun _ digits isDigits => ⟨some digits, rfl, ?_, ?_⟩
    · intro other same
      cases same
      exact isDigits
    · rw [of_decide_eq_true isDot]
      rfl

theorem exponentPart_sound (stands : Stands input maxDepth bigIntegers depth parser) :
    Sound input depth exponentPart parser fun found text =>
      ∃ exponent : Option Exponent, found = exponent.isSome ∧
        (∀ given, exponent = some given → given.WellFormed) ∧
        text = exponent.elim [] Exponent.text := by
  refine (optional_sound stands _).bind stands fun found text after behind took spells => ?_
  cases found with
  | false => exact Sound.pure behind ⟨none, rfl, nofun, by rw [show text = [] from spells]; rfl⟩
  | true =>
    obtain ⟨mark, isMark, rfl⟩ := spells
    refine (optional_sound behind _).bind behind fun signed sign last beyond tookSign spells => ?_
    refine (someDigits_sound beyond).map fun _ digits isDigits => ?_
    have isMark := of_decide_eq_true isMark
    cases signed with
    | false =>
      refine ⟨some ⟨mark, none, digits⟩, rfl, ?_, ?_⟩
      · intro given same
        cases same
        exact ⟨isMark, nofun, isDigits⟩
      · rw [show sign = [] from spells]
        rfl
    | true =>
      obtain ⟨byte, isSign, rfl⟩ := spells
      refine ⟨some ⟨mark, some byte, digits⟩, rfl, ?_, rfl⟩
      intro given same
      cases same
      refine ⟨isMark, fun other same => ?_, isDigits⟩
      cases same
      exact of_decide_eq_true isSign

theorem Took.slice (took : Took parser text after) :
    (after.input.take after.at_).drop parser.at_ = text := by
  obtain ⟨rest, whole⟩ := took.begins
  rw [took.moved]
  change (parser.input.take (parser.at_ + text.length)).drop parser.at_ = text
  rw [List.drop_take, Nat.add_sub_cancel_left]
  change parser.rest.take text.length = text
  rw [← whole, List.take_left]

/-- A number stands for what it becomes. -/
theorem number_sound (stands : Stands input maxDepth bigIntegers depth parser) :
    Sound input depth number parser fun answer text =>
      ∃ number : Number, number.WellFormed ∧ number.Accepted bigIntegers ∧ text = number.text ∧
        answer = number.value bigIntegers := by
  refine get_sound ((optional_sound stands _).bind stands
    fun signed sign first behindSign tookSign spellsSign => ?_)
  refine (integerPart_sound behindSign).bind behindSign
    fun _ whole second behindWhole tookWhole spellsWhole => ?_
  refine (fractionPart_sound behindWhole).bind behindWhole
    fun fractional fractionText third behindFraction tookFraction spellsFraction => ?_
  refine (exponentPart_sound behindFraction).bind behindFraction
    fun scaled exponentText last behindExponent tookExponent spellsExponent => ?_
  obtain ⟨fraction, rfl, isFraction, rfl⟩ := spellsFraction
  obtain ⟨exponent, rfl, isExponent, rfl⟩ := spellsExponent
  let number : Number := ⟨signed, whole, fraction, exponent⟩
  have wellFormed : number.WellFormed := ⟨spellsWhole.1, spellsWhole.2, isFraction, isExponent⟩
  have signText : sign = number.signText := by
    unfold Number.signText
    cases signed with
    | false => exact spellsSign
    | true =>
      obtain ⟨byte, isMinus, rfl⟩ := spellsSign
      rw [of_decide_eq_true isMinus]
      rfl
  have text : sign ++ (whole ++ (fraction.elim [] (fun digits => dot :: digits) ++
      exponent.elim [] Exponent.text)) = number.text := by
    unfold Number.text Number.fractionText Number.exponentText
    rw [signText]
    rcases fraction with _ | digits <;> rcases exponent with _ | given <;> rfl
  have literal := (took_moving.behind tookSign (took_moving.behind tookWhole
    (took_moving.behind tookFraction tookExponent))).slice
  rw [text] at literal
  have mode := behindExponent.mode
  by_cases accepted : number.Accepted bigIntegers
  · have ran := Number.numberValue_ok wellFormed (mode ▸ accepted) literal
    refine Sound.of_ok ran (took_moving.stay last) behindExponent.level ?_
    refine ⟨number, wellFormed, accepted, ?_, by rw [mode]⟩
    rw [List.append_nil, text]
  · have ran := Number.numberValue_error wellFormed (mode ▸ accepted) literal
    exact Sound.of_error ran stands.inside

/-! ### Strings -/

variable {fuel : Nat}

theorem hexDigits_sound {count : Nat} {unit : UInt16}
    (stands : Stands input maxDepth bigIntegers depth parser)
    (room : (unit.toNat + 1) * 16 ^ count ≤ 2 ^ 16) :
    Sound input depth (hexDigits count unit) parser fun answer text =>
      text.length = count ∧ ∃ values : List UInt8, text.map hexDigit = values.map some ∧
        answer.toNat = numeral 16 unit.toNat (values.map UInt8.toNat) := by
  induction count generalizing unit parser with
  | zero => exact Sound.pure stands ⟨rfl, [], rfl, rfl⟩
  | succ count inductionHypothesis =>
    refine peek_sound ?_
    rcases read : parser.rest.head?.bind hexDigit with _ | digit
    · exact endOr_sound stands
    · obtain ⟨byte, first, read⟩ := Option.bind_eq_some_iff.mp read
      refine (advance_one_sound stands first).bind stands fun _ text after behind took same => ?_
      subst same
      have small := hexDigit_lt read
      have roomy := hexStep_room room small
      refine (inductionHypothesis behind roomy.2).weaken fun answer rest spells => ?_
      obtain ⟨length, values, reads, value⟩ := spells
      refine ⟨by rw [← length]; rfl, digit :: values, ?_, ?_⟩
      · rw [List.singleton_append, List.map_cons, List.map_cons, reads, read]
      · rw [value, hexStep roomy.1 small, List.map_cons, numeral_cons]

theorem hex4_sound (stands : Stands input maxDepth bigIntegers depth parser) :
    Sound input depth hex4 parser fun answer text => Hex4 text answer.toNat :=
  hexDigits_sound stands (by decide)

theorem encodeCode_sound (stands : Stands input maxDepth bigIntegers depth parser) {code : UInt32}
    (inside : offset ≤ input.length) :
    Sound input depth (encodeCode code offset) parser fun answer text =>
      text = [] ∧ answer = String.utf8EncodeChar (Char.ofNat code.toNat) := by
  unfold encodeCode
  split
  · exact Sound.pure stands ⟨rfl, rfl⟩
  · exact errorAt_sound inside

/-- What is behind the letter of a `\u` escape is the rest of an item. -/
theorem unicodeEscape_sound (stands : Stands input maxDepth bigIntegers depth parser)
    (inside : offset ≤ input.length) :
    Sound input depth (unicodeEscape offset) parser fun answer text =>
      ∃ char, StringItem (backslash :: 117 :: text) char ∧
        answer = String.utf8EncodeChar char := by
  refine (hex4_sound stands).bind stands fun unit digits after behind took hex => ?_
  by_cases high : isHighSurrogate unit = true
  · rw [if_pos high]
    refine get_sound ?_
    by_cases begins : (ascii "\\u").isPrefixOf after.rest = true
    · rw [if_pos begins]
      refine (advance_sound behind (List.isPrefixOf_iff_prefix.mp begins)).bind behind
        fun _ mark second behindMark tookMark same => ?_
      refine (hex4_sound behindMark).bind behindMark
        fun low lows last behindLow tookLow hexLow => ?_
      by_cases isLow : isLowSurrogate low = true
      · rw [if_pos isLow]
        refine (encodeCode_sound behindLow inside).weaken fun answer rest spells => ?_
        obtain ⟨rfl, rfl⟩ := spells
        have isHigh := isHighSurrogate_iff.mp high
        have isLow := isLowSurrogate_iff.mp isLow
        rw [toNat_pairCode isHigh isLow, List.append_nil, same]
        exact ⟨_, .pair hex hexLow isHigh isLow, rfl⟩
      · rw [if_neg isLow]
        exact errorAt_sound inside
    · rw [if_neg begins]
      exact errorAt_sound inside
  · rw [if_neg high]
    by_cases low : isLowSurrogate unit = true
    · rw [if_pos low]
      exact errorAt_sound inside
    · rw [if_neg low]
      refine (encodeCode_sound behind inside).weaken fun answer rest spells => ?_
      obtain ⟨rfl, rfl⟩ := spells
      rw [List.append_nil]
      refine ⟨_, .unit hex (mt isHighSurrogate_iff.mpr high) (mt isLowSurrogate_iff.mpr low), ?_⟩
      rw [UInt16.toNat_toUInt32]

theorem shortEscape_among {kind byte : UInt8} (short : shortEscape kind = some byte) :
    ∃ char, (kind, char) ∈ shortEscapes ∧ [byte] = String.utf8EncodeChar char := by
  have all : ∀ kind : Fin 256, (shortEscape ⟨⟨kind⟩⟩).all (fun byte => shortEscapes.any fun entry =>
      entry.1 == ⟨⟨kind⟩⟩ && [byte] == String.utf8EncodeChar entry.2) = true := by
    decide +kernel
  obtain ⟨⟨letter, char⟩, among, found⟩ :=
    List.any_eq_true.mp ((Option.all_eq_true _ _).mp (all kind.toBitVec.toFin) byte short)
  obtain ⟨same, encoded⟩ := Bool.and_eq_true_iff.mp found
  obtain rfl : letter = kind := beq_iff_eq.mp same
  exact ⟨char, among, beq_iff_eq.mp encoded⟩

/-- An escape is an item. -/
theorem escape_sound (stands : Stands input maxDepth bigIntegers depth parser)
    (first : parser.rest.head? = some backslash) :
    Sound input depth escape parser fun answer text =>
      ∃ char, StringItem text char ∧ answer = String.utf8EncodeChar char := by
  refine get_sound ((advance_one_sound stands first).bind stands
    fun _ mark after behind took same => ?_)
  subst same
  refine peek_sound ?_
  rcases second : after.rest.head? with _ | kind
  · exact error_sound behind
  · refine (advance_one_sound behind second).bind behind fun _ letter last beyond tookOn same => ?_
    subst same
    rcases short : shortEscape kind with _ | byte
    · by_cases unicode : kind = 117
      · dsimp only
        rw [if_pos unicode, unicode]
        exact unicodeEscape_sound beyond stands.inside
      · dsimp only
        rw [if_neg unicode]
        exact errorAt_sound stands.inside
    · obtain ⟨char, among, encoded⟩ := shortEscape_among short
      exact Sound.pure beyond ⟨char, .short among, encoded⟩

/-- The bytes of a string are pieces and the closing mark. -/
theorem stringBytes_sound {out : Bytes} (stands : Stands input maxDepth bigIntegers depth parser)
    (room : parser.rest.length < fuel) :
    Sound input depth (stringBytes fuel out) parser fun answer text =>
      ∃ content decoded, Pieces content decoded ∧ text = content ++ [quote] ∧
        answer = out ++ decoded := by
  induction fuel generalizing parser out with
  | zero => exact absurd room (Nat.not_lt_zero _)
  | succ fuel inductionHypothesis =>
    refine peek_sound ?_
    rcases first : parser.rest.head? with _ | byte
    · exact error_sound stands
    · dsimp only
      have shorter : ∀ {text : Bytes} {after : Parser}, Took parser text after → text ≠ [] →
          after.rest.length < fuel := by
        intro text after took some_
        have length := congrArg List.length took.rest
        rw [List.length_append] at length
        have positive := List.length_pos_iff.mpr some_
        omega
      by_cases closing : byte = quote
      · rw [if_pos closing]
        refine (advance_one_sound stands first).map fun _ text same => ?_
        exact ⟨[], [], .nil, by rw [same, closing]; rfl, (List.append_nil out).symm⟩
      · rw [if_neg closing]
        by_cases escaping : byte = backslash
        · rw [if_pos escaping]
          refine (escape_sound stands (escaping ▸ first)).bind stands
            fun decoded text after behind took spells => ?_
          obtain ⟨char, item, rfl⟩ := spells
          refine (inductionHypothesis behind (shorter took item.text_some)).weaken
            fun answer rest spells => ?_
          obtain ⟨content, more, pieces, rfl, rfl⟩ := spells
          refine ⟨text ++ content, _, .cons (.escaped item) pieces, ?_, ?_⟩
          · rw [List.append_assoc]
          · rw [List.append_assoc]
        · rw [if_neg escaping]
          by_cases control : byte < 0x20
          · rw [if_pos control]
            exact error_sound stands
          · rw [if_neg control]
            refine (advance_one_sound stands first).bind stands
              fun _ text after behind took same => ?_
            subst same
            refine (inductionHypothesis behind (shorter took (List.cons_ne_nil _ _))).weaken
              fun answer rest spells => ?_
            obtain ⟨content, more, pieces, rfl, rfl⟩ := spells
            refine ⟨[byte] ++ content, _, .cons (.raw (UInt8.not_lt.mp control) closing escaping)
              pieces, ?_, ?_⟩
            · rw [List.append_assoc]
            · rw [List.append_assoc]

/-- A string stands for its characters. -/
theorem string_sound (stands : Stands input maxDepth bigIntegers depth parser)
    (first : parser.rest.head? = some quote) :
    Sound input depth string parser fun answer text => StringText text answer := by
  refine get_sound ((advance_one_sound stands first).bind stands
    fun _ mark after behind took same => ?_)
  subst same
  have room : after.rest.length < parser.input.length + 1 := by
    have length := behind.length
    rw [stands.source]
    omega
  refine (stringBytes_sound behind room).bind behind fun out text last beyond tookOn spells => ?_
  obtain ⟨content, decoded, pieces, rfl, same⟩ := spells
  obtain rfl : out = decoded := same
  rcases isText : Utf8.decode out with _ | chars
  · exact errorAt_sound stands.inside
  · refine Sound.pure beyond ?_
    rw [List.append_nil]
    rw [Utf8.encode_of_decode isText] at pieces
    exact .quoted pieces.content

/-! ### Containers -/

section Items

variable {Item : Type} {item : Parsing Item} {IsItem : Bytes → Item → Prop} {closing : UInt8}

/-- Items between commas are a sequence. -/
theorem sequence_sound {items : List Item}
    (each : ∀ parser, Stands input maxDepth bigIntegers depth parser →
      Sound input depth item parser fun answer text => text ≠ [] ∧ IsItem text answer)
    (stands : Stands input maxDepth bigIntegers depth parser) (room : parser.rest.length < fuel) :
    Sound input depth (sequence item closing fuel items) parser fun answer text =>
      ∃ body more, SequenceText IsItem body more ∧ text = body ++ [closing] ∧
        answer = items ++ more := by
  induction fuel generalizing parser items with
  | zero => exact absurd room (Nat.not_lt_zero _)
  | succ fuel inductionHypothesis =>
    refine (skipWs_sound stands).bind stands fun _ before first atFirst tookBlank blank => ?_
    refine (each first atFirst).bind atFirst fun next text second atSecond tookItem spells => ?_
    obtain ⟨some_, isItem⟩ := spells
    refine (skipWs_sound atSecond).bind atSecond
      fun _ after third atThird tookAfter blankAfter => ?_
    refine peek_sound ?_
    rcases head : third.rest.head? with _ | byte
    · exact endOr_sound atThird
    · dsimp only
      by_cases isComma : byte = comma
      · rw [if_pos isComma]
        refine (advance_one_sound atThird head).bind atThird
          fun _ mark last atLast tookMark same => ?_
        subst same
        have shorter : last.rest.length < fuel := by
          have length := congrArg List.length (took_moving.behind tookBlank
            (took_moving.behind tookItem (took_moving.behind tookAfter tookMark))).rest
          rw [List.length_append, List.length_append, List.length_append] at length
          have positive := List.length_pos_iff.mpr some_
          omega
        refine (inductionHypothesis atLast shorter).weaken fun answer rest spells => ?_
        obtain ⟨body, more, isSequence, rfl, rfl⟩ := spells
        refine ⟨_, _, .more blank isItem blankAfter isSequence, ?_, ?_⟩
        · rw [isComma]
          simp only [List.append_assoc, List.cons_append, List.nil_append]
        · rw [List.append_assoc]
          rfl
      · rw [if_neg isComma]
        by_cases isClosing : byte = closing
        · rw [if_pos isClosing]
          refine (advance_one_sound atThird head).map fun _ mark same => ?_
          refine ⟨_, _, .last blank isItem blankAfter, ?_, rfl⟩
          rw [same, isClosing]
          simp only [List.append_assoc]
        · rw [if_neg isClosing]
          exact endOr_sound atThird

theorem enclosed_sound {opening : UInt8}
    (each : ∀ parser, Stands input maxDepth bigIntegers depth parser →
      Sound input depth item parser fun answer text => text ≠ [] ∧ IsItem text answer)
    (stands : Stands input maxDepth bigIntegers depth parser)
    (first : parser.rest.head? = some opening) :
    Sound input depth (enclosed item closing) parser fun answer text =>
      Enclosed IsItem opening closing text answer := by
  refine (advance_one_sound stands first).bind stands fun _ mark after behind took same => ?_
  subst same
  refine (skipWs_sound behind).bind behind fun _ blank last beyond tookBlank isBlank => ?_
  refine peek_sound ?_
  by_cases closed : last.rest.head? = some closing
  · rw [if_pos closed]
    refine (advance_one_sound beyond closed).map fun _ text same => ?_
    rw [same]
    exact .empty isBlank
  · rw [if_neg closed]
    refine get_sound ?_
    have room : last.rest.length < last.input.length + 1 := by
      have length := beyond.length
      rw [beyond.source]
      omega
    refine (sequence_sound each beyond room).weaken fun answer text spells => ?_
    obtain ⟨body, more, isSequence, rfl, rfl⟩ := spells
    rw [← List.append_assoc blank]
    exact .filled (isSequence.lead isBlank)

/-- A container opens one level, and closes it behind its items. -/
theorem container_sound {opening : UInt8}
    (each : depth < maxDepth → ∀ parser, Stands input maxDepth bigIntegers (depth + 1) parser →
      Sound input (depth + 1) item parser fun answer text => text ≠ [] ∧ IsItem text answer)
    (stands : Stands input maxDepth bigIntegers depth parser)
    (first : parser.rest.head? = some opening) :
    Sound input depth (container item closing) parser fun answer text =>
      depth < maxDepth ∧ Enclosed IsItem opening closing text answer := by
  have level := stands.level
  have cap := stands.cap
  by_cases deep : parser.maxDepth < parser.depth + 1
  · refine Sound.of_error (Parse.bind_error (if_pos deep)) stands.inside
  · have within : depth < maxDepth := by omega
    let entered : Parser := { parser with depth := parser.depth + 1 }
    have opened : enter parser = .ok ((), entered) := if_neg deep
    have standsIn : Stands input maxDepth bigIntegers (depth + 1) entered :=
      ⟨stands.source, stands.cap, stands.mode, congrArg (· + 1) level, stands.inside⟩
    have inside := @enclosed_sound _ _ _ _ _ _ _ _ closing opening (each within) standsIn first
    have ran : container item closing parser =
        (enclosed item closing >>= fun items => leave >>= fun _ => pure items) entered :=
      Parse.bind_ok opened
    unfold Sound Parse.Sound at inside ⊢
    rw [ran]
    rcases body : enclosed item closing entered with stop | ⟨items, last⟩
    · rw [body] at inside
      rw [Parse.bind_error body]
      exact inside
    · rw [body] at inside
      obtain ⟨text, took, lastLevel, isEnclosed⟩ := inside
      rw [Parse.bind_ok body]
      refine ⟨text, ⟨took.begins, ?_⟩, ?_, within, isEnclosed⟩
      · rw [took.moved]
        rfl
      · change last.depth - 1 = depth
        omega

end Items

/-! ### Values -/

theorem expect_sound (stands : Stands input maxDepth bigIntegers depth parser) (byte : UInt8) :
    Sound input depth (expect byte) parser fun _ text => text = [byte] := by
  refine peek_sound ?_
  by_cases first : parser.rest.head? = some byte
  · rw [if_pos first]
    exact advance_one_sound stands first
  · rw [if_neg first]
    exact endOr_sound stands

theorem member_sound {parseValue : Parsing Value} {IsValue : Bytes → Value → Prop}
    (each : ∀ parser, Stands input maxDepth bigIntegers depth parser →
      Sound input depth parseValue parser fun answer text => text ≠ [] ∧ IsValue text answer)
    (stands : Stands input maxDepth bigIntegers depth parser) :
    Sound input depth (member parseValue) parser fun answer text =>
      text ≠ [] ∧ MemberText IsValue text answer := by
  refine peek_sound ?_
  by_cases first : parser.rest.head? = some quote
  · rw [if_pos first]
    refine (string_sound stands first).bind stands fun spelled name second atSecond _ isName => ?_
    refine (skipWs_sound atSecond).bind atSecond fun _ after third atThird _ blankAfter => ?_
    refine (expect_sound atThird colon).bind atThird fun _ mark fourth atFourth _ same => ?_
    refine (skipWs_sound atFourth).bind atFourth fun _ before fifth atFifth _ blankBefore => ?_
    refine (each fifth atFifth).bind atFifth fun held bytes last atLast _ spells => ?_
    refine Sound.pure atLast ?_
    rw [same, List.append_nil, List.singleton_append]
    refine ⟨List.append_ne_nil_of_left_ne_nil isName.text_some _, ?_⟩
    exact .member isName blankAfter blankBefore spells.2
  · rw [if_neg first]
    exact endOr_sound stands

/-- A value nests no more containers than there is room for. -/
theorem value_sound (stands : Stands input maxDepth bigIntegers depth parser)
    (room : maxDepth - depth < fuel) :
    Sound input depth (value fuel) parser fun answer text =>
      ValueText (Number.Accepted bigIntegers) bigIntegers (maxDepth - depth) text answer := by
  induction fuel generalizing parser depth with
  | zero => exact absurd room (Nat.not_lt_zero _)
  | succ fuel inductionHypothesis =>
    have each : depth < maxDepth → ∀ parser, Stands input maxDepth bigIntegers (depth + 1) parser →
        Sound input (depth + 1) (value fuel) parser fun answer text => text ≠ [] ∧
          ValueText (Number.Accepted bigIntegers) bigIntegers (maxDepth - (depth + 1)) text
            answer :=
      fun within parser stands => (inductionHypothesis stands (by omega)).weaken
        fun _ _ isValue => ⟨isValue.text_some, isValue⟩
    have nested : ∀ {text : Bytes} {answer : Value}, depth < maxDepth → ContainerText
        (ValueText (Number.Accepted bigIntegers) bigIntegers (maxDepth - (depth + 1))) text answer →
        ValueText (Number.Accepted bigIntegers) bigIntegers (maxDepth - depth) text answer := by
      intro text answer within isContainer
      rw [show maxDepth - depth = maxDepth - (depth + 1) + 1 by omega]
      exact .inr isContainer
    refine peek_sound ?_
    rcases first : parser.rest.head? with _ | byte
    · exact error_sound stands
    · dsimp only
      by_cases isObject : byte = openBrace
      · rw [if_pos isObject]
        refine (container_sound (fun within parser stands => member_sound (each within) stands)
          stands (isObject ▸ first)).map fun _ _ spells => ?_
        exact nested spells.1 (.object spells.2)
      rw [if_neg isObject]
      by_cases isArray : byte = openBracket
      · rw [if_pos isArray]
        refine (container_sound each stands (isArray ▸ first)).map fun _ _ spells => ?_
        exact nested spells.1 (.array spells.2)
      rw [if_neg isArray]
      by_cases isString : byte = quote
      · rw [if_pos isString]
        exact (string_sound stands (isString ▸ first)).map fun _ _ spells =>
          ValueText.of_scalar (.string spells)
      rw [if_neg isString]
      split
      · refine (literal_sound stands _ _).weaken fun _ _ spells => ?_
        rw [spells.1, spells.2]
        exact .of_scalar .true
      split
      · refine (literal_sound stands _ _).weaken fun _ _ spells => ?_
        rw [spells.1, spells.2]
        exact .of_scalar .false
      split
      · refine (literal_sound stands _ _).weaken fun _ _ spells => ?_
        rw [spells.1, spells.2]
        exact .of_scalar .null
      split
      · refine (number_sound stands).weaken fun _ _ spells => ?_
        obtain ⟨number, wellFormed, accepted, rfl, rfl⟩ := spells
        exact .of_scalar (.number wellFormed accepted)
      · exact error_sound stands

theorem document_sound (stands : Stands input maxDepth bigIntegers 0 parser) :
    Sound input 0 (document (maxDepth + 1)) parser fun answer text =>
      ∃ before bytes after, text = before ++ (bytes ++ after) ∧ Blank before ∧ Blank after ∧
        ValueText (Number.Accepted bigIntegers) bigIntegers maxDepth bytes answer := by
  refine (skipWs_sound stands).bind stands fun _ before first atFirst _ blankBefore => ?_
  refine (value_sound atFirst (Nat.lt_succ_self _)).bind atFirst
    fun answer bytes second atSecond _ isValue => ?_
  refine (skipWs_sound atSecond).bind atSecond fun _ after last atLast _ blankAfter => ?_
  refine Sound.pure atLast ⟨before, bytes, after, ?_, blankBefore, blankAfter, isValue⟩
  rw [List.append_nil]

end Sound

/-- What is parsed is a text of the grammar, and what is refused is refused inside the input. -/
theorem parseWith_sound (input : Bytes) (options : Options) :
    (∀ stop, parseWith input options = .error stop → Refusal input stop) ∧
      ∀ parsed, parseWith input options = .ok parsed →
        input.length ≤ options.maxSize ∧
        JsonText (Number.Accepted options.bigIntegers) options.bigIntegers
          (min options.maxDepth depthCap) input parsed ∧
        (options.topLevel = .objectOrArray → parsed.isContainer = true) := by
  unfold parseWith
  by_cases large : options.maxSize < input.length
  · rw [if_pos large]
    exact ⟨fun stop same => ⟨⟨.tooLarge, 0⟩, (Except.error.inj same).symm, Nat.zero_le _⟩, nofun⟩
  rw [if_neg large]
  dsimp only
  obtain ⟨mark, start, marked, placed, split⟩ : ∃ mark start, (mark = [] ∨ mark = bom) ∧
      (if bom.isPrefixOf input then 3 else 0) = start ∧ input = mark ++ input.drop start := by
    by_cases begins : bom.isPrefixOf input = true
    · obtain ⟨rest, rfl⟩ := List.isPrefixOf_iff_prefix.mp begins
      exact ⟨bom, 3, .inr rfl, if_pos begins, rfl⟩
    · exact ⟨[], 0, .inl rfl, if_neg begins, rfl⟩
  rw [placed]
  have inside : start ≤ input.length := by
    by_cases begins : bom.isPrefixOf input = true
    · rw [if_pos begins] at placed
      rw [← placed]
      exact (List.isPrefixOf_iff_prefix.mp begins).length_le
    · rw [if_neg begins] at placed
      rw [← placed]
      exact Nat.zero_le _
  have sound := @document_sound input (min options.maxDepth depthCap) options.bigIntegers
    ⟨input, start, 0, min options.maxDepth depthCap, options.bigIntegers⟩
    ⟨rfl, rfl, rfl, rfl, inside⟩
  rcases ran : document (min options.maxDepth depthCap + 1)
    ⟨input, start, 0, min options.maxDepth depthCap, options.bigIntegers⟩ with
    stop | ⟨parsed, parser⟩
  · have refusal := Parse.Sound.of_error sound ran
    exact ⟨fun other same => Except.error.inj same ▸ refusal, nofun⟩
  · obtain ⟨text, took, -, before, bytes, after, rfl, blankBefore, blankAfter, isValue⟩ :=
      Parse.Sound.of_ok sound ran
    dsimp only
    have source : parser.input = input := by
      rw [took.moved]
      rfl
    by_cases trailing : parser.at_ < input.length
    · rw [if_pos trailing]
      exact ⟨fun stop same => ⟨_, (Except.error.inj same).symm, Nat.le_of_lt trailing⟩, nofun⟩
    rw [if_neg trailing]
    by_cases scalar : options.topLevel = .objectOrArray ∧ ¬ parsed.isContainer = true
    · rw [if_pos scalar]
      exact ⟨fun stop same => ⟨_, (Except.error.inj same).symm, Nat.zero_le _⟩, nofun⟩
    rw [if_neg scalar]
    refine ⟨nofun, fun other same => ?_⟩
    obtain rfl := Except.ok.inj same
    refine ⟨Nat.le_of_not_lt large, ?_, fun top => ?_⟩
    · have nothing : parser.rest = [] := by
        unfold Parser.rest
        rw [source, List.drop_eq_nil_iff]
        exact Nat.le_of_not_lt trailing
      have whole := took.rest
      rw [nothing, List.append_nil] at whole
      change input.drop start = _ at whole
      rw [whole] at split
      rw [split]
      exact .text marked blankBefore isValue blankAfter
    · by_contra notContainer
      exact scalar ⟨top, notContainer⟩

end ZeroServer.Json

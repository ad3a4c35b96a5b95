/-
This file proves that the parser takes every text of the grammar, as long as what follows a value
can follow one, and answers with the value it stands for.
-/

import ZeroServer.Json.Sound

namespace ZeroServer.Json

open Http1 Lib

/-! ### Runs -/

/-- A parser that takes a text and answers. -/
def Runs {Answer : Type} (parsing : Parsing Answer) (parser : Parser) (text : Bytes)
    (answer : Answer) : Prop :=
  parsing parser = .ok (answer, parser.skip text.length)

variable {bytes : Bytes}

section Runs

variable {Answer Other : Type} {parsing : Parsing Answer} {next : Answer → Parsing Other}
  {parser : Parser} {text more : Bytes} {answer : Answer} {other : Other}

theorem Parser.skip_skip (parser : Parser) (first second : Nat) :
    (parser.skip first).skip second = parser.skip (first + second) := by
  unfold Parser.skip
  dsimp only
  rw [Nat.add_assoc]

theorem Parser.rest_behind (begins : parser.rest = text ++ more) :
    (parser.skip text.length).rest = more := by
  rw [Parser.rest_skip, begins, List.drop_left]

theorem Runs.bind {rest : Bytes} (first : Runs parsing parser text answer)
    (later : Runs (next answer) (parser.skip text.length) rest other) :
    Runs (parsing >>= next) parser (text ++ rest) other := by
  unfold Runs at later ⊢
  rw [Parse.bind_ok first, later, Parser.skip_skip, List.length_append]

theorem Runs.map (first : Runs parsing parser text answer) (f : Answer → Other) :
    Runs (f <$> parsing) parser text (f answer) := Parse.map_ok first

theorem Runs.pure (answer : Answer) (parser : Parser) :
    Runs (Pure.pure answer) parser [] answer := rfl

/-- A last step that takes nothing. -/
theorem Runs.finish (first : Runs parsing parser text answer)
    (later : Runs (next answer) (parser.skip text.length) [] other) :
    Runs (parsing >>= next) parser text other := by
  have both := first.bind later
  rwa [List.append_nil] at both

theorem Runs.peek {next : Option UInt8 → Parsing Other}
    (later : Runs (next parser.rest.head?) parser text other) :
    Runs (Json.peek >>= next) parser text other := by
  unfold Runs at later ⊢
  rw [Parse.bind_ok (show Json.peek parser = .ok (parser.rest.head?, parser) by
    unfold Json.peek
    rw [parser.peek_rest]), later]

theorem Runs.get {next : Parser → Parsing Other} (later : Runs (next parser) parser text other) :
    Runs (get >>= next) parser text other := later

theorem advance_runs (text : Bytes) : Runs (advance text.length) parser text () := rfl

variable {test : UInt8 → Bool}

theorem skipWhile_runs (begins : parser.rest = text ++ more) (all : ∀ byte ∈ text, test byte = true)
    (stops : ∀ byte, more.head? = some byte → test byte = false) :
    Runs (skipWhile test) parser text () := by
  unfold Runs skipWhile
  rw [begins, takeWhile_stops all stops]

theorem skipWs_runs (begins : parser.rest = text ++ more) (blank : Blank text)
    (stops : ∀ byte, more.head? = some byte → isWs byte = false) :
    Runs skipWs parser text () := skipWhile_runs begins blank stops

theorem optional_runs {test : UInt8 → Bool} {byte : UInt8} (begins : parser.rest = byte :: more)
    (passes : test byte = true) : Runs (optional test) parser [byte] true := by
  refine Runs.peek ?_
  rw [begins, List.head?_cons]
  dsimp only
  rw [if_pos passes]
  exact (advance_runs [byte]).map _

theorem optional_none_runs (fails : ∀ byte, parser.rest.head? = some byte → test byte = false) :
    Runs (optional test) parser [] false := by
  refine Runs.peek ?_
  rcases first : parser.rest.head? with _ | byte
  · exact Runs.pure false parser
  · dsimp only
    rw [if_neg (by rw [fails byte first]; decide)]
    exact Runs.pure false parser

variable {byte : UInt8}

theorem expect_runs (begins : parser.rest = byte :: more) :
    Runs (expect byte) parser [byte] () := by
  refine Runs.peek ?_
  rw [begins, List.head?_cons, if_pos rfl]
  exact advance_runs [byte]

theorem literal_runs {word : Bytes} (begins : parser.rest = word ++ more) (value : Value) :
    Runs (literal word value) parser word value :=
  if_pos (List.isPrefixOf_iff_prefix.mpr ⟨more, begins.symm⟩)

/-! ### Numbers -/

/-- What may follow a value. -/
def Ends (more : Bytes) : Prop :=
  ∀ byte, more.head? = some byte →
    isWs byte = true ∨ byte = comma ∨ byte = closeBrace ∨ byte = closeBracket

theorem Ends.plain (ends : Ends more) {byte : UInt8} (first : more.head? = some byte) :
    isAsciiDigit byte = false ∧ byte ≠ dot ∧ byte ≠ 101 ∧ byte ≠ 69 := by
  have all : ∀ byte : Fin 256, (isWs ⟨⟨byte⟩⟩ = true ∨ (⟨⟨byte⟩⟩ : UInt8) = comma ∨
      (⟨⟨byte⟩⟩ : UInt8) = closeBrace ∨ (⟨⟨byte⟩⟩ : UInt8) = closeBracket) →
      isAsciiDigit ⟨⟨byte⟩⟩ = false ∧ (⟨⟨byte⟩⟩ : UInt8) ≠ dot ∧ (⟨⟨byte⟩⟩ : UInt8) ≠ 101 ∧
        (⟨⟨byte⟩⟩ : UInt8) ≠ 69 := by decide +kernel
  exact all byte.toBitVec.toFin (ends byte first)

theorem someDigits_runs (begins : parser.rest = text ++ more) (digits : Digits text)
    (stops : ∀ byte, more.head? = some byte → isAsciiDigit byte = false) :
    Runs someDigits parser text () := by
  refine Runs.peek ?_
  obtain ⟨some_, all⟩ := digits
  cases text with
  | nil => exact absurd rfl some_
  | cons byte text =>
    rw [begins, List.cons_append, List.head?_cons]
    dsimp only
    rw [if_pos (all byte List.mem_cons_self)]
    exact skipWhile_runs begins all stops

theorem integerPart_runs (begins : parser.rest = text ++ more) (digits : Digits text)
    (leading : text.head? = some 48 → text = [48])
    (stops : ∀ byte, more.head? = some byte → isAsciiDigit byte = false) :
    Runs integerPart parser text () := by
  refine Runs.peek ?_
  obtain ⟨some_, all⟩ := digits
  cases text with
  | nil => exact absurd rfl some_
  | cons byte text =>
    rw [begins, List.cons_append, List.head?_cons]
    dsimp only
    by_cases zero : byte = 48
    · rw [if_pos zero, leading (congrArg some zero)]
      exact advance_runs [48]
    · rw [if_neg zero, if_pos (all byte List.mem_cons_self)]
      exact skipWhile_runs begins all stops

namespace Number

variable {number : Number}

/-- What stands behind the fraction of a number does not go on with it. -/
theorem exponentText_stops (wellFormed : number.WellFormed) (ends : Ends more)
    (first : (number.exponentText ++ more).head? = some byte) :
    isAsciiDigit byte = false ∧ byte ≠ dot := by
  unfold exponentText at first
  rcases given : number.exponent with _ | exponent
  · rw [given] at first
    obtain ⟨notDigit, notDot, -⟩ := ends.plain first
    exact ⟨notDigit, notDot⟩
  · rw [given] at first
    cases first
    rcases (wellFormed.exponent exponent given).mark with mark | mark <;> rw [mark] <;> decide

theorem fractionText_stops (wellFormed : number.WellFormed) (ends : Ends more)
    (first : (number.fractionText ++ (number.exponentText ++ more)).head? = some byte) :
    isAsciiDigit byte = false := by
  unfold fractionText at first
  rcases given : number.fraction with _ | digits
  · rw [given] at first
    exact (exponentText_stops wellFormed ends first).1
  · rw [given] at first
    cases first
    decide

theorem fractionPart_runs (wellFormed : number.WellFormed) (ends : Ends more)
    (begins : parser.rest = number.fractionText ++ (number.exponentText ++ more)) :
    Runs fractionPart parser number.fractionText number.fraction.isSome := by
  unfold fractionText at begins ⊢
  rcases given : number.fraction with _ | digits
  · rw [given] at begins
    refine Runs.finish (optional_none_runs fun byte first => ?_) (Runs.pure false _)
    rw [begins] at first
    exact decide_eq_false (exponentText_stops wellFormed ends first).2
  · rw [given] at begins
    refine Runs.bind (optional_runs begins (decide_eq_true rfl)) ?_
    rw [if_pos rfl]
    have behind := @Parser.rest_behind parser [dot] _ begins
    exact (someDigits_runs behind (wellFormed.fraction digits given)
      fun byte first => (exponentText_stops wellFormed ends first).1).map _

theorem exponentPart_runs (wellFormed : number.WellFormed) (ends : Ends more)
    (begins : parser.rest = number.exponentText ++ more) :
    Runs exponentPart parser number.exponentText number.exponent.isSome := by
  unfold exponentText at begins ⊢
  rcases given : number.exponent with _ | exponent
  · rw [given] at begins
    refine Runs.finish (optional_none_runs fun byte first => ?_) (Runs.pure false _)
    rw [begins] at first
    obtain ⟨-, -, notLower, notUpper⟩ := ends.plain first
    exact decide_eq_false fun either => either.elim notLower notUpper
  · rw [given] at begins
    have isExponent := wellFormed.exponent exponent given
    refine Runs.bind (optional_runs begins (decide_eq_true isExponent.mark)) ?_
    rw [if_pos rfl]
    have behind : (parser.skip 1).rest = exponent.sign.toList ++ (exponent.digits ++ more) := by
      rw [← List.append_assoc]
      exact @Parser.rest_behind parser [exponent.mark] _ begins
    have stops : ∀ byte, more.head? = some byte → isAsciiDigit byte = false :=
      fun byte first => (ends.plain first).1
    rcases signed : exponent.sign with _ | sign
    · rw [signed] at behind
      change (parser.skip 1).rest = exponent.digits ++ more at behind
      have unsigned : Runs (optional fun byte => byte = plus ∨ byte = minus) (parser.skip 1) []
          false := by
        refine optional_none_runs fun byte first => ?_
        rw [behind, List.head?_append_of_ne_nil _ isExponent.digits.1] at first
        have digit := isExponent.digits.2 byte (List.mem_of_mem_head? first)
        refine decide_eq_false ?_
        rintro (rfl | rfl) <;> exact absurd digit (by decide)
      exact unsigned.bind ((someDigits_runs behind isExponent.digits stops).map _)
    · rw [signed] at behind
      have sound : sign = plus ∨ sign = minus := isExponent.sign sign signed
      have optional := @optional_runs (parser.skip 1) _
        (fun byte => byte = plus ∨ byte = minus) sign
        behind (decide_eq_true sound)
      have last := @Parser.rest_behind (parser.skip 1) [sign] _ behind
      exact optional.bind ((someDigits_runs last isExponent.digits stops).map _)

/-- A number is taken and becomes its value. -/
theorem number_runs (wellFormed : number.WellFormed) (accepted : number.Accepted parser.bigIntegers)
    (begins : parser.rest = number.text ++ more) (ends : Ends more) :
    Runs Json.number parser number.text (number.value parser.bigIntegers) := by
  refine Runs.get ?_
  have signed : Runs (optional (· = minus)) parser number.signText number.negative := by
    unfold text signText at begins
    unfold signText
    cases sign : number.negative with
    | true =>
      rw [sign] at begins
      exact optional_runs begins (decide_eq_true rfl)
    | false =>
      rw [sign] at begins
      refine optional_none_runs fun byte first => ?_
      rw [begins] at first
      refine decide_eq_false ?_
      rintro rfl
      obtain ⟨some_, all⟩ := wellFormed.whole
      rcases whole : number.whole with _ | ⟨digit, digits⟩
      · exact absurd whole some_
      · rw [whole] at first
        obtain rfl := Option.some.inj first
        exact absurd (all minus (whole ▸ List.mem_cons_self)) (by decide)
  have literal := (Took.mk ⟨more, begins.symm⟩ rfl : Took parser number.text
    (parser.skip number.text.length)).slice
  unfold text at begins ⊢
  rw [List.append_assoc, List.append_assoc, List.append_assoc] at begins
  have atWhole := Parser.rest_behind begins
  have atFraction := Parser.rest_behind atWhole
  have atExponent := Parser.rest_behind atFraction
  refine signed.bind ((integerPart_runs atWhole wellFormed.whole wellFormed.leading
    fun byte first => fractionText_stops wellFormed ends first).bind ?_)
  refine (fractionPart_runs wellFormed ends atFraction).bind ?_
  refine (exponentPart_runs wellFormed ends atExponent).finish ?_
  rw [Parser.skip_skip, Parser.skip_skip, Parser.skip_skip]
  have length : number.text.length = number.signText.length + (number.whole.length +
      (number.fractionText.length + number.exponentText.length)) := by
    unfold text
    rw [List.length_append, List.length_append, List.length_append]
  rw [length] at literal
  exact numberValue_ok wellFormed accepted literal

end Number

/-! ### Strings -/

variable {digits : Bytes} {fuel : Nat} {chars : List Char}

theorem hexDigits_runs {values : List UInt8} {unit : UInt16} (begins : parser.rest = digits ++ more)
    (reads : digits.map hexDigit = values.map some)
    (room : (unit.toNat + 1) * 16 ^ digits.length ≤ 2 ^ 16) :
    ∃ answer : UInt16, Runs (hexDigits digits.length unit) parser digits answer ∧
      answer.toNat = numeral 16 unit.toNat (values.map UInt8.toNat) := by
  induction digits generalizing parser values unit with
  | nil =>
    obtain rfl := List.map_eq_nil_iff.mp reads.symm
    exact ⟨unit, Runs.pure unit parser, rfl⟩
  | cons byte digits inductionHypothesis =>
    rcases values with _ | ⟨digit, values⟩
    · cases reads
    obtain ⟨read, reads⟩ := List.cons.inj reads
    have small := hexDigit_lt read
    have roomy := hexStep_room room small
    have behind := @Parser.rest_behind parser [byte] _ begins
    obtain ⟨answer, ran, value⟩ := inductionHypothesis behind reads roomy.2
    refine ⟨answer, ?_, ?_⟩
    · refine Runs.peek ?_
      rw [begins, List.cons_append, List.head?_cons, Option.bind_some, read]
      exact (advance_runs [byte]).bind ran
    · rw [value, hexStep roomy.1 small, List.map_cons, numeral_cons]

theorem hex4_runs {code : Nat} (begins : parser.rest = digits ++ more) (hex : Hex4 digits code) :
    ∃ unit : UInt16, Runs hex4 parser digits unit ∧ unit.toNat = code := by
  obtain ⟨length, values, reads, rfl⟩ := hex
  have room : ((0 : UInt16).toNat + 1) * 16 ^ digits.length ≤ 2 ^ 16 := by
    rw [length]
    decide
  have ran := hexDigits_runs begins reads room
  rw [length] at ran
  exact ran

theorem encodeCode_runs {code : UInt32} (valid : code.toNat.isValidChar) (offset : Nat) :
    Runs (encodeCode code offset) parser [] (String.utf8EncodeChar (Char.ofNat code.toNat)) := by
  unfold encodeCode
  rw [if_pos valid]
  exact Runs.pure _ parser

theorem unit_runs {code : Nat} (begins : parser.rest = digits ++ more) (hex : Hex4 digits code)
    (notHigh : ¬ High code) (notLow : ¬ Low code) (offset : Nat) :
    Runs (unicodeEscape offset) parser digits (String.utf8EncodeChar (Char.ofNat code)) := by
  obtain ⟨unit, ran, rfl⟩ := hex4_runs begins hex
  refine ran.finish ?_
  rw [if_neg (mt isHighSurrogate_iff.mp notHigh), if_neg (mt isLowSurrogate_iff.mp notLow)]
  have encoded := @encodeCode_runs (parser.skip digits.length) unit.toUInt32 (by
    rw [UInt16.toNat_toUInt32]
    exact valid_unit unit.toNat_lt notHigh notLow) offset
  rwa [UInt16.toNat_toUInt32] at encoded

theorem pair_runs {first second : Bytes} {high low : Nat}
    (begins : parser.rest = (first ++ backslash :: 117 :: second) ++ more)
    (hexHigh : Hex4 first high) (hexLow : Hex4 second low) (isHigh : High high) (isLow : Low low)
    (offset : Nat) :
    Runs (unicodeEscape offset) parser (first ++ backslash :: 117 :: second)
      (String.utf8EncodeChar
        (Char.ofNat (0x10000 + (high - 0xD800) * 0x400 + (low - 0xDC00)))) := by
  rw [List.append_assoc] at begins
  obtain ⟨unit, ran, rfl⟩ := hex4_runs begins hexHigh
  have behind := Parser.rest_behind begins
  refine ran.bind ?_
  rw [if_pos (isHighSurrogate_iff.mpr isHigh)]
  refine Runs.get ?_
  have mark : (ascii "\\u").isPrefixOf (parser.skip first.length).rest = true := by
    rw [behind]
    rfl
  rw [if_pos mark]
  obtain ⟨lowUnit, lowRan, rfl⟩ :=
    hex4_runs (@Parser.rest_behind (parser.skip first.length) [backslash, 117] _ behind) hexLow
  refine Runs.bind (advance_runs [backslash, 117]) (lowRan.finish ?_)
  rw [if_pos (isLowSurrogate_iff.mpr isLow)]
  have code := toNat_pairCode isHigh isLow
  have encoded := @encodeCode_runs (((parser.skip first.length).skip 2).skip second.length)
    (pairCode unit lowUnit) (by
      rw [code]
      exact valid_pair isHigh isLow) offset
  rwa [code] at encoded

theorem shortEscape_of_among {letter : UInt8} {char : Char}
    (among : (letter, char) ∈ shortEscapes) :
    ∃ byte, shortEscape letter = some byte ∧ String.utf8EncodeChar char = [byte] := by
  have all : ∀ entry ∈ shortEscapes, (shortEscape entry.1).map (fun byte => [byte]) =
      some (String.utf8EncodeChar entry.2) := by decide
  obtain ⟨byte, short, encoded⟩ := Option.map_eq_some_iff.mp (all _ among)
  exact ⟨byte, short, encoded.symm⟩

/-- What an escape does behind its letter. -/
def escapeBehind (parser : Parser) (letter : UInt8) : Parsing Bytes :=
  match shortEscape letter with
  | some byte => pure [byte]
  | none => if letter = 117 then unicodeEscape parser.at_ else errorAt .invalidEscape parser.at_

/-- An item that is no raw character is an escape. -/
theorem escape_runs {item : Bytes} {char : Char} (isItem : StringItem item char)
    (first : item.head? = some backslash) (begins : parser.rest = item ++ more) :
    Runs escape parser item (String.utf8EncodeChar char) := by
  have lead : ∀ {letter : UInt8} {rest answer : Bytes},
      parser.rest = (backslash :: letter :: rest) ++ more →
      Runs (escapeBehind parser letter) (parser.skip 2) rest answer →
      Runs escape parser (backslash :: letter :: rest) answer := by
    intro letter rest answer begins ran
    refine Runs.get (Runs.bind (advance_runs [backslash]) (Runs.peek ?_))
    rw [@Parser.rest_behind parser [backslash] _ begins, List.head?_cons]
    exact Runs.bind (advance_runs [letter]) ran
  cases isItem with
  | raw visible notQuote notBackslash =>
    exact absurd rfl (raw_visible visible notQuote notBackslash (List.mem_of_mem_head? first)).2.2
  | @short letter _ among =>
    obtain ⟨byte, short, encoded⟩ := shortEscape_of_among among
    refine lead begins ?_
    unfold escapeBehind
    rw [short, encoded]
    exact Runs.pure [byte] _
  | unit hex notHigh notLow =>
    refine lead begins ?_
    exact unit_runs (@Parser.rest_behind parser [backslash, 117] _ begins) hex notHigh notLow _
  | pair hexHigh hexLow isHigh isLow =>
    refine lead begins ?_
    exact pair_runs (@Parser.rest_behind parser [backslash, 117] _ begins) hexHigh hexLow isHigh
      isLow _

/-- A raw character is taken byte by byte. -/
theorem stringBytes_raw {out result : Bytes} {after : Parser} (begins : parser.rest = bytes ++ more)
    (visible : ∀ byte ∈ bytes, 0x20 ≤ byte ∧ byte ≠ quote ∧ byte ≠ backslash)
    (later : stringBytes fuel (out ++ bytes) (parser.skip bytes.length) = .ok (result, after)) :
    stringBytes (bytes.length + fuel) out parser = .ok (result, after) := by
  induction bytes generalizing parser out with
  | nil =>
    rw [List.append_nil] at later
    rw [List.length_nil, Nat.zero_add]
    exact later
  | cons byte bytes inductionHypothesis =>
    obtain ⟨⟨shown, notQuote, notBackslash⟩, rest⟩ := List.forall_mem_cons.mp visible
    rw [List.length_cons, Nat.add_right_comm, stringBytes]
    rw [Parse.bind_ok (show peek parser = .ok (some byte, parser) by
      unfold peek
      rw [parser.peek_rest, begins]
      rfl)]
    dsimp only
    rw [if_neg notQuote, if_neg notBackslash, if_neg (UInt8.not_lt.mpr shown),
      Parse.bind_ok (show advance 1 parser = .ok ((), parser.skip 1) from rfl)]
    refine inductionHypothesis (@Parser.rest_behind parser [byte] _ begins) rest ?_
    rw [Parser.skip_skip, List.append_assoc, Nat.add_comm 1]
    exact later

/-- The bytes of a string up to its closing mark. -/
theorem stringBytes_runs {content : Bytes} (inside : StringContent content chars)
    (room : content.length < fuel) (begins : parser.rest = content ++ quote :: more) (out : Bytes) :
    Runs (stringBytes fuel out) parser (content ++ [quote]) (out ++ Utf8.encode chars) := by
  induction inside generalizing parser fuel out with
  | nil =>
    obtain ⟨fuel, rfl⟩ : ∃ left, fuel = left + 1 := ⟨fuel - 1, by omega⟩
    refine Runs.peek ?_
    rw [begins, List.nil_append, List.head?_cons]
    dsimp only
    rw [if_pos rfl, Utf8.encode_nil, List.append_nil]
    exact (advance_runs [quote]).map _
  | @cons item rest char chars isItem later inductionHypothesis =>
    rw [List.length_append] at room
    rw [List.append_assoc] at begins
    have behind := Parser.rest_behind begins
    rw [Utf8.encode_cons, List.append_assoc, ← List.append_assoc out]
    have some_ : item ≠ [] := isItem.text_some
    have positive := List.length_pos_iff.mpr some_
    by_cases escaped : item.head? = some backslash
    · obtain ⟨fuel, rfl⟩ : ∃ left, fuel = left + 1 := ⟨fuel - 1, by omega⟩
      refine Runs.peek ?_
      rw [begins, List.head?_append_of_ne_nil _ some_, escaped]
      dsimp only
      rw [if_neg (by decide), if_pos rfl]
      exact (escape_runs isItem escaped begins).bind
        (inductionHypothesis (by omega) behind _)
    · obtain ⟨visible, rfl⟩ := isItem.raw_of_head escaped
      have split : fuel = (String.utf8EncodeChar char).length +
          (fuel - (String.utf8EncodeChar char).length) := by omega
      have ran := inductionHypothesis (show rest.length < fuel -
        (String.utf8EncodeChar char).length by omega) behind (out ++ String.utf8EncodeChar char)
      unfold Runs at ran ⊢
      rw [split, stringBytes_raw begins visible ran, Parser.skip_skip,
        @List.length_append _ (String.utf8EncodeChar char) (rest ++ [quote])]

/-- A string is taken, and its characters are the answer. -/
theorem string_runs (isString : StringText text chars) (begins : parser.rest = text ++ more) :
    Runs string parser text chars := by
  cases isString with
  | @quoted content _ inside =>
    have room : content.length < parser.input.length + 1 := by
      have length := congrArg List.length begins
      unfold Parser.rest at length
      rw [List.length_drop, List.length_append, List.length_cons, List.length_append] at length
      omega
    have behind : (parser.skip 1).rest = content ++ quote :: more := by
      have rest := @Parser.rest_behind parser [quote] _ begins
      rwa [List.append_eq, List.append_assoc] at rest
    refine Runs.get (Runs.bind (advance_runs [quote])
      ((stringBytes_runs inside room behind []).finish ?_))
    rw [List.nil_append, Utf8.decode_encoded]
    exact Runs.pure chars _

/-! ### Containers -/

variable {opening : UInt8}

section Items

variable {Item : Type} {item : Parsing Item} {IsItem : Bytes → Item → Prop} {closing : UInt8}

/-- A byte that ends a container. -/
def Closes (closing : UInt8) : Prop := closing = closeBrace ∨ closing = closeBracket

theorem Closes.plain (closes : Closes closing) : closing ≠ comma ∧ isWs closing = false := by
  rcases closes with rfl | rfl <;> decide

theorem ends_nil : Ends [] := by
  intro byte first
  cases first

theorem ends_closing (closes : Closes closing) (more : Bytes) : Ends (closing :: more) := by
  intro byte first
  obtain rfl := Option.some.inj first
  exact .inr (.inr closes)

theorem ends_comma (more : Bytes) : Ends (comma :: more) := by
  intro byte first
  obtain rfl := Option.some.inj first
  exact .inr (.inl rfl)

theorem Ends.behind_blank (ends : Ends more) {blank : Bytes} (isBlank : Blank blank) :
    Ends (blank ++ more) := by
  cases blank with
  | nil => exact ends
  | cons byte blank =>
    intro other first
    obtain rfl := Option.some.inj first
    exact .inl (isBlank byte List.mem_cons_self)

/-- A byte that may begin an item. -/
def Leads (byte : UInt8) : Prop := isWs byte = false ∧ byte ≠ closeBrace ∧ byte ≠ closeBracket

theorem Leads.apart (leads : Leads byte) (closes : Closes closing) : byte ≠ closing := by
  rcases closes with rfl | rfl
  · exact leads.2.1
  · exact leads.2.2

/-- An item is taken wherever the cursor of this level stands. -/
structure Taken (item : Parsing Item) (IsItem : Bytes → Item → Prop) (parser : Parser) : Prop where
  leads : ∀ {text answer}, IsItem text answer → ∃ byte rest, text = byte :: rest ∧ Leads byte
  runs : ∀ {count text more answer}, (parser.skip count).rest = text ++ more → Ends more →
    IsItem text answer → Runs item (parser.skip count) text answer

theorem Taken.skip (taken : Taken item IsItem parser) (count : Nat) :
    Taken item IsItem (parser.skip count) where
  leads := taken.leads
  runs {next text more answer} begins ends isItem := by
    rw [Parser.skip_skip] at begins ⊢
    exact taken.runs begins ends isItem

/-- One item between white space. -/
theorem item_runs (taken : Taken item IsItem parser) {before after : Bytes} {answer : Item}
    (blankBefore : Blank before) (isItem : IsItem bytes answer) (blankAfter : Blank after)
    (ends : Ends more) (stops : ∀ byte, more.head? = some byte → isWs byte = false)
    (begins : parser.rest = before ++ (bytes ++ (after ++ more))) {next : Item → Parsing Other}
    {rest : Bytes} {other : Other}
    (later : Runs (next answer) (parser.skip (before ++ (bytes ++ after)).length) rest other) :
    Runs (skipWs >>= fun _ => item >>= fun answer => skipWs >>= fun _ => next answer) parser
      (before ++ (bytes ++ (after ++ rest))) other := by
  have atItem := Parser.rest_behind begins
  have atAfter := Parser.rest_behind atItem
  refine Runs.bind (skipWs_runs begins blankBefore fun byte first => ?_) ?_
  · obtain ⟨lead, tail, rfl, leads⟩ := taken.leads isItem
    obtain rfl := Option.some.inj first
    exact leads.1
  · refine Runs.bind (taken.runs atItem (ends.behind_blank blankAfter) isItem) ?_
    refine Runs.bind (skipWs_runs atAfter blankAfter stops) ?_
    rw [Parser.skip_skip, Parser.skip_skip, ← List.length_append, ← List.length_append]
    exact later

variable {items : List Item}

/-- A sequence is taken with the byte that closes it. -/
theorem sequence_runs (taken : Taken item IsItem parser) (closes : Closes closing) {body : Bytes}
    (isSequence : SequenceText IsItem body items) (room : body.length < fuel)
    (begins : parser.rest = body ++ closing :: more) (read : List Item) :
    Runs (sequence item closing fuel read) parser (body ++ [closing]) (read ++ items) := by
  induction isSequence generalizing parser fuel read with
  | @last before bytes after answer blankBefore isItem blankAfter =>
    obtain ⟨fuel, rfl⟩ : ∃ left, fuel = left + 1 := ⟨fuel - 1, by omega⟩
    rw [List.append_assoc, List.append_assoc] at begins ⊢
    refine item_runs taken blankBefore isItem blankAfter (ends_closing closes more)
      (fun byte first => Option.some.inj first ▸ closes.plain.2) begins (Runs.peek ?_)
    have atClosing : (parser.skip (before ++ (bytes ++ after)).length).rest = closing :: more := by
      refine Parser.rest_behind ?_
      rw [begins, List.append_assoc, List.append_assoc]
    rw [atClosing, List.head?_cons]
    dsimp only
    rw [if_neg closes.plain.1, if_pos rfl]
    exact (advance_runs [closing]).map _
  | @more before bytes after rest answer items blankBefore isItem blankAfter later
      inductionHypothesis =>
    obtain ⟨fuel, rfl⟩ : ∃ left, fuel = left + 1 := ⟨fuel - 1, by omega⟩
    rw [List.append_assoc, List.append_assoc, List.append_assoc, List.cons_append] at begins ⊢
    have atComma : (parser.skip (before ++ (bytes ++ after)).length).rest =
        comma :: (rest ++ closing :: more) := by
      refine Parser.rest_behind ?_
      rw [begins, List.append_assoc, List.append_assoc]
    have atRest := @Parser.rest_behind (parser.skip (before ++ (bytes ++ after)).length) [comma] _
      atComma
    have shorter : rest.length < fuel := by
      rw [List.length_append, List.length_append, List.length_append, List.length_cons] at room
      omega
    refine item_runs taken blankBefore isItem blankAfter (ends_comma _)
      (fun byte first => Option.some.inj first ▸ by decide) begins (Runs.peek ?_)
    rw [atComma, List.head?_cons]
    dsimp only
    rw [if_pos rfl]
    have ran := inductionHypothesis ((taken.skip _).skip _) shorter atRest (read ++ [answer])
    rw [List.append_assoc, List.singleton_append] at ran
    exact Runs.bind (advance_runs [comma]) ran

/-- A sequence is white space and a sequence that begins with an item. -/
theorem SequenceText.split_blank {body : Bytes}
    (leads : ∀ {text answer}, IsItem text answer → ∃ byte rest, text = byte :: rest ∧ Leads byte)
    (isSequence : SequenceText IsItem body items) :
    ∃ blank rest, body = blank ++ rest ∧ Blank blank ∧ SequenceText IsItem rest items ∧
      ∃ lead tail, rest = lead :: tail ∧ Leads lead := by
  cases isSequence with
  | last blankBefore isItem blankAfter =>
    refine ⟨_, _, rfl, blankBefore, @SequenceText.last _ _ [] _ _ _ nofun isItem blankAfter, ?_⟩
    obtain ⟨lead, tail, rfl, isLead⟩ := leads isItem
    exact ⟨lead, _, rfl, isLead⟩
  | more blankBefore isItem blankAfter later =>
    refine ⟨_, _, rfl, blankBefore,
      @SequenceText.more _ _ [] _ _ _ _ _ nofun isItem blankAfter later, ?_⟩
    obtain ⟨lead, tail, rfl, isLead⟩ := leads isItem
    exact ⟨lead, _, rfl, isLead⟩

theorem enclosed_runs (taken : Taken item IsItem parser) (closes : Closes closing)
    (isEnclosed : Enclosed IsItem opening closing bytes items)
    (begins : parser.rest = bytes ++ more) : Runs (enclosed item closing) parser bytes items := by
  cases isEnclosed with
  | @empty blank isBlank =>
    have behind := @Parser.rest_behind parser [opening] _ begins
    rw [List.append_eq, List.append_assoc] at behind
    have atClosing := Parser.rest_behind behind
    refine Runs.bind (advance_runs [opening]) (Runs.bind (skipWs_runs behind isBlank
      fun byte first => Option.some.inj first ▸ closes.plain.2) (Runs.peek ?_))
    rw [atClosing, List.singleton_append, List.head?_cons, if_pos rfl]
    exact (advance_runs [closing]).map _
  | @filled body _ inside =>
    have behind := @Parser.rest_behind parser [opening] _ begins
    rw [List.append_eq, List.append_assoc] at behind
    obtain ⟨blank, rest, rfl, isBlank, isSequence, lead, tail, rfl, leads⟩ :=
      inside.split_blank taken.leads
    rw [List.append_assoc] at behind
    have atItem := Parser.rest_behind behind
    have room : (lead :: tail).length < parser.input.length + 1 := by
      have length := congrArg List.length atItem
      rw [List.length_append] at length
      have short : ((parser.skip [opening].length).skip blank.length).rest.length ≤
          parser.input.length := by
        unfold Parser.rest
        rw [List.length_drop]
        exact Nat.sub_le _ _
      omega
    have ran := sequence_runs ((taken.skip _).skip _) closes isSequence room atItem []
    rw [List.append_assoc]
    refine Runs.bind (advance_runs [opening]) (Runs.bind (skipWs_runs behind isBlank
      fun byte first => Option.some.inj first ▸ leads.1) (Runs.peek ?_))
    rw [atItem, List.cons_append, List.head?_cons, if_neg (mt Option.some.inj (leads.apart closes))]
    exact Runs.get ran

/-- A container is taken with all its items, as long as it may be opened. -/
theorem container_runs (within : parser.depth < parser.maxDepth)
    (taken : Taken item IsItem { parser with depth := parser.depth + 1 }) (closes : Closes closing)
    (isEnclosed : Enclosed IsItem opening closing bytes items)
    (begins : parser.rest = bytes ++ more) : Runs (container item closing) parser bytes items := by
  have inside := enclosed_runs taken closes isEnclosed begins
  have opened : enter parser = .ok ((), { parser with depth := parser.depth + 1 }) :=
    if_neg (Nat.not_lt_of_le within)
  have ran : container item closing parser =
      (enclosed item closing >>= fun items => leave >>= fun _ => pure items)
        { parser with depth := parser.depth + 1 } := Parse.bind_ok opened
  unfold Runs at inside ⊢
  rw [ran, Parse.bind_ok inside]
  rfl

end Items

/-! ### Values -/

theorem member_runs {parseValue : Parsing Value} {IsValue : Bytes → Value → Prop}
    (taken : Taken parseValue IsValue parser) :
    Taken (member parseValue) (MemberText IsValue) parser where
  leads {text answer} isMember := by
    cases isMember with
    | member isName =>
      cases isName
      exact ⟨quote, _, rfl, by decide, by decide, by decide⟩
  runs {count text more answer} begins ends isMember := by
    cases isMember with
    | @member name after before bytes spelled held isName blankAfter blankBefore isValue =>
      rw [List.append_assoc, List.append_assoc, List.cons_append, List.append_assoc] at begins
      have atAfter := Parser.rest_behind begins
      have atColon := Parser.rest_behind atAfter
      have atBefore := @Parser.rest_behind _ [colon] _ atColon
      have atValue := Parser.rest_behind atBefore
      have first : (parser.skip count).rest.head? = some quote := by
        rw [begins]
        cases isName
        rfl
      refine Runs.peek ?_
      rw [if_pos first]
      refine Runs.bind (string_runs isName begins) ?_
      refine Runs.bind (skipWs_runs atAfter blankAfter
        fun byte first => Option.some.inj first ▸ by decide) ?_
      refine Runs.bind (expect_runs atColon) ?_
      refine Runs.bind (skipWs_runs atBefore blankBefore fun byte first => ?_) ?_
      · obtain ⟨lead, tail, rfl, leads⟩ := taken.leads isValue
        obtain rfl := Option.some.inj first
        exact leads.1
      · rw [Parser.skip_skip, Parser.skip_skip, Parser.skip_skip, Parser.skip_skip] at atValue ⊢
        exact Runs.finish (taken.runs atValue ends isValue) (Runs.pure _ _)

/-- A number begins with its sign or a digit. -/
theorem Number.WellFormed.lead {number : Number} (wellFormed : number.WellFormed) :
    ∃ byte rest, number.text = byte :: rest ∧ (byte = minus ∨ isAsciiDigit byte = true) := by
  obtain ⟨some_, all⟩ := wellFormed.whole
  unfold Number.text Number.signText
  split
  · exact ⟨minus, _, rfl, .inl rfl⟩
  · rcases whole : number.whole with _ | ⟨byte, digits⟩
    · exact absurd whole some_
    · exact ⟨byte, _, rfl, .inr (all byte (whole ▸ List.mem_cons_self))⟩

/-- What the bytes that begin numbers are not. -/
theorem numeric_apart (numeric : byte = minus ∨ isAsciiDigit byte = true) :
    Leads byte ∧ byte < 0x80 ∧ byte ≠ openBrace ∧ byte ≠ openBracket ∧ byte ≠ quote ∧
      byte ≠ 116 ∧ byte ≠ 102 ∧ byte ≠ 110 := by
  have all : ∀ byte : Fin 256, ((⟨⟨byte⟩⟩ : UInt8) = minus ∨ isAsciiDigit ⟨⟨byte⟩⟩ = true) →
      (isWs ⟨⟨byte⟩⟩ = false ∧ (⟨⟨byte⟩⟩ : UInt8) ≠ closeBrace ∧
        (⟨⟨byte⟩⟩ : UInt8) ≠ closeBracket) ∧ (⟨⟨byte⟩⟩ : UInt8) < 0x80 ∧
        (⟨⟨byte⟩⟩ : UInt8) ≠ openBrace ∧ (⟨⟨byte⟩⟩ : UInt8) ≠ openBracket ∧
        (⟨⟨byte⟩⟩ : UInt8) ≠ quote ∧ (⟨⟨byte⟩⟩ : UInt8) ≠ 116 ∧ (⟨⟨byte⟩⟩ : UInt8) ≠ 102 ∧
        (⟨⟨byte⟩⟩ : UInt8) ≠ 110 := by decide +kernel
  exact all byte.toBitVec.toFin numeric

variable {allowed : Number → Prop} {bigIntegers : BigIntegers} {value : Value}

theorem ScalarText.leads (isScalar : ScalarText allowed bigIntegers text value) :
    ∃ byte rest, text = byte :: rest ∧ Leads byte ∧ byte < 0x80 := by
  cases isScalar with
  | null | false | true => exact ⟨_, _, rfl, ⟨by decide, by decide, by decide⟩, by decide⟩
  | number wellFormed =>
    obtain ⟨byte, rest, same, numeric⟩ := wellFormed.lead
    have apart := numeric_apart numeric
    exact ⟨byte, rest, same, apart.1, apart.2.1⟩
  | string spells =>
    cases spells
    exact ⟨quote, _, rfl, ⟨by decide, by decide, by decide⟩, by decide⟩

theorem Enclosed.leads {Item : Type} {IsItem : Bytes → Item → Prop} {closing : UInt8}
    {items : List Item} (isEnclosed : Enclosed IsItem opening closing text items) :
    ∃ rest, text = opening :: rest := by
  cases isEnclosed <;> exact ⟨_, rfl⟩

theorem ValueText.leads {depth : Nat} (isValue : ValueText allowed bigIntegers depth text value) :
    ∃ byte rest, text = byte :: rest ∧ Leads byte ∧ byte < 0x80 := by
  cases depth with
  | zero => exact ScalarText.leads isValue
  | succ depth =>
    rcases isValue with isScalar | isContainer
    · exact isScalar.leads
    · cases isContainer with
      | array isEnclosed =>
        obtain ⟨rest, rfl⟩ := isEnclosed.leads
        exact ⟨openBracket, rest, rfl, ⟨by decide, by decide, by decide⟩, by decide⟩
      | object isEnclosed =>
        obtain ⟨rest, rfl⟩ := isEnclosed.leads
        exact ⟨openBrace, rest, rfl, ⟨by decide, by decide, by decide⟩, by decide⟩

theorem scalar_runs
    (isScalar : ScalarText (Number.Accepted parser.bigIntegers) parser.bigIntegers text value)
    (begins : parser.rest = text ++ more) (ends : Ends more) (fuel : Nat) :
    Runs (Json.value (fuel + 1)) parser text value := by
  refine Runs.peek ?_
  rw [begins]
  cases isScalar with
  | null => exact literal_runs begins .null
  | false => exact literal_runs begins (.bool false)
  | true => exact literal_runs begins (.bool true)
  | @number number wellFormed accepted =>
    obtain ⟨byte, rest, same, numeric⟩ := wellFormed.lead
    obtain ⟨-, -, notBrace, notBracket, notQuote, notT, notF, notN⟩ := numeric_apart numeric
    have ran := Number.number_runs wellFormed accepted begins ends
    rw [same, List.cons_append, List.head?_cons]
    dsimp only
    rw [if_neg notBrace, if_neg notBracket, if_neg notQuote, if_neg notT, if_neg notF, if_neg notN,
      if_pos numeric, ← same]
    exact ran
  | string spells =>
    have ran := (string_runs spells begins).map Value.str
    cases spells
    exact ran

/-- A value is taken with as much fuel as it nests containers. -/
theorem value_taken {depth fuel : Nat} (room : depth < fuel)
    (within : parser.depth + depth ≤ parser.maxDepth) :
    Taken (Json.value fuel)
      (ValueText (Number.Accepted parser.bigIntegers) parser.bigIntegers depth) parser := by
  induction depth generalizing parser fuel with
  | zero =>
    obtain ⟨fuel, rfl⟩ : ∃ left, fuel = left + 1 := ⟨fuel - 1, by omega⟩
    refine ⟨fun isValue => ?_, @fun count text more answer begins ends isValue => ?_⟩
    · obtain ⟨byte, rest, same, leads, -⟩ := ValueText.leads isValue
      exact ⟨byte, rest, same, leads⟩
    · exact @scalar_runs (parser.skip count) text more answer isValue begins ends fuel
  | succ depth inductionHypothesis =>
    obtain ⟨fuel, rfl⟩ : ∃ left, fuel = left + 1 := ⟨fuel - 1, by omega⟩
    refine ⟨fun isValue => ?_, @fun count text more answer begins ends isValue => ?_⟩
    · obtain ⟨byte, rest, same, leads, -⟩ := ValueText.leads isValue
      exact ⟨byte, rest, same, leads⟩
    rcases isValue with isScalar | isContainer
    · exact @scalar_runs (parser.skip count) text more answer isScalar begins ends fuel
    have taken := @inductionHypothesis
      { parser.skip count with depth := parser.depth + 1 } fuel (by omega) (by
        change parser.depth + 1 + depth ≤ parser.maxDepth
        omega)
    have opens : (parser.skip count).depth < (parser.skip count).maxDepth := by
      change parser.depth < parser.maxDepth
      omega
    refine Runs.peek ?_
    rw [begins]
    cases isContainer with
    | array isEnclosed =>
      have ran := (container_runs opens taken (.inr rfl) isEnclosed begins).map Value.array
      obtain ⟨rest, rfl⟩ := isEnclosed.leads
      exact ran
    | object isEnclosed =>
      have ran := (container_runs opens (member_runs taken) (.inl rfl) isEnclosed begins).map
        fun members => Value.object (mergeRepeated members)
      obtain ⟨rest, rfl⟩ := isEnclosed.leads
      exact ran

theorem document_runs {before bytes after : Bytes} (blankBefore : Blank before)
    (blankAfter : Blank after) (level : parser.depth = 0)
    (isValue : ValueText (Number.Accepted parser.bigIntegers) parser.bigIntegers
      parser.maxDepth bytes value) (whole : parser.rest = before ++ (bytes ++ after)) :
    Runs (document (parser.maxDepth + 1)) parser (before ++ (bytes ++ after)) value := by
  have taken := @value_taken parser parser.maxDepth (parser.maxDepth + 1) (Nat.lt_succ_self _)
    (by omega)
  have atEnd : parser.rest = before ++ (bytes ++ (after ++ [])) := by
    rw [whole, List.append_nil]
  have stops : ∀ byte, ([] : Bytes).head? = some byte → isWs byte = false := by
    intro byte first
    cases first
  have ran := item_runs taken blankBefore isValue blankAfter ends_nil stops atEnd
    (Runs.pure value _)
  rwa [List.append_nil] at ran

end Runs

/-- A value between white space begins with no byte order mark. -/
theorem ValueText.unmarked {allowed : Number → Prop} {bigIntegers : BigIntegers} {depth : Nat}
    {value : Value} {before : Bytes} (blankBefore : Blank before)
    (isValue : ValueText allowed bigIntegers depth bytes value) (after : Bytes) :
    ¬ bom <+: before ++ (bytes ++ after) := by
  rintro ⟨rest, same⟩
  obtain ⟨lead, tail, rfl, -, ascii⟩ := isValue.leads
  cases before with
  | nil => exact absurd ascii ((List.cons.inj same).1 ▸ by decide)
  | cons blank before =>
    exact absurd (blankBefore blank List.mem_cons_self) ((List.cons.inj same).1 ▸ by decide)

/-- A text of the grammar is parsed, and the value it stands for is the answer. -/
theorem parseWith_complete {input : Bytes} {options : Options} {parsed : Value}
    (small : input.length ≤ options.maxSize)
    (isText : JsonText (Number.Accepted options.bigIntegers) options.bigIntegers
      (min options.maxDepth depthCap) input parsed)
    (top : options.topLevel = .objectOrArray → parsed.isContainer = true) :
    parseWith input options = .ok parsed := by
  cases isText with
  | @text mark before bytes after _ marked blankBefore isValue blankAfter =>
    have placed : (if bom.isPrefixOf (mark ++ (before ++ (bytes ++ after))) then 3 else 0) =
        mark.length := by
      rcases marked with rfl | rfl
      · exact if_neg (mt List.isPrefixOf_iff_prefix.mp (isValue.unmarked blankBefore after))
      · exact if_pos (List.isPrefixOf_iff_prefix.mpr ⟨_, rfl⟩)
    have whole : (mark ++ (before ++ (bytes ++ after))).drop mark.length =
        before ++ (bytes ++ after) := List.drop_left
    have ran := @document_runs ⟨mark ++ (before ++ (bytes ++ after)), mark.length, 0,
      min options.maxDepth depthCap, options.bigIntegers⟩ parsed before bytes after blankBefore
      blankAfter rfl isValue whole
    unfold Runs at ran
    have finished : ¬ mark.length + (before ++ (bytes ++ after)).length <
        (mark ++ (before ++ (bytes ++ after))).length := by
      rw [@List.length_append _ mark]
      exact Nat.lt_irrefl _
    have shaped : ¬ (options.topLevel = .objectOrArray ∧ ¬ parsed.isContainer = true) :=
      fun both => both.2 (top both.1)
    unfold parseWith
    rw [if_neg (Nat.not_lt_of_le small)]
    dsimp only
    rw [placed, ran]
    dsimp only [Parser.skip]
    rw [if_neg finished, if_neg shaped]

/-! ### The texts that are accepted -/

/-- The texts that are accepted are those of the grammar that are small and shallow enough, whose
floats are finite and whose top level is as required; whatever else is refused inside the input. -/
theorem parseWith_accepts (input : Bytes) (options : Options) :
    (∀ stop, parseWith input options = .error stop →
      ∃ error, stop = .refused error ∧ error.offset ≤ input.length) ∧
    ((∃ parsed, parseWith input options = .ok parsed) ↔
      input.length ≤ options.maxSize ∧ ∃ parsed,
        JsonText (Number.Accepted options.bigIntegers) options.bigIntegers
          (min options.maxDepth depthCap) input parsed ∧
        (options.topLevel = .objectOrArray → parsed.isContainer = true)) := by
  obtain ⟨refusals, answers⟩ := parseWith_sound input options
  refine ⟨refusals, fun ⟨parsed, ran⟩ => ?_, fun ⟨small, parsed, isText, top⟩ => ?_⟩
  · obtain ⟨small, isText, top⟩ := answers parsed ran
    exact ⟨small, parsed, isText, top⟩
  · exact ⟨parsed, parseWith_complete small isText top⟩

/-- A fraction or an exponent has to be finite also where large integers are kept as strings. -/
theorem parseWith_refuses_infinite :
    ¬ ∀ (input : Bytes) (options : Options),
      (∃ parsed, parseWith input options = .ok parsed) ↔
        input.length ≤ options.maxSize ∧ ∃ parsed,
          JsonText (fun number => options.bigIntegers = .lossy →
              number.isFloat = true ∨ ¬ number.FitsI64 → number.Finite)
            options.bigIntegers (min options.maxDepth depthCap) input parsed ∧
          (options.topLevel = .objectOrArray → parsed.isContainer = true) := by
  intro claimed
  let number : Number := ⟨false, [49], none, some ⟨101, none, ascii "400"⟩⟩
  have wellFormed : number.WellFormed := by
    refine ⟨⟨nofun, List.all_eq_true.mp rfl⟩, nofun, nofun, fun exponent same => ?_⟩
    cases same
    exact ⟨.inl rfl, nofun, ⟨nofun, List.all_eq_true.mp rfl⟩⟩
  have isText := @JsonText.text (fun number => BigIntegers.strings = .lossy →
    number.isFloat = true ∨ ¬ number.FitsI64 → number.Finite) .strings 64 [] [] (ascii "1e400") []
    _ (.inl rfl) nofun (ValueText.of_scalar (@ScalarText.number _ _ number wellFormed nofun)) nofun
  obtain ⟨parsed, ran⟩ := (claimed (ascii "1e400")
    { Options.default with bigIntegers := .strings }).mpr ⟨by decide, _, isText, nofun⟩
  have refused : (parseWith (ascii "1e400")
      { Options.default with bigIntegers := .strings }).isOk = false := by decide +kernel
  rw [ran] at refused
  cases refused

end ZeroServer.Json

/-
This file proves that the parser undoes the writer: what is written for a tree is a text of the
grammar, and the value it stands for is the tree.
-/

import ZeroServer.Http1.Response
import ZeroServer.Json.Complete
import ZeroServer.Json.Frames
import ZeroServer.Json.Merge

namespace ZeroServer.Json

open Http1 Lib

/-! ### Integers -/

theorem decimal_of_lowDigits (number : Nat) :
    decimal number = (if number / 10 = 0 then [] else decimal (number / 10)) ++
      [48 + UInt8.ofNat (number % 10)] := by
  have last : UInt8.ofNat (48 + number % 10) = 48 + UInt8.ofNat (number % 10) := UInt8.ofNat_add _ _
  unfold decimal
  rw [lowDigits_eq (by decide)]
  split
  · rw [List.reverse_singleton, List.map_singleton, last]
    rfl
  · rw [List.reverse_cons, List.map_append, List.map_singleton, last]

/-- The loop fills in the decimal digits in front of the place it began at. -/
theorem fillDigits_eq (digits : Bytes) (place value : Nat)
    (room : (lowDigits 10 value).length ≤ place) (inside : place ≤ digits.length) :
    (Writer.fillDigits digits place value).1.drop (Writer.fillDigits digits place value).2 =
      decimal value ++ digits.drop place := by
  induction place generalizing digits value with
  | zero =>
    exact absurd (List.length_eq_zero_iff.mp (Nat.le_zero.mp room))
      (lowDigits_ne_nil (by decide) value)
  | succ place inductionHypothesis =>
    have filled : (digits.set place (48 + UInt8.ofNat (value % 10))).drop place =
        (48 + UInt8.ofNat (value % 10)) :: digits.drop (place + 1) := by
      have below : place < (digits.set place (48 + UInt8.ofNat (value % 10))).length := by
        rw [List.length_set]
        exact inside
      rw [List.drop_eq_getElem_cons below, List.getElem_set_self,
        List.drop_set_of_lt (Nat.lt_succ_self place)]
    rw [decimal_of_lowDigits]
    rw [lowDigits_eq (by decide)] at room
    unfold Writer.fillDigits
    dsimp only
    by_cases last : value / 10 = 0
    · rw [if_pos (.inl last), if_pos last, filled]
      rfl
    · rw [if_neg last, List.length_cons] at room
      have some_ := List.length_pos_of_ne_nil (@lowDigits_ne_nil 10 (by decide) (value / 10))
      have more : place ≠ 0 := by omega
      rw [if_neg (not_or.mpr ⟨last, more⟩), if_neg last,
        inductionHypothesis _ _ (Nat.le_of_succ_le_succ room)
          (by rw [List.length_set]; exact Nat.le_of_succ_le inside), filled, List.append_assoc]
      rfl

theorem writeUnsigned_eq (out : Bytes) (value : UInt64) :
    Writer.writeUnsigned out value = out ++ decimal value.toNat := by
  have fits : (lowDigits 10 value.toNat).length ≤ 20 :=
    length_lowDigits_le (by decide) (by decide) (Nat.lt_trans value.toNat_lt (by decide))
  unfold Writer.writeUnsigned
  dsimp only
  rw [fillDigits_eq _ _ _ fits (Nat.le_of_eq List.length_replicate.symm),
    List.drop_eq_nil_of_le (Nat.le_of_eq List.length_replicate), List.append_nil]

theorem digits_decimal (number : Nat) : Digits (decimal number) := by
  have ascii : ∀ digit < 10, isAsciiDigit (UInt8.ofNat (48 + digit)) = true := by decide
  constructor
  · intro empty
    unfold decimal at empty
    exact lowDigits_ne_nil (by decide) number
      (List.reverse_eq_nil_iff.mp (List.map_eq_nil_iff.mp empty))
  · intro byte member
    obtain ⟨digit, known, rfl⟩ := List.mem_map.mp member
    exact ascii digit (lowDigits_lt (by decide) number digit (List.mem_reverse.mp known))

/-- Only zero begins with the digit zero. -/
theorem decimal_leading (number : Nat) (zero : (decimal number).head? = some 48) :
    decimal number = [48] := by
  by_cases none : number = 0
  · rw [none]
    rfl
  have ne_zero : ∀ digit < 10, UInt8.ofNat (48 + digit) = 48 → digit = 0 := by decide
  have last := Nat.getLast_digit_ne_zero 10 none
  unfold decimal lowDigits at zero
  rw [if_neg none, List.head?_map, List.head?_reverse,
    List.getLast?_eq_some_getLast (Nat.digits_ne_nil_iff_ne_zero.mpr none)] at zero
  exact absurd (ne_zero _ (Nat.digits_lt_base (by decide) (List.getLast_mem _))
    (Option.some.inj zero)) last

/-- The number an integer is written as. -/
def integerNumber (number : Int64) : Number :=
  ⟨number < 0, decimal number.toInt.natAbs, none, none⟩

theorem integerNumber_wellFormed (number : Int64) : (integerNumber number).WellFormed :=
  ⟨digits_decimal _, decimal_leading _, nofun, nofun⟩

theorem integerNumber_integer (number : Int64) : (integerNumber number).integer = number.toInt := by
  have value : digitsValue (decimal number.toInt.natAbs) = number.toInt.natAbs := by
    rw [digitsValue_eq, numeral_decimal]
  unfold Number.integer integerNumber
  dsimp only
  rw [value]
  by_cases negative : number < 0
  · have below : number.toInt < 0 := Int64.lt_iff_toInt_lt.mp negative
    rw [if_pos (decide_eq_true negative)]
    omega
  · have above : ¬ number.toInt < 0 := fun below => negative (Int64.lt_iff_toInt_lt.mpr below)
    rw [if_neg (by simpa using negative)]
    omega

theorem integerNumber_fits (number : Int64) : (integerNumber number).FitsI64 := by
  unfold Number.FitsI64
  rw [integerNumber_integer]
  exact ⟨number.le_toInt, number.toInt_lt⟩

theorem integerNumber_value (number : Int64) :
    (integerNumber number).value .lossy = .int number := by
  unfold Number.value
  dsimp only
  rw [if_neg (by exact nofun), if_pos (integerNumber_fits number),
    if_neg (fun both => nomatch both.1), integerNumber_integer, Int64.ofInt_toInt]

/-- An integer is written as its number. -/
theorem int_written (number : Int64) (writer : Writer) :
    (fun signed : Writer => { signed with
      out := Writer.writeUnsigned signed.out (UInt64.ofNat number.toInt.natAbs) })
      (if number < 0 then writer.push [minus] else writer) =
      writer.push (integerNumber number).text := by
  have magnitude : (UInt64.ofNat number.toInt.natAbs).toNat = number.toInt.natAbs := by
    have above := number.le_toInt
    have below := number.toInt_lt
    have small : number.toInt.natAbs ≤ 2 ^ 63 := by omega
    exact UInt64.toNat_ofNat_of_lt' (Nat.lt_of_le_of_lt small (by decide))
  dsimp only
  rw [writeUnsigned_eq, magnitude]
  unfold Number.text Number.signText integerNumber Number.fractionText Number.exponentText
  dsimp only
  rw [List.append_nil, List.append_nil]
  by_cases negative : number < 0
  · rw [if_pos negative, if_pos (decide_eq_true negative)]
    unfold Writer.push
    dsimp only
    rw [List.append_assoc]
  · rw [if_neg negative, if_neg (by simpa using negative)]
    rfl

theorem int_spells (number : Int64) (room : Nat) :
    Writer.Spells (Writer.int number) room (integerNumber number).text :=
  Writer.spells_single (int_written number) room

/-! ### Strings -/

/-- What a byte of a string is written as. -/
def escaped (byte : UInt8) : Bytes :=
  match Writer.escapeOf byte with
  | none => [byte]
  | some (some short) => short
  | some none =>
    [backslash, 117, 48, 48, Writer.hexDigit (byte >>> 4), Writer.hexDigit (byte &&& 0x0F)]

/-- The pending bytes and the escaped ones behind them come out in their order. -/
theorem escapeStep_fold (rest done written : Bytes) (start : Nat) (inside : start ≤ done.length) :
    let final := (rest.zipIdx done.length).foldl (Writer.escapeStep (done ++ rest)) (written, start)
    final.1 ++ (done ++ rest).drop final.2 =
      written ++ (done.drop start ++ rest.flatMap escaped) := by
  induction rest generalizing done written start with
  | nil =>
    dsimp only [List.zipIdx_nil, List.foldl_nil]
    rw [List.append_nil, List.flatMap_nil, List.append_nil]
  | cons byte rest inductionHypothesis =>
    have split : done ++ byte :: rest = (done ++ [byte]) ++ rest := by
      rw [List.append_assoc]
      rfl
    have length : (done ++ [byte]).length = done.length + 1 := List.length_append
    have known := inductionHypothesis (done ++ [byte])
    rw [length] at known
    rw [List.zipIdx_cons, List.foldl_cons, List.flatMap_cons, escaped, Writer.escapeStep, split]
    dsimp only
    cases found : Writer.escapeOf byte with
    | none =>
      rw [known written start (Nat.le_succ_of_le inside), List.drop_append_of_le_length inside,
        List.append_assoc]
    | some escape =>
      have pending : Span.of ⟨start, done.length⟩ ((done ++ [byte]) ++ rest) = done.drop start := by
        have whole : done.length ≤ (done ++ [byte] ++ rest).length := by
          rw [List.append_assoc, List.length_append]
          exact Nat.le_add_right _ _
        unfold Span.of
        rw [if_pos ⟨inside, whole⟩, List.append_assoc, List.drop_append_of_le_length inside]
        exact List.take_left' List.length_drop
      dsimp only
      rw [known _ _ (Nat.le_refl _), pending, ← length, List.drop_length, List.nil_append,
        List.append_assoc, List.append_assoc]
      cases escape <;> rfl

theorem writeString_eq (out : Bytes) (text : List Char) :
    Writer.writeString out text =
      out ++ (quote :: ((Utf8.encode text).flatMap escaped ++ [quote])) := by
  have folded := escapeStep_fold (Utf8.encode text) [] (out ++ [quote]) 0 (Nat.le_refl 0)
  unfold Writer.writeString
  dsimp only [List.nil_append, List.length_nil] at folded ⊢
  rw [folded, List.drop_nil, List.nil_append, List.append_assoc, List.append_assoc]
  rfl

/-- A way to write the bytes of a string that the grammar reads back: a byte stands for itself, or
behind a short escape, or behind its number. -/
structure Escapes (escape : UInt8 → Bytes) : Prop where
  plain : ∀ byte, 0x20 ≤ byte ∧ byte ≠ quote ∧ byte ≠ backslash → escape byte = [byte]
  special : ∀ byte, (byte < 0x20 ∨ byte = quote ∨ byte = backslash) →
    (∃ pair ∈ shortEscapes, escape byte = [backslash, pair.1] ∧ pair.2 = Char.ofNat byte.toNat) ∨
      ∃ high low : UInt8, escape byte = [backslash, 117, 48, 48, high, low] ∧
        hexDigit high = some (byte >>> 4) ∧ hexDigit low = some (byte &&& 0x0F) ∧
        numeral 16 0 [0, 0, (byte >>> 4).toNat, (byte &&& 0x0F).toNat] = byte.toNat

/-- A way to write every byte is checked byte by byte. -/
theorem Escapes.of_all {escape : UInt8 → Bytes}
    (all : ∀ value : Fin 256, let byte : UInt8 := ⟨⟨value⟩⟩
      (0x20 ≤ byte ∧ byte ≠ quote ∧ byte ≠ backslash → escape byte = [byte]) ∧
      ((byte < 0x20 ∨ byte = quote ∨ byte = backslash) →
        (∃ pair ∈ shortEscapes, escape byte = [backslash, pair.1] ∧
          pair.2 = Char.ofNat byte.toNat) ∨
        (escape byte = [backslash, 117, 48, 48, Writer.hexDigit (byte >>> 4),
            Writer.hexDigit (byte &&& 0x0F)] ∧
          hexDigit (Writer.hexDigit (byte >>> 4)) = some (byte >>> 4) ∧
          hexDigit (Writer.hexDigit (byte &&& 0x0F)) = some (byte &&& 0x0F) ∧
          numeral 16 0 [0, 0, (byte >>> 4).toNat, (byte &&& 0x0F).toNat] = byte.toNat))) :
    Escapes escape where
  plain byte := (all byte.toBitVec.toFin).1
  special byte isSpecial := by
    rcases (all byte.toBitVec.toFin).2 isSpecial with short | numbered
    · exact .inl short
    · exact .inr ⟨_, _, numbered⟩

theorem escaped_escapes : Escapes escaped := .of_all (by decide +kernel)

section Escapes

variable {escape : UInt8 → Bytes} (escapes : Escapes escape)

include escapes

/-- Every character is written as one item of a string. -/
theorem Escapes.item (char : Char) :
    StringItem ((String.utf8EncodeChar char).flatMap escape) char := by
  by_cases raw : 0x20 ≤ char.toNat ∧ char ≠ '"' ∧ char ≠ '\\'
  · obtain ⟨visible, notQuote, notBackslash⟩ := raw
    have plain : ∀ byte ∈ String.utf8EncodeChar char, escape byte = [byte] := fun byte member =>
      escapes.plain byte (raw_visible visible notQuote notBackslash member)
    have same : (String.utf8EncodeChar char).flatMap escape = String.utf8EncodeChar char := by
      rw [List.flatMap_congr plain]
      exact List.flatMap_singleton' _
    rw [same]
    exact .raw visible notQuote notBackslash
  · have small : char.toNat ≤ 0x7F ∧ (UInt8.ofNat char.toNat < 0x20 ∨
        UInt8.ofNat char.toNat = quote ∨ UInt8.ofNat char.toNat = backslash) := by
      by_cases visible : 0x20 ≤ char.toNat
      · by_cases isQuote : char = '"'
        · exact isQuote ▸ ⟨by decide, .inr (.inl rfl)⟩
        · have isBackslash : char = '\\' := by
            by_contra other
            exact raw ⟨visible, isQuote, other⟩
          exact isBackslash ▸ ⟨by decide, .inr (.inr rfl)⟩
      · refine ⟨by omega, .inl (UInt8.lt_iff_toNat_lt.mpr ?_)⟩
        rw [UInt8.toNat_ofNat_of_lt' (Nat.lt_of_lt_of_le (Nat.lt_of_not_le visible) (by decide))]
        exact Nat.lt_of_not_le visible
    obtain ⟨ascii, special⟩ := small
    have value : (UInt8.ofNat char.toNat).toNat = char.toNat :=
      UInt8.toNat_ofNat_of_lt' (Nat.lt_of_le_of_lt ascii (by decide))
    have back : Char.ofNat (UInt8.ofNat char.toNat).toNat = char := by
      rw [value]
      exact Char.ofNat_toNat char
    rw [Utf8.utf8EncodeChar_ascii ascii, List.flatMap_singleton]
    rcases escapes.special _ special with ⟨⟨letter, stands⟩, among, same, rfl⟩ |
        ⟨high, low, same, highDigit, lowDigit, code⟩
    · rw [same]
      exact .short (back ▸ among)
    · have hex : Hex4 [48, 48, high, low] char.toNat :=
        ⟨rfl, [0, 0, _, _], by
          rw [List.map_cons, List.map_cons, List.map_cons, List.map_cons, highDigit, lowDigit]
          rfl, (code.trans value).symm⟩
      have below : char.toNat < 0xD800 := Nat.lt_of_le_of_lt ascii (by decide)
      have isUnit := StringItem.unit hex (fun surrogate => Nat.not_le_of_lt below surrogate.1)
        fun surrogate => absurd surrogate.1 (by omega)
      rw [same]
      rwa [Char.ofNat_toNat] at isUnit

theorem Escapes.content (text : List Char) :
    StringContent ((Utf8.encode text).flatMap escape) text := by
  induction text with
  | nil => exact .nil
  | cons char text inductionHypothesis =>
    rw [Utf8.encode_cons, List.flatMap_append]
    exact .cons (escapes.item char) inductionHypothesis

end Escapes

/-- The text of a string. -/
def stringText (text : List Char) : Bytes :=
  quote :: ((Utf8.encode text).flatMap escaped ++ [quote])

theorem stringText_spells (text : List Char) : StringText (stringText text) text :=
  .quoted (escaped_escapes.content text)

theorem string_spells (text : List Char) (room : Nat) :
    Writer.Spells (Writer.string text) room (stringText text) := by
  refine Writer.spells_single (fun writer => ?_) room
  rw [writeString_eq]
  rfl

/-! ### Trees -/

/-- A tree without floats and bytes whose objects name no member twice, nesting a number of
containers at most. -/
inductive Tree : Nat → Value → Prop where
  | null {depth : Nat} : Tree depth .null
  | bool {depth : Nat} (flag : Bool) : Tree depth (.bool flag)
  | int {depth : Nat} (number : Int64) : Tree depth (.int number)
  | str {depth : Nat} (text : List Char) : Tree depth (.str text)
  | array {depth : Nat} {items : List Value} (each : ∀ item ∈ items, Tree depth item) :
      Tree (depth + 1) (.array items)
  | object {depth : Nat} {members : List Member} (distinct : (members.map Prod.fst).Nodup)
      (each : ∀ member ∈ members, Tree depth member.2) : Tree (depth + 1) (.object members)

section Containers

variable {Item : Type} {IsItem : Bytes → Item → Prop} {object : Bool} {room : Nat}
  {write : Item → Writing} {writeAll : List Item → Writing}

/-- Items written one behind another are a sequence of the grammar. -/
theorem sequence_lists (nil : writeAll [] = pure ())
    (cons : ∀ item rest, writeAll (item :: rest) = write item >>= fun _ => writeAll rest)
    (first : Item) (rest : List Item) (each : ∀ item ∈ first :: rest, ∃ bytes, IsItem bytes item ∧
      Writer.Lists object (write item) room bytes) :
    ∃ body, SequenceText IsItem body (first :: rest) ∧
      Writer.Lists object (writeAll (first :: rest)) room body := by
  induction rest generalizing first with
  | nil =>
    obtain ⟨bytes, isItem, lists⟩ := each first List.mem_cons_self
    refine ⟨[] ++ (bytes ++ []), .last nofun isItem nofun, ?_⟩
    rwa [cons, nil, bind_pure_unit, List.append_nil]
  | cons second rest inductionHypothesis =>
    obtain ⟨bytes, isItem, lists⟩ := each first List.mem_cons_self
    obtain ⟨body, isSequence, later⟩ := inductionHypothesis second fun item member =>
      each item (List.mem_cons_of_mem _ member)
    refine ⟨[] ++ (bytes ++ ([] ++ comma :: body)), .more nofun isItem nofun isSequence, ?_⟩
    rw [cons]
    exact Writer.lists_more lists later

/-- A container is written between its brackets. -/
theorem enclosed_spells (nil : writeAll [] = pure ())
    (cons : ∀ item rest, writeAll (item :: rest) = write item >>= fun _ => writeAll rest)
    (opening closing : UInt8) (entries : List Item)
    (each : ∀ item ∈ entries, ∃ bytes, IsItem bytes item ∧
      Writer.Lists object (write item) room bytes) :
    ∃ bytes, Enclosed IsItem opening closing bytes entries ∧
      Writer.Spells (do
        Writer.openWith opening object
        writeAll entries
        Writer.closeWith closing object) (room + 1) bytes := by
  cases entries with
  | nil =>
    refine ⟨_, @Enclosed.empty _ _ _ _ [] nofun, ?_⟩
    rw [nil]
    exact Writer.spells_empty opening closing object room
  | cons first rest =>
    obtain ⟨body, isSequence, lists⟩ := sequence_lists nil cons first rest each
    exact ⟨_, .filled isSequence, Writer.spells_container lists opening closing⟩

end Containers

variable {display : Binary64 → Bytes} {depth : Nat} {value : Value}

/-- What is written for a tree is a text of the grammar that stands for it. -/
theorem Tree.spells (tree : Tree depth value) {deeper : Nat} (within : depth ≤ deeper) :
    ∃ bytes, ValueText (Number.Accepted .lossy) .lossy deeper bytes value ∧
      Writer.Spells (Writer.value display value) depth bytes := by
  induction tree generalizing deeper with
  | null => exact ⟨_, ValueText.of_scalar .null, Writer.spells_single (fun _ => rfl) _⟩
  | bool flag =>
    cases flag with
    | false => exact ⟨_, ValueText.of_scalar .false, Writer.spells_single (fun _ => rfl) _⟩
    | true => exact ⟨_, ValueText.of_scalar .true, Writer.spells_single (fun _ => rfl) _⟩
  | int number =>
    have accepted : (integerNumber number).Accepted .lossy := fun refused =>
      absurd (integerNumber_fits number) (refused.resolve_left nofun).2
    have isNumber := @ScalarText.number _ .lossy _ (integerNumber_wellFormed number) accepted
    rw [integerNumber_value] at isNumber
    exact ⟨_, ValueText.of_scalar isNumber, int_spells number _⟩
  | str text =>
    exact ⟨_, ValueText.of_scalar (.string (stringText_spells text)), string_spells text _⟩
  | array each inductionHypothesis =>
    obtain ⟨deeper, rfl⟩ : ∃ inner, deeper = inner + 1 := ⟨deeper - 1, by omega⟩
    obtain ⟨bytes, isEnclosed, spells⟩ := @enclosed_spells _ _ _ _ _ (Writer.items display) rfl
      (fun _ _ => rfl) openBracket closeBracket _ fun item member => by
        obtain ⟨bytes, isValue, spells⟩ := inductionHypothesis item member
          (Nat.le_of_succ_le_succ within)
        exact ⟨bytes, isValue, Writer.lists_item spells⟩
    exact ⟨bytes, .inr (.array isEnclosed), spells⟩
  | object distinct each inductionHypothesis =>
    obtain ⟨deeper, rfl⟩ : ∃ inner, deeper = inner + 1 := ⟨deeper - 1, by omega⟩
    obtain ⟨bytes, isEnclosed, spells⟩ := @enclosed_spells _
      (MemberText (ValueText (Number.Accepted .lossy) .lossy deeper)) _ _ _ (Writer.members display)
      rfl (fun member rest => (bind_assoc (Writer.key member.1) _ _).symm) openBrace closeBrace _
      fun member among => by
        obtain ⟨bytes, isValue, spells⟩ := inductionHypothesis member among
          (Nat.le_of_succ_le_succ within)
        exact ⟨stringText member.1 ++ ([] ++ colon :: ([] ++ bytes)),
          .member (stringText_spells member.1) nofun nofun isValue,
          Writer.lists_member spells fun out => writeString_eq out member.1⟩
    refine ⟨bytes, .inr ?_, spells⟩
    have isObject := ContainerText.object isEnclosed
    rwa [mergeRepeated_distinct distinct] at isObject

/-- Every tree is written, without a byte order mark, and what is written is parsed as the same
tree. -/
theorem parseWith_toVec (display : Binary64 → Bytes) (tree : Value) (options : Options)
    (lossy : options.bigIntegers = .lossy) (any : options.topLevel = .any)
    (isTree : Tree (min Writer.maxDepth options.maxDepth) tree) :
    ∃ bytes, Writer.toVec display tree = .ok bytes ∧ ¬ bom <+: bytes ∧
      (bytes.length ≤ options.maxSize → parseWith bytes options = .ok tree) := by
  have deep : min Writer.maxDepth options.maxDepth ≤ min options.maxDepth depthCap := by
    unfold Writer.maxDepth depthCap
    omega
  obtain ⟨bytes, isValue, spells⟩ := @Tree.spells display _ _ isTree _ deep
  obtain ⟨after, ran, wrote⟩ := spells (Writer.new_tracks []) ⟨rfl, rfl⟩
    (by rw [List.length_nil, Nat.zero_add]; exact Nat.min_le_left _ _)
  have out : after.out = bytes := wrote.out
  have unmarked := isValue.unmarked (nofun : Blank []) []
  rw [List.nil_append, List.append_nil] at unmarked
  refine ⟨bytes, ?_, unmarked, fun small => ?_⟩
  · unfold Writer.toVec
    rw [ran, ← out]
  · have isText := @JsonText.text _ _ _ [] [] bytes [] tree (.inl rfl) nofun isValue nofun
    rw [List.append_nil] at isText
    refine parseWith_complete small (lossy ▸ isText) fun required => ?_
    rw [any] at required
    cases required

theorem parseWith_toVec_nested :
    let tree : Value := .object [(['a'], .array [.int Int64.minValue]), (['b'], .str ['"'])]
    ∃ bytes, Writer.toVec (fun _ => []) tree = .ok bytes ∧ ¬ bom <+: bytes ∧
      (bytes.length ≤ Options.default.maxSize → parseWith bytes .default = .ok tree) := by
  have isTree : Tree (min Writer.maxDepth Options.default.maxDepth)
      (.object [(['a'], .array [.int Int64.minValue]), (['b'], .str ['"'])]) :=
    @Tree.object 63 _ (by decide) (List.forall_mem_cons.mpr
      ⟨@Tree.array 62 _ (List.forall_mem_singleton.mpr (.int _)),
        List.forall_mem_singleton.mpr (.str _)⟩)
  exact parseWith_toVec _ _ .default rfl rfl isTree

end ZeroServer.Json

/-
This file states the grammar of JSON texts over bytes: numbers by their parts, strings item by item,
values by the containers they nest, each with the value it stands for.
-/

import ZeroServer.Json.Parse
import ZeroServer.Lib.Numeral

namespace ZeroServer.Json

open Http1 Lib

/-! ### Numbers -/

/-- One digit or more. -/
def Digits (digits : Bytes) : Prop := digits ≠ [] ∧ ∀ byte ∈ digits, isAsciiDigit byte = true

structure Exponent where
  mark : UInt8
  sign : Option UInt8
  digits : Bytes

namespace Exponent

structure WellFormed (exponent : Exponent) : Prop where
  mark : exponent.mark = 101 ∨ exponent.mark = 69
  sign : ∀ byte, exponent.sign = some byte → byte = plus ∨ byte = minus
  digits : Digits exponent.digits

def text (exponent : Exponent) : Bytes :=
  exponent.mark :: (exponent.sign.toList ++ exponent.digits)

def value (exponent : Exponent) : Int :=
  if exponent.sign = some minus then -(digitsValue exponent.digits : Int)
  else digitsValue exponent.digits

end Exponent

/-- The parts of a number. -/
structure Number where
  negative : Bool
  whole : Bytes
  fraction : Option Bytes
  exponent : Option Exponent

namespace Number

structure WellFormed (number : Number) : Prop where
  whole : Digits number.whole
  leading : number.whole.head? = some 48 → number.whole = [48]
  fraction : ∀ digits, number.fraction = some digits → Digits digits
  exponent : ∀ exponent, number.exponent = some exponent → exponent.WellFormed

def signText (number : Number) : Bytes := if number.negative then [minus] else []

def fractionText (number : Number) : Bytes :=
  match number.fraction with
  | none => []
  | some digits => dot :: digits

def exponentText (number : Number) : Bytes :=
  match number.exponent with
  | none => []
  | some exponent => exponent.text

def text (number : Number) : Bytes :=
  number.signText ++ (number.whole ++ (number.fractionText ++ number.exponentText))

/-- A number with a fraction or an exponent is no integer. -/
def isFloat (number : Number) : Bool := number.fraction.isSome || number.exponent.isSome

/-- The integer in front of the point. -/
def integer (number : Number) : Int :=
  if number.negative then -(digitsValue number.whole : Int) else digitsValue number.whole

def FitsI64 (number : Number) : Prop := -2 ^ 63 ≤ number.integer ∧ number.integer < 2 ^ 63

instance (number : Number) : Decidable number.FitsI64 :=
  inferInstanceAs (Decidable (_ ∧ _))

/-- The power of ten that scales all the digits in front of the exponent. -/
def scale (number : Number) : Int :=
  (match number.exponent with
    | none => 0
    | some exponent => exponent.value) - (number.fraction.getD []).length

def digits (number : Number) : Nat := digitsValue (number.whole ++ number.fraction.getD [])

/-- The number is below the least one that a binary64 has no finite value for. -/
def Finite (number : Number) : Prop :=
  number.digits * 10 ^ number.scale.toNat < 10 ^ (-number.scale).toNat * Binary64.overflow

/-- A number that becomes a float has to be finite. -/
def Accepted (bigIntegers : BigIntegers) (number : Number) : Prop :=
  number.isFloat = true ∨ (bigIntegers = .lossy ∧ ¬ number.FitsI64) → number.Finite

/-- What a number becomes. -/
def value (number : Number) (bigIntegers : BigIntegers) : Value :=
  let float := Value.float (Binary64.ofDecimal number.negative number.digits number.scale)
  let string := Value.str (number.text.map fun byte => Char.ofNat byte.toNat)
  if number.isFloat then float
  else if number.FitsI64 then
    if bigIntegers = .strings ∧
        ¬ (-maxSafeInteger ≤ number.integer ∧ number.integer ≤ maxSafeInteger) then string
    else .int (Int64.ofInt number.integer)
  else if bigIntegers = .strings then string else float

end Number

/-! ### Strings -/

variable {bytes : Bytes}

/-- The letters of the short escapes and what they stand for. -/
def shortEscapes : List (UInt8 × Char) :=
  [(quote, '"'), (backslash, '\\'), (47, '/'), (98, '\x08'), (102, '\x0C'), (110, '\n'),
    (114, '\r'), (116, '\t')]

/-- The code of four hexadecimal digits. -/
def Hex4 (digits : Bytes) (code : Nat) : Prop :=
  digits.length = 4 ∧ ∃ values : List UInt8, digits.map hexDigit = values.map some ∧
    code = numeral 16 0 (values.map UInt8.toNat)

def High (code : Nat) : Prop := 0xD800 ≤ code ∧ code ≤ 0xDBFF

def Low (code : Nat) : Prop := 0xDC00 ≤ code ∧ code ≤ 0xDFFF

/-- What stands for one character of a string. -/
inductive StringItem : Bytes → Char → Prop where
  | raw {char : Char} (visible : 0x20 ≤ char.toNat) (quote : char ≠ '"') (backslash : char ≠ '\\') :
      StringItem (String.utf8EncodeChar char) char
  | short {letter : UInt8} {char : Char} (among : (letter, char) ∈ shortEscapes) :
      StringItem [backslash, letter] char
  | unit {digits : Bytes} {code : Nat} (hex : Hex4 digits code) (notHigh : ¬ High code)
      (notLow : ¬ Low code) :
      StringItem (backslash :: 117 :: digits) (Char.ofNat code)
  | pair {first second : Bytes} {high low : Nat} (hexHigh : Hex4 first high)
      (hexLow : Hex4 second low) (isHigh : High high) (isLow : Low low) :
      StringItem (backslash :: 117 :: (first ++ backslash :: 117 :: second))
        (Char.ofNat (0x10000 + (high - 0xD800) * 0x400 + (low - 0xDC00)))

theorem StringItem.text_some {char : Char} (item : StringItem bytes char) : bytes ≠ [] := by
  cases item with
  | raw => exact Utf8.utf8EncodeChar_some char
  | short | unit | pair => exact List.cons_ne_nil _ _

/-- What stands for the characters of a string. -/
inductive StringContent : Bytes → List Char → Prop where
  | nil : StringContent [] []
  | cons {item rest : Bytes} {char : Char} {chars : List Char} (first : StringItem item char)
      (later : StringContent rest chars) : StringContent (item ++ rest) (char :: chars)

/-- A string between its quotation marks. -/
inductive StringText : Bytes → List Char → Prop where
  | quoted {content : Bytes} {text : List Char} (inside : StringContent content text) :
      StringText (quote :: (content ++ [quote])) text

/-! ### Values -/

variable {allowed : Number → Prop} {bigIntegers : BigIntegers}

/-- White space. -/
def Blank (bytes : Bytes) : Prop := ∀ byte ∈ bytes, isWs byte = true

/-- Items between commas, each between white space. -/
inductive SequenceText {Item : Type} (IsItem : Bytes → Item → Prop) : Bytes → List Item → Prop where
  | last {before bytes after : Bytes} {item : Item} (blankBefore : Blank before)
      (isItem : IsItem bytes item) (blankAfter : Blank after) :
      SequenceText IsItem (before ++ (bytes ++ after)) [item]
  | more {before bytes after rest : Bytes} {item : Item} {items : List Item}
      (blankBefore : Blank before) (isItem : IsItem bytes item) (blankAfter : Blank after)
      (later : SequenceText IsItem rest items) :
      SequenceText IsItem (before ++ (bytes ++ (after ++ comma :: rest))) (item :: items)

theorem Blank.append {first second : Bytes} (left : Blank first) (right : Blank second) :
    Blank (first ++ second) := fun byte member =>
  (List.mem_append.mp member).elim (left byte) (right byte)

/-- White space in front of a sequence is white space in front of its first item. -/
theorem SequenceText.lead {Item : Type} {IsItem : Bytes → Item → Prop} {body blank : Bytes}
    {items : List Item} (sequence : SequenceText IsItem body items) (isBlank : Blank blank) :
    SequenceText IsItem (blank ++ body) items := by
  cases sequence with
  | last blankBefore isItem blankAfter =>
    rw [← List.append_assoc]
    exact .last (isBlank.append blankBefore) isItem blankAfter
  | more blankBefore isItem blankAfter later =>
    rw [← List.append_assoc]
    exact .more (isBlank.append blankBefore) isItem blankAfter later

/-- Items between two brackets, or white space. -/
inductive Enclosed {Item : Type} (IsItem : Bytes → Item → Prop) (opening closing : UInt8) :
    Bytes → List Item → Prop where
  | empty {blank : Bytes} (isBlank : Blank blank) :
      Enclosed IsItem opening closing (opening :: (blank ++ [closing])) []
  | filled {body : Bytes} {items : List Item} (inside : SequenceText IsItem body items) :
      Enclosed IsItem opening closing (opening :: (body ++ [closing])) items

/-- A name, a colon and a value. -/
inductive MemberText (IsValue : Bytes → Value → Prop) : Bytes → Member → Prop where
  | member {name after before bytes : Bytes} {spelled : List Char} {value : Value}
      (isName : StringText name spelled) (blankAfter : Blank after) (blankBefore : Blank before)
      (isValue : IsValue bytes value) :
      MemberText IsValue (name ++ (after ++ colon :: (before ++ bytes))) (spelled, value)

/-- A value that is no container; some numbers are allowed. -/
inductive ScalarText (allowed : Number → Prop) (bigIntegers : BigIntegers) :
    Bytes → Value → Prop where
  | null : ScalarText allowed bigIntegers (ascii "null") .null
  | false : ScalarText allowed bigIntegers (ascii "false") (.bool false)
  | true : ScalarText allowed bigIntegers (ascii "true") (.bool true)
  | number {number : Number} (wellFormed : number.WellFormed) (isAllowed : allowed number) :
      ScalarText allowed bigIntegers number.text (number.value bigIntegers)
  | string {bytes : Bytes} {text : List Char} (spells : StringText bytes text) :
      ScalarText allowed bigIntegers bytes (.str text)

/-- A container of values. -/
inductive ContainerText (IsValue : Bytes → Value → Prop) : Bytes → Value → Prop where
  | array {bytes : Bytes} {items : List Value}
      (enclosed : Enclosed IsValue openBracket closeBracket bytes items) :
      ContainerText IsValue bytes (.array items)
  | object {bytes : Bytes} {members : List Member}
      (enclosed : Enclosed (MemberText IsValue) openBrace closeBrace bytes members) :
      ContainerText IsValue bytes (.object (mergeRepeated members))

/-- A value that nests a number of containers at most. -/
def ValueText (allowed : Number → Prop) (bigIntegers : BigIntegers) : Nat → Bytes → Value → Prop
  | 0 => ScalarText allowed bigIntegers
  | depth + 1 => fun bytes value =>
    ScalarText allowed bigIntegers bytes value ∨
      ContainerText (ValueText allowed bigIntegers depth) bytes value

theorem ValueText.of_scalar {depth : Nat} {value : Value}
    (isScalar : ScalarText allowed bigIntegers bytes value) :
    ValueText allowed bigIntegers depth bytes value := by
  cases depth with
  | zero => exact isScalar
  | succ => exact .inl isScalar

theorem StringText.text_some {text : List Char} (isString : StringText bytes text) :
    bytes ≠ [] := by
  cases isString
  exact List.cons_ne_nil _ _

theorem Number.WellFormed.text_some {number : Number} (wellFormed : number.WellFormed) :
    number.text ≠ [] :=
  List.append_ne_nil_of_right_ne_nil _ (List.append_ne_nil_of_left_ne_nil wellFormed.whole.1 _)

theorem ScalarText.text_some {value : Value}
    (isScalar : ScalarText allowed bigIntegers bytes value) : bytes ≠ [] := by
  cases isScalar with
  | null | false | true => exact nofun
  | number wellFormed => exact wellFormed.text_some
  | string spells => exact spells.text_some

theorem Enclosed.text_some {Item : Type} {IsItem : Bytes → Item → Prop} {opening closing : UInt8}
    {items : List Item} (enclosed : Enclosed IsItem opening closing bytes items) : bytes ≠ [] := by
  cases enclosed <;> exact List.cons_ne_nil _ _

theorem ValueText.text_some {depth : Nat} {value : Value}
    (isValue : ValueText allowed bigIntegers depth bytes value) : bytes ≠ [] := by
  cases depth with
  | zero => exact ScalarText.text_some isValue
  | succ depth =>
    rcases isValue with isScalar | isContainer
    · exact isScalar.text_some
    · cases isContainer with
      | array enclosed => exact enclosed.text_some
      | object enclosed => exact enclosed.text_some

/-- A whole text: a value between white space, behind a byte order mark or not. -/
inductive JsonText (allowed : Number → Prop) (bigIntegers : BigIntegers) (depth : Nat) :
    Bytes → Value → Prop where
  | text {mark before bytes after : Bytes} {value : Value} (marked : mark = [] ∨ mark = bom)
      (blankBefore : Blank before) (isValue : ValueText allowed bigIntegers depth bytes value)
      (blankAfter : Blank after) :
      JsonText allowed bigIntegers depth (mark ++ (before ++ (bytes ++ after))) value

end ZeroServer.Json

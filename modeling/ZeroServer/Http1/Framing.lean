/-
This file proves that the framing of an accepted request is never ambiguous. What the parser
keeps while it fills the table is a fold over the fields; `Tells` says what each flag of the
fold means for the whole list, whatever the number and order of the fields, and the decision
about the body is read off that meaning.
-/

import ZeroServer.Http1.HeadShape
import ZeroServer.Lib.Numeral

namespace ZeroServer.Http1

open Lib

/-! ### Names -/

variable {bytes : Bytes} {name : HeaderName}

theorem HeaderName.mem_all (name : HeaderName) : name ∈ HeaderName.all := by
  cases name <;> decide

theorem HeaderName.parseLowercase_asBytes (name : HeaderName) :
    HeaderName.parseLowercase name.asBytes = some name := by
  have table : ∀ known ∈ HeaderName.all, HeaderName.parseLowercase known.asBytes = some known := by
    decide +kernel
  exact table name name.mem_all

theorem HeaderName.length_canonical_le (name : HeaderName) :
    (ascii name.canonical).length ≤ HeaderName.maxLen := by
  cases name <;> decide

/-- A name is recognized when it is spelled as registered, in any case. -/
theorem HeaderName.parse_eq_some :
    HeaderName.parse bytes = some name ↔ eqIgnoreAsciiCase bytes (ascii name.canonical) = true := by
  unfold HeaderName.parse eqIgnoreAsciiCase
  rw [beq_iff_eq]
  constructor
  · intro parsed
    split at parsed
    · cases parsed
    · have found := List.find?_some parsed
      rw [beq_iff_eq] at found
      exact found.symm
  · intro same
    have length : bytes.length ≤ HeaderName.maxLen := by
      have lengths := congrArg List.length same
      rw [List.length_map, List.length_map] at lengths
      rw [lengths]
      exact name.length_canonical_le
    rw [if_neg (Nat.not_lt.mpr length), same]
    exact name.parseLowercase_asBytes

/-! ### `Content-Length` values -/

/-- The exact value of a string of decimal digits. -/
def decimalValue (digits : Bytes) : Nat := numeral 10 0 (digits.map fun digit => digit.toNat - 48)

theorem contentLengthFrom_eq_some {start length : Nat} :
    contentLengthFrom start bytes = some length → bytes ≠ [] ∨ start < u64Size →
      bytes.all isAsciiDigit = true ∧ length < u64Size ∧
        length = numeral 10 start (bytes.map fun digit => digit.toNat - 48) := by
  induction bytes generalizing start with
  | nil =>
    rintro parsed (some_ | small)
    · exact absurd rfl some_
    · cases parsed
      exact ⟨rfl, small, rfl⟩
  | cons byte rest inductionHypothesis =>
    intro parsed _
    rw [contentLengthFrom, checked_digit] at parsed
    split at parsed
    · rename_i digit
      split at parsed
      · rename_i fits
        obtain ⟨digits, small, exact_⟩ := inductionHypothesis parsed (Or.inr fits)
        refine ⟨?_, small, exact_⟩
        rw [List.all_cons, digit, digits]
        rfl
      · cases parsed
    · cases parsed

/-- A `Content-Length` value that was parsed is a string of digits with exactly that value. -/
theorem parseContentLength_eq_some {value : Bytes} {length : Nat}
    (parsed : parseContentLength value = some length) :
    value ≠ [] ∧ value.all isAsciiDigit = true ∧ decimalValue value = length ∧
      length < u64Size := by
  unfold parseContentLength at parsed
  split at parsed
  · cases parsed
  · rename_i some_
    have nonempty : value ≠ [] := by simpa using some_
    obtain ⟨digits, small, exact_⟩ := contentLengthFrom_eq_some parsed (Or.inl nonempty)
    exact ⟨nonempty, digits, exact_.symm, small⟩

/-! ### What the fold over the fields means -/

variable {input : Bytes} {fields : List Field}

/-- The fields of a list with an interned name. -/
def withId (name : HeaderName) (fields : List Field) : List Field :=
  fields.filter fun field => field.id = some name

/-- The list elements of a field's value. -/
def elements (input : Bytes) (field : Field) : List Bytes := listElements (field.value.of input)

/-- What the parser has kept, told by the fields it has read. -/
structure Interpreted.Tells (seen : Interpreted) (input : Bytes) (fields : List Field) : Prop where
  contentLengthCount : seen.contentLengthCount = (withId .contentLength fields).length
  contentLength : seen.contentLength = (withId .contentLength fields).head?.map Field.value
  transferEncodingSeen : seen.transferEncodingSeen = !(withId .transferEncoding fields).isEmpty
  transferEncodingInvalid : seen.transferEncodingInvalid = false →
    ∀ field ∈ withId .transferEncoding fields, elements input field ≠ [] ∧
      ∀ coding ∈ elements input field, isChunked coding = true → (codingName coding).2 = false
  transferEncodingOther : seen.transferEncodingOther = false →
    ∀ field ∈ withId .transferEncoding fields, ∀ coding ∈ elements input field,
      isChunked coding = true

theorem withId_append (name : HeaderName) (fields : List Field) (field : Field) :
    withId name (fields ++ [field]) =
      withId name fields ++ if field.id = some name then [field] else [] := by
  unfold withId
  rw [List.filter_append]
  by_cases named : field.id = some name <;> simp [named]

/-- One more field keeps the meaning. -/
theorem Interpreted.Tells.interpret {seen : Interpreted} (tells : seen.Tells input fields)
    (version : Version) (field : Field) :
    (Http1.interpret input version seen field.id field.value).Tells input (fields ++ [field]) := by
  rcases interpret_cases input version seen field.id field.value with
    ⟨named, same⟩ | ⟨named, same⟩ | ⟨named, same⟩ |
      ⟨notHost, notLength, notCoding, _, _, _, _, _, same⟩ <;> rw [same]
  · refine ⟨?_, ?_, ?_, ?_, ?_⟩ <;>
      simp only [withId_append, named, Option.some.injEq, reduceCtorEq, if_false, List.append_nil]
    exacts [tells.1, tells.2, tells.3, tells.4, tells.5]
  · refine ⟨?_, ?_, ?_, ?_, ?_⟩ <;>
      simp only [withId_append, named, Option.some.injEq, reduceCtorEq, if_false, if_true,
        List.append_nil]
    · rw [tells.contentLengthCount, List.length_append]
      rfl
    · rw [tells.contentLength]
      rcases withId .contentLength fields with - | ⟨first, rest⟩ <;> rfl
    exacts [tells.3, tells.4, tells.5]
  · refine ⟨?_, ?_, ?_, ?_, ?_⟩ <;>
      simp only [withId_append, named, Option.some.injEq, reduceCtorEq, if_false, if_true,
        List.append_nil]
    · exact tells.1
    · exact tells.2
    · simp
    · intro valid
      rw [Bool.or_eq_false_iff, Bool.or_eq_false_iff] at valid
      obtain ⟨before, some_, here⟩ := valid
      intro other member
      rcases List.mem_append.mp member with old | new
      · exact tells.transferEncodingInvalid before other old
      · rw [List.mem_singleton.mp new]
        refine ⟨by simpa [elements] using some_, fun coding inside chunked => ?_⟩
        rw [List.any_eq_false] at here
        simpa [chunked] using here coding inside
    · intro plain
      rw [Bool.or_eq_false_iff] at plain
      obtain ⟨before, here⟩ := plain
      intro other member coding inside
      rcases List.mem_append.mp member with old | new
      · exact tells.transferEncodingOther before other old coding inside
      · rw [List.mem_singleton.mp new] at inside
        rw [List.any_eq_false] at here
        simpa using here coding inside
  · refine ⟨?_, ?_, ?_, ?_, ?_⟩ <;>
      simp only [withId_append, if_neg notLength, if_neg notCoding, List.append_nil]
    exacts [tells.1, tells.2, tells.3, tells.4, tells.5]

/-- What the parser has kept after all fields of a list tells that list. -/
theorem interpretAll_tells (input : Bytes) (version : Version) (fields : List Field) :
    (interpretAll input version {} fields).Tells input fields := by
  induction fields using List.reverseRecOn with
  | nil =>
    exact ⟨rfl, rfl, rfl, fun _ field member => absurd member (by simp [withId]),
      fun _ field member => absurd member (by simp [withId])⟩
  | append_singleton fields field inductionHypothesis =>
    unfold interpretAll
    rw [List.foldl_append]
    exact inductionHypothesis.interpret version field

/-! ### Fields by name -/

variable {texts : List FieldText}

/-- The field's name, in any case. -/
def Field.named (input : Bytes) (name : HeaderName) (field : Field) : Bool :=
  eqIgnoreAsciiCase (field.name.of input) (ascii name.canonical)

/-- The fields of a table with a name. -/
def fieldsNamed (input : Bytes) (name : HeaderName) (fields : List Field) : List Field :=
  fields.filter (Field.named input name)

def FieldText.named (name : HeaderName) (text : FieldText) : Bool :=
  eqIgnoreAsciiCase text.name (ascii name.canonical)

/-- A table entry over an input holds the parts of a field line. -/
structure Field.Holds (input : Bytes) (field : Field) (text : FieldText) : Prop where
  name : field.name.of input = text.name
  value : field.value.of input = text.value
  id : field.id = HeaderName.parse text.name

theorem entry_holds {pos : Nat} {text : FieldText} (reads : Reads input pos text.render) :
    (text.entry pos).Holds input text := by
  have whole := reads.le_length (by simp [FieldText.render])
  rw [text.render_eq, reads_append, reads_cons, reads_append] at reads
  obtain ⟨nameReads, -, -, valueReads⟩ := reads
  refine ⟨nameReads.span text.nameSome, ?_, rfl⟩
  change (Span.mk (text.valueAt pos) (text.valueAt pos + text.value.length)).of input = text.value
  by_cases empty : text.value = []
  · rw [empty, Span.of]
    split
    · simp
    · rfl
  · refine Reads.span ?_ empty
    rw [FieldText.raw, if_neg empty, List.append_assoc] at valueReads
    exact (reads_append.mp valueReads).1

theorem entriesAt_hold {pos : Nat} {rest : Bytes}
    (reads : Reads input pos (texts.flatMap FieldText.render ++ rest)) :
    List.Forall₂ (Field.Holds input) (entriesAt pos texts) texts := by
  induction texts generalizing pos with
  | nil => exact List.Forall₂.nil
  | cons text others inductionHypothesis =>
    rw [List.flatMap_cons, List.append_assoc, reads_append] at reads
    exact List.Forall₂.cons (entry_holds reads.1) (inductionHypothesis reads.2)

theorem fieldsNamed_eq_withId (hold : List.Forall₂ (Field.Holds input) fields texts) :
    fieldsNamed input name fields = withId name fields := by
  induction hold with
  | nil => rfl
  | @cons field text fields texts holds _ inductionHypothesis =>
    have same : Field.named input name field = decide (field.id = some name) := by
      rw [Bool.eq_iff_iff, decide_eq_true_eq, holds.id, HeaderName.parse_eq_some, Field.named,
        holds.name]
    unfold fieldsNamed withId at *
    rw [List.filter_cons, List.filter_cons, same, inductionHypothesis]

/-- The values of the fields with a name are those of the field lines with it. -/
theorem fieldsNamed_values {input : Bytes} {name : HeaderName} {fields : List Field}
    {texts : List FieldText} (hold : List.Forall₂ (Field.Holds input) fields texts) :
    (fieldsNamed input name fields).map (fun field => field.value.of input) =
      (texts.filter (FieldText.named name)).map FieldText.value := by
  induction hold with
  | nil => rfl
  | @cons field text fields texts holds _ inductionHypothesis =>
    have same : Field.named input name field = FieldText.named name text := by
      rw [Field.named, holds.name, FieldText.named]
    unfold fieldsNamed at *
    rw [List.filter_cons, List.filter_cons, same]
    by_cases named : FieldText.named name text = true
    · rw [if_pos named, if_pos named, List.map_cons, List.map_cons, inductionHypothesis,
        holds.value]
    · rw [if_neg named, if_neg named, inductionHypothesis]

/-! ### The decision -/

variable {body : BodyLength}

/-- What a framing decision says about the fields with the two framing names. -/
inductive Framed (input : Bytes) (version : Version) (fields : List Field) : BodyLength → Prop where
  | none : fieldsNamed input .contentLength fields = [] →
      fieldsNamed input .transferEncoding fields = [] → Framed input version fields .none
  | length (field : Field) : fieldsNamed input .contentLength fields = [field] →
      field.value.of input ≠ [] → (field.value.of input).all isAsciiDigit = true →
      decimalValue (field.value.of input) < 2 ^ 64 →
      fieldsNamed input .transferEncoding fields = [] →
      Framed input version fields (.length (decimalValue (field.value.of input)))
  | chunked : version = .http11 → fieldsNamed input .transferEncoding fields ≠ [] →
      fieldsNamed input .contentLength fields = [] →
      (∀ field ∈ fieldsNamed input .transferEncoding fields,
        listElements (field.value.of input) ≠ [] ∧
          ∀ element ∈ listElements (field.value.of input),
            eqIgnoreAsciiCase element (ascii "chunked") = true) →
      Framed input version fields .chunked

/-- A coding that is `chunked` and has no parameters is nothing else. -/
theorem eqIgnoreAsciiCase_of_isChunked {coding : Bytes} (chunked : isChunked coding = true)
    (plain : (codingName coding).2 = false) : eqIgnoreAsciiCase coding (ascii "chunked") = true := by
  unfold isChunked codingName at chunked
  unfold codingName at plain
  rcases found : coding.findIdx? (· == 59) with - | at_
  · rw [found] at chunked
    exact chunked
  · rw [found] at plain
    cases plain

theorem framing_framed {version : Version} (hold : List.Forall₂ (Field.Holds input) fields texts)
    (framed : framing (interpretAll input version {} fields) input version = .ok body) :
    Framed input version fields body := by
  have tells := interpretAll_tells input version fields
  have lengths : fieldsNamed input .contentLength fields = withId .contentLength fields :=
    fieldsNamed_eq_withId hold
  have codings : fieldsNamed input .transferEncoding fields = withId .transferEncoding fields :=
    fieldsNamed_eq_withId hold
  unfold framing at framed
  split at framed
  · rename_i seen
    split at framed
    · cases framed
    · rename_i sound
      split at framed
      · cases framed
      · rename_i plain
        cases framed
        simp only [not_or, Bool.not_eq_true] at sound
        obtain ⟨version11, noLength, valid, -⟩ := sound
        rw [tells.transferEncodingSeen] at seen
        rw [tells.contentLengthCount] at noLength
        refine Framed.chunked ?_ ?_ ?_ ?_
        · rcases version with - | -
          · exact absurd rfl version11
          · rfl
        · rw [codings]
          simpa using seen
        · rw [lengths]
          exact List.eq_nil_of_length_eq_zero (by omega)
        · intro field member
          rw [codings] at member
          obtain ⟨some_, bare⟩ := tells.transferEncodingInvalid valid field member
          refine ⟨some_, fun element inside => ?_⟩
          have chunked := tells.transferEncodingOther (by simpa using plain) field member element inside
          exact eqIgnoreAsciiCase_of_isChunked chunked (bare element inside chunked)
  · rename_i unseen
    have noCoding : fieldsNamed input .transferEncoding fields = [] := by
      rw [codings]
      rw [tells.transferEncodingSeen] at unseen
      simpa using unseen
    split at framed
    · rename_i absent
      cases framed
      refine Framed.none ?_ noCoding
      rw [tells.contentLength, Option.map_eq_none_iff, List.head?_eq_none_iff] at absent
      rw [lengths, absent]
    · rename_i span found
      split at framed
      · cases framed
      · rename_i single
        split at framed
        · rename_i length parsed
          cases framed
          rw [tells.contentLength, Option.map_eq_some_iff] at found
          obtain ⟨field, first, rfl⟩ := found
          rw [tells.contentLengthCount] at single
          obtain ⟨nonempty, digits, exact_, small⟩ := parseContentLength_eq_some parsed
          have only : fieldsNamed input .contentLength fields = [field] := by
            rw [lengths]
            rcases shape : withId .contentLength fields with - | ⟨head, rest⟩
            · rw [shape] at first
              cases first
            · rw [shape] at first single
              cases first
              rw [List.length_cons] at single
              rw [List.eq_nil_of_length_eq_zero (by omega : rest.length = 0)]
          rw [← exact_] at small ⊢
          exact Framed.length field only nonempty digits small noCoding
        · cases framed

/-- A completed head is framed by its fields. -/
theorem headParser_framed {limits : Http1Limits} {table entries : List Field} {head : Head}
    (complete : headParser limits table input = .complete (head, entries)) :
    Framed input head.version (entries.take head.fieldCount) head.body := by
  obtain ⟨headStart, token, line, fields, -, -, -, -, filled, -, concluded, rfl⟩ :=
    headParser_eq_complete complete
  obtain ⟨texts, reads, -, rfl⟩ := fieldLoop_shape filled
  obtain ⟨-, -, framed, -, -, version, count, -⟩ := conclude_eq_ok concluded
  have entries_eq : (sectionOf line.version input line.stop 0 {} table texts).table.take
      head.fieldCount = entriesAt line.stop texts := by
    rw [count]
    simp only [sectionOf, List.take_zero, List.nil_append, Nat.zero_add]
    rw [← length_entriesAt line.stop texts]
    exact List.take_left
  rw [entries_eq, version]
  exact framing_framed (entriesAt_hold reads) framed

/-- The head has framing fields that do not agree: both of them, two lengths, a length that is
not the numeral of a 64-bit number (a list of lengths is one), or a transfer coding before
HTTP/1.1. -/
def HeadText.Ambiguous (text : HeadText) : Prop :=
  (∃ length ∈ text.fields, ∃ coding ∈ text.fields,
      length.named .contentLength = true ∧ coding.named .transferEncoding = true) ∨
    2 ≤ (text.fields.filter (FieldText.named .contentLength)).length ∨
    (∃ length ∈ text.fields, length.named .contentLength = true ∧
      ¬ (length.value ≠ [] ∧ length.value.all isAsciiDigit = true ∧
        decimalValue length.value < 2 ^ 64)) ∨
    (text.version = .http10 ∧ ∃ coding ∈ text.fields, coding.named .transferEncoding = true)

theorem Framed.not_ambiguous {text : HeadText}
    (hold : List.Forall₂ (Field.Holds input) fields text.fields)
    (framed : Framed input text.version fields body) : ¬ text.Ambiguous := by
  have lengths := @fieldsNamed_values input .contentLength fields text.fields hold
  have codings := @fieldsNamed_values input .transferEncoding fields text.fields hold
  have present : ∀ {name : HeaderName} {field : FieldText}, field ∈ text.fields →
      field.named name = true →
      field.value ∈ (text.fields.filter (FieldText.named name)).map FieldText.value := by
    intro name field member named
    exact List.mem_map_of_mem (List.mem_filter.mpr ⟨member, named⟩)
  have absent : ∀ {name : HeaderName}, fieldsNamed input name fields = [] →
      ∀ field ∈ text.fields, field.named name ≠ true := by
    intro name none_ field member named
    have values := present member named
    rw [← fieldsNamed_values hold, none_] at values
    cases values
  have count : (text.fields.filter (FieldText.named .contentLength)).length =
      (fieldsNamed input .contentLength fields).length := by
    rw [← List.length_map (f := FieldText.value), ← lengths, List.length_map]
  cases framed with
  | none noLength noCoding =>
    rintro (⟨length, inside, -, -, named, -⟩ | two | ⟨length, inside, named, -⟩ |
      ⟨-, coding, inside, named⟩)
    · exact absent noLength length inside named
    · rw [count, noLength] at two
      exact absurd two (by decide)
    · exact absent noLength length inside named
    · exact absent noCoding coding inside named
  | length field only nonempty digits small noCoding =>
    rintro (⟨-, -, coding, inside, -, named⟩ | two | ⟨length, inside, named, wrong⟩ |
      ⟨-, coding, inside, named⟩)
    · exact absent noCoding coding inside named
    · rw [count, only, List.length_singleton] at two
      omega
    · have value := present inside named
      rw [← lengths, only, List.map_singleton, List.mem_singleton] at value
      rw [value] at wrong
      exact wrong ⟨nonempty, digits, small⟩
    · exact absent noCoding coding inside named
  | chunked version some_ noLength bare =>
    rintro (⟨length, inside, -, -, named, -⟩ | two | ⟨length, inside, named, -⟩ |
      ⟨version10, -⟩)
    · exact absent noLength length inside named
    · rw [count, noLength] at two
      exact absurd two (by decide)
    · exact absent noLength length inside named
    · rw [version] at version10
      cases version10

/-- The body of an accepted request is framed in one way only, and a head whose framing fields
do not agree is rejected. -/
theorem parseRequest_unambiguous (input : Bytes) (table : List Field) (limits : Http1Limits) :
    (∀ head entries, parseRequest input table limits = (.complete head, entries) →
      Framed input head.version (entries.take head.fieldCount) head.body) ∧
    ∀ (text : HeadText) (rest : Bytes), input = text.render ++ rest → text.Ambiguous →
      ∃ reject, (parseRequest input table limits).1 = .reject reject := by
  constructor
  · intro head entries complete
    exact headParser_framed (parseRequest_eq_complete.mp complete)
  · intro text rest whole ambiguous
    have reads : Reads input 0 text.render := ⟨rest, whole.symm⟩
    rcases headParser_render limits table reads with
      ⟨head, entries, complete, describes⟩ | ⟨reject, refused, -⟩
    · have framed := headParser_framed complete
      obtain ⟨-, -, -, -, fieldsRead⟩ := HeadText.reads_render.mp reads
      rw [describes.entries, describes.version] at framed
      exact absurd ambiguous (framed.not_ambiguous (entriesAt_hold fieldsRead))
    · exact ⟨reject, parseRequest_eq_reject.mpr refused⟩

/-- `Transfer-Encoding: chunked`. -/
def chunkedLine : FieldText :=
  { hostLine with
    name := ascii "Transfer-Encoding"
    value := ascii "chunked"
    nameSome := by decide
    nameToken := by decide +kernel
    valueBytes := by decide +kernel
    valueStarts := by decide +kernel
    valueEnds := by decide +kernel }

/-- `content-length: 5`. -/
def lengthLine : FieldText :=
  { hostLine with
    name := ascii "content-length"
    value := ascii "5"
    nameSome := by decide
    nameToken := by decide +kernel
    valueBytes := by decide +kernel
    valueStarts := by decide +kernel
    valueEnds := by decide +kernel }

/-- A head with a length and a transfer coding. -/
def ambiguousText : HeadText :=
  { sampleText with
    emptyLines := 0
    method := ascii "POST"
    fields := [lengthLine, chunkedLine]
    methodSome := by decide
    methodIsToken := by decide +kernel }

theorem parseRequest_unambiguous_post :
    (∃ head entries,
      parseRequest (ascii "POST / HTTP/1.1\r\nHost: a\r\nContent-Length: 5\r\n\r\nhello")
        [.empty, .empty] .default = (.complete head, entries) ∧ head.body = .length 5 ∧
      Framed (ascii "POST / HTTP/1.1\r\nHost: a\r\nContent-Length: 5\r\n\r\nhello") head.version
        (entries.take head.fieldCount) (.length 5)) ∧
    ∃ reject, (parseRequest (ambiguousText.render ++ ascii "hello") [.empty, .empty] .default).1 =
      .reject reject := by
  have complete : parseRequest
      (ascii "POST / HTTP/1.1\r\nHost: a\r\nContent-Length: 5\r\n\r\nhello")
      [.empty, .empty] .default = (.complete {
        method := some .post, methodToken := ⟨0, 4⟩, target := ⟨5, 6⟩, form := .origin,
        path := ⟨5, 6⟩, authority := some ⟨23, 24⟩, host := some ⟨23, 24⟩, version := .http11,
        fieldCount := 2, body := .length 5, keepAlive := true, expect := .none, upgrade := false,
        len := 47 },
        [⟨⟨17, 21⟩, ⟨23, 24⟩, some .host⟩, ⟨⟨26, 40⟩, ⟨42, 43⟩, some .contentLength⟩]) := by
    decide +kernel
  refine ⟨⟨_, _, complete, rfl, (parseRequest_unambiguous _ _ _).1 _ _ complete⟩, ?_⟩
  refine (parseRequest_unambiguous _ _ _).2 ambiguousText (ascii "hello") rfl (Or.inl ?_)
  exact ⟨_, List.mem_cons_self, _, List.mem_cons_of_mem _ List.mem_cons_self, by decide +kernel,
    by decide +kernel⟩

end ZeroServer.Http1

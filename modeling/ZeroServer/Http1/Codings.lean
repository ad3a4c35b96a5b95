/-
This file is about how often an accepted request names the chunked coding. The parser keeps of the
coding list whether it ends in `chunked` and whether it has another coding, so a list that repeats
`chunked` is accepted as one that names it once.
-/

import ZeroServer.Http1.Framing

namespace ZeroServer.Http1

/-- The transfer codings of a head: the list elements of all `Transfer-Encoding` fields, in order. -/
def HeadText.codings (text : HeadText) : List Bytes :=
  (text.fields.filter (FieldText.named .transferEncoding)).flatMap fun field =>
    listElements field.value

/-- The coding list is `chunked` alone. -/
def OnlyChunked (codings : List Bytes) : Prop :=
  ∃ coding, codings = [coding] ∧ eqIgnoreAsciiCase coding (ascii "chunked") = true

/-- The codings of a head that has been accepted: none without a chunked body, else one or more
that are all `chunked`. -/
theorem codings_of_complete {text : HeadText} {rest : Bytes} {table entries : List Field}
    {limits : Http1Limits} {head : Head}
    (complete : parseRequest (text.render ++ rest) table limits = (.complete head, entries)) :
    (head.body ≠ .chunked → text.codings = []) ∧
      (head.body = .chunked → text.codings ≠ [] ∧
        ∀ coding ∈ text.codings, eqIgnoreAsciiCase coding (ascii "chunked") = true) := by
  have reads : Reads (text.render ++ rest) 0 text.render := ⟨rest, rfl⟩
  have parsed := parseRequest_eq_complete.mp complete
  have framed := headParser_framed parsed
  rcases headParser_render limits table reads with
    ⟨other, others, again, describes⟩ | ⟨reject, refused, -⟩
  swap
  · rw [refused] at parsed
    cases parsed
  rw [again] at parsed
  cases parsed
  obtain ⟨-, -, -, -, fieldsRead⟩ := HeadText.reads_render.mp reads
  rw [describes.entries] at framed
  have hold := entriesAt_hold fieldsRead
  have values := @fieldsNamed_values _ .transferEncoding _ _ hold
  have codings : text.codings = (fieldsNamed (text.render ++ rest) .transferEncoding
      text.entries).flatMap fun field => listElements (field.value.of (text.render ++ rest)) := by
    rw [HeadText.codings, ← List.flatMap_map (f := FieldText.value) (g := listElements), ← values,
      List.flatMap_map]
    rfl
  constructor
  · intro other
    rw [codings]
    generalize head.body = body at framed other
    cases framed with
    | none noLength noCoding => rw [noCoding, List.flatMap_nil]
    | length field only nonempty digits small noCoding => rw [noCoding, List.flatMap_nil]
    | chunked => exact absurd rfl other
  · intro chunked
    rw [codings]
    generalize head.body = body at framed chunked
    cases framed with
    | none noLength noCoding => cases chunked
    | length field only nonempty digits small noCoding => cases chunked
    | chunked version some_ noLength bare =>
      constructor
      · obtain ⟨field, others, shape⟩ := List.exists_cons_of_ne_nil some_
        rw [shape, List.flatMap_cons]
        refine List.append_ne_nil_of_left_ne_nil (bare field ?_).1 _
        rw [shape]
        exact List.mem_cons_self
      · intro coding member
        obtain ⟨field, inFields, inside⟩ := List.mem_flatMap.mp member
        exact (bare field inFields).2 coding inside

/-- `Transfer-Encoding: chunked, chunked`. -/
def repeatedLine : FieldText :=
  { chunkedLine with
    value := ascii "chunked, chunked"
    valueBytes := by decide +kernel
    valueStarts := by decide +kernel
    valueEnds := by decide +kernel }

def repeatedText : HeadText := { ambiguousText with fields := [hostLine, repeatedLine] }

def chunkedText : HeadText := { ambiguousText with fields := [hostLine, chunkedLine] }

end ZeroServer.Http1

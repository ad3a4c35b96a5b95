/-
This file models how an exchange takes over the trailers of a request: it parses the section the
driver kept a second time, without a field limit, and keeps the fields whose names are on the
export allow list. The driver has accepted the section, so the second parse accepts it too.
-/

import ZeroServer.Http.Conn
import ZeroServer.Http1.TrailerText

namespace ZeroServer.Http

open Http1

/-! ### The model -/

def u32Max : Nat := 2 ^ 32 - 1

/-- A byte range as offset and length. -/
structure HostSpan where
  start : Nat
  len : Nat
  deriving DecidableEq

namespace HostSpan

def of (span : HostSpan) (input : Bytes) : Bytes :=
  (Span.mk span.start (span.start + span.len)).of input

/-- The span saturated to the 32-bit fields. -/
def fromOffsets (start stop : Nat) : HostSpan :=
  ⟨if start ≤ u32Max then start else u32Max, if stop - start ≤ u32Max then stop - start else 0⟩

def fromSpan (span : Span) : HostSpan := fromOffsets span.start span.stop

end HostSpan

/-- The id of a name: its place in the table. -/
def nameId (name : HeaderName) : Nat := HeaderName.all.idxOf name

def headerNone : Nat := u32Max

/-- One field line as spans and the interned id. -/
structure HostField where
  name : HostSpan
  value : HostSpan
  id : Nat
  deriving DecidableEq

def HostField.fromField (field : Field) : HostField :=
  ⟨HostSpan.fromSpan field.name, HostSpan.fromSpan field.value, field.id.elim headerNone nameId⟩

/-- The trailer names a host may read. -/
structure ExportOptions where
  trailers : List Bytes

def ExportOptions.allowsTrailer (options : ExportOptions) (name : Bytes) : Bool :=
  options.trailers.any fun allowed => eqIgnoreAsciiCase allowed name

/-- The limits of the second parse: no field is too long. -/
def exportLimits : Http1Limits := { Http1Limits.default with maxHeaderField := 2 ^ 64 - 1 }

/-- The empty table of a trailer parse. -/
def emptyTable : List Field := List.replicate trailerTable Field.empty

/-- The trailer fields an exchange keeps of a section. -/
def keepTrailers (options : ExportOptions) (trailers : Bytes) : List HostField :=
  if trailers.isEmpty || options.trailers.isEmpty then []
  else
    match parseTrailers trailers ⟨0, trailers.length⟩ emptyTable exportLimits with
    | .error _ => []
    | .ok (count, table) =>
      ((table.take count).filter fun field =>
        options.allowsTrailer (field.name.of trailers)).map HostField.fromField

/-! ### Both parses -/

variable {input section_ : Bytes} {options : ExportOptions}

variable {texts : List FieldText} {count : Nat} {span : Span}

/-- Two fields over two buffers that say the same. -/
structure SameField (input other : Bytes) (one two : Field) : Prop where
  name : one.name.of input = two.name.of other
  value : one.value.of input = two.value.of other
  id : one.id = two.id

theorem sameField_of_holds {other : Bytes} {ones twos : List Field}
    (first : List.Forall₂ (Field.Holds input) ones texts)
    (second : List.Forall₂ (Field.Holds other) twos texts) :
    List.Forall₂ (SameField input other) ones twos := by
  induction first generalizing twos with
  | nil =>
    cases second
    exact .nil
  | cons held rest inductionHypothesis =>
    cases second with
    | cons held' rest' =>
      exact .cons ⟨held.name.trans held'.name.symm, held.value.trans held'.value.symm,
        held.id.trans held'.id.symm⟩ (inductionHypothesis rest')

theorem kept_take {pos : Nat} (table : List Field) :
    (keptAt pos texts ++ table.drop (kept texts).length).take (kept texts).length =
      keptAt pos texts := List.take_left' (length_keptAt pos texts)

/-- The exchange keeps the fields of the parse whose names are on the allow list. -/
theorem keepTrailers_eq {table : List Field}
    (parsed : parseTrailers section_ ⟨0, section_.length⟩ emptyTable exportLimits =
      .ok (count, table)) (options : ExportOptions) :
    keepTrailers options section_ =
      ((table.take count).filter fun field =>
        options.allowsTrailer (field.name.of section_)).map HostField.fromField := by
  unfold keepTrailers
  split
  · next none_ =>
    rcases Bool.or_eq_true_iff.mp none_ with empty | empty
    · rw [List.isEmpty_iff] at empty
      subst empty
      have nothing : parseTrailers [] ⟨0, 0⟩ emptyTable exportLimits = .ok (0, emptyTable) :=
        trailerLoop_end (Nat.le_refl 0)
      cases nothing.symm.trans parsed
      rfl
    · rw [List.isEmpty_iff] at empty
      rw [List.filter_eq_nil_iff.mpr, List.map_nil]
      intro field _
      rw [ExportOptions.allowsTrailer, empty]
      exact Bool.false_ne_true
  · rw [parsed]

/-- A section the driver accepted is accepted by the second parse, with the same fields. -/
theorem second_parse {limits : Http1Limits} {entries : List Field}
    (bounded : limits.maxHeaderField ≤ 2 ^ 64 - 1) (closed : Closed input span)
    (accepted : parseTrailers input span emptyTable limits = .ok (count, entries)) :
    ∃ table, parseTrailers (span.of input) ⟨0, (span.of input).length⟩ emptyTable exportLimits =
        .ok (count, table) ∧
      List.Forall₂ (SameField input (span.of input)) (entries.take count) (table.take count) := by
  obtain ⟨texts, same, short, room, rfl, rfl⟩ := (parseTrailers_iff closed).mp accepted
  have whole := closed_whole (span.of input)
  have again : (Span.mk 0 (span.of input).length).of (span.of input) =
      texts.flatMap FieldText.render := by
    rw [of_span (Nat.le_refl _), tail, List.drop_zero, Nat.sub_zero, List.take_length]
    exact same
  refine ⟨keptAt 0 texts ++ emptyTable.drop (kept texts).length,
    (parseTrailers_iff whole).mpr ⟨texts, again, fun text held => ?_, room, rfl, rfl⟩, ?_⟩
  · exact Nat.le_trans (short text held) bounded
  · rw [kept_take, kept_take]
    exact sameField_of_holds (keptAt_hold ((of_eq_flatMap closed).mp same).1)
      (keptAt_hold ((of_eq_flatMap whole).mp again).1)

/-- Inside 32 bits a span reads the same for a host. -/
theorem HostSpan.of_fromSpan (ordered : span.start ≤ span.stop)
    (inside : span.stop ≤ section_.length) (fits : section_.length ≤ u32Max) :
    (HostSpan.fromSpan span).of section_ = span.of section_ := by
  have start : span.start ≤ u32Max := by omega
  have len : span.stop - span.start ≤ u32Max := by omega
  unfold HostSpan.fromSpan HostSpan.fromOffsets HostSpan.of
  rw [if_pos start, if_pos len, Nat.add_sub_cancel' ordered]

/-- No kept field has a forbidden name. -/
theorem keptAt_allowed {pos : Nat} (reads : Reads input pos (texts.flatMap FieldText.render)) :
    ∀ field ∈ keptAt pos texts, ∀ word ∈ forbiddenTrailers,
      eqIgnoreAsciiCase (field.name.of input) (ascii word) = false := by
  intro field held word forbidden
  obtain ⟨place, here⟩ := List.mem_iff_getElem.mp held
  have hold := keptAt_hold reads
  obtain ⟨bound, rfl⟩ := here
  have bound' : place < (kept texts).length := by rw [← length_keptAt pos]; exact bound
  have holds := List.Forall₂.get hold bound bound'
  have allowed : isTrailerAllowed (kept texts)[place].name = true :=
    (List.mem_filter.mp (List.getElem_mem bound')).2
  rw [show (keptAt pos texts)[place].name.of input = _ from holds.name]
  exact isTrailerAllowed_iff.mp allowed word forbidden

/-- What the driver accepts of a section the decoder reports, the exchange accepts with the same
fields, of which it keeps those on the allow list; and the parse accepts exactly the lists of field
lines within the limit whose allowed fields fit the table, keeps these in order with their spans
inside the section, and never one with a forbidden name. -/
theorem trailers_consistent :
    (∀ (decoder next : ChunkedDecoder) (input : Bytes) (limits : Http1Limits) (span : Span)
        (consumed count : Nat) (entries : List Field),
      decoder.decode input limits = (next, .ok (.done span consumed)) →
      limits.maxHeaderField ≤ 2 ^ 64 - 1 →
      parseTrailers input span emptyTable limits = .ok (count, entries) →
      ∃ table, parseTrailers (span.of input) ⟨0, (span.of input).length⟩ emptyTable exportLimits =
          .ok (count, table) ∧
        List.Forall₂ (SameField input (span.of input)) (entries.take count) (table.take count) ∧
        (∀ options, keepTrailers options (span.of input) =
          ((table.take count).filter fun field =>
            options.allowsTrailer (field.name.of (span.of input))).map HostField.fromField) ∧
        ((span.of input).length ≤ u32Max → ∀ field ∈ table.take count,
          (HostField.fromField field).name.of (span.of input) = field.name.of (span.of input) ∧
          (HostField.fromField field).value.of (span.of input) =
            field.value.of (span.of input))) ∧
    (∀ (decoder next : ChunkedDecoder) (input : Bytes) (limits : Http1Limits) (span : Span)
        (consumed : Nat),
      decoder.decode input limits = (next, .ok (.done span consumed)) → Closed input span) ∧
    (∀ section_ : Bytes, Closed section_ ⟨0, section_.length⟩) ∧
    (∀ (input : Bytes) (span : Span) (table : List Field) (limits : Http1Limits) (count : Nat)
        (entries : List Field), Closed input span →
      (parseTrailers input span table limits = .ok (count, entries) ↔
        ∃ texts : List FieldText, span.of input = texts.flatMap FieldText.render ∧
          (∀ text ∈ texts, text.render.length ≤ limits.maxHeaderField) ∧
          (kept texts).length ≤ table.length ∧ count = (kept texts).length ∧
          entries = keptAt span.start texts ++ table.drop count)) ∧
    (∀ (input : Bytes) (span : Span) (texts : List FieldText), Closed input span →
      span.of input = texts.flatMap FieldText.render →
      List.Forall₂ (Field.Holds input) (keptAt span.start texts) (kept texts) ∧
        ∀ field ∈ keptAt span.start texts, field.Inside span.start span.stop ∧
          ∀ word ∈ forbiddenTrailers,
            eqIgnoreAsciiCase (field.name.of input) (ascii word) = false) ∧
    ∀ name, isTrailerAllowed name = true ↔
      ∀ word ∈ forbiddenTrailers, eqIgnoreAsciiCase name (ascii word) = false := by
  refine ⟨?_, fun _ _ _ _ _ _ => ChunkedDecoder.closed_of_decode, closed_whole,
    fun _ _ _ _ _ _ closed => parseTrailers_iff closed, ?_, fun _ => isTrailerAllowed_iff⟩
  · intro decoder next input limits span consumed count entries ended bounded accepted
    have closed := ChunkedDecoder.closed_of_decode ended
    obtain ⟨table, parsed, same⟩ := second_parse bounded closed accepted
    refine ⟨table, parsed, same, keepTrailers_eq parsed, fun fits field held => ?_⟩
    obtain ⟨texts, whole, -, -, rfl, rfl⟩ := (parseTrailers_iff (closed_whole _)).mp parsed
    rw [kept_take] at held
    obtain ⟨-, length⟩ := (of_eq_flatMap (closed_whole _)).mp whole
    have inside := keptAt_inside texts 0 field held
    rw [← show _ = _ from length] at inside
    have first := Nat.le_trans inside.name_value (Nat.le_trans inside.value inside.value_stop)
    exact ⟨HostSpan.of_fromSpan inside.name first fits,
      HostSpan.of_fromSpan inside.value inside.value_stop fits⟩
  · intro input span texts closed same
    obtain ⟨reads, whole⟩ := (of_eq_flatMap closed).mp same
    refine ⟨keptAt_hold reads, fun field held => ⟨?_, keptAt_allowed reads field held⟩⟩
    rw [whole]
    exact keptAt_inside texts span.start field held

end ZeroServer.Http

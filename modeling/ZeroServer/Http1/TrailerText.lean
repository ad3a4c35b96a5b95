/-
This file says what an accepted trailer section is: a list of field lines, one behind the other,
within the field limit, of which the table takes those whose names are allowed. A section that
stands behind other bytes and one that is a buffer of its own are parsed alike.
-/

import ZeroServer.Http1.ChunkedStable
import ZeroServer.Http1.Framing
import ZeroServer.Http1.Trailers

namespace ZeroServer.Http1

open Lib

variable {input : Bytes} {pos stop count : Nat} {limits : Http1Limits} {table : List Field}

/-! ### Forbidden names -/

/-- The names that are never kept: of framing, routing, request modifiers, authentication and
content. -/
def forbiddenTrailers : List String :=
  ["accept", "accept-charset", "accept-encoding", "accept-language", "authorization",
    "cache-control", "connection", "content-encoding", "content-language", "content-length",
    "content-location", "content-range", "content-type", "expect", "host", "if-match",
    "if-modified-since", "if-none-match", "if-range", "if-unmodified-since", "max-forwards",
    "pragma", "proxy-authenticate", "proxy-authorization", "range", "te", "trailer",
    "transfer-encoding", "upgrade", "via", "www-authenticate"] ++
    ["cookie", "set-cookie", "keep-alive", "proxy-connection", "origin"]

theorem eqIgnoreAsciiCase_congr {left middle right : Bytes}
    (same : eqIgnoreAsciiCase left middle = true) :
    eqIgnoreAsciiCase left right = eqIgnoreAsciiCase middle right := by
  unfold eqIgnoreAsciiCase at same ⊢
  rw [beq_iff_eq.mp same]

theorem parse_congr {left right : Bytes} (same : eqIgnoreAsciiCase left right = true) :
    HeaderName.parse left = HeaderName.parse right := by
  ext name
  rw [HeaderName.parse_eq_some, HeaderName.parse_eq_some, eqIgnoreAsciiCase_congr same]

/-- A name is allowed exactly if it is none of the forbidden ones in any case. -/
theorem isTrailerAllowed_iff {name : Bytes} :
    isTrailerAllowed name = true ↔
      ∀ word ∈ forbiddenTrailers, eqIgnoreAsciiCase name (ascii word) = false := by
  have table : (HeaderName.all.all fun id => (!id.refusedInTrailers) ==
      forbiddenTrailers.all fun word =>
        !eqIgnoreAsciiCase (ascii id.canonical) (ascii word)) = true := by decide
  have known := fun id : HeaderName => beq_iff_eq.mp (List.all_eq_true.mp table id id.mem_all)
  unfold isTrailerAllowed
  rcases parsed : HeaderName.parse name with - | id
  · dsimp only
    have unknown : ∀ {word : String}, (HeaderName.parse (ascii word)).isSome = true →
        eqIgnoreAsciiCase name (ascii word) = false := by
      intro word some_
      refine Bool.eq_false_iff.mpr fun same => ?_
      rw [← parse_congr same, parsed] at some_
      cases some_
    rw [forbiddenTrailers, List.forall_mem_append, and_iff_right]
    · simp only [List.forall_mem_cons, Bool.not_eq_true', Bool.or_eq_false_iff, and_assoc,
        List.not_mem_nil, false_imp_iff, implies_true, and_true]
    · have registered : (forbiddenTrailers.take 31).all fun word =>
          (HeaderName.parse (ascii word)).isSome := by decide
      exact fun word held => unknown (List.all_eq_true.mp registered word held)
  · dsimp only
    rw [known id, List.all_eq_true]
    refine forall_congr' fun word => forall_congr' fun _ => ?_
    rw [Bool.not_eq_true', eqIgnoreAsciiCase_congr (HeaderName.parse_eq_some.mp parsed)]

/-! ### One line -/

variable {line : FieldLine}

theorem of_span (inside : stop ≤ input.length) (start : Nat) :
    (Span.mk start stop).of input = (tail input start).take (stop - start) := by
  unfold Span.of
  dsimp only
  rcases Nat.lt_or_ge stop start with outside | ordered
  · rw [if_neg fun both => Nat.not_le_of_lt outside both.1,
      Nat.sub_eq_zero_of_le (Nat.le_of_lt outside), List.take_zero]
  · rw [if_pos ⟨ordered, inside⟩]
    rfl

theorem scan_take (bytes : Bytes) (count : Nat) (allowed : UInt8 → Bool) :
    scan (bytes.take count) allowed = min count (scan bytes allowed) := List.findIdx_take

theorem trailerLine_eq_ok (inside : stop ≤ input.length) :
    trailerLine input pos stop = .ok line ↔
      ∃ nameLen valueStart valueLimit,
        nameLen = min (stop - pos) (scanHeaderName (tail input pos)) ∧
        valueStart = pos + nameLen + 1 +
          min (stop - (pos + nameLen + 1)) (scan (tail input (pos + nameLen + 1)) isOws) ∧
        valueLimit = valueStart +
          min (stop - valueStart) (scanHeaderValue (tail input valueStart)) ∧
        0 < nameLen ∧ byte input (pos + nameLen) = some colon ∧
        expectCrlf input valueLimit = .found ∧
        line = ⟨⟨pos, pos + nameLen⟩, ⟨valueStart, trimValueEnd input valueStart valueLimit⟩,
          valueLimit + 2⟩ := by
  unfold trailerLine scanHeaderName scanHeaderValue
  simp only [of_span inside, scan_take]
  constructor
  · intro read
    split at read
    · cases read
    split at read
    · cases read
    split at read
    · cases read
    split at read
    · next some_ colon_ _ found =>
      rw [Except.ok.injEq] at read
      exact ⟨_, _, _, rfl, rfl, rfl, Nat.pos_of_ne_zero some_, not_not.mp colon_, found, read.symm⟩
    · cases read
    · cases read
  · rintro ⟨_, _, _, rfl, rfl, rfl, some_, colon_, found, rfl⟩
    obtain ⟨first, starts, isName⟩ := scan_tail_pos (Nat.lt_of_lt_of_le some_ (Nat.min_le_right _ _))
    have dark : ¬ (((tail input pos).take (stop - pos))[0]?.any isOws = true) := by
      rw [List.getElem?_take_of_lt (Nat.lt_of_lt_of_le some_ (Nat.min_le_left _ _)), starts,
        Option.any_some]
      exact fun blank => absurd isName (by
        rcases Bool.or_eq_true_iff.mp blank with space | tab
        · rw [beq_iff_eq.mp space]; decide
        · rw [beq_iff_eq.mp tab]; decide)
    rw [if_neg dark, if_neg (Nat.ne_of_gt some_), if_neg (not_not.mpr colon_), found]

/-- A line of a section that ends in it is a field line of the buffer, and none else is. -/
theorem trailerLine_fieldLine (inside : stop ≤ input.length) (ends : line.stop ≤ stop) :
    trailerLine input pos stop = .ok line ↔ fieldLine input pos = .complete (some line) := by
  rw [trailerLine_eq_ok inside, fieldLine_eq_some]
  unfold skipOws
  constructor
  · rintro ⟨nameLen, valueStart, valueLimit, named, started, limited, some_, colon_, found, rfl⟩
    dsimp only at ends
    exact ⟨nameLen, valueStart, valueLimit, by omega, by omega, by omega, some_, colon_, found, rfl⟩
  · rintro ⟨nameLen, valueStart, valueLimit, named, started, limited, some_, colon_, found, rfl⟩
    dsimp only at ends
    exact ⟨nameLen, valueStart, valueLimit, by omega, by omega, by omega, some_, colon_, found, rfl⟩

/-- A span of the buffer that is empty, or ends a line, or ends with the buffer. -/
structure Closed (input : Bytes) (section_ : Span) : Prop where
  ordered : section_.start ≤ section_.stop
  inside : section_.stop ≤ input.length
  ends : section_.start = section_.stop ∨ section_.stop = input.length ∨
    byte input (section_.stop - 1) = some lf

/-- Where the section ends a line or ends with the buffer, each line ends in it. -/
theorem trailerLine_stop_le (inside : stop ≤ input.length) (more : pos < stop)
    (ends : stop = input.length ∨ byte input (stop - 1) = some lf)
    (read : trailerLine input pos stop = .ok line) : line.stop ≤ stop := by
  obtain ⟨nameLen, valueStart, valueLimit, named, started, limited, some_, colon_, found, rfl⟩ :=
    (trailerLine_eq_ok inside).mp read
  dsimp only
  rcases ends with whole | ended
  · rw [whole]
    exact expectCrlf_found_le found
  · have before : ∀ {from_ : Nat} (allowed : UInt8 → Bool), allowed lf = false → from_ < stop →
        from_ + scan (tail input from_) allowed ≤ stop - 1 := by
      intro from_ allowed refused early
      by_contra behind
      have here : (tail input from_)[stop - 1 - from_]? = some lf := by
        rw [tail, List.getElem?_drop, Nat.add_sub_cancel' (by omega)]
        exact ended
      obtain ⟨bound, same⟩ := List.getElem?_eq_some_iff.mp here
      have passed := @List.not_of_lt_findIdx _ (fun byte => !allowed byte)
        (tail input from_) (stop - 1 - from_) (by unfold scan at behind; omega)
      rw [same, refused] at passed
      cases passed
    have nameStop := before isTchar (by decide) more
    have notLast : pos + nameLen ≠ stop - 1 := fun same => by
      rw [same, ended] at colon_
      exact absurd colon_ (by decide)
    have blankStop := @before (pos + nameLen + 1) isOws (by decide) (by
      unfold scanHeaderName at named; omega)
    have valueStop := @before valueStart isValueByte (by decide) (by
      unfold scanHeaderName at named; omega)
    have crAt := (expectCrlf_found.mp found).1
    have notEnd : valueLimit ≠ stop - 1 := fun same => by
      rw [same, ended] at crAt
      exact absurd crAt (by decide)
    unfold scanHeaderValue at limited
    omega

/-! ### The section -/

variable {text : FieldText} {section_ : Span} {texts : List FieldText}

theorem trailerLoop_end (over_ : stop ≤ pos) :
    trailerLoop limits input stop pos count table = .ok (count, table) := by
  rw [trailerLoop, if_neg (Nat.not_lt_of_le over_)]

theorem trailerLoop_error {reject : Reject} (more : pos < stop)
    (step : trailerLine input pos stop = .error reject) :
    trailerLoop limits input stop pos count table = .error reject := by
  rw [trailerLoop, if_pos more]
  split
  · next found =>
    cases found.symm.trans step
    rfl
  · next found => cases found.symm.trans step

theorem trailerLoop_line (more : pos < stop) (step : trailerLine input pos stop = .ok line) :
    trailerLoop limits input stop pos count table =
      if line.stop - pos > limits.maxHeaderField then .error .headerFieldsTooLarge
      else if isTrailerAllowed (line.name.of input) = false then
        trailerLoop limits input stop line.stop count table
      else if count < table.length then
        trailerLoop limits input stop line.stop (count + 1)
          (table.set count (line.entry input))
      else .error .headerFieldsTooLarge := by
  rw [trailerLoop, if_pos more]
  split
  · next found => cases found.symm.trans step
  · next found =>
    cases found.symm.trans step
    rfl

/-- The lines whose fields are kept. -/
def kept (texts : List FieldText) : List FieldText :=
  texts.filter fun text => isTrailerAllowed text.name

/-- The entries of the lines that are kept, where the lines stand from `pos` on. -/
def keptAt (pos : Nat) : List FieldText → List Field
  | [] => []
  | text :: rest =>
    if isTrailerAllowed text.name then text.entry pos :: keptAt (pos + text.render.length) rest
    else keptAt (pos + text.render.length) rest

theorem kept_cons_of_allowed (allowed : isTrailerAllowed text.name = true) (rest : List FieldText) :
    kept (text :: rest) = text :: kept rest := List.filter_cons_of_pos allowed

theorem kept_cons_of_refused (refused : isTrailerAllowed text.name = false)
    (rest : List FieldText) : kept (text :: rest) = kept rest :=
  List.filter_cons_of_neg (by rw [refused]; exact Bool.false_ne_true)

theorem length_keptAt (pos : Nat) (texts : List FieldText) :
    (keptAt pos texts).length = (kept texts).length := by
  induction texts generalizing pos with
  | nil => rfl
  | cons text rest inductionHypothesis =>
    rcases allowed : isTrailerAllowed text.name with - | -
    · rw [keptAt, allowed, if_neg Bool.false_ne_true, kept_cons_of_refused allowed,
        inductionHypothesis]
    · rw [keptAt, allowed, if_pos rfl, kept_cons_of_allowed allowed, List.length_cons,
        List.length_cons, inductionHypothesis]

/-- The lines are short enough and the table has room for those that are kept. -/
def SectionFits (limits : Http1Limits) (room count : Nat) (texts : List FieldText) : Prop :=
  (∀ text ∈ texts, text.render.length ≤ limits.maxHeaderField) ∧
    count + (kept texts).length ≤ max count room

/-- The table with the entries of the lines that are kept. -/
def tableWith (table : List Field) (count pos : Nat) (texts : List FieldText) : List Field :=
  table.take count ++ keptAt pos texts ++ table.drop (count + (kept texts).length)

theorem tableWith_set (allowed : isTrailerAllowed text.name = true) (room : count < table.length)
    (pos : Nat) (rest : List FieldText) :
    tableWith (table.set count (text.entry pos)) (count + 1) (pos + text.render.length) rest =
      tableWith table count pos (text :: rest) := by
  have back : (table.set count (text.entry pos)).drop (count + 1 + (kept rest).length) =
      table.drop (count + (kept (text :: rest)).length) := by
    rw [List.drop_set_of_lt (by omega), kept_cons_of_allowed allowed, List.length_cons]
    congr 1
    omega
  unfold tableWith
  rw [take_set_succ room, back, keptAt, if_pos allowed, List.append_assoc _ [_],
    List.singleton_append]

/-- Lines that stand in a section are read into the table when they fit, and refused when they do
not. -/
theorem trailerLoop_render {texts : List FieldText}
    (reads : Reads input pos (texts.flatMap FieldText.render))
    (whole : stop = pos + (texts.flatMap FieldText.render).length) (inside : stop ≤ input.length) :
    (SectionFits limits table.length count texts ∧
        trailerLoop limits input stop pos count table =
          .ok (count + (kept texts).length, tableWith table count pos texts)) ∨
      ¬ SectionFits limits table.length count texts ∧
        trailerLoop limits input stop pos count table = .error .headerFieldsTooLarge := by
  induction texts generalizing pos count table with
  | nil =>
    have over_ : stop ≤ pos := Nat.le_of_eq whole
    rw [trailerLoop_end over_]
    refine .inl ⟨⟨nofun, Nat.le_max_left _ _⟩, ?_⟩
    rw [tableWith, keptAt, List.append_nil]
    exact congrArg (fun entries => Except.ok (count, entries)) (List.take_append_drop _ _).symm
  | cons text rest inductionHypothesis =>
    rw [List.flatMap_cons, reads_append] at reads
    rw [List.flatMap_cons, List.length_append, ← Nat.add_assoc] at whole
    have ends : (text.line pos).stop ≤ stop := by
      rw [whole]
      exact Nat.le_add_right _ _
    have some_ : 0 < text.render.length := by
      rw [text.render_eq, List.length_append, List.length_cons]
      omega
    have step := (trailerLine_fieldLine inside ends).mpr (fieldLine_render reads.1)
    have length : (text.line pos).stop - pos = text.render.length := Nat.add_sub_cancel_left _ _
    have named : (text.line pos).name.of input = text.name :=
      (reads_append.mp reads.1).1.span text.nameSome
    rw [trailerLoop_line (by omega) step, length, named]
    rcases Nat.lt_or_ge limits.maxHeaderField text.render.length with long | short
    · rw [if_pos long]
      exact .inr ⟨fun fits => Nat.not_le_of_lt long (fits.1 text List.mem_cons_self), rfl⟩
    · rw [if_neg (Nat.not_lt_of_le short)]
      rcases allowed : isTrailerAllowed text.name with - | -
      · rw [if_pos rfl]
        have same : SectionFits limits table.length count (text :: rest) ↔
            SectionFits limits table.length count rest := by
          unfold SectionFits
          rw [List.forall_mem_cons, kept_cons_of_refused allowed, and_iff_right short]
        have same' : tableWith table count pos (text :: rest) =
            tableWith table count (pos + text.render.length) rest := by
          unfold tableWith
          rw [keptAt, allowed, if_neg Bool.false_ne_true, kept_cons_of_refused allowed]
        rw [same, same', kept_cons_of_refused allowed]
        exact inductionHypothesis reads.2 whole
      · rw [if_neg (Ne.symm Bool.false_ne_true), kept_cons_of_allowed allowed]
        by_cases room : count < table.length
        · have same : SectionFits limits table.length count (text :: rest) ↔
              SectionFits limits (table.set count (text.entry pos)).length (count + 1) rest := by
            unfold SectionFits
            rw [List.forall_mem_cons, kept_cons_of_allowed allowed, and_iff_right short,
              List.length_set, List.length_cons]
            exact and_congr_right fun _ => by omega
          have more : count + (text :: kept rest).length = count + 1 + (kept rest).length := by
            rw [List.length_cons]
            omega
          rw [if_pos room, same, entry_line reads.1, ← tableWith_set allowed room, more]
          exact inductionHypothesis reads.2 whole
        · rw [if_neg room]
          refine .inr ⟨fun fits => ?_, rfl⟩
          have few := fits.2
          rw [kept_cons_of_allowed allowed, List.length_cons] at few
          omega

/-- An accepted section is a list of field lines. -/
theorem trailerLoop_shape {result : Nat × List Field} (inside : stop ≤ input.length)
    (ends : stop = input.length ∨ byte input (stop - 1) = some lf) (ordered : pos ≤ stop)
    (accepted : trailerLoop limits input stop pos count table = .ok result) :
    ∃ texts : List FieldText, Reads input pos (texts.flatMap FieldText.render) ∧
      stop = pos + (texts.flatMap FieldText.render).length := by
  induction left : stop - pos using Nat.strongRecOn generalizing pos count table with
  | ind size inductionHypothesis =>
    rcases Nat.lt_or_ge pos stop with more | over_
    · rcases step : trailerLine input pos stop with reject | line
      · rw [trailerLoop_error more step] at accepted
        cases accepted
      · have before := trailerLine_stop_le inside more ends step
        obtain ⟨text, reads, rfl⟩ :=
          fieldLine_shape ((trailerLine_fieldLine inside before).mp step)
        have behind := trailerLine_lt step
        rw [trailerLoop_line more step] at accepted
        have rest : ∃ count table, trailerLoop limits input stop (text.line pos).stop count table =
            .ok result := by
          split at accepted
          · cases accepted
          · split at accepted
            · exact ⟨_, _, accepted⟩
            · split at accepted
              · exact ⟨_, _, accepted⟩
              · cases accepted
        obtain ⟨count', table', again⟩ := rest
        obtain ⟨texts, others, whole⟩ :=
          inductionHypothesis (stop - (text.line pos).stop) (by omega) before again rfl
        refine ⟨text :: texts, ?_, ?_⟩
        · rw [List.flatMap_cons, reads_append]
          exact ⟨reads, others⟩
        · rw [List.flatMap_cons, List.length_append, ← Nat.add_assoc]
          exact whole
    · exact ⟨[], reads_nil _ _, Nat.le_antisymm ordered over_ |>.symm⟩

/-- The lines of a section are those of its text. -/
theorem of_eq_flatMap (closed : Closed input section_) :
    section_.of input = texts.flatMap FieldText.render ↔
      Reads input section_.start (texts.flatMap FieldText.render) ∧
        section_.stop = section_.start + (texts.flatMap FieldText.render).length := by
  have text := of_span closed.inside section_.start
  have length : ((tail input section_.start).take (section_.stop - section_.start)).length =
      section_.stop - section_.start := by
    rw [List.length_take, length_tail]
    have := closed.inside
    omega
  have ordered := closed.ordered
  rw [show section_.of input = _ from text]
  constructor
  · intro same
    rw [same] at length
    refine ⟨?_, by omega⟩
    rw [← same]
    exact List.take_prefix _ _
  · rintro ⟨reads, whole⟩
    rw [whole, Nat.add_sub_cancel_left]
    exact (List.prefix_iff_eq_take.mp reads).symm

/-- A section is accepted exactly if it is a list of field lines within the limit of which the
table has room for those that are kept, and then these are what the table gets. -/
theorem parseTrailers_iff (closed : Closed input section_) {count : Nat} {entries : List Field} :
    parseTrailers input section_ table limits = .ok (count, entries) ↔
      ∃ texts : List FieldText, section_.of input = texts.flatMap FieldText.render ∧
        (∀ text ∈ texts, text.render.length ≤ limits.maxHeaderField) ∧
        (kept texts).length ≤ table.length ∧ count = (kept texts).length ∧
        entries = keptAt section_.start texts ++ table.drop count := by
  have fits_iff : ∀ texts, SectionFits limits table.length 0 texts ↔
      (∀ text ∈ texts, text.render.length ≤ limits.maxHeaderField) ∧
        (kept texts).length ≤ table.length := fun texts => by
    rw [SectionFits, Nat.zero_add, Nat.zero_max]
  have result : ∀ texts, (0 + (kept texts).length, tableWith table 0 section_.start texts) =
      ((kept texts).length, keptAt section_.start texts ++ table.drop (kept texts).length) :=
    fun texts => by rw [tableWith, List.take_zero, List.nil_append, Nat.zero_add]
  unfold parseTrailers
  constructor
  · intro accepted
    have found : ∃ texts : List FieldText,
        Reads input section_.start (texts.flatMap FieldText.render) ∧
          section_.stop = section_.start + (texts.flatMap FieldText.render).length := by
      rcases closed.ends with empty | ends
      · exact ⟨[], reads_nil _ _, empty.symm⟩
      · exact trailerLoop_shape closed.inside ends closed.ordered accepted
    obtain ⟨texts, reads, whole⟩ := found
    refine ⟨texts, (of_eq_flatMap closed).mpr ⟨reads, whole⟩, ?_⟩
    rcases @trailerLoop_render input section_.start section_.stop 0 limits table texts reads whole
      closed.inside with ⟨fits, again⟩ | ⟨-, refused⟩
    · rw [accepted, result, Except.ok.injEq, Prod.mk.injEq] at again
      obtain ⟨rfl, same⟩ := again
      exact ⟨((fits_iff texts).mp fits).1, ((fits_iff texts).mp fits).2, rfl, same⟩
    · cases accepted.symm.trans refused
  · rintro ⟨texts, same, short, room, rfl, rfl⟩
    obtain ⟨reads, whole⟩ := (of_eq_flatMap closed).mp same
    rcases @trailerLoop_render input section_.start section_.stop 0 limits table texts reads whole
      closed.inside with ⟨fits, accepted⟩ | ⟨none_, -⟩
    · rw [accepted, result]
    · exact absurd ((fits_iff texts).mpr ⟨short, room⟩) none_

/-! ### The entries -/

/-- The entries hold the names and values of the lines that are kept. -/
theorem keptAt_hold (reads : Reads input pos (texts.flatMap FieldText.render)) :
    List.Forall₂ (Field.Holds input) (keptAt pos texts) (kept texts) := by
  induction texts generalizing pos with
  | nil => exact List.Forall₂.nil
  | cons text rest inductionHypothesis =>
    rw [List.flatMap_cons, reads_append] at reads
    rcases allowed : isTrailerAllowed text.name with - | -
    · rw [keptAt, allowed, if_neg Bool.false_ne_true, kept_cons_of_refused allowed]
      exact inductionHypothesis reads.2
    · rw [keptAt, if_pos allowed, kept_cons_of_allowed allowed]
      exact .cons (entry_holds reads.1) (inductionHypothesis reads.2)

/-- A name and behind it a value, both inside a span. -/
structure Field.Inside (start stop : Nat) (field : Field) : Prop where
  start_name : start ≤ field.name.start
  name : field.name.start ≤ field.name.stop
  name_value : field.name.stop ≤ field.value.start
  value : field.value.start ≤ field.value.stop
  value_stop : field.value.stop ≤ stop

theorem entry_inside (text : FieldText) (pos : Nat) :
    (text.entry pos).Inside pos (pos + text.render.length) := by
  have length : text.render.length =
      text.name.length + 1 + text.lead.length + text.raw.length + 2 := by
    rw [text.render_eq]
    simp only [List.length_append, List.length_cons, crlf, List.length_nil]
    omega
  have value : text.value.length ≤ text.raw.length := by
    rw [← text.raw_rdropWhile]
    exact (List.rdropWhile_prefix isOws text.raw).length_le
  refine ⟨Nat.le_refl _, Nat.le_add_right _ _, ?_, Nat.le_add_right _ _, ?_⟩
  · simp only [FieldText.entry, FieldText.line, FieldText.valueAt]
    omega
  · simp only [FieldText.entry, FieldText.line, FieldText.valueAt]
    omega

theorem keptAt_inside (texts : List FieldText) (pos : Nat) :
    ∀ field ∈ keptAt pos texts,
      field.Inside pos (pos + (texts.flatMap FieldText.render).length) := by
  induction texts generalizing pos with
  | nil => exact fun field member => absurd member List.not_mem_nil
  | cons text rest inductionHypothesis =>
    intro field member
    rw [List.flatMap_cons, List.length_append, ← Nat.add_assoc]
    have later : ∀ field ∈ keptAt (pos + text.render.length) rest, field.Inside pos
          (pos + text.render.length + (rest.flatMap FieldText.render).length) := by
      intro field member
      have inside := inductionHypothesis (pos + text.render.length) field member
      exact { inside with start_name := Nat.le_trans (Nat.le_add_right _ _) inside.start_name }
    rcases allowed : isTrailerAllowed text.name with - | -
    · rw [keptAt, allowed, if_neg Bool.false_ne_true] at member
      exact later field member
    · rw [keptAt, if_pos allowed] at member
      rcases List.mem_cons.mp member with rfl | behind
      · have inside := entry_inside text pos
        exact { inside with value_stop := Nat.le_trans inside.value_stop (Nat.le_add_right _ _) }
      · exact later field behind

/-! ### The sections the decoder reports -/

theorem closed_whole (section_ : Bytes) : Closed section_ ⟨0, section_.length⟩ :=
  ⟨Nat.zero_le _, Nat.le_refl _, .inr (.inl rfl)⟩

theorem Closed.advance {by_ : Nat} (closed : Closed (tail input by_) section_)
    (inside : by_ ≤ input.length) : Closed input ⟨section_.start + by_, section_.stop + by_⟩ := by
  obtain ⟨ordered, within, ends⟩ := closed
  rw [length_tail] at within ends
  refine ⟨Nat.add_le_add_right ordered _, by dsimp only; omega, ?_⟩
  rcases Nat.eq_or_lt_of_le ordered with same | more
  · exact .inl (congrArg (· + by_) same)
  rcases ends with same | whole | ended
  · exact .inl (congrArg (· + by_) same)
  · exact .inr (.inl (by dsimp only; omega))
  · refine .inr (.inr ?_)
    rw [byte, tail, List.getElem?_drop] at ended
    rw [byte, ← ended]
    congr 1
    dsimp only
    omega

namespace ChunkedDecoder

theorem trailerFraming_ends {from_ : Nat}
    (complete : trailerFraming limits input from_ = .complete stop) :
    from_ = stop ∨ byte input (stop - 1) = some lf := by
  fun_induction trailerFraming limits input from_ with
  | case5 =>
    cases complete
    exact .inl rfl
  | case9 from_ _ first _ _ _ lineLen _ ended inductionHypothesis =>
    refine .inr ((inductionHypothesis complete).elim ?_ id)
    rintro rfl
    exact (expectCrlf_found.mp ended).2
  | _ => cases complete

variable {next : ChunkedDecoder} {section_ : Span} {consumed : Nat}

theorem closed_of_trailerSection
    (ended : trailerSection input limits = (next, .ok (.done section_ consumed))) :
    Closed input section_ := by
  unfold trailerSection at ended
  rcases framed : trailerFraming limits input 0 with stop | - | reject
  · rw [framed] at ended
    cases ended
    refine ⟨Nat.zero_le _, ?_, (trailerFraming_ends framed).imp_right .inr⟩
    have := trailerFraming_stop framed
    dsimp only
    omega
  · rw [framed] at ended
    cases ended
  · rw [framed] at ended
    cases ended

/-- A step that was shifted ends where the step it comes from ends. -/
theorem done_of_advance {result : Except Reject Step} {by_ : Nat}
    (ended : result.map (advance · by_) = .ok (.done section_ consumed)) :
    ∃ earlier used, result = .ok (.done earlier used) ∧
      section_ = ⟨earlier.start + by_, earlier.stop + by_⟩ := by
  rcases result with reject | (⟨bytes, used⟩ | used | ⟨earlier, used⟩)
  · cases ended
  · cases ended
  · cases ended
  · cases ended
    exact ⟨earlier, used, rfl, rfl⟩

theorem chunkData_ne_done (remaining : Nat) (input : Bytes) :
    (chunkData remaining input).2 ≠ .ok (.done section_ consumed) := by
  unfold chunkData
  split <;> nofun

theorem closed_of_sizeLine (ended : sizeLine input limits = (next, .ok (.done section_ consumed))) :
    Closed input section_ := by
  unfold sizeLine at ended
  rcases framed : sizeFraming input limits with ⟨length, pos⟩ | - | reject
  · rw [framed] at ended
    have inside := (sizeFraming_stop framed).2
    dsimp only at ended
    split at ended
    · obtain ⟨earlier, used, same, rfl⟩ := done_of_advance (congrArg Prod.snd ended)
      exact (closed_of_trailerSection (Prod.ext rfl same)).advance inside
    · split at ended
      · cases ended
      · obtain ⟨earlier, used, same, rfl⟩ := done_of_advance (congrArg Prod.snd ended)
        exact absurd same (chunkData_ne_done _ _)
  · rw [framed] at ended
    cases ended
  · rw [framed] at ended
    cases ended

/-- A section the decoder reports is empty or ends a line. -/
theorem closed_of_decode {decoder : ChunkedDecoder}
    (ended : decoder.decode input limits = (next, .ok (.done section_ consumed))) :
    Closed input section_ := by
  cases decoder with
  | size => exact closed_of_sizeLine ended
  | data remaining => exact absurd (congrArg Prod.snd ended) (chunkData_ne_done _ _)
  | dataEnd =>
    unfold decode at ended
    dsimp only at ended
    rcases framed : expectCrlf input 0 with - | - | -
    · rw [framed] at ended
      have inside := expectCrlf_found_le framed
      obtain ⟨earlier, used, same, rfl⟩ := done_of_advance (congrArg Prod.snd ended)
      exact (closed_of_sizeLine (Prod.ext rfl same)).advance (by omega)
    · rw [framed] at ended
      cases ended
    · rw [framed] at ended
      cases ended
  | trailers => exact closed_of_trailerSection ended
  | done =>
    cases ended
    exact ⟨Nat.le_refl _, Nat.zero_le _, .inl rfl⟩

end ChunkedDecoder

end ZeroServer.Http1

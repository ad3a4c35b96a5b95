/-
This file says what an accepted request head is, byte by byte, and that the head parser
accepts nothing else. `HeadText` is a head as its parts: the empty lines before it, the
method, the target, the minor version and the field lines, each a record that carries the
grammar of its bytes. The parser completes on an input exactly when the input starts with the
rendering of such a text within the limits and the target, host and framing rules pass, and
then every span is the place of the part in the rendering.
-/

import ZeroServer.Http1.HeadStable

namespace ZeroServer.Http1

open Lib

/-! ### Reading a piece at an offset -/

variable {pos : Nat} {input : Bytes}

variable {piece : Bytes}

/-- The input holds the piece at the offset. -/
def Reads (input : Bytes) (pos : Nat) (piece : Bytes) : Prop := piece <+: tail input pos

theorem reads_append {input : Bytes} {pos : Nat} {first second : Bytes} :
    Reads input pos (first ++ second) ↔
      Reads input pos first ∧ Reads input (pos + first.length) second := by
  unfold Reads tail
  constructor
  · rintro ⟨rest, whole⟩
    rw [List.append_assoc] at whole
    refine ⟨⟨_, whole⟩, rest, ?_⟩
    rw [← List.drop_drop, ← whole, List.drop_left]
  · rintro ⟨⟨after, whole⟩, rest, tailed⟩
    refine ⟨rest, ?_⟩
    rw [← List.drop_drop, ← whole, List.drop_left] at tailed
    rw [List.append_assoc, tailed, whole]

theorem reads_cons {first : UInt8} {rest : Bytes} :
    Reads input pos (first :: rest) ↔ byte input pos = some first ∧ Reads input (pos + 1) rest := by
  have one : Reads input pos [first] ↔ byte input pos = some first := by
    unfold Reads tail byte
    rw [← List.head?_drop]
    rcases input.drop pos with - | ⟨head, rest⟩
    · simp
    · simp [List.prefix_cons_iff, eq_comm]
  rw [← one]
  exact @reads_append input pos [first] rest

theorem reads_nil (input : Bytes) (pos : Nat) : Reads input pos [] := List.nil_prefix

theorem reads_take (input : Bytes) (pos len : Nat) : Reads input pos ((tail input pos).take len) :=
  List.take_prefix _ _

theorem Reads.le_length (reads : Reads input pos piece) (some_ : piece ≠ []) :
    pos + piece.length ≤ input.length := by
  have inside := reads.length_le
  have nonempty := List.length_pos_of_ne_nil some_
  rw [length_tail] at inside
  omega

theorem Reads.span (reads : Reads input pos piece) (some_ : piece ≠ []) :
    (Span.mk pos (pos + piece.length)).of input = piece := by
  have inside := reads.le_length some_
  obtain ⟨rest, whole⟩ := reads
  unfold Span.of
  rw [if_pos ⟨by dsimp only; omega, inside⟩, Nat.add_sub_cancel_left]
  change (tail input pos).take piece.length = piece
  rw [← whole, List.take_left]

/-- A run of allowed bytes in front of one that is not is what a scan takes. -/
theorem Reads.scan {allowed : UInt8 → Bool} {run : Bytes} {stop : UInt8}
    (reads : Reads input pos run) (every : ∀ byte ∈ run, allowed byte = true)
    (stops : byte input (pos + run.length) = some stop) (ends : allowed stop = false) :
    scan (tail input pos) allowed = run.length := by
  have both : Reads input pos (run ++ [stop]) :=
    reads_append.mpr ⟨reads, reads_cons.mpr ⟨stops, reads_nil _ _⟩⟩
  obtain ⟨rest, whole⟩ := both
  rw [← whole, List.append_assoc]
  exact scan_run every ends

/-- What a scan takes, and the byte it stops at. -/
theorem exists_scan (allowed : UInt8 → Bool) (input : Bytes) (pos : Nat) :
    ∃ run, Reads input pos run ∧ run.length = scan (tail input pos) allowed ∧
      (∀ byte ∈ run, allowed byte = true) ∧
      ∀ stop, byte input (pos + run.length) = some stop → allowed stop = false := by
  have length : ((tail input pos).take (scan (tail input pos) allowed)).length =
      scan (tail input pos) allowed := by
    rw [List.length_take, Nat.min_eq_left (scan_le_length _)]
  refine ⟨_, reads_take input pos (scan (tail input pos) allowed), length, scan_take_allowed _, ?_⟩
  intro stop stops
  rw [length, ← tail_getElem?, List.getElem?_eq_some_iff] at stops
  obtain ⟨inside, rfl⟩ := stops
  exact scan_stop inside

/-! ### Field lines as text -/

/-- A field line in its parts: a nonempty token, the whitespace around the value, and a value
of visible bytes, spaces and tabs that neither starts nor ends with a space or a tab. -/
structure FieldText where
  name : Bytes
  before : Bytes
  value : Bytes
  after : Bytes
  nameSome : name ≠ []
  nameToken : ∀ byte ∈ name, isTchar byte = true
  beforeOws : ∀ byte ∈ before, isOws byte = true
  afterOws : ∀ byte ∈ after, isOws byte = true
  valueBytes : ∀ byte ∈ value, isValueByte byte = true
  valueStarts : ∀ byte ∈ value.head?, isOws byte = false
  valueEnds : ∀ byte ∈ value.getLast?, isOws byte = false

namespace FieldText

/-- `name ":" OWS value OWS CRLF`. -/
def render (text : FieldText) : Bytes :=
  text.name ++ colon :: (text.before ++ text.value ++ text.after ++ crlf)

/-- The whitespace in front of the value: all of it when the value is empty. -/
def lead (text : FieldText) : Bytes :=
  if text.value = [] then text.before ++ text.after else text.before

/-- Where the value of a line at `pos` starts. -/
def valueAt (text : FieldText) (pos : Nat) : Nat := pos + text.name.length + 1 + text.lead.length

/-- The line as the parser's spans, when it stands at `pos`. -/
def line (text : FieldText) (pos : Nat) : FieldLine where
  name := ⟨pos, pos + text.name.length⟩
  value := ⟨text.valueAt pos, text.valueAt pos + text.value.length⟩
  stop := pos + text.render.length

/-- The table entry of the line, when it stands at `pos`. -/
def entry (text : FieldText) (pos : Nat) : Field :=
  ⟨(text.line pos).name, (text.line pos).value, HeaderName.parse text.name⟩

/-- What the parser scans as the value before it trims the end. -/
def raw (text : FieldText) : Bytes := if text.value = [] then [] else text.value ++ text.after

theorem render_eq (text : FieldText) :
    text.render = text.name ++ colon :: (text.lead ++ (text.raw ++ crlf)) := by
  unfold render lead raw
  by_cases empty : text.value = []
  · simp [empty]
  · simp [empty]

end FieldText

theorem isValueByte_of_isOws {byte : UInt8} (blank : isOws byte = true) :
    isValueByte byte = true := by
  rcases byte with ⟨⟨value, bound⟩⟩
  simp only [isOws, sp, htab, Bool.or_eq_true, beq_iff_eq] at blank
  rcases blank with same | same <;> rw [same] <;> decide

/-- The end of a value moves back over its trailing whitespace. -/
theorem trimValueEnd_raw {raw : Bytes} {valueStart : Nat} :
    Reads input valueStart raw →
      trimValueEnd input valueStart (valueStart + raw.length) =
        valueStart + (raw.rdropWhile isOws).length := by
  induction raw using List.reverseRecOn with
  | nil =>
    intro _
    rcases valueStart with - | start
    · rfl
    · simp [trimValueEnd]
  | append_singleton raw last inductionHypothesis =>
    intro reads
    obtain ⟨front, back⟩ := reads_append.mp reads
    have here := (reads_cons.mp back).1
    rw [List.length_append, List.length_singleton, ← Nat.add_assoc, trimValueEnd, here,
      Option.any_some, List.rdropWhile_concat]
    by_cases blank : isOws last = true
    · rw [if_pos ⟨by omega, blank⟩, if_pos blank, inductionHypothesis front]
    · rw [if_neg (by tauto), if_neg blank, List.length_append, List.length_singleton,
        ← Nat.add_assoc]

namespace FieldText

theorem raw_rdropWhile (text : FieldText) : text.raw.rdropWhile isOws = text.value := by
  have kept : text.value.rdropWhile isOws = text.value := by
    rw [List.rdropWhile_eq_self_iff]
    intro some_
    rw [text.valueEnds _ (List.getLast?_eq_some_getLast some_)]
    exact Bool.false_ne_true
  unfold raw
  by_cases empty : text.value = []
  · rw [if_pos empty, List.rdropWhile_nil, empty]
  · rw [if_neg empty, List.rdropWhile, List.reverse_append, List.dropWhile_append_of_pos]
    · exact kept
    · intro byte member
      exact text.afterOws byte (List.mem_reverse.mp member)

theorem lead_ows (text : FieldText) : ∀ byte ∈ text.lead, isOws byte = true := by
  intro byte member
  unfold lead at member
  by_cases empty : text.value = []
  · rw [if_pos empty, List.mem_append] at member
    rcases member with front | back
    · exact text.beforeOws byte front
    · exact text.afterOws byte back
  · rw [if_neg empty] at member
    exact text.beforeOws byte member

theorem raw_bytes (text : FieldText) : ∀ byte ∈ text.raw, isValueByte byte = true := by
  intro byte member
  unfold raw at member
  by_cases empty : text.value = []
  · rw [if_pos empty] at member
    cases member
  · rw [if_neg empty, List.mem_append] at member
    rcases member with front | back
    · exact text.valueBytes byte front
    · exact isValueByte_of_isOws (text.afterOws byte back)

/-- What follows the whitespace in front of the value is no whitespace. -/
theorem raw_starts (text : FieldText) :
    ∃ first rest, text.raw ++ crlf = first :: rest ∧ isOws first = false := by
  unfold raw
  rcases shape : text.value with - | ⟨first, rest⟩
  · exact ⟨cr, [lf], rfl, by decide⟩
  · rw [if_neg (List.cons_ne_nil _ _)]
    exact ⟨first, rest ++ text.after ++ crlf, by simp, text.valueStarts first (by simp [shape])⟩

end FieldText

variable {text : FieldText}

/-- A field line that stands at an offset is read as its spans. -/
theorem fieldLine_render (reads : Reads input pos text.render) :
    fieldLine input pos = .complete (some (text.line pos)) := by
  have length : text.render.length =
      text.name.length + 1 + text.lead.length + text.raw.length + 2 := by
    rw [text.render_eq]
    simp only [List.length_append, List.length_cons, crlf, List.length_nil]
    omega
  rw [text.render_eq, reads_append, reads_cons, reads_append] at reads
  obtain ⟨nameReads, colonReads, leadReads, valueReads⟩ := reads
  obtain ⟨first, rest, starts, solid⟩ := text.raw_starts
  have firstReads : byte input (pos + text.name.length + 1 + text.lead.length) = some first := by
    rw [starts] at valueReads
    exact (reads_cons.mp valueReads).1
  obtain ⟨rawReads, endReads⟩ := reads_append.mp valueReads
  obtain ⟨crReads, lfReads⟩ := reads_cons.mp endReads
  have nameScan : scanHeaderName (tail input pos) = text.name.length :=
    nameReads.scan text.nameToken colonReads (by decide)
  have skipped : skipOws input (pos + text.name.length + 1) = text.valueAt pos := by
    unfold skipOws FieldText.valueAt
    rw [leadReads.scan text.lead_ows firstReads solid]
  have valueScan : scanHeaderValue (tail input (text.valueAt pos)) = text.raw.length :=
    rawReads.scan text.raw_bytes crReads (by decide)
  refine fieldLine_eq_some.mpr ⟨text.name.length, text.valueAt pos,
    text.valueAt pos + text.raw.length, nameScan.symm, skipped.symm, by rw [valueScan],
    List.length_pos_of_ne_nil text.nameSome, colonReads,
    expectCrlf_found.mpr ⟨crReads, (reads_cons.mp lfReads).1⟩, ?_⟩
  have trimmed : trimValueEnd input (text.valueAt pos) (text.valueAt pos + text.raw.length) =
      text.valueAt pos + text.value.length := by
    rw [← text.raw_rdropWhile]
    exact trimValueEnd_raw rawReads
  rw [trimmed]
  unfold FieldText.line
  rw [length]
  simp only [FieldLine.mk.injEq, true_and, FieldText.valueAt]
  omega

/-- What is read as a field line is one. -/
theorem fieldLine_shape {line : FieldLine}
    (complete : fieldLine input pos = .complete (some line)) :
    ∃ text : FieldText, Reads input pos text.render ∧ line = text.line pos := by
  obtain ⟨nameLen, valueStart, valueLimit, named, started, limited, some_, colonReads, found, -⟩ :=
    fieldLine_eq_some.mp complete
  obtain ⟨crReads, lfReads⟩ := expectCrlf_found.mp found
  obtain ⟨name, nameReads, nameLength, nameToken, -⟩ := exists_scan isTchar input pos
  obtain ⟨lead, leadReads, leadLength, leadOws, solid⟩ :=
    exists_scan isOws input (pos + nameLen + 1)
  obtain ⟨raw, rawReads, rawLength, rawBytes, -⟩ := exists_scan isValueByte input valueStart
  have nameLen_eq : name.length = nameLen := nameLength.trans named.symm
  have valueStart_eq : pos + nameLen + 1 + lead.length = valueStart := by
    rw [started, leadLength]
    rfl
  have valueLimit_eq : valueStart + raw.length = valueLimit := by
    rw [limited, rawLength]
    rfl
  have starts : ∀ first ∈ (raw.rdropWhile isOws).head?, isOws first = false := by
    intro first member
    obtain ⟨rest, whole⟩ := List.rdropWhile_prefix isOws raw
    refine solid first ?_
    rcases trimmed : raw.rdropWhile isOws with - | ⟨other, remains⟩
    · rw [trimmed] at member
      cases member
    · rw [trimmed] at member whole
      cases member
      rw [← whole, List.cons_append] at rawReads
      rw [valueStart_eq]
      exact (reads_cons.mp rawReads).1
  let text : FieldText := {
    name
    before := lead
    value := raw.rdropWhile isOws
    after := raw.rtakeWhile isOws
    nameSome := List.ne_nil_of_length_pos (by omega)
    nameToken
    beforeOws := leadOws
    afterOws := fun byte member => List.mem_rtakeWhile_imp member
    valueBytes := fun byte member => rawBytes byte ((List.rdropWhile_prefix isOws raw).subset member)
    valueStarts := starts
    valueEnds := fun byte member => by
      have some_ : raw.rdropWhile isOws ≠ [] := by
        intro empty
        rw [empty] at member
        cases member
      rw [List.getLast?_eq_some_getLast some_, Option.mem_some_iff] at member
      rw [← member]
      exact Bool.eq_false_iff.mpr (List.rdropWhile_last_not isOws raw some_) }
  have reads : Reads input pos text.render := by
    have whole : text.render = name ++ colon :: (lead ++ (raw ++ crlf)) := by
      change name ++ colon :: (lead ++ raw.rdropWhile isOws ++ raw.rtakeWhile isOws ++ crlf) = _
      rw [List.append_assoc lead, List.rdropWhile_append_rtakeWhile, List.append_assoc]
    rw [whole, reads_append, reads_cons, reads_append, reads_append, nameLen_eq, valueStart_eq,
      valueLimit_eq]
    exact ⟨nameReads, colonReads, leadReads, rawReads,
      reads_cons.mpr ⟨crReads, reads_cons.mpr ⟨lfReads, reads_nil _ _⟩⟩⟩
  refine ⟨text, reads, ?_⟩
  have again := fieldLine_render reads
  rw [complete, Verdict.complete.injEq, Option.some.injEq] at again
  exact again

/-! ### The field section -/

variable {limits : Http1Limits} {table : List Field}

variable {fieldCount : Nat} {fields : FieldSection}

/-- The table entries of field lines that stand one behind the other from `pos` on. -/
def entriesAt (pos : Nat) : List FieldText → List Field
  | [] => []
  | text :: rest => text.entry pos :: entriesAt (pos + text.render.length) rest

/-- What the interpreted fields of a list of entries add to those already seen. -/
def interpretAll (input : Bytes) (version : Version) (seen : Interpreted) (entries : List Field) :
    Interpreted :=
  entries.foldl (fun seen field => interpret input version seen field.id field.value) seen

/-- The field section a list of lines and the empty line behind them are read as. -/
def sectionOf (version : Version) (input : Bytes) (pos fieldCount : Nat) (seen : Interpreted)
    (table : List Field) (texts : List FieldText) : FieldSection where
  stop := pos + (texts.flatMap FieldText.render).length + 2
  fieldCount := fieldCount + texts.length
  seen := interpretAll input version seen (entriesAt pos texts)
  table := table.take fieldCount ++ entriesAt pos texts ++ table.drop (fieldCount + texts.length)

theorem length_entriesAt (pos : Nat) (texts : List FieldText) :
    (entriesAt pos texts).length = texts.length := by
  induction texts generalizing pos with
  | nil => rfl
  | cons text rest inductionHypothesis =>
    rw [entriesAt, List.length_cons, List.length_cons, inductionHypothesis]

theorem entry_line (reads : Reads input pos text.render) :
    (text.line pos).entry input = text.entry pos := by
  unfold FieldLine.entry FieldText.entry
  have named : (text.line pos).name.of input = text.name := by
    unfold FieldText.render at reads
    exact (reads_append.mp reads).1.span text.nameSome
  rw [named]

theorem sectionOf_nil (version : Version) (input : Bytes) (pos fieldCount : Nat)
    (seen : Interpreted) (table : List Field) :
    sectionOf version input pos fieldCount seen table [] = ⟨pos + 2, fieldCount, seen, table⟩ := by
  simp [sectionOf, entriesAt, interpretAll]

theorem sectionOf_cons (version : Version) (input : Bytes) (pos fieldCount : Nat)
    (seen : Interpreted) (table : List Field) (text : FieldText) (rest : List FieldText)
    (room : fieldCount < table.length) :
    sectionOf version input (pos + text.render.length) (fieldCount + 1)
        (interpret input version seen (text.entry pos).id (text.entry pos).value)
        (table.set fieldCount (text.entry pos)) rest =
      sectionOf version input pos fieldCount seen table (text :: rest) := by
  have back : (table.set fieldCount (text.entry pos)).drop (fieldCount + 1 + rest.length) =
      table.drop (fieldCount + (text :: rest).length) := by
    rw [List.drop_set_of_lt (by omega), List.length_cons]
    congr 1
    omega
  unfold sectionOf
  rw [take_set_succ room, back]
  simp only [FieldSection.mk.injEq, List.flatMap_cons, List.length_append, List.length_cons,
    entriesAt, interpretAll, List.foldl_cons, List.append_assoc, List.cons_append, List.nil_append]
  exact ⟨by omega, by omega, trivial, trivial⟩

/-- Field lines and the empty line behind them fit the limits and the table. -/
def FieldsFit (limits : Http1Limits) (table : List Field) (fieldCount : Nat)
    (texts : List FieldText) : Prop :=
  (∀ text ∈ texts, text.render.length ≤ limits.maxHeaderField) ∧
    fieldCount + texts.length ≤ max fieldCount limits.maxHeaderCount ∧
    fieldCount + texts.length ≤ max fieldCount table.length

theorem fieldsFit_cons {rest : List FieldText} {entry : Field} :
    FieldsFit limits table fieldCount (text :: rest) ↔
      FieldFits limits table fieldCount text.render.length ∧
        FieldsFit limits (table.set fieldCount entry) (fieldCount + 1) rest := by
  unfold FieldsFit FieldFits
  rw [List.forall_mem_cons, List.length_set, List.length_cons]
  constructor
  · rintro ⟨⟨short, others⟩, few, room⟩
    exact ⟨⟨short, by omega, by omega⟩, others, by omega, by omega⟩
  · rintro ⟨⟨short, fieldFew, fieldRoom⟩, others, few, room⟩
    exact ⟨⟨short, others⟩, by omega, by omega⟩

/-- Field lines and the empty line behind them are read into the table when they fit, and
refused when they do not. -/
theorem fieldLoop_render {limits : Http1Limits} {version : Version} {input : Bytes}
    {texts : List FieldText} {pos fieldCount : Nat} {seen : Interpreted} {table : List Field}
    (reads : Reads input pos (texts.flatMap FieldText.render ++ crlf)) :
    (FieldsFit limits table fieldCount texts ∧
        (fieldLoop limits version input pos fieldCount seen table).2 =
          .complete (sectionOf version input pos fieldCount seen table texts)) ∨
      ¬ FieldsFit limits table fieldCount texts ∧
        (fieldLoop limits version input pos fieldCount seen table).2 =
          .reject .headerFieldsTooLarge := by
  induction texts generalizing pos fieldCount seen table with
  | nil =>
    obtain ⟨crReads, rest⟩ := reads_cons.mp reads
    rw [fieldLoop_of_none (fieldLine_eq_none.mpr ⟨crReads, (reads_cons.mp rest).1⟩), sectionOf_nil]
    exact Or.inl ⟨⟨by simp, Nat.le_max_left _ _, Nat.le_max_left _ _⟩, rfl⟩
  | cons text rest inductionHypothesis =>
    rw [List.flatMap_cons, List.append_assoc, reads_append] at reads
    have step := fieldLine_render reads.1
    have length : (text.line pos).stop - pos = text.render.length := Nat.add_sub_cancel_left _ _
    rw [fieldsFit_cons]
    by_cases fits : FieldFits limits table fieldCount text.render.length
    · rw [← length] at fits
      rw [fieldLoop_of_some step fits, entry_line reads.1,
        ← sectionOf_cons version input pos fieldCount seen table text rest fits.2.2]
      rw [length] at fits
      rcases inductionHypothesis reads.2 with ⟨others, complete⟩ | ⟨others, refused⟩
      · exact Or.inl ⟨⟨fits, others⟩, complete⟩
      · exact Or.inr ⟨fun both => others both.2, refused⟩
    · refine Or.inr ⟨fun both => fits both.1, ?_⟩
      rw [fieldLoop_of_not_fits step (by rwa [length])]

/-- A field section that was read is a list of field lines within the limits, with the empty
line behind them. -/
theorem fieldLoop_shape {version : Version} {seen : Interpreted}
    (complete : (fieldLoop limits version input pos fieldCount seen table).2 = .complete fields) :
    ∃ texts : List FieldText, Reads input pos (texts.flatMap FieldText.render ++ crlf) ∧
      FieldsFit limits table fieldCount texts ∧
      fields = sectionOf version input pos fieldCount seen table texts := by
  have found : ∃ texts : List FieldText,
      Reads input pos (texts.flatMap FieldText.render ++ crlf) := by
    refine fieldLoop_read (fun pos fieldCount seen table step last => ?ended)
      (fun pos fieldCount seen table line step fits inductionHypothesis => ?more) complete
    case ended =>
      obtain ⟨crReads, lfReads⟩ := fieldLine_eq_none.mp step
      exact ⟨[], reads_cons.mpr ⟨crReads, reads_cons.mpr ⟨lfReads, reads_nil _ _⟩⟩⟩
    case more =>
      obtain ⟨texts, reads⟩ := inductionHypothesis
      obtain ⟨text, lineReads, rfl⟩ := fieldLine_shape step
      refine ⟨text :: texts, ?_⟩
      rw [List.flatMap_cons, List.append_assoc, reads_append]
      exact ⟨lineReads, reads⟩
  obtain ⟨texts, reads⟩ := found
  refine ⟨texts, reads, ?_⟩
  rcases @fieldLoop_render limits version input texts pos fieldCount seen table reads with
    ⟨fits, again⟩ | ⟨-, refused⟩
  · rw [complete, Verdict.complete.injEq] at again
    exact ⟨fits, again⟩
  · rw [complete] at refused
    cases refused

/-! ### The request line -/

/-- The eight bytes of a version with major number one. -/
def versionBytes (minor : UInt8) : Bytes := ascii "HTTP/1." ++ [minor]

def versionOf (minor : UInt8) : Version := if minor = 48 then .http10 else .http11

theorem parseVersion_eq_ok {bytes : Bytes} {version : Version} :
    parseVersion bytes = .ok version ↔
      ∃ minor, isAsciiDigit minor = true ∧ bytes = versionBytes minor ∧
        version = versionOf minor := by
  constructor
  · intro parsed
    unfold parseVersion at parsed
    split at parsed
    · cases parsed
    split at parsed
    · cases parsed
    rename_i started
    rw [not_not] at started
    split at parsed
    · rename_i major dot minor shape
      split at parsed
      · rename_i digits
        split at parsed
        · cases parsed
        · rename_i one
          rw [not_not] at one
          refine ⟨minor, digits.2.2, ?_, by cases parsed; rfl⟩
          rw [← List.take_append_drop 5 bytes, started, shape, one, digits.2.1]
          rfl
      · cases parsed
    · cases parsed
  · rintro ⟨minor, digit, rfl, rfl⟩
    unfold parseVersion versionBytes
    rw [if_neg (by simp [ascii]), if_neg (by simp [ascii])]
    change (if isAsciiDigit 49 = true ∧ (46 : UInt8) = 46 ∧ isAsciiDigit minor = true then _
      else _) = _
    rw [if_pos ⟨by decide, rfl, digit⟩]
    rfl

/-- A request head in its parts: the empty lines before it, the request line and the field
lines. -/
structure HeadText where
  emptyLines : Nat
  method : Bytes
  target : Bytes
  minor : UInt8
  fields : List FieldText
  methodSome : method ≠ []
  methodIsToken : ∀ byte ∈ method, isTchar byte = true
  targetSome : target ≠ []
  targetVisible : ∀ byte ∈ target, isTargetByte byte = true
  minorDigit : isAsciiDigit minor = true

namespace HeadText

/-- The empty lines, each a CRLF. -/
def blank (lines : Nat) : Bytes := (List.replicate lines crlf).flatten

/-- `method SP target SP HTTP-version CRLF`. -/
def requestLine (text : HeadText) : Bytes :=
  text.method ++ sp :: (text.target ++ sp :: (versionBytes text.minor ++ crlf))

/-- The field lines and the empty line behind them. -/
def fieldSection (text : HeadText) : Bytes := text.fields.flatMap FieldText.render ++ crlf

def render (text : HeadText) : Bytes :=
  blank text.emptyLines ++ (text.requestLine ++ text.fieldSection)

/-- Where the request line starts. -/
def start (text : HeadText) : Nat := 2 * text.emptyLines

def methodSpan (text : HeadText) : Span := ⟨text.start, text.start + text.method.length⟩

def targetSpan (text : HeadText) : Span :=
  ⟨text.methodSpan.stop + 1, text.methodSpan.stop + 1 + text.target.length⟩

def version (text : HeadText) : Version := versionOf text.minor

/-- The table entries of the field lines. -/
def entries (text : HeadText) : List Field :=
  entriesAt (text.start + text.requestLine.length) text.fields

/-- What the fields of the head say. -/
def seen (text : HeadText) (input : Bytes) : Interpreted :=
  interpretAll input text.version {} text.entries

/-- The head keeps the limits: the request line and each field line with their line ends, the
number of fields, the request line and all fields together, and the empty lines in front. -/
structure Within (text : HeadText) (limits : Http1Limits) : Prop where
  requestLine : text.requestLine.length ≤ limits.maxRequestLine
  fieldLines : ∀ field ∈ text.fields, field.render.length ≤ limits.maxHeaderField
  fieldCount : text.fields.length ≤ limits.maxHeaderCount
  head : (text.requestLine ++ text.fieldSection).length ≤ limits.maxHeadBytes
  emptyLines : text.start ≤ limits.maxHeadBytes

/-- The parsed head and the table have the spans of the text. -/
structure Describes (text : HeadText) (head : Head) (table : List Field) : Prop where
  len : head.len = text.render.length
  methodToken : head.methodToken = text.methodSpan
  target : head.target = text.targetSpan
  version : head.version = text.version
  fieldCount : head.fieldCount = text.fields.length
  entries : table.take head.fieldCount = text.entries

/-- The target, host or framing rules refuse the head. -/
def Refused (text : HeadText) (input : Bytes) (reject : Reject) : Prop :=
  classifyTarget text.targetSpan input (Method.parse text.method) = .error reject ∨
    checkHost (text.seen input) input text.version = .error reject ∨
    framing (text.seen input) input text.version = .error reject

end HeadText

theorem length_blank (lines : Nat) : (HeadText.blank lines).length = 2 * lines := by
  simp [HeadText.blank, crlf, Nat.mul_comm]

theorem blank_succ (lines : Nat) :
    HeadText.blank (lines + 1) = cr :: lf :: HeadText.blank lines := by
  simp [HeadText.blank, List.replicate_succ, crlf]

theorem crlf_prefix_tail :
    crlf <+: tail input pos ↔ byte input pos = some cr ∧ byte input (pos + 1) = some lf := by
  change Reads input pos [cr, lf] ↔ _
  rw [reads_cons, reads_cons]
  exact ⟨fun reads => ⟨reads.1, reads.2.1⟩, fun reads => ⟨reads.1, reads.2, reads_nil _ _⟩⟩

/-- Empty lines in front of a byte that starts no line end are skipped, up to the limit. -/
theorem skipEmptyLines_render {limits : Http1Limits} {input : Bytes} {lines pos : Nat}
    {first : UInt8} (reads : Reads input pos (HeadText.blank lines))
    (starts : byte input (pos + 2 * lines) = some first) (solid : first ≠ cr) :
    skipEmptyLines limits input pos =
      if pos + 2 * lines ≤ max pos limits.maxHeadBytes then .complete (pos + 2 * lines)
      else .reject .headerFieldsTooLarge := by
  induction lines generalizing pos with
  | zero =>
    have inside := byte_lt starts
    have notCrlf : ¬ crlf <+: tail input pos := by
      intro found
      have here := (crlf_prefix_tail.mp found).1
      rw [Nat.mul_zero, Nat.add_zero, here, Option.some.injEq] at starts
      exact solid starts.symm
    have notCr : tail input pos ≠ [cr] := by
      intro found
      have here : byte input pos = some cr := by
        rw [← Nat.add_zero pos, ← tail_getElem?, found]
        rfl
      rw [Nat.mul_zero, Nat.add_zero, here, Option.some.injEq] at starts
      exact solid starts.symm
    rw [skipEmptyLines, if_neg notCrlf, if_neg (by
      rintro (outside | only)
      · omega
      · exact notCr only), if_pos (by omega)]
    rfl
  | succ lines inductionHypothesis =>
    rw [blank_succ, reads_cons, reads_cons] at reads
    have step : pos + 2 + 2 * lines = pos + 2 * (lines + 1) := by omega
    rw [skipEmptyLines, if_pos (crlf_prefix_tail.mpr ⟨reads.1, reads.2.1⟩)]
    by_cases long : pos + 2 > limits.maxHeadBytes
    · rw [if_pos long, if_neg (by omega)]
    · rw [if_neg long, inductionHypothesis reads.2.2 (by rw [step]; exact starts), step,
        Nat.max_eq_right (by omega), Nat.max_eq_right (by omega)]

theorem skipEmptyLines_shape {start : Nat}
    (complete : skipEmptyLines limits input pos = .complete start) :
    ∃ lines, start = pos + 2 * lines ∧ Reads input pos (HeadText.blank lines) ∧
      start ≤ max pos limits.maxHeadBytes := by
  fun_induction skipEmptyLines limits input pos with
  | case1 => cases complete
  | case2 pos starts short inductionHypothesis =>
    obtain ⟨lines, rfl, reads, bound⟩ := inductionHypothesis complete
    obtain ⟨crReads, lfReads⟩ := crlf_prefix_tail.mp starts
    refine ⟨lines + 1, by omega, ?_, by omega⟩
    rw [blank_succ, reads_cons, reads_cons]
    exact ⟨crReads, lfReads, reads⟩
  | case3 => cases complete
  | case4 pos starts stays =>
    cases complete
    exact ⟨0, rfl, reads_nil _ _, Nat.le_max_left _ _⟩

theorem methodToken_render {method : Bytes} (reads : Reads input pos method) (some_ : method ≠ [])
    (isToken : ∀ byte ∈ method, isTchar byte = true)
    (space : byte input (pos + method.length) = some sp) :
    methodToken input pos =
      if method.length ≤ longestMethod then .complete ⟨pos, pos + method.length⟩
      else .reject (.closing .notImplemented) := by
  have scanned : scanHeaderName (tail input pos) = method.length :=
    reads.scan isToken space (by decide)
  by_cases short : method.length ≤ longestMethod
  · rw [if_pos short, methodToken_eq_complete, scanned]
    exact ⟨short, List.length_pos_of_ne_nil some_, space, rfl⟩
  · rw [if_neg short, methodToken]
    simp only [scanned]
    rw [if_pos (Nat.lt_of_not_le short)]

variable {token : Span}

theorem methodToken_shape (complete : methodToken input pos = .complete token) :
    ∃ method, Reads input pos method ∧ method ≠ [] ∧ (∀ byte ∈ method, isTchar byte = true) ∧
      byte input (pos + method.length) = some sp ∧ token = ⟨pos, pos + method.length⟩ := by
  obtain ⟨-, some_, space, rfl⟩ := methodToken_eq_complete.mp complete
  obtain ⟨method, reads, length, isToken, -⟩ := exists_scan isTchar input pos
  have scanned : method.length = scanHeaderName (tail input pos) := length
  refine ⟨method, reads, List.ne_nil_of_length_pos (by omega), isToken, ?_, by rw [scanned]⟩
  rw [scanned]
  exact space

theorem lineRest_render {target : Bytes} {minor : UInt8}
    (reads : Reads input pos (target ++ sp :: (versionBytes minor ++ crlf))) (some_ : target ≠ [])
    (visible : ∀ byte ∈ target, isTargetByte byte = true) (digit : isAsciiDigit minor = true) :
    lineRest input pos = .complete ⟨⟨pos, pos + target.length⟩, versionOf minor,
      pos + target.length + 1 + versionLen + 2⟩ := by
  obtain ⟨targetReads, rest⟩ := reads_append.mp reads
  obtain ⟨space, rest⟩ := reads_cons.mp rest
  obtain ⟨versionReads, ends⟩ := reads_append.mp rest
  have versionLength : (versionBytes minor).length = versionLen := rfl
  have scanned : scanTarget (tail input pos) = target.length :=
    targetReads.scan visible space (by decide)
  have parsed : (tail input (pos + target.length + 1)).take versionLen = versionBytes minor := by
    obtain ⟨after, whole⟩ := versionReads
    rw [← whole, ← versionLength, List.take_left]
  rw [versionLength] at ends
  have crlfFound : expectCrlf input (pos + target.length + 1 + versionLen) = .found := by
    obtain ⟨crReads, rest⟩ := reads_cons.mp ends
    exact expectCrlf_found.mpr ⟨crReads, (reads_cons.mp rest).1⟩
  refine lineRest_eq_complete.mpr ⟨target.length, scanned.symm, List.length_pos_of_ne_nil some_,
    space, ?_, ?_, crlfFound, rfl, rfl⟩
  · have := expectCrlf_found_le crlfFound
    omega
  · rw [parsed]
    exact parseVersion_eq_ok.mpr ⟨minor, digit, rfl, rfl⟩

theorem lineRest_shape {line : LineRest} (complete : lineRest input pos = .complete line) :
    ∃ target minor, Reads input pos (target ++ sp :: (versionBytes minor ++ crlf)) ∧ target ≠ [] ∧
      (∀ byte ∈ target, isTargetByte byte = true) ∧ isAsciiDigit minor = true ∧
      line = ⟨⟨pos, pos + target.length⟩, versionOf minor,
        pos + target.length + 1 + versionLen + 2⟩ := by
  obtain ⟨targetLen, scanned, some_, space, long, parsed, found, -, -⟩ :=
    lineRest_eq_complete.mp complete
  obtain ⟨target, targetReads, length, visible, -⟩ := exists_scan isTargetByte input pos
  obtain ⟨minor, digit, versionEq, -⟩ := parseVersion_eq_ok.mp parsed
  obtain ⟨crReads, lfReads⟩ := expectCrlf_found.mp found
  have targetLength : target.length = targetLen := length.trans scanned.symm
  have versionReads := reads_take input (pos + targetLen + 1) versionLen
  rw [versionEq] at versionReads
  have reads : Reads input pos (target ++ sp :: (versionBytes minor ++ crlf)) := by
    rw [reads_append, reads_cons, reads_append, targetLength]
    exact ⟨targetReads, space, versionReads,
      reads_cons.mpr ⟨crReads, reads_cons.mpr ⟨lfReads, reads_nil _ _⟩⟩⟩
  have targetSome : target ≠ [] := List.ne_nil_of_length_pos (by omega)
  refine ⟨target, minor, reads, targetSome, visible, digit, ?_⟩
  have again := lineRest_render reads targetSome visible digit
  rw [complete, Verdict.complete.injEq] at again
  exact again

/-! ### The whole head -/

/-- The parser on an input whose parts are known up to the decisions. -/
theorem headParser_of_parts {headStart : Nat} {line : LineRest}
    (skipped : skipEmptyLines limits input 0 = .complete headStart)
    (named : methodToken input headStart = .complete token)
    (lined : lineRest input (token.stop + 1) = .complete line)
    (lineShort : line.stop - headStart ≤ limits.maxRequestLine) :
    headParser limits table input =
      (limited headStart limits.maxHeadBytes .headerFieldsTooLarge FieldSection.stop (fun input =>
        (fieldLoop limits line.version input line.stop 0 {} table).2) input).bind fun fields =>
          conclusion token line fields input := by
  have lineFound : limited headStart limits.maxRequestLine (Reject.closing .uriTooLong) LineRest.stop
      (fun input => lineRest input (token.stop + 1)) input = .complete line :=
    limited_eq_complete.mpr ⟨lined, lineShort⟩
  unfold headParser andThen
  dsimp only
  rw [skipped, Verdict.complete_bind, named, Verdict.complete_bind, lineFound,
    Verdict.complete_bind]

theorem conclude_eq_error {line : LineRest} {reject : Reject} :
    conclude input token line fields = .error reject →
    classifyTarget line.target input (Method.parse (token.of input)) = .error reject ∨
      checkHost fields.seen input line.version = .error reject ∨
      framing fields.seen input line.version = .error reject := by
  unfold conclude
  dsimp only
  rcases classifyTarget line.target input (Method.parse (token.of input)) with
    reason | ⟨form, path, authority⟩
  · intro refused
    cases refused
    exact Or.inl rfl
  · rcases checkHost fields.seen input line.version with reason | -
    · intro refused
      cases refused
      exact Or.inr (Or.inl rfl)
    · rcases framing fields.seen input line.version with reason | body
      · intro refused
        cases refused
        exact Or.inr (Or.inr rfl)
      · intro refused
        cases refused

namespace HeadText

theorem length_requestLine (text : HeadText) :
    text.requestLine.length = text.method.length + 1 + text.target.length + 1 + versionLen + 2 := by
  simp only [requestLine, List.length_append, List.length_cons, crlf, List.length_nil, versionBytes]
  have : (ascii "HTTP/1.").length = 7 := rfl
  simp only [this, versionLen]
  omega

theorem length_render (text : HeadText) :
    text.render.length = text.start + (text.requestLine ++ text.fieldSection).length := by
  rw [render, List.length_append, length_blank, start]

theorem length_fieldSection (text : HeadText) :
    text.fieldSection.length = (text.fields.flatMap FieldText.render).length + 2 := by
  rw [fieldSection, List.length_append]
  rfl

/-- The input starts with the rendering when each part stands at its place. -/
theorem reads_render {text : HeadText} :
    Reads input 0 text.render ↔
      Reads input 0 (blank text.emptyLines) ∧ Reads input text.start text.method ∧
        byte input text.methodSpan.stop = some sp ∧
        Reads input (text.methodSpan.stop + 1)
          (text.target ++ sp :: (versionBytes text.minor ++ crlf)) ∧
        Reads input (text.start + text.requestLine.length) text.fieldSection := by
  rw [render, reads_append, reads_append, Nat.zero_add, length_blank, requestLine, reads_append,
    reads_cons]
  constructor
  · rintro ⟨blankReads, ⟨methodReads, space, restReads⟩, fieldsRead⟩
    exact ⟨blankReads, methodReads, space, restReads, fieldsRead⟩
  · rintro ⟨blankReads, methodReads, space, restReads, fieldsRead⟩
    exact ⟨blankReads, ⟨methodReads, space, restReads⟩, fieldsRead⟩

/-- The rest of the request line as the parser's spans. -/
def line (text : HeadText) : LineRest :=
  ⟨text.targetSpan, text.version, text.start + text.requestLine.length⟩

/-- The section the parser reads the fields of a head at its place into. -/
def section_ (text : HeadText) (input : Bytes) (table : List Field) : FieldSection :=
  sectionOf text.version input (text.start + text.requestLine.length) 0 {} table text.fields

theorem section_stop (text : HeadText) (input : Bytes) (table : List Field) :
    (text.section_ input table).stop = text.render.length := by
  rw [length_render, List.length_append, length_fieldSection]
  simp only [section_, sectionOf]
  omega

theorem section_table (text : HeadText) (input : Bytes) (table : List Field) :
    (text.section_ input table).table.take text.fields.length = text.entries := by
  have length : text.entries.length = text.fields.length := length_entriesAt _ _
  rw [← length]
  simp only [section_, sectionOf, List.take_zero, List.nil_append]
  exact List.take_left

/-- What a concluded head holds is what the text says. -/
theorem describes_of_conclude {text : HeadText} {head : Head} {line : LineRest}
    (target : line.target = text.targetSpan) (version : line.version = text.version)
    (concluded : conclude input text.methodSpan line (text.section_ input table) = .ok head) :
    text.Describes head (text.section_ input table).table := by
  obtain ⟨-, -, -, headToken, headTarget, headVersion, headCount, headLen⟩ :=
    conclude_eq_ok concluded
  have count : head.fieldCount = text.fields.length := by
    rw [headCount]
    exact Nat.zero_add _
  exact {
    len := by rw [headLen, section_stop]
    methodToken := headToken
    target := by rw [headTarget, target]
    version := by rw [headVersion, version]
    fieldCount := count
    entries := by rw [count, section_table] }

end HeadText

/-- A completed head is the rendering of a text within the limits. -/
theorem headParser_shape {entries : List Field} {head : Head}
    (complete : headParser limits table input = .complete (head, entries)) :
    ∃ text : HeadText, Reads input 0 text.render ∧ text.Within limits ∧
      text.fields.length ≤ table.length ∧ text.Describes head entries := by
  obtain ⟨headStart, token, line, fields, skipped, named, lined, lineShort, filled, headShort,
    concluded, rfl⟩ := headParser_eq_complete complete
  obtain ⟨lines, started, blankReads, blankShort⟩ := skipEmptyLines_shape skipped
  rw [Nat.zero_add] at started
  subst started
  obtain ⟨method, methodReads, methodSome, methodIsToken, methodSpace, rfl⟩ :=
    methodToken_shape named
  obtain ⟨target, minor, restReads, targetSome, targetVisible, minorDigit, rfl⟩ :=
    lineRest_shape lined
  obtain ⟨texts, fieldsRead, ⟨fieldShort, few, room⟩, rfl⟩ := fieldLoop_shape filled
  let text : HeadText := {
    emptyLines := lines, method, target, minor, fields := texts, methodSome, methodIsToken,
    targetSome, targetVisible, minorDigit }
  have lineStop : 2 * lines + method.length + 1 + target.length + 1 + versionLen + 2 =
      text.start + text.requestLine.length := by
    rw [text.length_requestLine]
    change _ = 2 * lines + (method.length + 1 + target.length + 1 + versionLen + 2)
    omega
  have sameSection : sectionOf (versionOf minor) input (2 * lines + method.length + 1 +
      target.length + 1 + versionLen + 2) 0 {} table texts = text.section_ input table := by
    rw [lineStop]
    rfl
  dsimp only at lineShort headShort fieldsRead concluded
  rw [lineStop] at lineShort fieldsRead
  rw [sameSection] at headShort concluded
  rw [text.section_stop, text.length_render] at headShort
  have start : text.start = 2 * lines := rfl
  refine ⟨text, HeadText.reads_render.mpr ⟨blankReads, methodReads, methodSpace, restReads,
    fieldsRead⟩, ⟨by omega, fieldShort, by simpa using few, by omega, by omega⟩,
    by simpa using room, ?_⟩
  rw [sameSection]
  exact HeadText.describes_of_conclude rfl rfl concluded

namespace HeadText

section Render

variable {limits : Http1Limits} {table : List Field} {input : Bytes} {text : HeadText}

theorem skipEmptyLines_reads (reads : Reads input 0 text.render) :
    skipEmptyLines limits input 0 =
      if text.start ≤ limits.maxHeadBytes then .complete text.start
      else .reject .headerFieldsTooLarge := by
  obtain ⟨blankReads, methodReads, -⟩ := reads_render.mp reads
  rcases shape : text.method with - | ⟨first, rest⟩
  · exact absurd shape text.methodSome
  · rw [shape, reads_cons] at methodReads
    have solid : first ≠ cr := by
      rintro rfl
      exact absurd (text.methodIsToken cr (by simp [shape])) (by decide)
    have found := @skipEmptyLines_render limits _ _ _ _ blankReads
      (by rw [Nat.zero_add]; exact methodReads.1) solid
    rwa [Nat.zero_add, Nat.zero_max] at found

theorem lineRest_reads (reads : Reads input 0 text.render) :
    lineRest input (text.methodSpan.stop + 1) = .complete text.line := by
  obtain ⟨-, -, -, restReads, -⟩ := reads_render.mp reads
  rw [lineRest_render restReads text.targetSome text.targetVisible text.minorDigit, line,
    text.length_requestLine]
  simp only [Verdict.complete.injEq, LineRest.mk.injEq]
  refine ⟨rfl, rfl, ?_⟩
  simp only [methodSpan]
  omega

theorem fields_reads (reads : Reads input 0 text.render) :
    ((FieldsFit limits table 0 text.fields ∧
          (text.requestLine ++ text.fieldSection).length ≤ limits.maxHeadBytes) ∧
        limited text.start limits.maxHeadBytes .headerFieldsTooLarge FieldSection.stop (fun input =>
          (fieldLoop limits text.line.version input text.line.stop 0 {} table).2) input =
            .complete (text.section_ input table)) ∨
      ¬ (FieldsFit limits table 0 text.fields ∧
          (text.requestLine ++ text.fieldSection).length ≤ limits.maxHeadBytes) ∧
        limited text.start limits.maxHeadBytes .headerFieldsTooLarge FieldSection.stop (fun input =>
          (fieldLoop limits text.line.version input text.line.stop 0 {} table).2) input =
            .reject .headerFieldsTooLarge := by
  obtain ⟨-, -, -, -, fieldsRead⟩ := reads_render.mp reads
  have length : (text.section_ input table).stop - text.start =
      (text.requestLine ++ text.fieldSection).length := by
    rw [text.section_stop, text.length_render, Nat.add_sub_cancel_left]
  rcases @fieldLoop_render limits text.version input text.fields _ 0 {} table fieldsRead with
    ⟨fits, complete⟩ | ⟨overflows, refused⟩
  · have looped : (fieldLoop limits text.line.version input text.line.stop 0 {} table).2 =
        .complete (text.section_ input table) := complete
    simp only [limited, looped, length]
    by_cases short : (text.requestLine ++ text.fieldSection).length ≤ limits.maxHeadBytes
    · rw [if_neg (Nat.not_lt.mpr short)]
      exact Or.inl ⟨⟨fits, short⟩, rfl⟩
    · rw [if_pos (Nat.lt_of_not_le short)]
      exact Or.inr ⟨fun both => short both.2, rfl⟩
  · have looped : (fieldLoop limits text.line.version input text.line.stop 0 {} table).2 =
        .reject .headerFieldsTooLarge := refused
    refine Or.inr ⟨fun both => overflows both.1, ?_⟩
    simp only [limited, looped]

theorem conclusion_reads (reads : Reads input 0 text.render) :
    (∃ head, conclusion text.methodSpan text.line (text.section_ input table) input =
        .complete (head, (text.section_ input table).table) ∧
        text.Describes head (text.section_ input table).table) ∨
      ∃ reject, conclusion text.methodSpan text.line (text.section_ input table) input =
        .reject reject ∧ text.Refused input reject := by
  obtain ⟨-, methodReads, -⟩ := reads_render.mp reads
  have methodOf : text.methodSpan.of input = text.method := methodReads.span text.methodSome
  unfold conclusion
  rcases concluded : conclude input text.methodSpan text.line (text.section_ input table) with
    reject | head
  · have refused := conclude_eq_error concluded
    rw [methodOf] at refused
    exact Or.inr ⟨reject, rfl, refused⟩
  · exact Or.inl ⟨head, rfl, describes_of_conclude rfl rfl concluded⟩

end Render

end HeadText

/-- A text in front of anything is a complete head, unless the target, host or framing rules
refuse it, it breaks a limit, or the table has no room for its fields. -/
theorem headParser_render (limits : Http1Limits) (table : List Field) {text : HeadText}
    (reads : Reads input 0 text.render) :
    (∃ head entries, headParser limits table input = .complete (head, entries) ∧
        text.Describes head entries) ∨
      ∃ reject, headParser limits table input = .reject reject ∧
        (text.Refused input reject ∨ ¬ text.Within limits ∨
          longestMethod < text.method.length ∨
          (table.length < text.fields.length ∧ reject = .headerFieldsTooLarge)) := by
  have skipped := @HeadText.skipEmptyLines_reads limits input text reads
  by_cases blankShort : text.start ≤ limits.maxHeadBytes
  swap
  · rw [if_neg blankShort] at skipped
    refine Or.inr ⟨.headerFieldsTooLarge, ?_,
      Or.inr (Or.inl fun within => blankShort within.emptyLines)⟩
    simp only [headParser, andThen, skipped, Verdict.reject_bind]
  rw [if_pos blankShort] at skipped
  obtain ⟨-, methodReads, methodSpace, -, -⟩ := HeadText.reads_render.mp reads
  have named := methodToken_render methodReads text.methodSome text.methodIsToken methodSpace
  by_cases methodShort : text.method.length ≤ longestMethod
  swap
  · rw [if_neg methodShort] at named
    refine Or.inr ⟨.closing .notImplemented, ?_,
      Or.inr (Or.inr (Or.inl (Nat.lt_of_not_le methodShort)))⟩
    simp only [headParser, andThen, skipped, named, Verdict.complete_bind, Verdict.reject_bind]
  rw [if_pos methodShort] at named
  have lined := HeadText.lineRest_reads reads
  have lineLength : text.line.stop - text.start = text.requestLine.length :=
    Nat.add_sub_cancel_left _ _
  by_cases lineShort : text.requestLine.length ≤ limits.maxRequestLine
  swap
  · refine Or.inr ⟨.closing .uriTooLong, ?_,
      Or.inr (Or.inl fun within => lineShort within.requestLine)⟩
    have tooLong : limited text.start limits.maxRequestLine (.closing .uriTooLong) LineRest.stop
        (fun input => lineRest input (text.methodSpan.stop + 1)) input =
          .reject (.closing .uriTooLong) := by
      simp only [limited, lined, lineLength, if_pos (Nat.lt_of_not_le lineShort)]
    simp only [headParser, andThen, skipped, named, Verdict.complete_bind]
    exact Verdict.bind_eq_reject.mpr (Or.inl tooLong)
  rw [headParser_of_parts skipped named lined (by rwa [lineLength])]
  rcases @HeadText.fields_reads limits table input text reads with
    ⟨-, complete⟩ | ⟨overflows, refused⟩
  · rw [complete, Verdict.complete_bind]
    rcases @HeadText.conclusion_reads table input text reads with
      ⟨head, concluded, describes⟩ | ⟨reject, concluded, refused⟩
    · exact Or.inl ⟨head, _, concluded, describes⟩
    · exact Or.inr ⟨reject, concluded, Or.inl refused⟩
  · rw [refused, Verdict.reject_bind]
    refine Or.inr ⟨.headerFieldsTooLarge, rfl, ?_⟩
    by_cases room : text.fields.length ≤ table.length
    · refine Or.inr (Or.inl fun within => overflows ⟨⟨within.fieldLines, ?_, ?_⟩, within.head⟩)
      · have := within.fieldCount
        omega
      · omega
    · exact Or.inr (Or.inr (Or.inr ⟨Nat.lt_of_not_le room, rfl⟩))

/-- `Host: a`. -/
def hostLine : FieldText where
  name := ascii "Host"
  before := [sp]
  value := ascii "a"
  after := []
  nameSome := by decide
  nameToken := by decide +kernel
  beforeOws := by decide +kernel
  afterOws := by decide +kernel
  valueBytes := by decide +kernel
  valueStarts := by decide +kernel
  valueEnds := by decide +kernel

/-- A text with an empty line in front and whitespace around the value. -/
def sampleText : HeadText where
  emptyLines := 1
  method := ascii "GET"
  target := ascii "/"
  minor := 49
  fields := [{ hostLine with after := [htab], afterOws := by decide +kernel }]
  methodSome := by decide
  methodIsToken := by decide +kernel
  targetSome := by decide
  targetVisible := by decide +kernel
  minorDigit := by decide

end ZeroServer.Http1

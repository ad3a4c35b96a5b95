/-
This file models the content of an answer with several ranges, each part behind a delimiter with the
range it holds, and proves that splitting at the delimiter gives the parts back: a delimiter is found
elsewhere only where the data holds one, or where a part begins with the rest of one.
-/

import ZeroServer.Http1.Response
import ZeroServer.Lib.Delimited
import ZeroServer.Static.Range

namespace ZeroServer.Static

open Http1 Lib

/-! ### Parts -/

/-- The bytes from a first to a last offset, if the data has them. -/
def slice (data : Bytes) (range : Nat × Nat) : Option Bytes :=
  if range.1 ≤ range.2 + 1 ∧ range.2 < data.length then
    some ((data.drop range.1).take (range.2 + 1 - range.1))
  else none

/-- The `Content-Range` of a range. -/
def contentRange (range : Nat × Nat) (length : Nat) : Bytes :=
  ascii "bytes " ++ decimal range.1 ++ [hyphen] ++ decimal range.2 ++ [slash] ++ decimal length
where slash : UInt8 := 47

/-- The `Content-Range` of a representation no range was found in. -/
def unsatisfiedRange (length : Nat) : Bytes := ascii "bytes */" ++ decimal length

/-- What separates the parts. -/
def delimiter (boundary : Bytes) : Bytes := crlf ++ ascii "--" ++ boundary

/-- The fields of a part, behind the delimiter and with the empty line. -/
def partHead (contentType range : Bytes) : Bytes :=
  crlf ++ ascii "Content-Type: " ++ contentType ++ crlf ++ ascii "Content-Range: " ++ range ++ crlf ++
    crlf

/-- The `multipart/byteranges` content, behind what was written before. -/
def writeMultipart (out data : Bytes) (ranges : List (Nat × Nat)) (contentType boundary : Bytes) :
    Bytes :=
  ranges.foldl (fun out range =>
    match slice data range with
    | none => out
    | some part =>
      out ++ delimiter boundary ++ partHead contentType (contentRange range data.length) ++ part)
    out ++ delimiter boundary ++ ascii "--" ++ crlf

/-! ### Where delimiters are found -/

variable {boundary : Bytes}

variable {front contentType : Bytes}

theorem cr_notMem_dashes (plain : cr ∉ boundary) : cr ∉ lf :: ascii "--" ++ boundary := by
  rw [List.mem_append, not_or]
  exact ⟨by decide, plain⟩

theorem cr_notMem_decimal (number : Nat) : cr ∉ decimal number := by
  intro member
  obtain ⟨digit, held, same⟩ := List.mem_map.mp member
  have small := lowDigits_lt (by decide) number digit (List.mem_reverse.mp held)
  have apart : ∀ digit < 10, UInt8.ofNat (48 + digit) ≠ cr := by decide
  exact apart digit small same

theorem cr_notMem_contentRange (range : Nat × Nat) (length : Nat) : cr ∉ contentRange range length := by
  unfold contentRange
  simp only [List.mem_append, not_or]
  exact ⟨⟨⟨⟨⟨by decide, cr_notMem_decimal _⟩, by decide⟩, cr_notMem_decimal _⟩, by decide⟩,
    cr_notMem_decimal _⟩

/-- A line end that something other than a hyphen follows. -/
theorem endsAt_crlf (ends : EndsAt (delimiter boundary) front)
    (other : ¬ ascii "--" ++ boundary <+: front ++ delimiter boundary) :
    EndsAt (delimiter boundary) (crlf ++ front) := by
  have lineFeed : EndsAt (delimiter boundary) (lf :: front) :=
    ends.cons fun begins => absurd (List.cons_prefix_cons.mp begins).1 (by decide)
  refine lineFeed.cons fun begins => other ?_
  exact (List.cons_prefix_cons.mp (List.cons_prefix_cons.mp begins).2).2

theorem not_prefix_of_head {letter : UInt8} (apart : letter ≠ hyphen) :
    ¬ ascii "--" ++ boundary <+: letter :: front := fun begins =>
  apart (List.cons_prefix_cons.mp begins).1.symm

/-- Behind the fields of a part and its bytes the next delimiter is the first. -/
theorem endsAt_part {range part : Bytes} (plain : cr ∉ boundary) (plainType : cr ∉ contentType)
    (plainRange : cr ∉ range) (absent : ¬ delimiter boundary <:+: part)
    (begins : ¬ ascii "--" ++ boundary <+: part) :
    EndsAt (delimiter boundary) (partHead contentType range ++ part) := by
  have dashes : cr ∉ ascii "--" ++ boundary := fun member =>
    cr_notMem_dashes plain (List.mem_cons_of_mem _ member)
  have bytes : EndsAt (delimiter boundary) part :=
    endsAt_of_absent (cr_notMem_dashes plain) absent
  have blank : EndsAt (delimiter boundary) (crlf ++ part) :=
    endsAt_crlf bytes fun starts => begins (prefix_of_mark dashes starts)
  have line : EndsAt (delimiter boundary) (crlf ++ (crlf ++ part)) :=
    endsAt_crlf blank (not_prefix_of_head (by decide))
  have ranged : EndsAt (delimiter boundary)
      ((ascii "Content-Range: " ++ range) ++ (crlf ++ (crlf ++ part))) := by
    refine line.plain ?_
    rw [List.mem_append, not_or]
    exact ⟨by decide, plainRange⟩
  have next : EndsAt (delimiter boundary)
      (crlf ++ ((ascii "Content-Range: " ++ range) ++ (crlf ++ (crlf ++ part)))) :=
    endsAt_crlf ranged (not_prefix_of_head (by decide))
  have typed : EndsAt (delimiter boundary) ((ascii "Content-Type: " ++ contentType) ++
      (crlf ++ ((ascii "Content-Range: " ++ range) ++ (crlf ++ (crlf ++ part))))) := by
    refine next.plain ?_
    rw [List.mem_append, not_or]
    exact ⟨by decide, plainType⟩
  have first := endsAt_crlf typed (not_prefix_of_head (by decide))
  unfold partHead
  simpa only [List.append_assoc] using first

theorem ending_absent : ¬ delimiter boundary <:+: ascii "--" ++ crlf := by
  intro inside
  have whole : ∀ text ∈ (ascii "--" ++ crlf).tails, text.take 4 ≠ crlf ++ ascii "--" := by decide
  obtain ⟨front, behind, same⟩ := inside
  refine whole (delimiter boundary ++ behind) ?_ rfl
  rw [List.mem_tails]
  exact ⟨front, (List.append_assoc _ _ _).symm.trans same⟩

/-! ### Parts are given back -/

variable {ranges : List (Nat × Nat)}

variable {data : Bytes}

/-- A range the data has. -/
def InData (data : Bytes) (range : Nat × Nat) : Prop := range.1 ≤ range.2 ∧ range.2 < data.length

theorem slice_inData {range : Nat × Nat} (inData : InData data range) :
    slice data range = some ((data.drop range.1).take (range.2 + 1 - range.1)) :=
  if_pos ⟨Nat.le_succ_of_le inData.1, inData.2⟩

/-- The piece of a range: its fields and its bytes. -/
def rangePart (data contentType : Bytes) (range : Nat × Nat) : Bytes :=
  partHead contentType (contentRange range data.length) ++ (slice data range).getD []

theorem writeMultipart_eq (inData : ∀ range ∈ ranges, InData data range) (out : Bytes) :
    writeMultipart out data ranges contentType boundary =
      out ++ (ranges.flatMap fun range => delimiter boundary ++ rangePart data contentType range) ++
        delimiter boundary ++ (ascii "--" ++ crlf) := by
  induction ranges generalizing out with
  | nil => simp only [writeMultipart, List.foldl_nil, List.flatMap_nil, List.append_nil,
      List.append_assoc]
  | cons range ranges inductionHypothesis =>
    have rest := inductionHypothesis fun range member => inData range (List.mem_cons_of_mem _ member)
    have here := slice_inData (inData range List.mem_cons_self)
    have step : writeMultipart out data (range :: ranges) contentType boundary =
        writeMultipart (out ++ (delimiter boundary ++ rangePart data contentType range)) data ranges
          contentType boundary := by
      unfold writeMultipart rangePart
      rw [List.foldl_cons, here]
      simp only [Option.getD_some, List.append_assoc]
    rw [step, rest, List.flatMap_cons]
    simp only [List.append_assoc]

/-- Split at the delimiter, the content is one part for each range, with nothing in front. -/
theorem pieces_multipart (inData : ∀ range ∈ ranges, InData data range) (plain : cr ∉ boundary)
    (plainType : cr ∉ contentType) (absent : ¬ delimiter boundary <:+: data)
    (begins : ∀ range ∈ ranges, ∀ part ∈ slice data range, ¬ ascii "--" ++ boundary <+: part) :
    pieces (delimiter boundary) (writeMultipart [] data ranges contentType boundary) =
      [] :: ranges.map (rangePart data contentType) ++ [ascii "--" ++ crlf] := by
  have some_ : delimiter boundary ≠ [] := List.cons_ne_nil _ _
  have parts : ∀ ranges : List (Nat × Nat),
      (∀ range ∈ ranges, EndsAt (delimiter boundary) (rangePart data contentType range)) →
      ∀ front, EndsAt (delimiter boundary) front →
      pieces (delimiter boundary) (front ++
          (ranges.flatMap fun range => delimiter boundary ++ rangePart data contentType range) ++
          delimiter boundary ++ (ascii "--" ++ crlf)) =
        front :: ranges.map (rangePart data contentType) ++ [ascii "--" ++ crlf] := by
    intro ranges
    induction ranges with
    | nil =>
      intro _ front ends
      rw [List.flatMap_nil, List.append_nil, pieces_append some_ ends, pieces_whole ending_absent]
      rfl
    | cons range ranges inductionHypothesis =>
      intro each front ends
      have rest := inductionHypothesis (fun range member => each range (List.mem_cons_of_mem _ member))
        _ (each range List.mem_cons_self)
      have shape : front ++ ((range :: ranges).flatMap fun range =>
            delimiter boundary ++ rangePart data contentType range) ++ delimiter boundary ++
            (ascii "--" ++ crlf) =
          front ++ delimiter boundary ++ (rangePart data contentType range ++
            (ranges.flatMap fun range => delimiter boundary ++ rangePart data contentType range) ++
            delimiter boundary ++ (ascii "--" ++ crlf)) := by
        simp only [List.flatMap_cons, List.append_assoc]
      rw [shape, pieces_append some_ ends, rest]
      rfl
  rw [writeMultipart_eq inData]
  refine parts ranges (fun range member => ?_) [] endsAt_nil
  have here := slice_inData (inData range member)
  unfold rangePart
  rw [here]
  refine endsAt_part plain plainType (cr_notMem_contentRange _ _) (fun inside => absent ?_)
    (begins range member _ here)
  exact inside.trans ((List.take_prefix _ _).isInfix.trans (List.drop_suffix _ _).isInfix)

/-! ### Byte ranges -/

/-- Ranges are resolved soundly: they are in order and apart, and cover what the members of the field
select; where none is satisfiable no member selects anything; nothing overflows. The parts of an
answer are given back, unless the data holds the delimiter or a part begins with the rest of it. -/
theorem ranges_sound (value : Bytes) (length : UInt64) :
    (∀ ranges, resolveRange value length = .satisfiable ranges →
      ranges ≠ [] ∧ ranges.length ≤ maxRanges ∧
        (∀ range ∈ ranges, range.1 ≤ range.2 ∧ range.2 < length.toNat) ∧
        (ranges.IsChain fun previous next => previous.2 + 1 < next.1) ∧
        (∃ specs, IsField value specs) ∧
        ∀ specs, IsField value specs → ∀ offset,
          Covers ranges offset ↔ ∃ read ∈ specs, read.Selects length.toNat offset) ∧
    (resolveRange value length = .unsatisfiable →
      0 < length.toNat ∧ (∃ specs, IsField value specs) ∧
        ∀ specs, IsField value specs → ∀ read ∈ specs, ∀ offset,
          ¬ read.Selects length.toNat offset) ∧
    resolveRange value length = resolveWith (· + ·) value length ∧
    (∀ text number, digits text = some number ↔ IsNumeral text number ∧ number ≤ u64Max) ∧
    ∀ (data contentType boundary : Bytes) (ranges : List (Nat × Nat)),
      (∀ range ∈ ranges, InData data range) → cr ∉ boundary → cr ∉ contentType →
      ¬ delimiter boundary <:+: data →
      (∀ range ∈ ranges, ∀ part ∈ slice data range, ¬ ascii "--" ++ boundary <+: part) →
      pieces (delimiter boundary) (writeMultipart [] data ranges contentType boundary) =
        [] :: ranges.map (rangePart data contentType) ++ [ascii "--" ++ crlf] := by
  refine ⟨fun ranges known => ?_, fun known => ?_, resolveRange_exact value length,
    fun text number => digits_eq_some, fun data contentType boundary ranges inData plain plainType
      absent begins => pieces_multipart inData plain plainType absent begins⟩
  · obtain ⟨specs, others, field, positive, few, separated, covered, same⟩ :=
      resolveRange_field known Ranges.noConfusion Ranges.noConfusion
    split at same
    · cases same
    rename_i some_
    cases same
    refine ⟨some_, few, separated.proper, separated.apart, ⟨specs, field⟩, fun other field' => ?_⟩
    rw [field'.unique field]
    exact covered
  · obtain ⟨specs, others, field, positive, few, separated, covered, same⟩ :=
      resolveRange_field known Ranges.noConfusion Ranges.noConfusion
    split at same
    · rename_i none_
      refine ⟨positive, ⟨specs, field⟩, fun other field' read member offset selects => ?_⟩
      rw [field'.unique field] at member
      rw [none_] at covered
      obtain ⟨_, inNone, _⟩ := (covered offset).mpr ⟨read, member, selects⟩
      cases inNone
    · cases same

theorem ranges_sound_two :
    (∀ specs, IsField (ascii "bytes=0-1,-1") specs → ∀ offset,
      Covers [(0, 1), (5, 5)] offset ↔ ∃ read ∈ specs, read.Selects 6 offset) ∧
    pieces (delimiter (ascii "b")) (writeMultipart [] (ascii "abcdef") [(0, 1), (5, 5)]
        (ascii "text/plain") (ascii "b")) =
      [] :: [(0, 1), (5, 5)].map (rangePart (ascii "abcdef") (ascii "text/plain")) ++
        [ascii "--" ++ crlf] := by
  have sound := ranges_sound (ascii "bytes=0-1,-1") 6
  refine ⟨(sound.1 [(0, 1), (5, 5)] (by decide)).2.2.2.2.2, ?_⟩
  refine sound.2.2.2.2 (ascii "abcdef") (ascii "text/plain") (ascii "b") [(0, 1), (5, 5)] ?_
    (by decide) (by decide) (by decide) ?_
  · intro range member
    rcases List.mem_cons.mp member with rfl | last
    · exact ⟨by decide, by decide⟩
    · rw [List.mem_singleton.mp last]
      exact ⟨by decide, by decide⟩
  · intro range member part held
    rcases List.mem_cons.mp member with rfl | last
    · cases held
      decide
    · rw [List.mem_singleton.mp last] at held
      cases held
      decide

/-- The file begins with two hyphens and its boundary, and a range is asked for that begins there:
the line end behind the fields of the part and the data make a delimiter. -/
theorem part_begins_with_boundary :
    ¬ ∀ (data contentType boundary : Bytes) (ranges : List (Nat × Nat)),
      (∀ range ∈ ranges, InData data range) → cr ∉ boundary → cr ∉ contentType →
      ¬ delimiter boundary <:+: data →
      pieces (delimiter boundary) (writeMultipart [] data ranges contentType boundary) =
        [] :: ranges.map (rangePart data contentType) ++ [ascii "--" ++ crlf] := by
  intro claimed
  have parts := claimed (ascii "--zero-1010abcde") (ascii "text/plain") (ascii "zero-1010")
    [(0, 10), (13, 15)] ?_ (by decide +kernel) (by decide +kernel) (by decide +kernel)
  · have count := congrArg List.length parts
    revert count
    decide +kernel
  · intro range member
    rcases List.mem_cons.mp member with rfl | last
    · exact ⟨by decide, by decide⟩
    · rw [List.mem_singleton.mp last]
      exact ⟨by decide, by decide⟩

end ZeroServer.Static

/-
This file proves that event streams round-trip: whatever chunks the bytes of events and comments
arrive in, the decoder dispatches one message for every event with data, as it was sent.
-/

import ZeroServer.Lib.Automaton
import ZeroServer.Sse.Decode

namespace ZeroServer.Sse

open Http1 Lib

/-! ### Lines of a payload -/

/-- The payload with every CRLF, CR and LF as LF. -/
def normalizeBreaks : List Char → List Char
  | [] => []
  | '\r' :: '\n' :: rest => '\n' :: normalizeBreaks rest
  | '\r' :: rest => '\n' :: normalizeBreaks rest
  | char :: rest => char :: normalizeBreaks rest

theorem normalizeBreaks_plain {line : List Char} (plain : ∀ char ∈ line, isBreak char = false)
    (rest : List Char) : normalizeBreaks (line ++ rest) = line ++ normalizeBreaks rest := by
  induction line with
  | nil => rfl
  | cons char line inductionHypothesis =>
    obtain ⟨apart, later⟩ := List.forall_mem_cons.mp plain
    have notCr : char ≠ '\r' := by
      rintro rfl
      cases apart
    rw [List.cons_append, normalizeBreaks, inductionHypothesis later, List.cons_append]
    · rintro _ rfl
      exact absurd rfl notCr
    · exact notCr

theorem normalizeBreaks_length (text : List Char) :
    (Utf8.encode (normalizeBreaks text)).length ≤ (Utf8.encode text).length := by
  fun_induction normalizeBreaks text with
  | case1 => exact Nat.le_refl _
  | case2 rest inductionHypothesis =>
    rw [Utf8.encode_cons, Utf8.encode_cons, Utf8.encode_cons, List.length_append,
      List.length_append, List.length_append]
    omega
  | case3 rest _ inductionHypothesis =>
    rw [Utf8.encode_cons, Utf8.encode_cons, List.length_append, List.length_append]
    exact Nat.add_le_add (by decide) inductionHypothesis
  | case4 char rest _ _ inductionHypothesis =>
    rw [Utf8.encode_cons, Utf8.encode_cons, List.length_append, List.length_append]
    exact Nat.add_le_add_left inductionHypothesis _

theorem lines_eq (text : List Char) :
    lines text =
      match text.findIdx? isBreak with
      | none => [text]
      | some at_ =>
        text.take at_ ::
          lines (text.drop (at_ + if (text.drop at_).take 2 = ['\r', '\n'] then 2 else 1)) := by
  rw [lines]
  split <;> rename_i found <;> rw [found]

/-- The end of a line: CRLF, LF, or CR without an LF behind it. -/
theorem break_cases {rest : List Char} {char : Char} (break_ : isBreak char = true) :
    ∃ behind, (char :: rest).drop
        (if (char :: rest).take 2 = ['\r', '\n'] then 2 else 1) = behind ∧
      behind.length ≤ rest.length ∧
      normalizeBreaks (char :: rest) = '\n' :: normalizeBreaks behind := by
  by_cases both : (char :: rest).take 2 = ['\r', '\n']
  · rw [if_pos both]
    cases rest with
    | nil => cases both
    | cons next rest =>
      rw [List.take_succ_cons, List.take_succ_cons, List.take_zero] at both
      obtain ⟨rfl, tail⟩ := List.cons.inj both
      obtain ⟨rfl, -⟩ := List.cons.inj tail
      exact ⟨rest, rfl, Nat.le_succ _, rfl⟩
  · rw [if_neg both]
    refine ⟨rest, rfl, Nat.le_refl _, ?_⟩
    have either : char = '\r' ∨ char = '\n' := of_decide_eq_true break_
    rcases either with rfl | rfl
    · cases rest with
      | nil => rfl
      | cons next rest =>
        have apart : next ≠ '\n' := by
          rintro rfl
          exact both rfl
        rw [normalizeBreaks]
        exact fun _ same => apart (List.cons.inj same).1
    · rfl

/-- The lines are plain, and joined by LF they are the payload with its breaks replaced. -/
theorem lines_spec (text : List Char) :
    lines text ≠ [] ∧ (∀ line ∈ lines text, ∀ char ∈ line, isBreak char = false) ∧
      (lines text).flatMap (fun line => Utf8.encode line ++ [lf]) =
        Utf8.encode (normalizeBreaks text) ++ [lf] := by
  induction size : text.length using Nat.strongRecOn generalizing text with
  | ind size inductionHypothesis =>
    rw [lines_eq]
    rcases found : text.findIdx? isBreak with _ | at_
    · have plain : ∀ char ∈ text, isBreak char = false := List.findIdx?_eq_none_iff.mp found
      have same := normalizeBreaks_plain plain []
      rw [List.append_nil] at same
      refine ⟨List.cons_ne_nil _ _, ?_, ?_⟩
      · intro line member
        rw [List.mem_singleton.mp member]
        exact plain
      · rw [List.flatMap_singleton, same]
        exact congrArg (fun text => Utf8.encode text ++ [lf]) (List.append_nil text).symm
    · obtain ⟨inside, broken, before⟩ := List.findIdx?_eq_some_iff_getElem.mp found
      have ended : text.drop at_ = text[at_] :: text.drop (at_ + 1) :=
        List.drop_eq_getElem_cons inside
      have split : text = text.take at_ ++ text[at_] :: text.drop (at_ + 1) := by
        rw [← ended, List.take_append_drop]
      have plain : ∀ char ∈ text.take at_, isBreak char = false := by
        intro char member
        obtain ⟨place, short, rfl⟩ := List.mem_iff_getElem.mp member
        rw [List.length_take] at short
        rw [List.getElem_take]
        exact Bool.not_eq_true _ ▸ before place (by omega)
      obtain ⟨behind, dropped, shorter, normal⟩ :=
        @break_cases (text.drop (at_ + 1)) _ broken
      dsimp only
      rw [← List.drop_drop, ended, dropped]
      rw [List.length_drop] at shorter
      obtain ⟨-, laterPlain, laterSame⟩ := inductionHypothesis behind.length (by omega) behind rfl
      refine ⟨List.cons_ne_nil _ _, List.forall_mem_cons.mpr ⟨plain, laterPlain⟩, ?_⟩
      conv_rhs => rw [split, normalizeBreaks_plain plain, normal]
      rw [List.flatMap_cons, laterSame, Utf8.encode_append, Utf8.encode_cons, List.append_assoc,
        List.append_assoc, List.append_assoc]
      rfl

/-! ### Byte by byte -/

variable {decoder : Decoder} {out : List Message} {state : Decoder × List Message} {line : Bytes}
  {written : List Bytes}

variable {bytes value : Bytes}

namespace Decoder

theorem lines_eq (decoder : Decoder) (rest : Bytes) (out : List Message) :
    decoder.lines rest out =
      if rest = [] then ((decoder, out), .ok ())
      else if decoder.afterCr ∧ rest.head? = some lf then
        ({ decoder with afterCr := false } : Decoder).lines rest.tail out
      else
        match findCrOrLf rest with
        | none =>
          let (next, result) := ({ decoder with afterCr := false } : Decoder).extendLine rest
          ((next, out), result)
        | some at_ =>
          match ({ decoder with afterCr := false } : Decoder).extendLine (rest.take at_) with
          | (next, .error refused) => ((next, out), .error refused)
          | (next, .ok ()) =>
            let ending := rest.drop at_
            let next := { next with afterCr := ending.head? = some cr }
            match ({ next with line := [] } : Decoder).process next.line out with
            | ((after, sent), .error refused) => (({ after with line := [] }, sent), .error refused)
            | ((after, sent), .ok ()) => ({ after with line := [] } : Decoder).lines ending.tail sent := by
  rw [lines]
  by_cases empty : rest = []
  · rw [dif_pos empty, if_pos empty]
  · rw [dif_neg empty, if_neg empty]
    split
    · rfl
    · dsimp only
      split <;> rename_i found <;> rw [found] <;> rfl

/-- What a byte does, as long as nothing fails. -/
def byteStep (state : Decoder × List Message) (byte : UInt8) : Option (Decoder × List Message) :=
  let (decoder, out) := state
  if decoder.afterCr ∧ byte = lf then some ({ decoder with afterCr := false }, out)
  else if byte = cr ∨ byte = lf then
    match ({ decoder with afterCr := byte = cr, line := [] } : Decoder).process decoder.line out with
    | (_, .error _) => none
    | ((after, sent), .ok ()) => some ({ after with line := [] }, sent)
  else if decoder.maxEvent < decoder.line.length + 1 then none
  else some ({ decoder with afterCr := false, line := decoder.line ++ [byte] }, out)

/-- Processing a line keeps what is about lines. -/
theorem process_frame (decoder : Decoder) (line : Bytes) (out : List Message) :
    (decoder.process line out).1.1.maxEvent = decoder.maxEvent ∧
      (decoder.process line out).1.1.afterCr = decoder.afterCr ∧
      (decoder.process line out).1.1.line = decoder.line ∧
      (decoder.process line out).1.1.bomDone = decoder.bomDone ∧
      (decoder.process line out).1.1.head = decoder.head := by
  unfold process
  split
  · unfold dispatch
    dsimp only
    split <;> exact ⟨rfl, rfl, rfl, rfl, rfl⟩
  · split
    · exact ⟨rfl, rfl, rfl, rfl, rfl⟩
    · dsimp only
      split
      · exact ⟨rfl, rfl, rfl, rfl, rfl⟩
      · split
        · split <;> exact ⟨rfl, rfl, rfl, rfl, rfl⟩
        · split
          · exact ⟨rfl, rfl, rfl, rfl, rfl⟩
          · split <;> exact ⟨rfl, rfl, rfl, rfl, rfl⟩

theorem findCrOrLf_cons (byte : UInt8) (rest : Bytes) :
    findCrOrLf (byte :: rest) =
      if byte = cr ∨ byte = lf then some 0 else (findCrOrLf rest).map (· + 1) := by
  unfold findCrOrLf
  rw [List.findIdx?_cons]
  by_cases ending : byte = cr ∨ byte = lf
  · rw [if_pos ending, if_pos (decide_eq_true ending)]
  · rw [if_neg ending, if_neg (by simpa using ending)]

theorem extendLine_ok {decoder : Decoder} {part : Bytes}
    (room : decoder.line.length + part.length ≤ decoder.maxEvent) :
    decoder.extendLine part = ({ decoder with line := decoder.line ++ part }, .ok ()) :=
  if_neg (Nat.not_lt_of_le room)

theorem extendLine_cons {decoder next : Decoder} {byte : UInt8} {part : Bytes}
    (extended : ({ decoder with line := decoder.line ++ [byte] } : Decoder).extendLine part =
      (next, .ok ())) : decoder.extendLine (byte :: part) = (next, .ok ()) := by
  unfold extendLine at extended
  split at extended
  · cases extended
  · rename_i fits
    cases extended
    rw [List.length_append, List.length_singleton, Nat.add_right_comm, Nat.add_assoc] at fits
    rw [extendLine_ok (Nat.le_of_not_lt fits), List.append_assoc]
    rfl

/-- A byte inside a line joins it, as long as what follows does not fail. -/
theorem lines_plain {byte : UInt8} {rest : Bytes} (plain : ¬ (byte = cr ∨ byte = lf))
    (room : decoder.line.length + 1 ≤ decoder.maxEvent)
    (later : ({ decoder with afterCr := false, line := decoder.line ++ [byte] } : Decoder).lines rest
      out = (state, .ok ())) : decoder.lines (byte :: rest) out = (state, .ok ()) := by
  have notLf : ¬ (decoder.afterCr = true ∧ (byte :: rest).head? = some lf) :=
    fun both => plain (.inr (Option.some.inj both.2))
  rw [lines_eq, if_neg (List.cons_ne_nil _ _), if_neg notLf, findCrOrLf_cons, if_neg plain]
  by_cases empty : rest = []
  · subst empty
    rw [lines_eq, if_pos rfl] at later
    cases later
    have extended := @extendLine_ok { decoder with afterCr := false } [byte] room
    change (let (next, result) :=
      ({ decoder with afterCr := false } : Decoder).extendLine [byte]
      ((next, out), result)) = _
    rw [extended]
  · rw [lines_eq, if_neg empty, if_neg (fun both => nomatch both.1)] at later
    have joined : ∀ part next,
        ({ decoder with afterCr := false, line := decoder.line ++ [byte] } : Decoder).extendLine
          part = (next, .ok ()) →
        ({ decoder with afterCr := false } : Decoder).extendLine (byte :: part) =
          (next, .ok ()) := fun part next =>
      @extendLine_cons { decoder with afterCr := false } next byte part
    rcases found : findCrOrLf rest with _ | at_
    · rw [found] at later
      dsimp only [Option.map_none] at later ⊢
      rcases extended : ({ decoder with afterCr := false, line := decoder.line ++ [byte] } :
        Decoder).extendLine rest with ⟨next, refused | _⟩
      · rw [extended] at later
        cases later
      · rw [extended] at later
        rw [joined _ _ extended]
        exact later
    · rw [found] at later
      dsimp only [Option.map_some] at later ⊢
      rw [List.take_succ_cons, List.drop_succ_cons]
      rcases extended : ({ decoder with afterCr := false, line := decoder.line ++ [byte] } :
        Decoder).extendLine (rest.take at_) with ⟨next, refused | _⟩
      · rw [extended] at later
        cases later
      · rw [extended] at later
        rw [joined _ _ extended]
        exact later

/-- As long as nothing fails, a chunk is its bytes one after the other. -/
theorem lines_follow (short : decoder.line.length ≤ decoder.maxEvent)
    (followed : follow byteStep (decoder, out) bytes = some state) :
    decoder.lines bytes out = (state, .ok ()) := by
  induction bytes generalizing decoder out with
  | nil =>
    cases followed
    rw [lines_eq, if_pos rfl]
  | cons byte rest inductionHypothesis =>
    rcases taken : byteStep (decoder, out) byte with _ | ⟨next, sent⟩
    · rw [follow_cons_none taken] at followed
      cases followed
    rw [follow_cons taken] at followed
    unfold byteStep at taken
    dsimp only at taken
    by_cases swallowed : decoder.afterCr = true ∧ byte = lf
    · rw [if_pos swallowed] at taken
      cases taken
      rw [lines_eq, if_neg (List.cons_ne_nil _ _), if_pos ⟨swallowed.1, congrArg some swallowed.2⟩]
      exact inductionHypothesis short followed
    · rw [if_neg swallowed] at taken
      by_cases ending : byte = cr ∨ byte = lf
      · rw [if_pos ending] at taken
        have notLf : ¬ (decoder.afterCr = true ∧ (byte :: rest).head? = some lf) :=
          fun both => swallowed ⟨both.1, Option.some.inj both.2⟩
        have extended : ({ decoder with afterCr := false } : Decoder).extendLine [] =
            ({ decoder with afterCr := false }, .ok ()) := by
          unfold extendLine
          rw [List.length_nil, Nat.add_zero, if_neg (Nat.not_lt_of_le short), List.append_nil]
        rw [lines_eq, if_neg (List.cons_ne_nil _ _), if_neg notLf, findCrOrLf_cons, if_pos ending]
        dsimp only
        rw [List.take_zero, extended, List.drop_zero]
        dsimp only
        have ended : decide ((byte :: rest).head? = some cr) = decide (byte = cr) :=
          decide_eq_decide.mpr Option.some_inj
        rw [ended, List.tail_cons]
        have frame := process_frame
          { decoder with afterCr := decide (byte = cr), line := [] } decoder.line out
        revert taken frame
        rcases ({ decoder with afterCr := decide (byte = cr), line := [] } : Decoder).process
          decoder.line out with ⟨⟨after, sent'⟩, refused | _⟩
        · intro taken
          cases taken
        · intro taken frame
          cases taken
          exact inductionHypothesis (Nat.zero_le _) followed
      · rw [if_neg ending] at taken
        obtain ⟨room, same⟩ := Option.ite_none_left_eq_some.mp taken
        cases same
        refine lines_plain ending (Nat.le_of_not_lt room) (inductionHypothesis ?_ followed)
        rw [List.length_append]
        exact Nat.le_of_not_lt room

/-! ### Line by line -/

/-- Between two lines. -/
structure Between (decoder : Decoder) : Prop where
  afterCr : decoder.afterCr = false
  line : decoder.line = []

/-- No byte that ends a line. -/
def Plain (line : Bytes) : Prop := ∀ byte ∈ line, ¬ (byte = cr ∨ byte = lf)

instance (line : Bytes) : Decidable (Plain line) :=
  inferInstanceAs (Decidable (∀ byte ∈ line, ¬ (byte = cr ∨ byte = lf)))

/-- Process lines one after the other, as long as nothing fails. -/
def runLines (state : Decoder × List Message) : List Bytes → Option (Decoder × List Message)
  | [] => some state
  | line :: rest =>
    match state.1.process line state.2 with
    | (_, .error _) => none
    | (next, .ok ()) => runLines next rest

theorem process_between (between : decoder.Between) (line : Bytes) (out : List Message) :
    (decoder.process line out).1.1.Between := by
  obtain ⟨-, afterCr, same, -⟩ := process_frame decoder line out
  exact ⟨afterCr.trans between.afterCr, same.trans between.line⟩

theorem follow_plain (still : decoder.afterCr = false) (plain : Plain bytes)
    (room : decoder.line.length + bytes.length ≤ decoder.maxEvent) (rest : Bytes) :
    follow byteStep (decoder, out) (bytes ++ rest) =
      follow byteStep ({ decoder with line := decoder.line ++ bytes }, out) rest := by
  induction bytes generalizing decoder with
  | nil =>
    rw [List.append_nil]
    rfl
  | cons byte bytes inductionHypothesis =>
    obtain ⟨apart, later⟩ := List.forall_mem_cons.mp plain
    rw [List.length_cons] at room
    have taken : byteStep (decoder, out) byte =
        some ({ decoder with line := decoder.line ++ [byte] }, out) := by
      unfold byteStep
      dsimp only
      rw [if_neg (fun both => apart (.inr both.2)), if_neg apart, if_neg (by omega)]
      rw [still]
    have grown := @inductionHypothesis { decoder with line := decoder.line ++ [byte] } still later
      (by
        dsimp only
        rw [List.length_append, List.length_singleton]
        omega)
    rw [List.cons_append, follow_cons taken, grown]
    dsimp only
    rw [List.append_assoc, List.singleton_append]

theorem follow_line (between : decoder.Between) (plain : Plain line)
    (short : line.length ≤ decoder.maxEvent) (rest : Bytes) :
    follow byteStep (decoder, out) (line ++ lf :: rest) =
      match decoder.process line out with
      | (_, .error _) => none
      | (next, .ok ()) => follow byteStep next rest := by
  obtain ⟨maxEvent, head, bomDone, afterCr, open_, data, eventType, idBuffer, lastId, retry⟩ := decoder
  obtain rfl : afterCr = false := between.afterCr
  obtain rfl : open_ = [] := between.line
  rw [follow_plain rfl plain (by simpa using short)]
  have frame := process_between between line out
  rw [follow]
  unfold byteStep
  dsimp only
  rw [if_neg (fun both => Bool.false_ne_true both.1), if_pos (.inr rfl), List.nil_append]
  revert frame
  rw [show decide (lf = cr) = false from rfl]
  rcases Decoder.process _ line out with ⟨⟨after, sent⟩, refused | _⟩
  · exact fun _ => rfl
  · intro frame
    have same : ({ after with line := [] } : Decoder) = after := by
      have line := frame.line
      dsimp only at line
      rw [← line]
    dsimp only
    rw [same]

/-- Lines are processed one after the other. -/
theorem follow_lines (between : decoder.Between) (plain : ∀ line ∈ written, Plain line)
    (short : ∀ line ∈ written, line.length ≤ decoder.maxEvent)
    (ran : runLines (decoder, out) written = some state) (rest : Bytes) :
    follow byteStep (decoder, out) (written.flatMap (· ++ [lf]) ++ rest) =
      follow byteStep state rest := by
  induction written generalizing decoder out with
  | nil =>
    cases ran
    rfl
  | cons line written inductionHypothesis =>
    obtain ⟨plainLine, plainRest⟩ := List.forall_mem_cons.mp plain
    obtain ⟨shortLine, shortRest⟩ := List.forall_mem_cons.mp short
    rw [List.flatMap_cons, List.append_assoc, List.append_assoc, List.singleton_append,
      follow_line between plainLine shortLine]
    rw [runLines] at ran
    dsimp only at ran
    have kept := process_between between line out
    have limit := (process_frame decoder line out).1
    revert ran kept limit
    rcases decoder.process line out with ⟨⟨next, sent⟩, refused | _⟩
    · intro ran
      cases ran
    · intro ran kept limit
      refine inductionHypothesis kept plainRest (fun other member => ?_) ran
      rw [limit]
      exact shortRest other member

/-! ### Fields -/

/-- A field line. -/
def writtenField (name value : Bytes) : Bytes := name ++ ([colon, sp] ++ value)

theorem nameValue_writtenField {name : Bytes} (plain : colon ∉ name) (value : Bytes) :
    nameValue (writtenField name value) = (name, value) := by
  have absent : name.findIdx? (fun byte => byte = colon) = none := by
    rw [List.findIdx?_eq_none_iff]
    intro byte member
    refine decide_eq_false fun same => plain ?_
    exact same ▸ member
  have found : (writtenField name value).findIdx? (fun byte => byte = colon) = some name.length := by
    unfold writtenField
    rw [List.findIdx?_append, absent]
    change (some 0).map (· + name.length) = _
    rw [Option.map_some, Nat.zero_add]
  unfold nameValue
  rw [found]
  dsimp only
  have behind : (writtenField name value).drop (name.length + 1) = sp :: value := by
    unfold writtenField
    rw [← List.drop_drop, List.drop_left]
    rfl
  rw [behind]
  unfold writtenField
  rw [List.take_left]
  rfl

theorem process_writtenField (decoder : Decoder) {name : Bytes} (some_ : name ≠ [])
    (plain : colon ∉ name) (value : Bytes) (out : List Message) :
    decoder.process (writtenField name value) out =
      if name = ascii "event" then (({ decoder with eventType := value }, out), .ok ())
      else if name = ascii "data" then
        if decoder.maxEvent < decoder.data.length + value.length + 1 then
          ((decoder, out), .error (.limit ("an event's data passed " ++ toString decoder.maxEvent ++
            " bytes")))
        else (({ decoder with data := decoder.data ++ value ++ [lf] }, out), .ok ())
      else if name = ascii "id" ∧ 0 ∉ value then
        (({ decoder with lastIdBuffer := value }, out), .ok ())
      else if name = ascii "retry" ∧ value ≠ [] ∧ value.all fun byte => 48 ≤ byte ∧ byte ≤ 57 then
        (({ decoder with retry := some (parseDigits value) }, out), .ok ())
      else ((decoder, out), .ok ()) := by
  have nonempty : writtenField name value ≠ [] := fun empty =>
    some_ (List.append_eq_nil_iff.mp empty).1
  have first : ¬ (writtenField name value).head? = some colon := by
    cases name with
    | nil => exact absurd rfl some_
    | cons byte name => exact fun same => plain (Option.some.inj same ▸ List.mem_cons_self)
  rw [process, if_neg nonempty, if_neg first, nameValue_writtenField plain]

theorem process_event (decoder : Decoder) (value : Bytes) (out : List Message) :
    decoder.process (writtenField (ascii "event") value) out =
      (({ decoder with eventType := value }, out), .ok ()) := by
  rw [process_writtenField decoder (by decide) (by decide), if_pos rfl]

theorem process_id (decoder : Decoder) (nul : 0 ∉ value) (out : List Message) :
    decoder.process (writtenField (ascii "id") value) out =
      (({ decoder with lastIdBuffer := value }, out), .ok ()) := by
  rw [process_writtenField decoder (by decide) (by decide), if_neg (by decide), if_neg (by decide),
    if_pos ⟨rfl, nul⟩]

theorem process_data {decoder : Decoder} {value : Bytes}
    (room : decoder.data.length + value.length + 1 ≤ decoder.maxEvent) (out : List Message) :
    decoder.process (writtenField (ascii "data") value) out =
      (({ decoder with data := decoder.data ++ value ++ [lf] }, out), .ok ()) := by
  rw [process_writtenField decoder (by decide) (by decide), if_neg (by decide), if_pos rfl,
    if_neg (Nat.not_lt_of_le room)]

theorem process_retry (decoder : Decoder) (some_ : value ≠ [])
    (digits : (value.all fun byte => 48 ≤ byte ∧ byte ≤ 57) = true) (out : List Message) :
    decoder.process (writtenField (ascii "retry") value) out =
      (({ decoder with retry := some (parseDigits value) }, out), .ok ()) := by
  rw [process_writtenField decoder (by decide) (by decide), if_neg (by decide), if_neg (by decide),
    if_neg (fun both => nomatch both.1), if_pos ⟨rfl, some_, digits⟩]

theorem process_comment (decoder : Decoder) (text : Bytes) (out : List Message) :
    decoder.process (colon :: text) out = ((decoder, out), .ok ()) := by
  rw [process, if_neg (List.cons_ne_nil _ _),
    if_pos (show (colon :: text).head? = some colon from rfl)]

end Decoder

/-! ### Numbers and text -/

theorem decimalFrom_spec {start value : Nat} (small : value < 10 ^ start) (positive : 0 < start)
    (digits : Bytes) :
    ∃ own, decimalFrom start value digits = own ++ digits ∧ own ≠ [] ∧
      (∀ byte ∈ own, 48 ≤ byte ∧ byte ≤ 57) ∧
      ∀ total, own.foldl (fun total digit => total * 10 + (digit.toNat - 48)) total =
        total * 10 ^ own.length + value := by
  induction start generalizing value digits with
  | zero => exact absurd positive (Nat.lt_irrefl 0)
  | succ start inductionHypothesis =>
    have digit : (UInt8.ofNat (48 + value % 10)).toNat = 48 + value % 10 :=
      UInt8.toNat_ofNat_of_lt' (by rw [UInt8.size]; omega)
    have range : 48 ≤ UInt8.ofNat (48 + value % 10) ∧ UInt8.ofNat (48 + value % 10) ≤ 57 := by
      rw [UInt8.le_iff_toNat_le, UInt8.le_iff_toNat_le, digit]
      simp only [UInt8.reduceToNat]
      omega
    rw [decimalFrom]
    by_cases last : value / 10 = 0
    · rw [if_pos last]
      refine ⟨[UInt8.ofNat (48 + value % 10)], rfl, List.cons_ne_nil _ _, ?_, fun total => ?_⟩
      · intro byte member
        rw [List.mem_singleton.mp member]
        exact range
      · rw [List.foldl_cons, List.foldl_nil, digit, List.length_singleton]
        omega
    · rw [if_neg last]
      have smaller : value / 10 < 10 ^ start := by
        rw [Nat.pow_succ] at small
        exact Nat.div_lt_of_lt_mul (Nat.mul_comm _ _ ▸ small)
      have more : 0 < start := Nat.pos_of_ne_zero fun none_ => by
        rw [none_, Nat.pow_zero] at smaller
        omega
      obtain ⟨own, same, -, ranges, value_⟩ :=
        inductionHypothesis smaller more (UInt8.ofNat (48 + value % 10) :: digits)
      refine ⟨own ++ [UInt8.ofNat (48 + value % 10)], ?_, by simp, ?_, fun total => ?_⟩
      · rw [same, List.append_assoc]
        rfl
      · intro byte member
        rcases List.mem_append.mp member with inside | single
        · exact ranges byte inside
        · rw [List.mem_singleton.mp single]
          exact range
      · rw [List.foldl_append, value_, List.foldl_cons, List.foldl_nil, digit, List.length_append,
          List.length_singleton, Nat.pow_succ, ← Nat.mul_assoc, Nat.add_mul, Nat.add_assoc]
        omega

/-- Reading digits stops at the largest number, and is exact up to it. -/
theorem parseDigits_eq (digits : Bytes) :
    Decoder.parseDigits digits =
      min (digits.foldl (fun total digit => total * 10 + (digit.toNat - 48)) 0) (2 ^ 64 - 1) := by
  have all : ∀ total, digits.foldl (fun total digit =>
      min (min (total * 10) (2 ^ 64 - 1) + (digit.toNat - 48)) (2 ^ 64 - 1))
        (min total (2 ^ 64 - 1)) =
      min (digits.foldl (fun total digit => total * 10 + (digit.toNat - 48)) total)
        (2 ^ 64 - 1) := by
    induction digits with
    | nil => exact fun _ => rfl
    | cons digit digits inductionHypothesis =>
      intro total
      rw [List.foldl_cons, List.foldl_cons, ← inductionHypothesis]
      congr 1
      omega
  exact all 0

/-- A number is read back. -/
theorem decimal_spec (value : UInt64) :
    decimal value ≠ [] ∧ (∀ byte ∈ decimal value, 48 ≤ byte ∧ byte ≤ 57) ∧
      Decoder.parseDigits (decimal value) = value.toNat := by
  have bound : value.toNat < 2 ^ 64 := value.toNat_lt
  obtain ⟨own, same, some_, ranges, total⟩ :=
    @decimalFrom_spec 20 value.toNat
      (Nat.lt_trans bound (by decide)) (by decide) []
  have written : decimal value = own := same.trans (List.append_nil own)
  rw [written]
  refine ⟨some_, ranges, ?_⟩
  rw [parseDigits_eq, total, Nat.zero_mul, Nat.zero_add]
  exact Nat.min_eq_left (by omega)

/-- Text is read back. -/
theorem fromUtf8Lossy_encode (text : List Char) : fromUtf8Lossy (Utf8.encode text) = text := by
  have valid : Simd.validateUtf8 (Utf8.encode text) = .ok () := by
    rcases Simd.validateUtf8_spec (Utf8.encode text) with ⟨ok, -⟩ | ⟨error, -, broken⟩
    · exact ok
    · exact absurd (Utf8.text_iff.mpr ⟨text, rfl⟩) broken.not_text
  rw [fromUtf8Lossy]
  split <;> rename_i verdict
  · rw [Utf8.decode_encoded]
    rfl
  · rw [valid] at verdict
    cases verdict
  · rw [valid] at verdict
    cases verdict

/-- Text without breaks is written without them. -/
theorem plain_encode {text : List Char} (plain : ∀ char ∈ text, isBreak char = false) :
    Decoder.Plain (Utf8.encode text) := by
  rintro byte member (rfl | rfl)
  · have inside := (@Utf8.mem_encode_ascii _ cr (by decide)).mp member
    exact absurd (plain _ inside) (by decide)
  · have inside := (@Utf8.mem_encode_ascii _ lf (by decide)).mp member
    exact absurd (plain _ inside) (by decide)

/-! ### What is written -/

variable {event : Event}

/-- What stands on a stream. -/
inductive Item where
  | event (event : Event)
  | comment (text : List Char)
  deriving DecidableEq

/-- Write one after the other, until one is refused. -/
def writeAll : List Item → Bytes → Except Error Unit × Bytes
  | [], out => (.ok (), out)
  | .event event :: rest, out =>
    match encode event out with
    | (.error refused, left) => (.error refused, left)
    | (.ok (), left) => writeAll rest left
  | .comment text :: rest, out => writeAll rest (comment text out)

open Decoder (writtenField)

/-- The lines of an event's data. -/
def Event.dataLines (event : Event) : List Bytes :=
  match event.data with
  | none => []
  | some data => (Sse.lines data).map fun line => writtenField (ascii "data") (Utf8.encode line)

/-- The lines of an event, the blank one last. -/
def Event.lines (event : Event) : List Bytes :=
  ((event.event.map Utf8.encode).map (writtenField (ascii "event"))).toList ++
    (((event.id.map Utf8.encode).map (writtenField (ascii "id"))).toList ++
      (((event.retry.map decimal).map (writtenField (ascii "retry"))).toList ++
        (event.dataLines ++ [[]])))

def Item.lines : Item → List Bytes
  | .event sent => sent.lines
  | .comment text => (Sse.lines text).map fun line => colon :: Utf8.encode line

theorem check_ok {field : String} {value : List Char} {nulAllowed : Bool} :
    check field value nulAllowed = .ok () ↔ Decoder.Plain (Utf8.encode value) ∧
      (nulAllowed = false → 0 ∉ Utf8.encode value) := by
  unfold check Decoder.Plain
  constructor
  · intro accepted
    split at accepted
    · cases accepted
    · rename_i none_
      simp only [List.any_eq_true, decide_eq_true_eq, not_exists, not_and, not_or] at none_
      refine ⟨fun byte member => ?_, fun strict member => ?_⟩
      · rw [not_or]
        exact ⟨(none_ byte member).1, (none_ byte member).2.1⟩
      · exact (none_ 0 member).2.2 (by simp [strict]) rfl
  · rintro ⟨plain, nul⟩
    refine if_neg ?_
    simp only [List.any_eq_true, decide_eq_true_eq, not_exists, not_and, not_or]
    intro byte member
    obtain ⟨notCr, notLf⟩ := not_or.mp (plain byte member)
    refine ⟨notCr, notLf, fun strict zero => ?_⟩
    exact nul (by simpa using strict) (zero ▸ member)

theorem checkEvent_ok :
    checkEvent event = .ok () ↔
      (∀ name, event.event = some name → Decoder.Plain (Utf8.encode name)) ∧
      ∀ id, event.id = some id → Decoder.Plain (Utf8.encode id) ∧ 0 ∉ Utf8.encode id := by
  have named : ∀ name, check "event" name true = .ok () ↔ Decoder.Plain (Utf8.encode name) := by
    intro name
    rw [check_ok]
    exact and_iff_left nofun
  have ided : ∀ id, check "id" id false = .ok () ↔
      Decoder.Plain (Utf8.encode id) ∧ 0 ∉ Utf8.encode id := by
    intro id
    rw [check_ok]
    exact and_congr_right fun _ => ⟨fun nul => nul rfl, fun nul _ => nul⟩
  simp only [← ided]
  simp only [← named]
  unfold checkEvent
  rcases event.event with _ | name
  · rcases event.id with _ | id
    · simp
    · rcases checked : check "id" id false with _ | _ <;> simp [checked]
  · rcases checkedName : check "event" name true with _ | _
    · simp [checkedName]
    · rcases event.id with _ | id
      · simp [checkedName]
      · rcases checked : check "id" id false with _ | _ <;> simp [checked, checkedName]

theorem fieldIf_eq (out name : Bytes) (value : Option Bytes) :
    fieldIf out name value =
      out ++ (value.map (writtenField name)).toList.flatMap (· ++ [lf]) := by
  cases value with
  | none => exact (List.append_nil out).symm
  | some value =>
    unfold fieldIf field writtenField
    simp [List.append_assoc]

theorem foldl_lines (out : Bytes) (texts : List (List Char)) (line : List Char → Bytes) :
    texts.foldl (fun out text => out ++ line text ++ [lf]) out =
      out ++ (texts.map line).flatMap (· ++ [lf]) := by
  induction texts generalizing out with
  | nil => exact (List.append_nil out).symm
  | cons text texts inductionHypothesis =>
    rw [List.foldl_cons, inductionHypothesis, List.map_cons, List.flatMap_cons, List.append_assoc,
      List.append_assoc, List.append_assoc]

theorem dataIf_eq (out : Bytes) (event : Event) :
    dataIf out event.data = out ++ event.dataLines.flatMap (· ++ [lf]) := by
  unfold dataIf Event.dataLines
  rcases event.data with _ | data
  · exact (List.append_nil out).symm
  · have joined : ∀ (out : Bytes) (line : List Char), field out (ascii "data") (Utf8.encode line) =
          out ++ writtenField (ascii "data") (Utf8.encode line) ++ [lf] := by
      intro out line
      unfold field writtenField
      simp only [List.append_assoc]
    simp only [joined]
    exact foldl_lines out (lines data) fun line => writtenField (ascii "data") (Utf8.encode line)

/-- An event that is accepted is written as its lines. -/
theorem encode_ok (accepted : checkEvent event = .ok ()) (out : Bytes) :
    encode event out = (.ok (), out ++ event.lines.flatMap (· ++ [lf])) := by
  unfold encode Event.lines
  rw [accepted]
  dsimp only
  rw [dataIf_eq, fieldIf_eq, fieldIf_eq, fieldIf_eq]
  simp only [List.flatMap_append, List.flatMap_singleton, List.nil_append, List.append_assoc]

theorem encode_refused {refused : Error} (checked : checkEvent event = .error refused)
    (out : Bytes) : encode event out = (.error refused, out) := by
  unfold encode
  rw [checked]

theorem comment_eq (text : List Char) (out : Bytes) :
    comment text out = out ++ (Item.comment text).lines.flatMap (· ++ [lf]) := by
  have same := foldl_lines out (lines text) fun line => colon :: Utf8.encode line
  unfold comment Item.lines
  rw [← same]
  simp only [List.append_assoc, List.singleton_append]

/-- What is accepted is written as its lines. -/
theorem writeAll_ok {items : List Item} {out : Bytes}
    (written : writeAll items out = (.ok (), bytes)) :
    bytes = out ++ (items.flatMap Item.lines).flatMap (· ++ [lf]) ∧
      ∀ event, Item.event event ∈ items → checkEvent event = .ok () := by
  induction items generalizing out with
  | nil =>
    cases written
    exact ⟨(List.append_nil _).symm, nofun⟩
  | cons item items inductionHypothesis =>
    rw [List.flatMap_cons, List.flatMap_append]
    cases item with
    | event event =>
      rcases checked : checkEvent event with refused | _
      · rw [writeAll, encode_refused checked] at written
        cases written
      · rw [writeAll, encode_ok checked] at written
        obtain ⟨same, accepted⟩ := inductionHypothesis written
        refine ⟨?_, fun other member => ?_⟩
        · rw [same, List.append_assoc]
          rfl
        · rcases List.mem_cons.mp member with first | later
          · cases first
            exact checked
          · exact accepted other later
    | comment text =>
      rw [writeAll, comment_eq] at written
      obtain ⟨same, accepted⟩ := inductionHypothesis written
      refine ⟨?_, fun other member => ?_⟩
      · rw [same, List.append_assoc]
      · exact accepted other ((List.mem_cons.mp member).resolve_left nofun)

/-! ### What is dispatched -/

/-- The last id so far. -/
def Event.lastId (event : Event) (before : List Char) : List Char := event.id.getD before

/-- The type a client sees. -/
def Event.name (event : Event) : List Char :=
  match event.event with
  | none | some [] => "message".toList
  | some name => name

/-- The message of an event, behind an id. -/
def Event.message (event : Event) (before : List Char) : Option Message :=
  event.data.map fun data => ⟨event.name, normalizeBreaks data, event.lastId before⟩

/-- The events among what stands on a stream. -/
def events (items : List Item) : List Event :=
  items.filterMap fun
    | .event event => some event
    | .comment _ => none

/-- The messages of events, behind an id. -/
def messages (before : List Char) : List Event → List Message
  | [] => []
  | event :: rest => (event.message before).toList ++ messages (event.lastId before) rest

/-- Nothing of an event is held. -/
structure Decoder.Idle (decoder : Decoder) (id : List Char) (retry : Option UInt64) : Prop
    extends Decoder.Between decoder where
  data : decoder.data = []
  eventType : decoder.eventType = []
  lastIdBuffer : decoder.lastIdBuffer = Utf8.encode id
  retry : decoder.retry = retry.map UInt64.toNat

variable {next : Decoder × List Message}

variable {maxEvent : Nat}

namespace Decoder

theorem runLines_append (state : Decoder × List Message) (first second : List Bytes) :
    runLines state (first ++ second) =
      (runLines state first).bind fun next => runLines next second := by
  induction first generalizing state with
  | nil => rfl
  | cons line first inductionHypothesis =>
    rw [List.cons_append, runLines, runLines]
    rcases state.1.process line state.2 with ⟨next, refused | _⟩
    · rfl
    · exact inductionHypothesis next

theorem runLines_cons {rest : List Bytes}
    (processed : state.1.process line state.2 = (next, .ok ())) :
    runLines state (line :: rest) = runLines next rest := by
  rw [runLines, processed]

/-- The lines of data fill the buffer. -/
theorem runLines_data {decoder : Decoder} {out : List Message} (values : List Bytes)
    (room : decoder.data.length + (values.flatMap (· ++ [lf])).length ≤ decoder.maxEvent) :
    runLines (decoder, out) (values.map (writtenField (ascii "data"))) =
      some ({ decoder with data := decoder.data ++ values.flatMap (· ++ [lf]) }, out) := by
  induction values generalizing decoder with
  | nil =>
    rw [List.flatMap_nil, List.append_nil]
    rfl
  | cons value values inductionHypothesis =>
    rw [List.flatMap_cons, List.length_append, List.length_append, List.length_singleton] at room
    have processed := @process_data decoder value (by omega) out
    have later := @inductionHypothesis { decoder with data := decoder.data ++ value ++ [lf] } (by
      dsimp only
      rw [List.length_append, List.length_append, List.length_singleton]
      omega)
    rw [List.map_cons, runLines_cons processed, later]
    dsimp only
    rw [List.flatMap_cons, List.append_assoc, List.append_assoc, List.append_assoc]

/-- A field that may be missing sets what it names. -/
theorem runLines_field {next : Decoder} {name : Bytes} {value : Option Bytes}
    (set : ∀ given, value = some given →
      decoder.process (writtenField name given) out = ((next, out), .ok ()))
    (kept : value = none → next = decoder) (rest : List Bytes) :
    runLines (decoder, out) ((value.map (writtenField name)).toList ++ rest) =
      runLines (next, out) rest := by
  cases value with
  | none =>
    rw [kept rfl]
    rfl
  | some given => exact runLines_cons (set given rfl)

/-- The blank line dispatches what is held. -/
theorem process_blank {decoder : Decoder} {out : List Message} {event : Event} {id : List Char}
    (data : decoder.data = (event.data.map fun data =>
      Utf8.encode (normalizeBreaks data) ++ [lf]).getD [])
    (eventType : decoder.eventType = (event.event.map Utf8.encode).getD [])
    (lastIdBuffer : decoder.lastIdBuffer = Utf8.encode (event.lastId id)) :
    decoder.process [] out =
      (({ decoder with lastId := event.lastId id, data := [], eventType := [] },
        out ++ (event.message id).toList), .ok ()) := by
  rw [process, if_pos rfl]
  unfold dispatch Event.message
  rw [lastIdBuffer, fromUtf8Lossy_encode, data, eventType]
  dsimp only
  have named : (if (event.event.map Utf8.encode).getD [] = [] then "message".toList
      else fromUtf8Lossy ((event.event.map Utf8.encode).getD [])) = event.name := by
    unfold Event.name
    rcases event.event with _ | _ | ⟨char, name⟩
    · rfl
    · rfl
    · have some_ : Utf8.encode (char :: name) ≠ [] := by
        rw [Utf8.encode_cons]
        exact List.append_ne_nil_of_left_ne_nil (Utf8.utf8EncodeChar_some char) _
      rw [Option.map_some, Option.getD_some, if_neg some_, fromUtf8Lossy_encode]
  rw [named]
  rcases event.data with _ | text
  · rw [Option.map_none, Option.getD_none, if_pos rfl, Option.map_none, Option.toList_none,
      List.append_nil]
  · rw [Option.map_some, Option.getD_some, if_neg (by simp), List.getLast?_concat, if_pos rfl,
      List.dropLast_concat, fromUtf8Lossy_encode]
    rfl

/-- The lines of the data, in its buffer. -/
theorem dataLines_room
    (room : ∀ data, event.data = some data → (Utf8.encode data).length + 1 ≤ maxEvent) :
    ∃ values : List Bytes, event.dataLines = values.map (writtenField (ascii "data")) ∧
      values.flatMap (· ++ [lf]) = (event.data.map fun data =>
        Utf8.encode (normalizeBreaks data) ++ [lf]).getD [] ∧
      (values.flatMap (· ++ [lf])).length ≤ maxEvent := by
  unfold Event.dataLines
  rcases given : event.data with _ | data
  · exact ⟨[], rfl, rfl, Nat.zero_le _⟩
  · have joined : ((Sse.lines data).map Utf8.encode).flatMap (· ++ [lf]) =
        Utf8.encode (normalizeBreaks data) ++ [lf] := by
      rw [List.flatMap_map]
      exact (lines_spec data).2.2
    have written : (Sse.lines data).map (fun line => writtenField (ascii "data") (Utf8.encode line)) =
        ((Sse.lines data).map Utf8.encode).map (writtenField (ascii "data")) := by
      rw [List.map_map]
      rfl
    refine ⟨(Sse.lines data).map Utf8.encode, written, joined, ?_⟩
    rw [joined, List.length_append, List.length_singleton]
    exact Nat.le_trans (Nat.succ_le_succ (normalizeBreaks_length data)) (room data given)

/-- An event is dispatched by its lines. -/
theorem runLines_event {id : List Char} {retry : Option UInt64} (idle : decoder.Idle id retry)
    (accepted : checkEvent event = .ok ())
    (room : ∀ data, event.data = some data → (Utf8.encode data).length + 1 ≤ decoder.maxEvent)
    (out : List Message) (rest : List Bytes) :
    ∃ next : Decoder, next.Idle (event.lastId id) (event.retry.or retry) ∧
      next.maxEvent = decoder.maxEvent ∧
      runLines (decoder, out) (event.lines ++ rest) =
        runLines (next, out ++ (event.message id).toList) rest := by
  obtain ⟨values, written, filled, fits⟩ := dataLines_room room
  obtain ⟨-, nul⟩ := checkEvent_ok.mp accepted
  let typed : Decoder := { decoder with eventType := (event.event.map Utf8.encode).getD [] }
  let named : Decoder := { typed with lastIdBuffer := Utf8.encode (event.lastId id) }
  let timed : Decoder := { named with retry := (event.retry.or retry).map UInt64.toNat }
  let filling : Decoder := { timed with data := values.flatMap (· ++ [lf]) }
  have blank := @process_blank filling out event id filled rfl rfl
  refine ⟨{ filling with lastId := event.lastId id, data := [], eventType := [] },
    ⟨⟨idle.afterCr, idle.line⟩, rfl, rfl, rfl, rfl⟩, rfl, ?_⟩
  have first (rest : List Bytes) : runLines (decoder, out)
      (((event.event.map Utf8.encode).map (writtenField (ascii "event"))).toList ++ rest) =
        runLines (typed, out) rest := by
    refine runLines_field (fun given same => ?_) (fun missing => ?_) rest
    · rw [process_event]
      simp only [typed, same, Option.getD_some]
    · simp only [typed, missing, Option.getD_none]
      rw [← idle.eventType]
  have second (rest : List Bytes) : runLines (typed, out)
      (((event.id.map Utf8.encode).map (writtenField (ascii "id"))).toList ++ rest) =
        runLines (named, out) rest := by
    have lastId : Utf8.encode (event.lastId id) =
        (event.id.map Utf8.encode).getD decoder.lastIdBuffer := by
      rw [idle.lastIdBuffer]
      exact (Option.getD_map ..).symm
    refine runLines_field (fun given same => ?_) (fun missing => ?_) rest
    · have clean : 0 ∉ given := by
        obtain ⟨id, present, rfl⟩ := Option.map_eq_some_iff.mp same
        exact (nul id present).2
      rw [process_id typed clean]
      simp only [named, lastId, same, Option.getD_some]
    · simp only [named, lastId, missing, Option.getD_none]
      rfl
  have third (rest : List Bytes) : runLines (named, out)
      (((event.retry.map decimal).map (writtenField (ascii "retry"))).toList ++ rest) =
        runLines (timed, out) rest := by
    refine runLines_field (fun given same => ?_) (fun missing => ?_) rest
    · obtain ⟨number, present, rfl⟩ := Option.map_eq_some_iff.mp same
      obtain ⟨some_, digits, exact_⟩ := decimal_spec number
      rw [process_retry named some_ (List.all_eq_true.mpr fun byte member =>
        decide_eq_true (digits byte member)), exact_]
      simp only [timed, present, Option.some_or, Option.map_some]
    · simp only [timed, Option.map_eq_none_iff.mp missing, Option.none_or]
      rw [← idle.retry]
  have fourth := @runLines_data timed out values (by
    rw [show timed.data = [] from idle.data, List.length_nil, Nat.zero_add]
    exact fits)
  have filled_ : { timed with data := timed.data ++ values.flatMap (· ++ [lf]) } = filling := by
    rw [show timed.data = [] from idle.data, List.nil_append]
  unfold Event.lines
  rw [List.append_assoc, first, List.append_assoc, second, List.append_assoc, third,
    List.append_assoc, written, runLines_append, fourth, filled_, Option.bind_some,
    List.singleton_append, runLines_cons blank]

/-! ### Whole streams -/

theorem runLines_comment (text : List Char) (rest : List Bytes) :
    runLines (decoder, out) ((Item.comment text).lines ++ rest) =
      runLines (decoder, out) rest := by
  change runLines (decoder, out)
    ((Sse.lines text).map (fun line => colon :: Utf8.encode line) ++ rest) = _
  induction Sse.lines text with
  | nil => rfl
  | cons line lines inductionHypothesis =>
    rw [List.map_cons, List.cons_append,
      runLines_cons (process_comment decoder (Utf8.encode line) out)]
    exact inductionHypothesis

/-- What stands on a stream is dispatched by its lines. -/
theorem runLines_items {items : List Item} {decoder : Decoder} {id : List Char}
    {retry : Option UInt64} {out : List Message} (idle : decoder.Idle id retry)
    (accepted : ∀ event, Item.event event ∈ items → checkEvent event = .ok ())
    (room : ∀ event ∈ events items, ∀ data, event.data = some data →
      (Utf8.encode data).length + 1 ≤ decoder.maxEvent) :
    ∃ next : Decoder, runLines (decoder, out) (items.flatMap Item.lines) =
        some (next, out ++ messages id (events items)) ∧
      next.retry =
        (((events items).filterMap Event.retry).getLast?.or retry).map UInt64.toNat := by
  induction items generalizing decoder id retry out with
  | nil =>
    refine ⟨decoder, ?_, idle.retry⟩
    exact congrArg (fun sent => some (decoder, sent)) (List.append_nil out).symm
  | cons item items inductionHypothesis =>
    rw [List.flatMap_cons]
    cases item with
    | comment text =>
      rw [runLines_comment]
      exact inductionHypothesis idle
        (fun event member => accepted event (List.mem_cons_of_mem _ member)) room
    | event event =>
      obtain ⟨next, nextIdle, limit, ran⟩ :=
        runLines_event idle (accepted event List.mem_cons_self) (room event List.mem_cons_self) out
          (items.flatMap Item.lines)
      obtain ⟨last, ranRest, lastRetry⟩ := @inductionHypothesis next _ _
        (out ++ (event.message id).toList) nextIdle
        (fun event member => accepted event (List.mem_cons_of_mem _ member))
        (fun event member => by
          rw [limit]
          exact room event (List.mem_cons_of_mem _ member))
      refine ⟨last, ?_, ?_⟩
      · change runLines (decoder, out) (event.lines ++ items.flatMap Item.lines) = _
        rw [ran, ranRest, List.append_assoc]
        rfl
      · rw [lastRetry]
        change _ = (((event :: events items).filterMap Event.retry).getLast?.or retry).map _
        rcases given : event.retry with _ | number
        · rw [List.filterMap_cons_none given, Option.none_or]
        · rw [List.filterMap_cons_some given, List.getLast?_cons, Option.some_or]
          rcases ((events items).filterMap Event.retry).getLast? with _ | _ <;> rfl

end Decoder

/-- The names of the fields an event is written in. -/
def fieldNames : List Bytes := [ascii "event", ascii "id", ascii "retry", ascii "data"]

theorem fieldNames_plain :
    ∀ name ∈ fieldNames, Decoder.Plain name ∧ name ≠ [] ∧ name.head? ≠ some 0xEF := by
  decide +kernel

theorem writtenField_cases {name : Bytes} (among : name ∈ fieldNames)
    (plain : Decoder.Plain value) :
    Decoder.Plain (writtenField name value) ∧ (writtenField name value).head? ≠ some 0xEF := by
  obtain ⟨plainName, some_, first⟩ := fieldNames_plain name among
  refine ⟨fun byte inside => ?_, ?_⟩
  · rcases List.mem_append.mp inside with early | late
    · exact plainName byte early
    · rcases List.mem_append.mp late with middle | last
      · rcases List.mem_cons.mp middle with rfl | middle
        · decide
        · rw [List.mem_singleton.mp middle]
          decide
      · exact plain byte last
  · unfold writtenField
    rw [List.head?_append_of_ne_nil _ some_]
    exact first

/-- How a written line begins and that it does not end early. -/
theorem line_cases {item : Item}
    (accepted : ∀ event, item = .event event → checkEvent event = .ok ())
    (member : line ∈ item.lines) : Decoder.Plain line ∧ line.head? ≠ some 0xEF := by
  cases item with
  | comment text =>
    obtain ⟨piece, inside, rfl⟩ := List.mem_map.mp member
    refine ⟨List.forall_mem_cons.mpr ⟨by decide, ?_⟩, fun same => ?_⟩
    · exact plain_encode ((lines_spec text).2.1 piece inside)
    · cases Option.some.inj same
  | event event =>
    obtain ⟨named, ided⟩ := checkEvent_ok.mp (accepted event rfl)
    have optional : ∀ {name : Bytes} {value : Option Bytes}, name ∈ fieldNames →
        (∀ given, value = some given → Decoder.Plain given) →
        line ∈ (value.map (writtenField name)).toList →
        Decoder.Plain line ∧ line.head? ≠ some 0xEF := by
      intro name value among plain inside
      obtain ⟨given, present, rfl⟩ := Option.map_eq_some_iff.mp (Option.mem_toList.mp inside)
      exact writtenField_cases among (plain given present)
    rcases List.mem_append.mp member with inside | member
    · refine optional List.mem_cons_self (fun given present => ?_) inside
      obtain ⟨name, same, rfl⟩ := Option.map_eq_some_iff.mp present
      exact named name same
    rcases List.mem_append.mp member with inside | member
    · refine optional (.tail _ List.mem_cons_self) (fun given present => ?_) inside
      obtain ⟨id, same, rfl⟩ := Option.map_eq_some_iff.mp present
      exact (ided id same).1
    rcases List.mem_append.mp member with inside | member
    · refine optional (.tail _ (.tail _ List.mem_cons_self)) (fun given present => ?_) inside
      obtain ⟨number, same, rfl⟩ := Option.map_eq_some_iff.mp present
      rintro byte digit (rfl | rfl)
      · exact absurd ((decimal_spec number).2.1 _ digit) (by decide)
      · exact absurd ((decimal_spec number).2.1 _ digit) (by decide)
    rcases List.mem_append.mp member with inside | blank
    · unfold Event.dataLines at inside
      generalize event.data = data at inside
      rcases data with _ | data
      · cases inside
      · obtain ⟨piece, among, rfl⟩ := List.mem_map.mp inside
        exact writtenField_cases (.tail _ (.tail _ (.tail _ List.mem_cons_self)))
          (plain_encode ((lines_spec data).2.1 piece among))
    · rw [List.mem_singleton.mp blank]
      exact ⟨nofun, nofun⟩

/-- The lines behind each other are the lines the bytes split into. -/
theorem mem_splitOn (plain : ∀ line ∈ written, Decoder.Plain line) (member : line ∈ written) :
    line ∈ (written.flatMap (· ++ [lf])).splitOn lf := by
  induction written with
  | nil => cases member
  | cons first written inductionHypothesis =>
    obtain ⟨plainFirst, plainRest⟩ := List.forall_mem_cons.mp plain
    have absent : ∀ byte ∈ first, (byte == lf) = false := by
      intro byte inside
      exact beq_false_of_ne fun same => plainFirst byte inside (.inr same)
    rw [List.flatMap_cons, List.append_assoc, List.singleton_append, List.splitOn_eq_splitOnP,
      List.splitOnP_append_cons_of_forall_mem absent lf rfl, ← List.splitOn_eq_splitOnP]
    rcases List.mem_cons.mp member with rfl | later
    · exact List.mem_cons_self
    · exact List.mem_cons_of_mem _ (inductionHypothesis plainRest later)

theorem head_lines (first : ∀ line ∈ written, line.head? ≠ some 0xEF) :
    (written.flatMap (· ++ [lf])).head? ≠ some 0xEF := by
  cases written with
  | nil => exact nofun
  | cons line written =>
    rw [List.flatMap_cons, List.append_assoc]
    cases line with
    | nil => exact nofun
    | cons byte line => exact first (byte :: line) List.mem_cons_self

namespace Decoder

/-! ### Chunks -/

variable {chunks : List Bytes}

/-- What every byte keeps. -/
theorem byteStep_keeps {byte : UInt8} (taken : byteStep state byte = some next)
    (kept : state.1.bomDone = true ∧ state.1.line.length ≤ state.1.maxEvent) :
    next.1.bomDone = true ∧ next.1.line.length ≤ next.1.maxEvent := by
  unfold byteStep at taken
  dsimp only at taken
  split at taken
  · cases taken
    exact kept
  · split at taken
    · have frame := process_frame
        { state.1 with afterCr := decide (byte = cr), line := [] } state.1.line state.2
      revert taken frame
      rcases Decoder.process _ state.1.line state.2 with ⟨⟨after, sent⟩, refused | _⟩
      · intro taken
        cases taken
      · intro taken frame
        cases taken
        exact ⟨frame.2.2.2.1.trans kept.1, Nat.zero_le _⟩
    · obtain ⟨room, same⟩ := Option.ite_none_left_eq_some.mp taken
      cases same
      refine ⟨kept.1, ?_⟩
      rw [List.length_append]
      exact Nat.le_of_not_lt room

/-- Behind the probe, chunks are their bytes one after the other. -/
theorem feedAll_follow (done : decoder.bomDone = true)
    (short : decoder.line.length ≤ decoder.maxEvent)
    (followed : follow byteStep (decoder, out) chunks.flatten = some state) :
    decoder.feedAll out chunks = (state, .ok ()) := by
  induction chunks generalizing decoder out with
  | nil =>
    cases followed
    rfl
  | cons chunk chunks inductionHypothesis =>
    rw [List.flatten_cons, follow_append] at followed
    obtain ⟨⟨next, sent⟩, first, later⟩ := Option.bind_eq_some_iff.mp followed
    have kept := @follow_keeps _ _ byteStep (fun state : Decoder × List Message =>
      state.1.bomDone = true ∧ state.1.line.length ≤ state.1.maxEvent) _
      (fun _ _ _ lives _ taken => byteStep_keeps taken lives) _ _ ⟨done, short⟩ first
    have fed : decoder.feed chunk out = ((next, sent), .ok ()) := by
      unfold feed
      rw [if_pos done]
      exact lines_follow short first
    rw [feedAll, fed]
    exact inductionHypothesis kept.1 kept.2 later

/-- A stream that does not begin like the mark is its bytes one after the other. -/
theorem feedAll_new (unmarked : chunks.flatten.head? ≠ some 0xEF)
    (followed : follow byteStep ({ new maxEvent with bomDone := true }, []) chunks.flatten =
      some state) :
    ∃ decoder, (new maxEvent).feedAll [] chunks = ((decoder, state.2), .ok ()) ∧
      decoder.retry = state.1.retry := by
  induction chunks with
  | nil =>
    cases followed
    exact ⟨new maxEvent, rfl, rfl⟩
  | cons chunk chunks inductionHypothesis =>
    cases chunk with
    | nil => exact inductionHypothesis unmarked followed
    | cons byte chunk =>
      have apart : byte ≠ 0xEF := fun same => unmarked (congrArg some same)
      obtain ⟨front, back, taken, split⟩ : ∃ front back,
          (byte :: chunk).take (min (bom.length - 0) (byte :: chunk).length) = byte :: front ∧
          (byte :: chunk).drop (min (bom.length - 0) (byte :: chunk).length) = back := by
        rw [List.length_cons, show bom.length - 0 = 2 + 1 from rfl, Nat.succ_min_succ,
          List.take_succ_cons]
        exact ⟨_, _, rfl, rfl⟩
      have whole : byte :: chunk = (byte :: front) ++ back := by
        rw [← taken, ← split, List.take_append_drop]
      rw [List.flatten_cons, whole, List.append_assoc, follow_append] at followed
      obtain ⟨⟨next, sent⟩, first, later⟩ := Option.bind_eq_some_iff.mp followed
      rw [follow_append] at later
      obtain ⟨⟨after, more⟩, second, rest⟩ := Option.bind_eq_some_iff.mp later
      have kept := fun word state after => @follow_keeps _ _ byteStep
        (fun state : Decoder × List Message =>
          state.1.bomDone = true ∧ state.1.line.length ≤ state.1.maxEvent) word
        (fun _ _ _ lives _ taken => byteStep_keeps taken lives) state after
      have keptFirst := kept _ _ _ ⟨rfl, Nat.zero_le _⟩ first
      have keptSecond := kept _ _ _ keptFirst second
      have notPart : ((byte :: front).isPrefixOf bom) = false := by
        rw [bom, List.isPrefixOf_cons_cons, beq_false_of_ne apart, Bool.false_and]
      have notMark : byte :: front ≠ bom := fun same => apart (List.cons.inj same).1
      have fed : (new maxEvent).feed (byte :: chunk) [] = ((after, more), .ok ()) := by
        unfold feed
        rw [if_neg (show ¬ (new maxEvent).bomDone = true from nofun)]
        dsimp only
        rw [show (new maxEvent).head = [] from rfl, List.length_nil, List.nil_append, taken, split,
          if_neg (fun both => nomatch notPart ▸ both.2), if_neg notMark]
        have early := lines_follow (Nat.zero_le _) first
        rw [show ({ new maxEvent with bomDone := true, head := [] } : Decoder) =
          { new maxEvent with bomDone := true } from rfl, early]
        exact lines_follow keptFirst.2 second
      rw [feedAll, fed]
      exact ⟨state.1, feedAll_follow keptSecond.1 keptSecond.2 rest, rfl⟩

end Decoder

/-! ### Round trips -/

/-- What is written on an event stream is read back, whatever chunks it arrives in: a message for
every event with data, in order, each with its name, its data with its breaks replaced and the last
id given so far, and the last retry time that was given. -/
theorem streams_round_trip {items : List Item} {chunks : List Bytes} {maxEvent : Nat}
    (written : writeAll items [] = (.ok (), chunks.flatten))
    (lineRoom : ∀ line ∈ chunks.flatten.splitOn lf, line.length ≤ maxEvent)
    (dataRoom : ∀ event ∈ events items, ∀ data, event.data = some data →
      (Utf8.encode data).length + 1 ≤ maxEvent) :
    ∃ decoder : Decoder,
      (Decoder.new maxEvent).feedAll [] chunks = ((decoder, messages [] (events items)), .ok ()) ∧
        decoder.retry = ((events items).filterMap Event.retry).getLast?.map UInt64.toNat := by
  obtain ⟨same, accepted⟩ := writeAll_ok written
  rw [List.nil_append] at same
  have cases_ : ∀ line ∈ items.flatMap Item.lines, Decoder.Plain line ∧ line.head? ≠ some 0xEF := by
    intro line member
    obtain ⟨item, inside, member⟩ := List.mem_flatMap.mp member
    exact line_cases (fun event is => accepted event (is ▸ inside)) member
  have plain := fun line member => (cases_ line member).1
  have unmarked : chunks.flatten.head? ≠ some 0xEF := by
    rw [same]
    exact head_lines fun line member => (cases_ line member).2
  have short : ∀ line ∈ items.flatMap Item.lines, line.length ≤ maxEvent := by
    intro line member
    refine lineRoom line ?_
    rw [same]
    exact mem_splitOn plain member
  let start : Decoder := { Decoder.new maxEvent with bomDone := true }
  obtain ⟨next, ran, retry⟩ := @Decoder.runLines_items items start [] none []
    ⟨⟨rfl, rfl⟩, rfl, rfl, rfl, rfl⟩ accepted dataRoom
  have followed := Decoder.follow_lines ⟨rfl, rfl⟩ plain short ran []
  rw [List.append_nil, ← same] at followed
  obtain ⟨decoder, fed, kept⟩ := Decoder.feedAll_new unmarked followed
  refine ⟨decoder, fed, ?_⟩
  rw [kept, retry, Option.or_none]

/-- A comment and an event without a name, cut behind the first field of the event. -/
theorem streams_round_trip_two :
    ∃ decoder : Decoder,
      (Decoder.new 64).feedAll [] [ascii ": hi" ++ [lf] ++ ascii "id: 7", [lf] ++
        ascii "retry: 90" ++ [lf] ++ ascii "data:  x" ++ [lf, lf]] =
          ((decoder, [⟨"message".toList, " x".toList, "7".toList⟩]), .ok ()) ∧
        decoder.retry = some 90 := by
  have hi : lines " hi".toList = [" hi".toList] := by
    rw [lines_eq]
    rfl
  have x : lines " x".toList = [" x".toList] := by
    rw [lines_eq]
    rfl
  exact @streams_round_trip [.comment " hi".toList,
      .event { id := some "7".toList, retry := some 90, data := some " x".toList }]
    [ascii ": hi" ++ [lf] ++ ascii "id: 7", [lf] ++
        ascii "retry: 90" ++ [lf] ++ ascii "data:  x" ++ [lf, lf]] 64
    (by
      rw [writeAll, comment, hi, writeAll, encode]
      dsimp only [dataIf]
      rw [x]
      decide)
    (by decide) (by decide)

end ZeroServer.Sse

/-
This file proves that the decoder interprets an event stream as the standard says, line by line over
text, up to the first line that passes its limit; reconnection times are held at the largest one
there is.
-/

import Mathlib.Data.List.TakeWhile
import ZeroServer.Sse.Chunks

namespace ZeroServer.Sse

open Http1 Lib

/-! ### The standard -/

/-- What an event stream made of its source: the buffers of the event being read, and what was set
and dispatched. -/
structure Source where
  data : List Char := []
  eventType : List Char := []
  lastIdBuffer : List Char := []
  lastId : List Char := []
  retry : Option Nat := none
  messages : List Message := []
  deriving DecidableEq

namespace Source

/-- Dispatch the event. -/
def dispatch (source : Source) : Source :=
  let source := { source with lastId := source.lastIdBuffer }
  if source.data = [] then { source with data := [], eventType := [] }
  else
    let data := if source.data.getLast? = some '\n' then source.data.dropLast else source.data
    let event := if source.eventType = [] then "message".toList else source.eventType
    { source with
      data := []
      eventType := []
      messages := source.messages ++ [⟨event, data, source.lastId⟩] }

/-- The integer of a text of ASCII digits, if it is one. -/
def digits (value : List Char) : Option Nat :=
  if value ≠ [] ∧ value.all Char.isDigit then
    some (value.foldl (fun total digit => total * 10 + (digit.toNat - 48)) 0)
  else none

/-- Process a field. -/
def field (source : Source) (name value : List Char) : Source :=
  if name = "event".toList then { source with eventType := value }
  else if name = "data".toList then { source with data := source.data ++ value ++ ['\n'] }
  else if name = "id".toList then
    if '\x00' ∈ value then source else { source with lastIdBuffer := value }
  else if name = "retry".toList then { source with retry := (digits value).or source.retry }
  else source

/-- What stands behind the first colon, without one leading space. -/
def valueOf (line : List Char) : List Char :=
  let value := (line.dropWhile (· ≠ ':')).tail
  if value.head? = some ' ' then value.tail else value

/-- Process a line. -/
def line (source : Source) (line : List Char) : Source :=
  if line = [] then source.dispatch
  else if line.head? = some ':' then source
  else source.field (line.takeWhile (· ≠ ':')) (valueOf line)

/-- Interpret a stream of lines. -/
def interpret (lines : List (List Char)) : Source := lines.foldl line {}

end Source

/-! ### Fields -/

theorem takeWhile_split {bytes rest : List Char} (plain : ':' ∉ bytes) :
    (bytes ++ ':' :: rest).takeWhile (· ≠ ':') = bytes := by
  have all : ∀ char ∈ bytes, decide (char ≠ ':') = true := fun char member =>
    decide_eq_true fun same => plain (same ▸ member)
  rw [List.takeWhile_append_of_pos all, List.takeWhile_cons_of_neg (by decide), List.append_nil]

theorem dropWhile_split {bytes rest : List Char} (plain : ':' ∉ bytes) :
    (bytes ++ ':' :: rest).dropWhile (· ≠ ':') = ':' :: rest := by
  have all : ∀ char ∈ bytes, decide (char ≠ ':') = true := fun char member =>
    decide_eq_true fun same => plain (same ▸ member)
  rw [List.dropWhile_append_of_pos all, List.dropWhile_cons_of_neg (by decide)]

/-- The name and the value of the text of a line are the texts of its name and its value. -/
theorem nameValue_text (line : Bytes) :
    (fromUtf8Lossy line).takeWhile (· ≠ ':') = fromUtf8Lossy (Decoder.nameValue line).1 ∧
      Source.valueOf (fromUtf8Lossy line) = fromUtf8Lossy (Decoder.nameValue line).2 := by
  have colonChar : charOf colon = ':' := rfl
  have spaceChar : charOf sp = ' ' := rfl
  by_cases named : colon ∈ line
  · obtain ⟨name, value, rfl, plain⟩ := List.eq_append_cons_of_mem named
    have plainText : ':' ∉ fromUtf8Lossy name := fun member =>
      plain ((mem_fromUtf8Lossy (by decide) name).mp member)
    have found : (name ++ colon :: value).findIdx? (fun byte => byte = colon) =
        some name.length := by
      rw [List.findIdx?_append, List.findIdx?_eq_none_iff.mpr, Option.none_or, List.findIdx?_cons,
        decide_eq_true rfl]
      · exact congrArg some (Nat.zero_add _)
      · exact fun byte member => decide_eq_false fun same => plain (same ▸ member)
    have split : Decoder.nameValue (name ++ colon :: value) =
        (name, if value.head? = some sp then value.tail else value) := by
      unfold Decoder.nameValue
      rw [found]
      dsimp only
      rw [List.take_left, ← List.drop_drop, List.drop_left]
      rfl
    rw [split, fromUtf8Lossy_split (by decide), colonChar, takeWhile_split plainText,
      Source.valueOf, dropWhile_split plainText, List.tail_cons]
    refine ⟨rfl, ?_⟩
    dsimp only
    have spaced := head?_fromUtf8Lossy (show sp < 0x80 by decide) value
    rw [spaceChar] at spaced
    by_cases space : value.head? = some sp
    · obtain ⟨rest, rfl⟩ := List.head?_eq_some_iff.mp space
      rw [if_pos (spaced.mpr space), if_pos space, fromUtf8Lossy_cons (by decide)]
      rfl
    · rw [if_neg (mt spaced.mp space), if_neg space]
  · have unnamed : ':' ∉ fromUtf8Lossy line := fun member =>
      named ((mem_fromUtf8Lossy (by decide) line).mp member)
    have all : ∀ char ∈ fromUtf8Lossy line, decide (char ≠ ':') = true := fun char member =>
      decide_eq_true fun same => unnamed (same ▸ member)
    have missing : line.findIdx? (fun byte => byte = colon) = none :=
      List.findIdx?_eq_none_iff.mpr fun byte member => decide_eq_false fun same =>
        named (same ▸ member)
    have whole : Decoder.nameValue line = (line, []) := by
      unfold Decoder.nameValue
      rw [missing]
    have nothing : (fromUtf8Lossy line).dropWhile (· ≠ ':') = [] :=
      List.dropWhile_eq_nil_iff.mpr all
    rw [whole, List.takeWhile_eq_self_iff.mpr all, Source.valueOf, nothing, fromUtf8Lossy_nil]
    exact ⟨rfl, rfl⟩

/-- An ASCII text is the text of bytes when they are its own. -/
theorem name_text {name : String}
    (plain : name.toList.all (fun char => decide (char.toNat < 0x80)) = true) (bytes : Bytes) :
    fromUtf8Lossy bytes = name.toList ↔ bytes = ascii name := by
  have ascii_ : ∀ char ∈ name.toList, char.toNat < 0x80 := fun char member =>
    of_decide_eq_true (List.all_eq_true.mp plain char member)
  have unmarked : '\uFFFD' ∉ name.toList := fun member => by
    have small := ascii_ _ member
    have mark : ('\uFFFD').toNat = 0xFFFD := rfl
    omega
  have same : Utf8.encode name.toList = ascii name := by
    unfold ascii
    clear plain unmarked
    generalize name.toList = chars at ascii_
    induction chars with
    | nil => rfl
    | cons char chars inductionHypothesis =>
      obtain ⟨one, later⟩ := List.forall_mem_cons.mp ascii_
      rw [Utf8.encode_cons, Utf8.utf8EncodeChar_ascii (Nat.le_of_lt_succ one),
        inductionHypothesis later]
      rfl
  rw [fromUtf8Lossy_eq_iff unmarked, same]

/-! ### Numbers -/

variable {bytes : Bytes}

theorem digit_cases : ∀ number < 0x80,
    ((Char.ofNat number).isDigit = true ↔ 48 ≤ number ∧ number ≤ 57) ∧
      (Char.ofNat number).toNat = number := by
  decide

theorem isDigit_charOf (byte : UInt8) (ascii_ : byte < 0x80) :
    ((charOf byte).isDigit = true ↔ 48 ≤ byte ∧ byte ≤ 57) ∧ (charOf byte).toNat = byte.toNat :=
  digit_cases byte.toNat ascii_

theorem fromUtf8Lossy_ascii (ascii_ : ∀ byte ∈ bytes, byte < 0x80) :
    fromUtf8Lossy bytes = bytes.map charOf := by
  induction bytes with
  | nil => exact fromUtf8Lossy_nil
  | cons byte bytes inductionHypothesis =>
    obtain ⟨one, later⟩ := List.forall_mem_cons.mp ascii_
    rw [fromUtf8Lossy_cons one, inductionHypothesis later, List.map_cons]

/-- Bytes are digits when their text is, and stand for the same number. -/
theorem digits_text (value : Bytes) :
    Source.digits (fromUtf8Lossy value) =
      if value ≠ [] ∧ value.all fun byte => 48 ≤ byte ∧ byte ≤ 57 then
        some (value.foldl (fun total digit => total * 10 + (digit.toNat - 48)) 0)
      else none := by
  have small : ∀ byte : UInt8, 48 ≤ byte ∧ byte ≤ 57 → byte < 0x80 := fun byte digit =>
    UInt8.lt_of_le_of_lt digit.2 (by decide)
  unfold Source.digits
  by_cases digit : ∀ byte ∈ value, 48 ≤ byte ∧ byte ≤ 57
  · have ascii_ : ∀ byte ∈ value, byte < 0x80 := fun byte member => small byte (digit byte member)
    have chars : (fromUtf8Lossy value).all Char.isDigit = true := by
      rw [fromUtf8Lossy_ascii ascii_, List.all_map, List.all_eq_true]
      exact fun byte member => (isDigit_charOf byte (ascii_ byte member)).1.mpr (digit byte member)
    have bytes : (value.all fun byte => 48 ≤ byte ∧ byte ≤ 57) = true :=
      List.all_eq_true.mpr fun byte member => decide_eq_true (digit byte member)
    rw [chars, bytes]
    by_cases empty : value = []
    · rw [if_neg fun both => both.1 (fromUtf8Lossy_eq_nil.mpr empty), if_neg fun both =>
        both.1 empty]
    · rw [if_pos ⟨mt fromUtf8Lossy_eq_nil.mp empty, rfl⟩, if_pos ⟨empty, rfl⟩,
        fromUtf8Lossy_ascii ascii_, List.foldl_map]
      refine congrArg some (List.foldl_ext _ _ _ fun total byte member => ?_)
      rw [(isDigit_charOf byte (ascii_ byte member)).2]
  · rw [if_neg, if_neg]
    · exact fun both => digit fun byte member =>
        of_decide_eq_true (List.all_eq_true.mp both.2 byte member)
    · rintro ⟨-, all⟩
      have chars := List.all_eq_true.mp all
      have unmarked : '\uFFFD' ∉ fromUtf8Lossy value := fun member =>
        absurd (chars _ member) (by decide)
      refine digit fun byte member => ?_
      rw [eq_encode_of_unmarked unmarked] at member
      obtain ⟨char, inside, among⟩ := List.mem_flatMap.mp member
      have isDigit := chars char inside
      have bounds : 48 ≤ char.toNat ∧ char.toNat ≤ 57 := by
        have both := Bool.and_eq_true_iff.mp isDigit
        exact ⟨of_decide_eq_true both.1, of_decide_eq_true both.2⟩
      rw [Utf8.utf8EncodeChar_ascii (Nat.le_trans bounds.2 (by decide))] at among
      rw [List.mem_singleton.mp among]
      have least : ∀ number < 58, 48 ≤ number →
          48 ≤ UInt8.ofNat number ∧ UInt8.ofNat number ≤ 57 := by decide
      exact least _ (Nat.lt_succ_of_le bounds.2) bounds.1

/-! ### Lines -/

/-- The octets of data an event has behind a line. -/
def buffer (size : Nat) (line : Bytes) : Nat :=
  if line = [] then 0
  else if line.head? ≠ some colon ∧ (Decoder.nameValue line).1 = ascii "data" then
    size + (Decoder.nameValue line).2.length + 1
  else size

/-- The lines in front of the first one that passes the limit, by itself or by the data it adds. -/
def within (maxEvent : Nat) : Nat → List Bytes → List Bytes
  | _, [] => []
  | size, line :: rest =>
    if maxEvent < line.length ∨ maxEvent < buffer size line then []
    else line :: within maxEvent (buffer size line) rest

/-- A decoder holds what the standard made of the stream so far. -/
structure Reads (source : Source) (decoder : Decoder) (out : List Message) : Prop where
  data : source.data = fromUtf8Lossy decoder.data
  ended : decoder.data = [] ∨ ∃ front, decoder.data = front ++ [lf]
  eventType : source.eventType = fromUtf8Lossy decoder.eventType
  lastIdBuffer : source.lastIdBuffer = fromUtf8Lossy decoder.lastIdBuffer
  lastId : source.lastId = decoder.lastId
  retry : decoder.retry = source.retry.map (min · (2 ^ 64 - 1))
  messages : source.messages = out

theorem new_reads (maxEvent : Nat) : Reads {} (Decoder.new maxEvent) [] :=
  ⟨fromUtf8Lossy_nil.symm, .inl rfl, fromUtf8Lossy_nil.symm, fromUtf8Lossy_nil.symm, rfl, rfl, rfl⟩

variable {source : Source} {decoder : Decoder} {out : List Message}

theorem lossy_line (front : Bytes) :
    fromUtf8Lossy (front ++ [lf]) = fromUtf8Lossy front ++ ['\n'] := by
  rw [fromUtf8Lossy_split (by decide), fromUtf8Lossy_nil]
  rfl

theorem dispatch_reads (reads : Reads source decoder out) :
    Reads source.dispatch (decoder.dispatch out).1 (decoder.dispatch out).2 ∧
      (decoder.dispatch out).1.data = [] := by
  unfold Decoder.dispatch Source.dispatch
  dsimp only
  rw [reads.data, reads.eventType, reads.lastIdBuffer]
  rcases reads.ended with empty | ⟨front, ended⟩
  · rw [if_pos (fromUtf8Lossy_eq_nil.mpr empty), if_pos empty]
    refine ⟨⟨?_, .inl empty, fromUtf8Lossy_nil.symm, rfl, rfl, reads.retry, reads.messages⟩, empty⟩
    dsimp only
    rw [empty, fromUtf8Lossy_nil]
  · have some_ : decoder.data ≠ [] := by
      rw [ended]
      exact List.append_ne_nil_of_right_ne_nil _ (List.cons_ne_nil _ _)
    have last : decoder.data.getLast? = some lf := by
      rw [ended]
      exact List.getLast?_concat
    have lastText : (fromUtf8Lossy decoder.data).getLast? = some '\n' := by
      rw [ended, lossy_line]
      exact List.getLast?_concat
    rw [if_neg (mt fromUtf8Lossy_eq_nil.mp some_), if_neg some_, if_pos last, if_pos lastText]
    refine ⟨⟨fromUtf8Lossy_nil.symm, .inl rfl, fromUtf8Lossy_nil.symm, rfl, rfl, reads.retry, ?_⟩,
      rfl⟩
    dsimp only
    rw [reads.messages, ended, lossy_line, List.dropLast_concat, List.dropLast_concat]
    by_cases typed : decoder.eventType = []
    · rw [if_pos typed, if_pos (fromUtf8Lossy_eq_nil.mpr typed)]
    · rw [if_neg typed, if_neg (mt fromUtf8Lossy_eq_nil.mp typed)]

/-- A field means the same as bytes and as text. -/
theorem field_reads (reads : Reads source decoder out) (name value : Bytes)
    (room : ¬ (name = ascii "data" ∧
      decoder.maxEvent < decoder.data.length + value.length + 1)) :
    ∃ after : Decoder,
      (if name = ascii "event" then
          ((({ decoder with eventType := value }, out), .ok ()) : Outcome)
        else if name = ascii "data" then
          if decoder.maxEvent < decoder.data.length + value.length + 1 then
            ((decoder, out), .error (.limit ("an event's data passed " ++
              toString decoder.maxEvent ++ " bytes")))
          else (({ decoder with data := decoder.data ++ value ++ [lf] }, out), .ok ())
        else if name = ascii "id" ∧ 0 ∉ value then
          (({ decoder with lastIdBuffer := value }, out), .ok ())
        else if name = ascii "retry" ∧ value ≠ [] ∧
            value.all fun byte => 48 ≤ byte ∧ byte ≤ 57 then
          (({ decoder with retry := some (Decoder.parseDigits value) }, out), .ok ())
        else ((decoder, out), .ok ())) = ((after, out), .ok ()) ∧
      Reads (source.field (fromUtf8Lossy name) (fromUtf8Lossy value)) after out ∧
      after.data.length = (if name = ascii "data" then decoder.data.length + value.length + 1
        else decoder.data.length) ∧
      after.maxEvent = decoder.maxEvent := by
  have named : ∀ text : String, text.toList.all (fun char => decide (char.toNat < 0x80)) = true →
      (fromUtf8Lossy name = text.toList ↔ name = ascii text) := fun text plain =>
    name_text plain name
  have event := named "event" (by decide)
  have data := named "data" (by decide)
  have id := named "id" (by decide)
  have retry := named "retry" (by decide)
  have nul : '\x00' ∈ fromUtf8Lossy value ↔ (0 : UInt8) ∈ value :=
    mem_fromUtf8Lossy (show (0 : UInt8) < 0x80 by decide) value
  unfold Source.field
  by_cases isEvent : name = ascii "event"
  · have notData : name ≠ ascii "data" := by
      rw [isEvent]
      decide
    rw [if_pos isEvent, if_pos (event.mpr isEvent), if_neg notData]
    exact ⟨_, rfl, ⟨reads.data, reads.ended, rfl, reads.lastIdBuffer, reads.lastId, reads.retry,
      reads.messages⟩, rfl, rfl⟩
  rw [if_neg isEvent, if_neg (mt event.mp isEvent)]
  by_cases isData : name = ascii "data"
  · have fits : ¬ decoder.maxEvent < decoder.data.length + value.length + 1 := fun long =>
      room ⟨isData, long⟩
    rw [if_pos isData, if_pos (data.mpr isData), if_neg fits, if_pos isData]
    refine ⟨_, rfl, ⟨?_, .inr ⟨_, rfl⟩, reads.eventType, reads.lastIdBuffer, reads.lastId,
      reads.retry, reads.messages⟩, ?_, rfl⟩
    · dsimp only
      rw [lossy_line, reads.data]
      rcases reads.ended with empty | ⟨front, ended⟩
      · rw [empty, fromUtf8Lossy_nil, List.nil_append, List.nil_append]
      · rw [ended, lossy_line, List.append_assoc front, List.singleton_append,
          fromUtf8Lossy_split (by decide), List.append_assoc (fromUtf8Lossy front)]
        rfl
    · dsimp only
      rw [List.length_append, List.length_append, List.length_singleton]
  rw [if_neg isData, if_neg (mt data.mp isData), if_neg isData]
  by_cases isId : name = ascii "id"
  · rw [if_pos (id.mpr isId)]
    have notRetry : ¬ (name = ascii "retry" ∧ value ≠ [] ∧
        value.all fun byte => 48 ≤ byte ∧ byte ≤ 57) := by
      rw [isId]
      exact fun both => absurd both.1 (by decide)
    by_cases nulled : (0 : UInt8) ∈ value
    · rw [if_neg fun both => both.2 nulled, if_neg notRetry, if_pos (nul.mpr nulled)]
      exact ⟨_, rfl, reads, rfl, rfl⟩
    · rw [if_pos ⟨isId, nulled⟩, if_neg (mt nul.mp nulled)]
      exact ⟨_, rfl, ⟨reads.data, reads.ended, reads.eventType, rfl, reads.lastId, reads.retry,
        reads.messages⟩, rfl, rfl⟩
  rw [if_neg fun both => isId both.1, if_neg (mt id.mp isId)]
  by_cases isRetry : name = ascii "retry"
  · rw [if_pos (retry.mpr isRetry), digits_text]
    by_cases digits : value ≠ [] ∧ (value.all fun byte => 48 ≤ byte ∧ byte ≤ 57) = true
    · rw [if_pos ⟨isRetry, digits⟩, if_pos digits]
      exact ⟨_, rfl, ⟨reads.data, reads.ended, reads.eventType, reads.lastIdBuffer, reads.lastId,
        congrArg some (parseDigits_eq value), reads.messages⟩, rfl, rfl⟩
    · rw [if_neg fun both => digits both.2, if_neg digits]
      exact ⟨_, rfl, ⟨reads.data, reads.ended, reads.eventType, reads.lastIdBuffer, reads.lastId,
        reads.retry, reads.messages⟩, rfl, rfl⟩
  · rw [if_neg fun both => isRetry both.1, if_neg (mt retry.mp isRetry)]
    exact ⟨_, rfl, reads, rfl, rfl⟩

/-- A line within the limit is processed as the standard says, and one that is not is refused. -/
theorem process_reads (reads : Reads source decoder out)
    (held : decoder.data.length ≤ decoder.maxEvent) (line : Bytes) :
    (decoder.maxEvent < buffer decoder.data.length line →
      ∃ refused, decoder.process line out = ((decoder, out), .error refused)) ∧
    (¬ decoder.maxEvent < buffer decoder.data.length line →
      ∃ after sent, decoder.process line out = ((after, sent), .ok ()) ∧
        Reads (source.line (fromUtf8Lossy line)) after sent ∧
        after.data.length = buffer decoder.data.length line ∧
        after.maxEvent = decoder.maxEvent) := by
  unfold Decoder.process Source.line buffer
  by_cases blank : line = []
  · rw [if_pos blank, if_pos blank, if_pos (fromUtf8Lossy_eq_nil.mpr blank)]
    obtain ⟨dispatched, empty⟩ := dispatch_reads reads
    refine ⟨fun long => absurd long (Nat.not_lt_zero _), fun _ =>
      ⟨(decoder.dispatch out).1, (decoder.dispatch out).2, rfl, dispatched, ?_, ?_⟩⟩
    · rw [empty]
      rfl
    · unfold Decoder.dispatch
      dsimp only
      split <;> rfl
  rw [if_neg blank, if_neg blank, if_neg (mt fromUtf8Lossy_eq_nil.mp blank)]
  have head := head?_fromUtf8Lossy (show colon < 0x80 by decide) line
  rw [show charOf colon = ':' from rfl] at head
  by_cases comment : line.head? = some colon
  · rw [if_pos comment, if_pos (head.mpr comment), if_neg fun both => both.1 comment]
    exact ⟨fun long => absurd held (Nat.not_le_of_lt long), fun _ => ⟨_, _, rfl, reads, rfl, rfl⟩⟩
  rw [if_neg comment, if_neg (mt head.mp comment)]
  obtain ⟨name, value⟩ := nameValue_text line
  rw [name, value]
  rcases Decoder.nameValue line with ⟨name, value⟩
  dsimp only
  have size : (if line.head? ≠ some colon ∧ name = ascii "data" then
      decoder.data.length + value.length + 1 else decoder.data.length) =
      if name = ascii "data" then decoder.data.length + value.length + 1
      else decoder.data.length := by
    by_cases isData : name = ascii "data"
    · rw [if_pos ⟨comment, isData⟩, if_pos isData]
    · rw [if_neg fun both => isData both.2, if_neg isData]
  rw [size]
  constructor
  · intro long
    by_cases isData : name = ascii "data"
    · have notEvent : name ≠ ascii "event" := by
        rw [isData]
        decide
      rw [if_pos isData] at long
      exact ⟨_, (if_neg notEvent).trans ((if_pos isData).trans (if_pos long))⟩
    · rw [if_neg isData] at long
      exact absurd held (Nat.not_le_of_lt long)
  · intro fits
    obtain ⟨after, ran, afterReads, length, limit⟩ := field_reads reads name value fun both =>
      fits (by
        rw [if_pos both.1]
        exact both.2)
    exact ⟨after, out, ran, afterReads, length, limit⟩

/-! ### Streams -/

/-- The bytes of the rest of a stream, taken one after the other, are interpreted line by line, and
fail where a line passes the limit. -/
theorem takeBytes_reads {bytes : Bytes} (reads : Reads source decoder out)
    (held : decoder.data.length ≤ decoder.maxEvent)
    (short : decoder.line.length ≤ decoder.maxEvent) :
    let ended := endedLines cr lf decoder.line
      (if decoder.afterCr ∧ bytes.head? = some lf then bytes.tail else bytes)
    let taken := within decoder.maxEvent decoder.data.length ended.1
    let shown := bytes.foldl Decoder.takeByte (out, .ok decoder)
    shown.1 = ((taken.map fromUtf8Lossy).foldl Source.line source).messages ∧
    (∀ after, shown.2 = .ok after →
      (taken = ended.1 ∧ ended.2.length ≤ decoder.maxEvent) ∧
        Reads ((taken.map fromUtf8Lossy).foldl Source.line source) after shown.1) ∧
    (∀ refused, shown.2 = .error refused →
      ¬ (taken = ended.1 ∧ ended.2.length ≤ decoder.maxEvent)) := by
  induction bytes generalizing source decoder out with
  | nil =>
    rw [if_neg fun both => nomatch both.2]
    refine ⟨reads.messages.symm, ?_, nofun⟩
    rintro after ⟨⟩
    exact ⟨⟨rfl, short⟩, reads⟩
  | cons byte rest inductionHypothesis =>
    rw [List.foldl_cons]
    by_cases swallowed : decoder.afterCr = true ∧ byte = lf
    · have taken : Decoder.takeByte (out, .ok decoder) byte =
          (out, .ok { decoder with afterCr := false }) := if_pos swallowed
      rw [if_pos ⟨swallowed.1, congrArg some swallowed.2⟩, taken, List.tail_cons]
      have later := @inductionHypothesis source { decoder with afterCr := false } out
        ⟨reads.data, reads.ended, reads.eventType, reads.lastIdBuffer, reads.lastId, reads.retry,
          reads.messages⟩ held short
      rw [if_neg fun both => nomatch both.1] at later
      exact later
    have notLf : ¬ (decoder.afterCr = true ∧ (byte :: rest).head? = some lf) :=
      fun both => swallowed ⟨both.1, Option.some.inj both.2⟩
    rw [if_neg notLf]
    by_cases ending : byte = cr ∨ byte = lf
    · have taken : Decoder.takeByte (out, .ok decoder) byte =
          Outcome.shown (({ decoder with afterCr := byte = cr, line := [] } : Decoder).process
            decoder.line out) := (if_neg swallowed).trans (if_pos ending)
      rw [taken, endedLines_ends ending]
      obtain ⟨refuses, accepts⟩ := @process_reads source
        { decoder with afterCr := decide (byte = cr), line := [] } out
        ⟨reads.data, reads.ended, reads.eventType, reads.lastIdBuffer, reads.lastId, reads.retry,
          reads.messages⟩ held decoder.line
      dsimp only at refuses accepts
      by_cases long : decoder.maxEvent < buffer decoder.data.length decoder.line
      · obtain ⟨refused, ran⟩ := refuses long
        rw [ran]
        dsimp only [Outcome.shown, Except.map]
        rw [Decoder.takeByte_refused, within, if_pos (.inr long)]
        refine ⟨reads.messages.symm, nofun, fun _ _ all => ?_⟩
        exact absurd all.1.symm (List.cons_ne_nil _ _)
      · obtain ⟨after, sent, ran, afterReads, length, limit⟩ := accepts long
        have frame := Decoder.process_frame
          { decoder with afterCr := decide (byte = cr), line := [] } decoder.line out
        rw [ran] at frame ⊢
        obtain ⟨-, afterCr, line, -⟩ := frame
        dsimp only at afterCr line
        dsimp only [Outcome.shown, Except.map]
        have later := inductionHypothesis afterReads (by
          rw [length, limit]
          exact Nat.le_of_not_lt long) (by
          rw [line]
          exact Nat.zero_le _)
        rw [line, afterCr, length, limit] at later
        have same : (if decide (byte = cr) = true ∧ rest.head? = some lf then rest.tail
            else rest) = behindEnd cr lf byte rest := by
          unfold behindEnd
          simp only [decide_eq_true_eq]
        rw [same] at later
        rw [within, if_neg fun either => either.elim (Nat.not_lt_of_le short) long]
        obtain ⟨messages, ok, failed⟩ := later
        refine ⟨messages, fun last shown => ?_, fun refused shown all => ?_⟩
        · obtain ⟨⟨whole, unended⟩, lastReads⟩ := ok last shown
          exact ⟨⟨congrArg (decoder.line :: ·) whole, unended⟩, lastReads⟩
        · exact failed refused shown ⟨(List.cons.inj all.1).2, all.2⟩
    · rw [endedLines_joins ending]
      by_cases long : decoder.maxEvent < decoder.line.length + 1
      · have taken : Decoder.takeByte (out, .ok decoder) byte =
            (out, .error decoder.tooLong) :=
          (if_neg swallowed).trans ((if_neg ending).trans (if_pos long))
        rw [taken, Decoder.takeByte_refused]
        have measured : (decoder.line ++ [byte]).length = decoder.line.length + 1 :=
          List.length_append
        dsimp only
        rcases @endedLines_begins _ _ cr lf (decoder.line ++ [byte]) rest with
          ⟨none, begins⟩ | ⟨first, others, some_, begins⟩
        · rw [none]
          refine ⟨reads.messages.symm, nofun, fun _ _ all => ?_⟩
          have longer := begins.length_le
          rw [measured] at longer
          exact Nat.not_lt_of_le (Nat.le_trans longer all.2) long
        · have longer := begins.length_le
          rw [measured] at longer
          rw [some_, within, if_pos (.inl (Nat.lt_of_lt_of_le long longer))]
          refine ⟨reads.messages.symm, nofun, fun _ _ all => ?_⟩
          exact absurd all.1.symm (List.cons_ne_nil _ _)
      · have taken : Decoder.takeByte (out, .ok decoder) byte =
            (out, .ok { decoder with afterCr := false, line := decoder.line ++ [byte] }) :=
          (if_neg swallowed).trans ((if_neg ending).trans (if_neg long))
        rw [taken]
        have later := @inductionHypothesis source
          { decoder with afterCr := false, line := decoder.line ++ [byte] } out
          ⟨reads.data, reads.ended, reads.eventType, reads.lastIdBuffer, reads.lastId, reads.retry,
            reads.messages⟩ held (by
              rw [List.length_append]
              exact Nat.le_of_not_lt long)
        rw [if_neg fun both => nomatch both.1] at later
        exact later

/-- What stands behind the end of a line is the same as bytes and as text. -/
theorem behindEnd_text {byte : UInt8} (ending : byte = cr ∨ byte = lf) (rest : Bytes) :
    behindEnd '\r' '\n' (charOf byte) (fromUtf8Lossy rest) =
      fromUtf8Lossy (behindEnd cr lf byte rest) := by
  have head := head?_fromUtf8Lossy (show lf < 0x80 by decide) rest
  rw [show charOf lf = '\n' from rfl] at head
  unfold behindEnd
  rcases ending with rfl | rfl
  · rw [show charOf cr = '\r' from rfl]
    by_cases both : rest.head? = some lf
    · obtain ⟨behind, rfl⟩ := List.head?_eq_some_iff.mp both
      rw [if_pos ⟨rfl, head.mpr both⟩, if_pos ⟨rfl, both⟩, fromUtf8Lossy_cons (by decide)]
      rfl
    · rw [if_neg fun either => both (head.mp either.2), if_neg fun either => both either.2]
  · rw [show charOf lf = '\n' from rfl, if_neg fun either => absurd either.1 (by decide),
      if_neg fun either => absurd either.1 (by decide)]

/-- The lines of a text are the texts of the lines. -/
theorem endedLines_text (bytes : Bytes) :
    (endedLines '\r' '\n' [] (fromUtf8Lossy bytes)).1 =
      (endedLines cr lf [] bytes).1.map fromUtf8Lossy := by
  induction measured : bytes.length using Nat.strongRecOn generalizing bytes with
  | ind size inductionHypothesis =>
    have parts := @List.takeWhile_append_dropWhile _ (fun byte => ¬ (byte = cr ∨ byte = lf)) bytes
    have plain : ∀ byte ∈ bytes.takeWhile (fun byte => ¬ (byte = cr ∨ byte = lf)),
        ¬ (byte = cr ∨ byte = lf) := fun byte member =>
      of_decide_eq_true
        (@List.mem_takeWhile_imp _ (fun byte => ¬ (byte = cr ∨ byte = lf)) _ _ member)
    have plainText : ∀ char ∈ fromUtf8Lossy
        (bytes.takeWhile (fun byte => ¬ (byte = cr ∨ byte = lf))),
        ¬ (char = '\r' ∨ char = '\n') := by
      rintro char member (rfl | rfl)
      · exact plain cr ((mem_fromUtf8Lossy (by decide) _).mp member) (.inl rfl)
      · exact plain lf ((mem_fromUtf8Lossy (by decide) _).mp member) (.inr rfl)
    have begins : ∀ byte rest,
        bytes.dropWhile (fun byte => ¬ (byte = cr ∨ byte = lf)) = byte :: rest →
          byte = cr ∨ byte = lf := by
      intro byte rest found
      have some_ : bytes.dropWhile (fun byte => ¬ (byte = cr ∨ byte = lf)) ≠ [] := by
        rw [found]
        exact List.cons_ne_nil _ _
      have stops := List.head_dropWhile_not (fun byte => decide ¬ (byte = cr ∨ byte = lf)) some_
      simp only [found, List.head_cons] at stops
      exact not_not.mp (of_decide_eq_false stops)
    generalize bytes.takeWhile (fun byte => ¬ (byte = cr ∨ byte = lf)) = part
      at parts plain plainText
    generalize bytes.dropWhile (fun byte => ¬ (byte = cr ∨ byte = lf)) = behind at parts begins
    rcases behind with _ | ⟨byte, rest⟩
    · subst parts
      have textEnd := endedLines_plain plainText [] []
      rw [List.append_nil] at textEnd
      rw [endedLines_plain plain, List.append_nil, textEnd]
      rfl
    · have ending := begins byte rest rfl
      subst parts
      have ascii_ : byte < 0x80 := by
        rcases ending with rfl | rfl <;> decide
      have endingText : charOf byte = '\r' ∨ charOf byte = '\n' := by
        rcases ending with rfl | rfl
        · exact .inl rfl
        · exact .inr rfl
      have shorter : (behindEnd cr lf byte rest).length < size := by
        rw [← measured, List.length_append, List.length_cons]
        unfold behindEnd
        split
        · rw [List.length_tail]
          omega
        · omega
      rw [fromUtf8Lossy_split ascii_, endedLines_plain plainText, endedLines_plain plain,
        endedLines_ends endingText, endedLines_ends ending, behindEnd_text ending]
      dsimp only
      rw [inductionHypothesis _ shorter _ rfl]
      rfl

/-- A stream without the byte order mark that may lead it. -/
def stripMark (bytes : Bytes) : Bytes :=
  if bom.isPrefixOf bytes then bytes.drop bom.length else bytes

theorem behindMark_decided (decided : ¬ Decoder.Undecided bytes) :
    Decoder.behindMark bytes = stripMark bytes := by
  unfold Decoder.behindMark stripMark
  split
  · rename_i begins
    have prefix_ := List.isPrefixOf_iff_prefix.mp begins
    have whole : bytes = bom := by
      rcases Nat.eq_or_lt_of_le prefix_.length_le with same | less
      · exact prefix_.eq_of_length same
      · exact absurd ⟨less, prefix_⟩ decided
    rw [whole]
    rfl
  · rfl

theorem stripMark_undecided (undecided : Decoder.Undecided bytes) :
    (endedLines cr lf [] (stripMark bytes)).1 = [] := by
  have cases_ : bytes = [] ∨ bytes = [0xEF] ∨ bytes = [0xEF, 0xBB] := by
    obtain ⟨less, rest, whole⟩ := undecided
    match bytes, whole with
    | [], _ => exact .inl rfl
    | [_], whole => exact .inr (.inl (by rw [(List.cons.inj whole).1]))
    | [_, _], whole =>
      obtain ⟨rfl, tail⟩ := List.cons.inj whole
      exact .inr (.inr (by rw [(List.cons.inj tail).1]))
    | _ :: _ :: _ :: _, _ => exact absurd less (by simp [bom])
  rcases cases_ with rfl | rfl | rfl <;> decide

/-- Chunks are one stream: what they dispatch and whether they fail is what the whole stream
dispatches and whether it fails, and the stream is interpreted as the standard says. -/
theorem feedAll_interprets (maxEvent : Nat) (chunks : List Bytes) :
    let parts := (Decoder.new maxEvent).feedAll [] chunks
    let whole := (Decoder.new maxEvent).feed chunks.flatten []
    let lines := (endedLines cr lf [] (stripMark chunks.flatten)).1
    let unended := (endedLines cr lf [] (stripMark chunks.flatten)).2
    let taken := within maxEvent 0 lines
    parts.shown = whole.shown ∧
    parts.1.2 = (Source.interpret (taken.map fromUtf8Lossy)).messages ∧
    (parts.2 = .ok () ↔ taken = lines ∧
      (unended.length ≤ maxEvent ∨ Decoder.Undecided chunks.flatten)) ∧
    (parts.2 = .ok () →
      Reads (Source.interpret (lines.map fromUtf8Lossy)) parts.1.1 parts.1.2) := by
  have probing : ∀ chunks, ((Decoder.new maxEvent).feedAll [] chunks).shown =
      if Decoder.Undecided chunks.flatten then
        ([], .ok { Decoder.new maxEvent with head := chunks.flatten })
      else (Decoder.behindMark chunks.flatten).foldl Decoder.takeByte
        ([], .ok { Decoder.new maxEvent with head := [], bomDone := true }) := fun chunks =>
    Decoder.feedAll_probed rfl ⟨Nat.zero_lt_succ 2, List.nil_prefix⟩ (Nat.zero_le _)
  have one : ((Decoder.new maxEvent).feedAll [] [chunks.flatten]).shown =
      ((Decoder.new maxEvent).feed chunks.flatten []).shown := by
    rw [Decoder.feedAll_cons]
    rcases (Decoder.new maxEvent).feed chunks.flatten [] with ⟨⟨next, sent⟩, refused | _⟩ <;> rfl
  have flat : [chunks.flatten].flatten = chunks.flatten := List.append_nil _
  have ran := probing chunks
  have ranWhole := (probing [chunks.flatten]).symm.trans one
  rw [flat] at ranWhole
  intro parts whole
  have same : parts.shown = whole.shown := ran.trans ranWhole
  refine ⟨same, ?_⟩
  change parts.shown = _ at ran
  generalize chunks.flatten = bytes at ran
  have shownParts : parts.shown = (parts.1.2, parts.2.map fun _ => parts.1.1) := rfl
  have verdict : ∀ {sent : List Message} {after : Decoder}, parts.shown = (sent, .ok after) →
      parts = ((after, sent), .ok ()) := by
    intro sent after showed
    rcases parts with ⟨⟨last, messages⟩, refused | _⟩
    · cases showed
    · cases showed
      rfl
  by_cases undecided : Decoder.Undecided bytes
  · rw [if_pos undecided] at ran
    rw [verdict ran, stripMark_undecided undecided]
    refine ⟨rfl, ⟨fun _ => ⟨rfl, .inr undecided⟩, fun _ => rfl⟩, fun _ => ?_⟩
    have fresh := new_reads maxEvent
    exact ⟨fresh.data, fresh.ended, fresh.eventType, fresh.lastIdBuffer, fresh.lastId, fresh.retry,
      fresh.messages⟩
  · rw [if_neg undecided, behindMark_decided undecided] at ran
    have fresh := new_reads maxEvent
    obtain ⟨messages, accepted, refused⟩ := @takeBytes_reads {}
      { Decoder.new maxEvent with head := [], bomDone := true } [] (stripMark bytes)
      ⟨fresh.data, fresh.ended, fresh.eventType, fresh.lastIdBuffer, fresh.lastId, fresh.retry,
        fresh.messages⟩ (Nat.zero_le _) (Nat.zero_le _)
    rw [← ran, if_neg fun both => nomatch both.1] at messages accepted refused
    dsimp only [Decoder.new, List.length_nil] at messages accepted refused
    have whole : parts.2 = .ok () → (within maxEvent 0 (endedLines cr lf [] (stripMark bytes)).1 =
        (endedLines cr lf [] (stripMark bytes)).1 ∧
        (endedLines cr lf [] (stripMark bytes)).2.length ≤ maxEvent) ∧
        Reads _ parts.1.1 parts.1.2 :=
      fun ok => accepted parts.1.1 (by rw [shownParts, ok]; rfl)
    refine ⟨messages, ⟨fun ok => ?_, fun all => ?_⟩, fun ok => ?_⟩
    · obtain ⟨⟨all, unended⟩, -⟩ := whole ok
      exact ⟨all, .inl unended⟩
    · rcases given : parts.2 with refusal | _
      · refine absurd ⟨all.1, all.2.resolve_right undecided⟩ (refused refusal ?_)
        rw [shownParts, given]
        rfl
      · rfl
    · obtain ⟨⟨all, -⟩, reads⟩ := whole ok
      rwa [all] at reads

/-- Chunk boundaries do not show: the messages, whether and how decoding fails, and what is set when
it does not are those of the whole stream in one chunk. They are what the standard makes of the
lines of the decoded text, up to the first line that passes the limit, a reconnection time held at
the largest one there is. -/
theorem chunks_do_not_show (maxEvent : Nat) (chunks : List Bytes) :
    let parts := (Decoder.new maxEvent).feedAll [] chunks
    let whole := (Decoder.new maxEvent).feed chunks.flatten []
    let lines := (endedLines cr lf [] (stripMark chunks.flatten)).1
    let unended := (endedLines cr lf [] (stripMark chunks.flatten)).2
    let taken := within maxEvent 0 lines
    let texts := lines.map fromUtf8Lossy
    (parts.1.2 = whole.1.2 ∧ parts.2 = whole.2 ∧
      (parts.2 = .ok () →
        parts.1.1.lastId = whole.1.1.lastId ∧ parts.1.1.retry = whole.1.1.retry)) ∧
    texts = (endedLines '\r' '\n' [] (fromUtf8Lossy (stripMark chunks.flatten))).1 ∧
    parts.1.2 = (Source.interpret (taken.map fromUtf8Lossy)).messages ∧
    (parts.2 = .ok () ↔ taken = lines ∧
      (unended.length ≤ maxEvent ∨ Decoder.Undecided chunks.flatten)) ∧
    (parts.2 = .ok () →
      parts.1.1.lastId = (Source.interpret texts).lastId ∧
        parts.1.1.retry = (Source.interpret texts).retry.map (min · (2 ^ 64 - 1))) := by
  obtain ⟨same, messages, verdict, reads⟩ := feedAll_interprets maxEvent chunks
  intro parts whole
  change parts.shown = whole.shown at same
  rw [endedLines_text]
  refine ⟨⟨congrArg Prod.fst same, ?_⟩, rfl, messages, verdict, fun ok => ?_⟩
  · have results := congrArg Prod.snd same
    rcases parts with ⟨⟨left, sent⟩, refused | _⟩
    · rcases whole with ⟨⟨right, others⟩, other | _⟩
      · have equal : (Except.error refused : Except Error Decoder) = .error other := results
        cases equal
        exact ⟨rfl, nofun⟩
      · cases results
    · rcases whole with ⟨⟨right, others⟩, other | _⟩
      · cases results
      · refine ⟨rfl, fun _ => ?_⟩
        cases results
        exact ⟨rfl, rfl⟩
  · have last := reads ok
    exact ⟨last.lastId.symm, last.retry⟩

/-- A reconnection time of more than the largest one there is. -/
def longRetry : Bytes := ascii "retry:18446744073709551616\n"

theorem longRetry_interpreted : (Source.interpret
    ((endedLines cr lf [] (stripMark longRetry)).1.map fromUtf8Lossy)).retry = some (2 ^ 64) := by
  have lines : (endedLines cr lf [] (stripMark longRetry)).1 =
      [ascii "retry:18446744073709551616"] := by decide
  have text : fromUtf8Lossy (ascii "retry:18446744073709551616") =
      "retry:18446744073709551616".toList :=
    (name_text (by decide) _).mpr rfl
  rw [lines, List.map_singleton, text]
  decide

theorem longRetry_held :
    let whole := (Decoder.new 64).feed longRetry []
    whole.2 = .ok () ∧ whole.1.1.retry = some (2 ^ 64 - 1) ∧
      (Source.interpret ((endedLines cr lf [] (stripMark longRetry)).1.map fromUtf8Lossy)).retry =
        some (2 ^ 64) := by
  obtain ⟨-, -, verdict, reads⟩ := feedAll_interprets 64 [longRetry]
  have flat : [longRetry].flatten = longRetry := List.append_nil _
  have one : ∀ outcome, (Decoder.new 64).feed longRetry [] = outcome →
      (Decoder.new 64).feedAll [] [longRetry] = outcome := by
    rintro ⟨⟨next, sent⟩, refused | _⟩ fed
    · rw [Decoder.feedAll, fed]
    · rw [Decoder.feedAll, fed]
      rfl
  rw [one _ rfl, flat] at verdict reads
  have ok := verdict.mpr ⟨by decide, .inl (by decide)⟩
  refine ⟨ok, ?_, longRetry_interpreted⟩
  rw [(reads ok).retry, longRetry_interpreted, Option.map_some]
  exact congrArg some (Nat.min_eq_right (Nat.sub_le _ _))

end ZeroServer.Sse

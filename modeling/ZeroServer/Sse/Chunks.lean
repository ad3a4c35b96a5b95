/-
This file proves that chunk boundaries do not show: what a decoder dispatches, and whether and how
it fails, is a fold of the bytes of all chunks, once it is known whether a byte order mark leads
them.
-/

import ZeroServer.Lib.Lines
import ZeroServer.Sse.Lossy

namespace ZeroServer.Sse

open Http1 Lib

/-- What shows of a decoder: the messages, and the decoder unless it failed. -/
abbrev Shown := List Message × Except Error Decoder

/-- What shows of an outcome. -/
def Outcome.shown (outcome : Outcome) : Shown :=
  (outcome.1.2, outcome.2.map fun _ => outcome.1.1)

namespace Decoder

/-- The refusal of a line that is too long. -/
def tooLong (decoder : Decoder) : Error :=
  .limit ("an event stream line passed " ++ toString decoder.maxEvent ++ " bytes")

/-! ### Bytes -/

variable {decoder : Decoder} {out : List Message}

variable {sent : List Message} {byte : UInt8}

/-- What a byte does to what shows. -/
def takeByte : Shown → UInt8 → Shown
  | (out, .error refused), _ => (out, .error refused)
  | (out, .ok decoder), byte =>
    if decoder.afterCr ∧ byte = lf then (out, .ok { decoder with afterCr := false })
    else if byte = cr ∨ byte = lf then
      Outcome.shown (({ decoder with afterCr := byte = cr, line := [] } : Decoder).process
        decoder.line out)
    else if decoder.maxEvent < decoder.line.length + 1 then (out, .error decoder.tooLong)
    else (out, .ok { decoder with afterCr := false, line := decoder.line ++ [byte] })

theorem takeByte_refused (out : List Message) (refused : Error) (bytes : Bytes) :
    bytes.foldl takeByte (out, .error refused) = (out, .error refused) := by
  induction bytes with
  | nil => rfl
  | cons byte rest inductionHypothesis => exact inductionHypothesis

theorem clear_line {after : Decoder} {line : Bytes} {verdict : Except Error Unit}
    (clear : decoder.line = []) (ran : decoder.process line out = ((after, sent), verdict)) :
    { after with line := [] } = after := by
  have frame := (process_frame decoder line out).2.2.1
  rw [ran, clear] at frame
  rw [← frame]

theorem extendLine_refused {part : Bytes}
    (long : decoder.maxEvent < decoder.line.length + part.length) :
    decoder.extendLine part = (decoder, .error decoder.tooLong) := if_pos long

/-- What does not fit with its first byte does not fit. -/
theorem lines_long (plain : ¬ (byte = cr ∨ byte = lf))
    (long : decoder.maxEvent < decoder.line.length + 1) (rest : Bytes) (out : List Message) :
    (decoder.lines (byte :: rest) out).shown = (out, .error decoder.tooLong) := by
  have refused : ∀ part, ({ decoder with afterCr := false } : Decoder).extendLine (byte :: part) =
      ({ decoder with afterCr := false }, .error decoder.tooLong) := by
    intro part
    refine extendLine_refused ?_
    rw [List.length_cons]
    exact Nat.lt_of_lt_of_le long (Nat.add_le_add_left (Nat.le_add_left 1 _) _)
  have notLf : ¬ (decoder.afterCr = true ∧ (byte :: rest).head? = some lf) :=
    fun both => plain (.inr (Option.some.inj both.2))
  rw [lines_eq, if_neg (List.cons_ne_nil _ _), if_neg notLf, findCrOrLf_cons, if_neg plain]
  cases findCrOrLf rest with
  | none =>
    dsimp only [Option.map_none]
    rw [refused]
    rfl
  | some at_ =>
    dsimp only [Option.map_some]
    rw [List.take_succ_cons, refused]
    rfl

/-- A byte inside a line may join it first. -/
theorem lines_joins (plain : ¬ (byte = cr ∨ byte = lf))
    (room : decoder.line.length + 1 ≤ decoder.maxEvent) (rest : Bytes) (out : List Message) :
    (decoder.lines (byte :: rest) out).shown =
      (({ decoder with afterCr := false, line := decoder.line ++ [byte] } : Decoder).lines rest
        out).shown := by
  have notLf : ¬ (decoder.afterCr = true ∧ (byte :: rest).head? = some lf) :=
    fun both => plain (.inr (Option.some.inj both.2))
  have joined : ∀ part, (({ decoder with afterCr := false } : Decoder).extendLine (byte :: part) =
          ({ decoder with afterCr := false }, .error decoder.tooLong) ∧
        ({ decoder with afterCr := false, line := decoder.line ++ [byte] } :
            Decoder).extendLine part =
          ({ decoder with afterCr := false, line := decoder.line ++ [byte] },
            .error decoder.tooLong)) ∨
      ({ decoder with afterCr := false } : Decoder).extendLine (byte :: part) =
        ({ decoder with afterCr := false, line := decoder.line ++ [byte] } :
          Decoder).extendLine part ∧
        ∃ next, ({ decoder with afterCr := false, line := decoder.line ++ [byte] } :
          Decoder).extendLine part = (next, .ok ()) := by
    intro part
    have lengths : (decoder.line ++ [byte]).length + part.length =
        decoder.line.length + (byte :: part).length := by
      rw [List.length_append, List.length_singleton, List.length_cons]
      omega
    by_cases long : decoder.maxEvent < decoder.line.length + (byte :: part).length
    · exact .inl ⟨extendLine_refused long, extendLine_refused (lengths ▸ long)⟩
    · have fits := @extendLine_ok { decoder with afterCr := false, line := decoder.line ++ [byte] }
        part (Nat.le_of_not_lt (lengths ▸ long))
      exact .inr ⟨@extendLine_cons { decoder with afterCr := false } _ byte part fits ▸ fits.symm,
        _, fits⟩
  rw [lines_eq, if_neg (List.cons_ne_nil _ _), if_neg notLf, findCrOrLf_cons, if_neg plain]
  by_cases empty : rest = []
  · subst empty
    have extended := @extendLine_ok { decoder with afterCr := false } [byte] room
    rw [@lines_eq _ [], if_pos rfl]
    rw [show findCrOrLf [] = none from rfl, Option.map_none]
    dsimp only
    rw [extended]
  · rw [@lines_eq _ rest, if_neg empty, if_neg (fun both => Bool.false_ne_true both.1)]
    cases findCrOrLf rest with
    | none =>
      dsimp only [Option.map_none]
      rcases joined rest with ⟨left, right⟩ | ⟨same, -⟩
      · rw [left, right]
        rfl
      · rw [same]
    | some at_ =>
      dsimp only [Option.map_some]
      rw [List.take_succ_cons, List.drop_succ_cons]
      rcases joined (rest.take at_) with ⟨left, right⟩ | ⟨same, next, fits⟩
      · rw [left, right]
        rfl
      · rw [same, fits]

/-- A chunk is its bytes one after the other. -/
theorem lines_shown {bytes : Bytes} {decoder : Decoder} {out : List Message}
    (short : decoder.line.length ≤ decoder.maxEvent) :
    (decoder.lines bytes out).shown = bytes.foldl takeByte (out, .ok decoder) := by
  induction bytes generalizing decoder out with
  | nil =>
    rw [lines_eq, if_pos rfl]
    rfl
  | cons byte rest inductionHypothesis =>
    rw [List.foldl_cons]
    by_cases swallowed : decoder.afterCr = true ∧ byte = lf
    · have taken : takeByte (out, .ok decoder) byte =
          (out, .ok { decoder with afterCr := false }) := if_pos swallowed
      rw [taken, lines_eq, if_neg (List.cons_ne_nil _ _),
        if_pos ⟨swallowed.1, congrArg some swallowed.2⟩]
      exact inductionHypothesis short
    by_cases ending : byte = cr ∨ byte = lf
    · have taken : takeByte (out, .ok decoder) byte =
          Outcome.shown (({ decoder with afterCr := byte = cr, line := [] } : Decoder).process
            decoder.line out) := (if_neg swallowed).trans (if_pos ending)
      have notLf : ¬ (decoder.afterCr = true ∧ (byte :: rest).head? = some lf) :=
        fun both => swallowed ⟨both.1, Option.some.inj both.2⟩
      have extended := @extendLine_ok { decoder with afterCr := false } [] short
      have ended : decide ((byte :: rest).head? = some cr) = decide (byte = cr) :=
        decide_eq_decide.mpr Option.some_inj
      rw [taken, lines_eq, if_neg (List.cons_ne_nil _ _), if_neg notLf, findCrOrLf_cons,
        if_pos ending]
      dsimp only
      rw [List.take_zero, extended, List.drop_zero]
      dsimp only
      rw [ended, List.tail_cons, List.append_nil]
      rcases ran : ({ decoder with afterCr := decide (byte = cr), line := [] } : Decoder).process
        decoder.line out with ⟨⟨after, sent⟩, refused | _⟩
      · exact (takeByte_refused sent refused rest).symm
      · have clear := clear_line rfl ran
        have fresh : after.line = [] := by rw [← clear]
        dsimp only
        rw [clear]
        refine inductionHypothesis ?_
        rw [fresh]
        exact Nat.zero_le _
    · by_cases long : decoder.maxEvent < decoder.line.length + 1
      · have taken : takeByte (out, .ok decoder) byte = (out, .error decoder.tooLong) :=
          (if_neg swallowed).trans ((if_neg ending).trans (if_pos long))
        rw [taken, takeByte_refused, lines_long ending long]
      · have taken : takeByte (out, .ok decoder) byte =
            (out, .ok { decoder with afterCr := false, line := decoder.line ++ [byte] }) :=
          (if_neg swallowed).trans ((if_neg ending).trans (if_neg long))
        have room := Nat.le_of_not_lt long
        rw [taken, lines_joins ending room]
        refine inductionHypothesis ?_
        rw [List.length_append]
        exact room

/-! ### Chunks -/

variable {chunks : List Bytes} {chunk : Bytes}

/-- What every byte keeps. -/
theorem takeByte_keeps {next : Decoder} (done : decoder.bomDone = true)
    (short : decoder.line.length ≤ decoder.maxEvent)
    (taken : takeByte (out, .ok decoder) byte = (sent, .ok next)) :
    next.bomDone = true ∧ next.line.length ≤ next.maxEvent := by
  change (if _ then _ else if _ then _ else if _ then _ else _) = _ at taken
  split at taken
  · cases taken
    exact ⟨done, short⟩
  split at taken
  · rename_i ending
    rcases ran : ({ decoder with afterCr := decide (byte = cr), line := [] } : Decoder).process
      decoder.line out with ⟨⟨after, messages⟩, refused | _⟩
    · rw [ran] at taken
      cases taken
    · have frame := process_frame
        { decoder with afterCr := decide (byte = cr), line := [] } decoder.line out
      rw [ran] at taken frame
      cases taken
      obtain ⟨-, -, line, bomDone, -⟩ := frame
      refine ⟨bomDone.trans done, ?_⟩
      rw [show after.line = [] from line]
      exact Nat.zero_le _
  split at taken
  · cases taken
  · rename_i room
    cases taken
    refine ⟨done, ?_⟩
    rw [List.length_append]
    exact Nat.le_of_not_lt room

theorem takeBytes_keep {out sent : List Message} {decoder next : Decoder} {bytes : Bytes}
    (done : decoder.bomDone = true) (short : decoder.line.length ≤ decoder.maxEvent)
    (taken : bytes.foldl takeByte (out, .ok decoder) = (sent, .ok next)) :
    next.bomDone = true ∧ next.line.length ≤ next.maxEvent := by
  induction bytes generalizing decoder out with
  | nil =>
    cases taken
    exact ⟨done, short⟩
  | cons byte rest inductionHypothesis =>
    rw [List.foldl_cons] at taken
    rcases first : takeByte (out, .ok decoder) byte with ⟨messages, refused | after⟩
    · rw [first, takeByte_refused] at taken
      cases taken
    · rw [first] at taken
      obtain ⟨stillDone, stillShort⟩ := takeByte_keeps done short first
      exact inductionHypothesis stillDone stillShort taken

/-- What shows of chunks is what shows of the first one and then of the others. -/
theorem feedAll_cons (decoder : Decoder) (out : List Message) (chunk : Bytes) (rest : List Bytes) :
    (decoder.feedAll out (chunk :: rest)).shown =
      match (decoder.feed chunk out).shown with
      | (sent, .error refused) => (sent, .error refused)
      | (sent, .ok next) => (next.feedAll sent rest).shown := by
  rw [feedAll]
  rcases decoder.feed chunk out with ⟨⟨next, sent⟩, refused | _⟩ <;> rfl

/-- Behind the probe, chunks are their bytes one after the other. -/
theorem feedAll_done (done : decoder.bomDone = true)
    (short : decoder.line.length ≤ decoder.maxEvent) :
    (decoder.feedAll out chunks).shown = chunks.flatten.foldl takeByte (out, .ok decoder) := by
  induction chunks generalizing decoder out with
  | nil => rfl
  | cons chunk rest inductionHypothesis =>
    have fed : decoder.feed chunk out = decoder.lines chunk out := if_pos done
    rw [feedAll_cons, fed, lines_shown short, List.flatten_cons, List.foldl_append]
    rcases taken : chunk.foldl takeByte (out, .ok decoder) with ⟨sent, refused | next⟩
    · exact (takeByte_refused sent refused rest.flatten).symm
    · obtain ⟨stillDone, stillShort⟩ := takeBytes_keep done short taken
      exact inductionHypothesis stillDone stillShort

/-- What bytes do behind the probe, and further chunks behind them. -/
theorem feedAll_behind {rest : List Bytes} {probed : Decoder} {bytes : Bytes}
    (done : probed.bomDone = true) (short : probed.line.length ≤ probed.maxEvent)
    (fed : (decoder.feed chunk out).shown = bytes.foldl takeByte (out, .ok probed)) :
    (decoder.feedAll out (chunk :: rest)).shown =
      (bytes ++ rest.flatten).foldl takeByte (out, .ok probed) := by
  rw [feedAll_cons, fed, List.foldl_append]
  rcases taken : bytes.foldl takeByte (out, .ok probed) with ⟨sent, refused | next⟩
  · exact (takeByte_refused sent refused rest.flatten).symm
  · obtain ⟨stillDone, stillShort⟩ := takeBytes_keep done short taken
    exact feedAll_done stillDone stillShort

/-- What stands behind a byte order mark, once it is known that there is one or none. -/
def behindMark (bytes : Bytes) : Bytes :=
  if bytes.isPrefixOf bom then [] else if bom.isPrefixOf bytes then bytes.drop 3 else bytes

theorem behindMark_marked (bytes : Bytes) : behindMark (bom ++ bytes) = bytes := by
  unfold behindMark
  split
  · rename_i whole
    have lengths := (List.isPrefixOf_iff_prefix.mp whole).length_le
    rw [List.length_append] at lengths
    exact (List.eq_nil_of_length_eq_zero (by omega)).symm
  · rw [if_pos (List.isPrefixOf_iff_prefix.mpr (List.prefix_append bom bytes))]
    rfl

theorem behindMark_unmarked {front : Bytes} (short : front.length ≤ bom.length)
    (apart : ¬ front <+: bom) (bytes : Bytes) : behindMark (front ++ bytes) = front ++ bytes := by
  have begins : front <+: front ++ bytes := List.prefix_append front bytes
  unfold behindMark
  rw [if_neg, if_neg]
  · intro marked
    exact apart (List.prefix_of_prefix_length_le begins
      (List.isPrefixOf_iff_prefix.mp marked) short)
  · intro whole
    exact apart (begins.trans (List.isPrefixOf_iff_prefix.mp whole))

/-- What a decoder still waits for behind bytes that may all be of the mark. -/
def Undecided (bytes : Bytes) : Prop := bytes.length < bom.length ∧ bytes <+: bom

instance (bytes : Bytes) : Decidable (Undecided bytes) := inferInstanceAs (Decidable (_ ∧ _))

/-- A chunk that decides whether there is a mark is taken behind it. -/
theorem feed_decided (decoder : Decoder) (out : List Message) (probing : decoder.bomDone = false)
    (short : decoder.line.length ≤ decoder.maxEvent) :
    let take := min (bom.length - decoder.head.length) chunk.length
    let front := decoder.head ++ chunk.take take
    ¬ Undecided front →
      (decoder.feed chunk out).shown =
        (if front = bom then chunk.drop take else front ++ chunk.drop take).foldl takeByte
          (out, .ok { decoder with head := [], bomDone := true }) := by
  intro take front decided
  have refused : ¬ (front.length < bom.length ∧ front.isPrefixOf bom = true) :=
    fun both => decided ⟨both.1, List.isPrefixOf_iff_prefix.mp both.2⟩
  unfold feed
  rw [if_neg (ne_true_of_eq_false probing)]
  dsimp only
  rw [if_neg refused]
  change Outcome.shown (if front = bom then _ else _) = _
  split
  · exact @lines_shown _ { decoder with head := [], bomDone := true } out short
  · have first := @lines_shown front { decoder with head := [], bomDone := true } out short
    rw [List.foldl_append]
    rcases ran : ({ decoder with head := [], bomDone := true } : Decoder).lines front out with
      ⟨⟨next, sent⟩, refusal | _⟩
    · rw [ran] at first
      rw [← first]
      exact (takeByte_refused sent refusal _).symm
    · rw [ran] at first
      have kept := @takeBytes_keep _ _ { decoder with head := [], bomDone := true } _ _ rfl short
        first.symm
      rw [← first]
      exact lines_shown kept.2

/-- Whatever the chunks, the bytes behind the mark are taken one after the other. -/
theorem feedAll_probed (probing : decoder.bomDone = false) (undecided : Undecided decoder.head)
    (short : decoder.line.length ≤ decoder.maxEvent) :
    (decoder.feedAll out chunks).shown =
      if Undecided (decoder.head ++ chunks.flatten) then
        (out, .ok { decoder with head := decoder.head ++ chunks.flatten })
      else (behindMark (decoder.head ++ chunks.flatten)).foldl takeByte
        (out, .ok { decoder with head := [], bomDone := true }) := by
  induction chunks generalizing decoder with
  | nil =>
    rw [List.flatten_nil, List.append_nil, if_pos undecided]
    rfl
  | cons chunk rest inductionHypothesis =>
    obtain ⟨room, begins⟩ := undecided
    have measured : (decoder.head ++
        chunk.take (min (bom.length - decoder.head.length) chunk.length)).length =
        min bom.length (decoder.head.length + chunk.length) := by
      rw [List.length_append, List.length_take]
      omega
    have whole : decoder.head ++ chunk =
        (decoder.head ++ chunk.take (min (bom.length - decoder.head.length) chunk.length)) ++
          chunk.drop (min (bom.length - decoder.head.length) chunk.length) := by
      rw [List.append_assoc, List.take_append_drop]
    have taken : decoder.head.length + chunk.length < bom.length →
        chunk.take (min (bom.length - decoder.head.length) chunk.length) = chunk := by
      intro less
      rw [Nat.min_eq_right (by omega), List.take_length]
    rw [List.flatten_cons]
    by_cases still : Undecided (decoder.head ++
        chunk.take (min (bom.length - decoder.head.length) chunk.length))
    · have all := taken (by
        have less := still.1
        rw [measured] at less
        omega)
      have fed : decoder.feed chunk out =
          (({ decoder with head := decoder.head ++ chunk }, out), .ok ()) := by
        unfold feed
        rw [if_neg (ne_true_of_eq_false probing)]
        dsimp only
        rw [if_pos ⟨still.1, List.isPrefixOf_iff_prefix.mpr still.2⟩, all]
      rw [all] at still
      rw [feedAll_cons, fed]
      have later := @inductionHypothesis { decoder with head := decoder.head ++ chunk } probing
        still short
      dsimp only at later
      rw [List.append_assoc] at later
      exact later
    · have decided : ¬ Undecided (decoder.head ++ (chunk ++ rest.flatten)) := by
        rw [← List.append_assoc, whole, List.append_assoc]
        rintro ⟨less, prefix_⟩
        refine still ⟨Nat.lt_of_le_of_lt ?_ less, (List.prefix_append _ _).trans prefix_⟩
        rw [@List.length_append _ (decoder.head ++ _)]
        exact Nat.le_add_right _ _
      have cut : (decoder.head ++
          chunk.take (min (bom.length - decoder.head.length) chunk.length)).length ≤
            bom.length := by
        rw [measured]
        exact Nat.min_le_left _ _
      have fed := decoder.feed_decided out probing short still
      rw [if_neg decided, ← List.append_assoc, whole, List.append_assoc]
      generalize decoder.head ++
        chunk.take (min (bom.length - decoder.head.length) chunk.length) = front at fed still cut ⊢
      split at fed
      · rename_i marked
        subst marked
        rw [behindMark_marked]
        exact feedAll_behind rfl short fed
      · rename_i unmarked
        have apart : ¬ front <+: bom := by
          intro prefix_
          rcases Nat.eq_or_lt_of_le cut with same | less
          · exact unmarked (prefix_.eq_of_length same)
          · exact still ⟨less, prefix_⟩
        rw [behindMark_unmarked cut apart, ← List.append_assoc]
        exact feedAll_behind rfl short fed

end Decoder

end ZeroServer.Sse

/-
This file proves that the writer draws up what its calls describe: its bits follow the open
containers of an outline through every sequence of calls, refused ones leave nothing behind, and
what is complete is a text of the grammar.
-/

import ZeroServer.Json.Outline

namespace ZeroServer.Json

open Http1 Lib

/-- The writing of a call. -/
def Call.write (display : Binary64 → Bytes) : Call → Writing
  | .beginObject => Writer.beginObject
  | .endObject => Writer.endObject
  | .beginArray => Writer.beginArray
  | .endArray => Writer.endArray
  | .key name => Writer.key name
  | .string text => Writer.string text
  | .int number => Writer.int number
  | .uint number => Writer.uint number
  | .bool flag => Writer.bool flag
  | .null => Writer.null
  | .float number => Writer.float display number

variable {error : WriteError}

namespace Writer

variable (display : Binary64 → Bytes)

/-- The writer behind calls. -/
def after (calls : List Call) (writer : Writer) : Writer :=
  calls.foldl (fun writer call => (call.write display writer).2) writer

/-- The verdicts on calls. -/
def verdicts : List Call → Writer → List (Except WriteError Unit)
  | [], _ => []
  | call :: rest, writer =>
    (call.write display writer).1 :: verdicts rest (call.write display writer).2

/-- The calls that are not refused. -/
def accepted : List Call → Writer → List Call
  | [], _ => []
  | call :: rest, writer =>
    let (verdict, next) := call.write display writer
    match verdict with
    | .ok () => call :: accepted rest next
    | .error _ => accepted rest next

/-- What the standard library displays of a float, with a fraction in every case. -/
def floatText (number : Binary64) : Bytes :=
  display number ++
    if (display number).any fun byte => byte = dot ∨ byte = 101 ∨ byte = 69 then [] else [dot, 48]

/-- What is relied on: a finite float is displayed as a number of the grammar, once it has a
fraction. -/
def Displays (read : Binary64 → Number) : Prop :=
  ∀ number, number.isFinite = true →
    (read number).WellFormed ∧ floatText display number = (read number).text

variable {display} {writer middle : Writer} {call : Writing}

/-! ### What calls keep -/

theorem bind_error {second : Writing} (refused : call writer = (.error error, middle)) :
    (call >>= fun _ => second) writer = (.error error, middle) := by
  change ExceptT.bindCont (fun _ => second) (call writer).1 (call writer).2 = _
  rw [refused]
  rfl

theorem beforeValue_done (ran : beforeValue writer = (.ok (), middle)) :
    middle.done = (writer.done || decide (writer.depth = 0)) := by
  unfold beforeValue at ran
  split at ran
  · rename_i top
    split at ran
    · cases ran
    · cases ran
      rw [decide_eq_true top, Bool.or_true]
  · rename_i inside
    rw [decide_eq_false inside, Bool.or_false]
    split at ran
    · split at ran
      · cases ran
        rfl
      · cases ran
    · cases ran
      dsimp only
      split <;> rfl

theorem closeWith_done (byte : UInt8) (object : Bool) :
    (closeWith byte object writer).2.done = writer.done := by
  unfold closeWith
  split
  · rfl
  · split <;> rfl

theorem key_done (name : List Char) : (key name writer).2.done = writer.done := by
  unfold key
  split
  · rfl
  · dsimp only
    split <;> rfl

end Writer

namespace Outline

open Writer (Wrote)

/-- The frames of open containers. -/
def frames : List Level → List Frame
  | [] => []
  | level :: outer => ⟨level.isObject, level.filled⟩ :: Writer.fill (frames outer)

theorem length_frames (levels : List Level) : (frames levels).length = levels.length := by
  induction levels with
  | nil => rfl
  | cons level outer inductionHypothesis =>
    rw [frames, List.length_cons, Writer.length_fill, inductionHypothesis, List.length_cons]

def dueOf : List Level → Bool
  | [] => false
  | level :: _ => level.due

/-- The writer behind a buffer holds what an outline describes. -/
structure Draws (read : Binary64 → Number) (out : Bytes) (outline : Outline) (writer : Writer) :
    Prop where
  out : writer.out = out ++ outline.text read
  tracks : writer.Tracks (frames outline.levels)
  due : writer.valueDue = dueOf outline.levels
  done : writer.done = (outline.root.isSome || !outline.levels.isEmpty)

variable {read : Binary64 → Number} {display : Binary64 → Bytes} {out : Bytes}
  {outline next : Outline} {writer : Writer} {doc : Doc}

theorem blank_draws (out : Bytes) : Draws read out blank (Writer.new out) :=
  ⟨(List.append_nil out).symm, Writer.new_tracks out, rfl, rfl⟩

/-- How a call is answered: it takes the outline on, or it leaves the writer as it is. -/
def Answers (read : Binary64 → Number) (out : Bytes) (verdict : Except WriteError Outline)
    (writer : Writer) (ran : Except WriteError Unit × Writer) : Prop :=
  match verdict with
  | .ok next => ran.1 = .ok () ∧ Draws read out next ran.2
  | .error error => ran = (.error error, writer)

/-! ### Values -/

theorem Draws.awaits (draws : Draws read out outline writer) (awaits : outline.awaits = true) :
    writer.Awaits (frames outline.levels) := by
  obtain ⟨levels, root⟩ := outline
  cases levels with
  | nil =>
    have empty : root = none := Option.isNone_iff_eq_none.mp awaits
    subst empty
    exact ⟨draws.done, draws.due⟩
  | cons level outer =>
    cases level with
    | array items => exact ⟨draws.due, nofun⟩
    | object members due =>
      have named : due.isSome = true := awaits
      refine ⟨draws.due.trans named, fun _ => ?_⟩
      change (!members.isEmpty || due.isSome) = true
      rw [named, Bool.or_true]

theorem separator_frames (awaits : outline.awaits = true) :
    Writer.separator (frames outline.levels) = separatorOf outline.levels := by
  obtain ⟨levels, root⟩ := outline
  cases levels with
  | nil => rfl
  | cons level outer => cases level <;> rfl

theorem frames_put (awaits : outline.awaits = true) (doc : Doc) :
    frames (outline.put doc).levels = Writer.fill (frames outline.levels) := by
  obtain ⟨levels, root⟩ := outline
  cases levels with
  | nil => rfl
  | cons level outer =>
    have filled : (level.put doc).filled = true := by
      cases level with
      | array items => simp [Level.put, Level.filled]
      | object members due =>
        cases due with
        | none => cases awaits
        | some name => simp [Level.put, Level.filled]
    have same : (level.put doc).isObject = level.isObject := by cases level <;> rfl
    change (⟨(level.put doc).isObject, (level.put doc).filled⟩ : Frame) ::
      Writer.fill (frames outer) = _
    rw [filled, same]
    rfl

theorem dueOf_put (doc : Doc) (outline : Outline) : dueOf (outline.put doc).levels = false := by
  obtain ⟨levels, root⟩ := outline
  cases levels with
  | nil => rfl
  | cons level outer => cases level <;> rfl

theorem put_done (doc : Doc) (outline : Outline) :
    ((outline.put doc).root.isSome || !(outline.put doc).levels.isEmpty) = true := by
  obtain ⟨levels, root⟩ := outline
  cases levels with
  | nil => rfl
  | cons level outer => exact Bool.or_true _

theorem Draws.beforeValue_done {middle : Writer} (draws : Draws read out outline writer)
    (ran : Writer.beforeValue writer = (.ok (), middle)) : middle.done = true := by
  have depth : writer.depth = outline.levels.length :=
    draws.tracks.depth.trans (length_frames _)
  rw [Writer.beforeValue_done ran, draws.done, depth]
  cases outline.levels with
  | nil => exact Bool.or_true _
  | cons level outer => exact Bool.or_eq_true_iff.mpr (.inl (Bool.or_true _))

theorem Draws.beforeValue_refused (draws : Draws read out outline writer)
    (refused : outline.awaits = false) :
    Writer.beforeValue writer = (.error .misplaced, writer) := by
  obtain ⟨levels, root⟩ := outline
  unfold Writer.beforeValue
  cases levels with
  | nil =>
    cases root with
    | none => cases refused
    | some doc =>
      rw [if_pos (show writer.depth = 0 from draws.tracks.depth), draws.done]
      rfl
  | cons level outer =>
    cases level with
    | array items => cases refused
    | object members due =>
      have unnamed : due.isSome = false := refused
      rw [if_neg draws.tracks.depth_pos, if_pos (draws.tracks.object_bit.mpr rfl), if_neg]
      · rfl
      · rw [draws.due]
        exact Bool.eq_false_iff.mp unnamed

/-- A value without parts is put where one may be. -/
theorem Draws.single {update : Writer → Writer} (draws : Draws read out outline writer)
    (updates : ∀ writer, update writer = writer.push (doc.text read)) :
    Answers read out (outline.value doc) writer
      ((do Writer.beforeValue; Writer.change update : Writing) writer) := by
  unfold Outline.value
  cases awaits : outline.awaits with
  | false => exact Writer.bind_error (draws.beforeValue_refused awaits)
  | true =>
    obtain ⟨middle, ran, wrote⟩ := Writer.beforeValue_wrote draws.tracks (draws.awaits awaits)
    rw [if_pos rfl, Writer.bind_ok ran, Writer.change, updates]
    refine ⟨rfl, ?_, ?_, wrote.settled.trans (dueOf_put doc outline).symm, ?_⟩
    · change middle.out ++ doc.text read = _
      rw [wrote.out, draws.out, put_text awaits, separator_frames awaits]
      simp only [List.append_assoc]
    · rw [frames_put awaits]
      exact wrote.tracks.congr rfl rfl rfl
    · exact (draws.beforeValue_done ran).trans (put_done doc outline).symm

/-! ### Containers -/

variable {level : Level}

theorem Draws.enter {level : Level} {byte : UInt8} (draws : Draws read out outline writer)
    (fresh : level.text read = [byte]) (empty : level.filled = false)
    (settled : level.due = false) : Answers read out (outline.enter level) writer
      (Writer.openWith byte level.isObject writer) := by
  have depth : writer.depth = outline.levels.length :=
    draws.tracks.depth.trans (length_frames _)
  unfold Outline.enter Writer.openWith
  rw [depth]
  by_cases deep : Writer.maxDepth ≤ outline.levels.length
  · rw [if_pos deep, if_pos deep]
    rfl
  rw [if_neg deep, if_neg deep]
  cases awaits : outline.awaits with
  | false => exact Writer.bind_error (draws.beforeValue_refused awaits)
  | true =>
    obtain ⟨middle, ran, wrote⟩ := Writer.beforeValue_wrote draws.tracks (draws.awaits awaits)
    rw [if_pos rfl, Writer.bind_ok ran, Writer.change]
    refine ⟨rfl, ?_, ?_, wrote.settled.trans settled.symm, ?_⟩
    · change middle.out ++ [byte] = out ++ (_ ++ (levelsText read outline.levels ++
        (separatorOf outline.levels ++ level.text read)))
      rw [wrote.out, draws.out, separator_frames awaits, fresh, Outline.text]
      simp only [List.append_assoc]
    · have entered := wrote.tracks.enter (by
        rw [Writer.length_fill, length_frames]
        exact Nat.lt_of_not_le deep) byte level.isObject
      rw [← empty] at entered
      exact entered
    · exact (draws.beforeValue_done ran).trans (Bool.or_true _).symm

theorem closed_text (settled : level.due = false) :
    level.closed.text read =
      level.text read ++ [if level.isObject then closeBrace else closeBracket] := by
  cases level with
  | array items => rfl
  | object members due =>
    cases due with
    | none =>
      change openBrace :: (Doc.membersText read members ++ [closeBrace]) =
        openBrace :: ((Doc.membersText read members ++ []) ++ [closeBrace])
      rw [List.append_nil]
    | some name => cases settled

/-- What is around an open container awaits it. -/
theorem Drawn.awaits_outer {outer : List Level} {root : Option Doc}
    (drawn : Drawn ⟨level :: outer, root⟩) : awaits ⟨outer, root⟩ = true := by
  cases outer with
  | nil => exact Option.isNone_iff_eq_none.mpr (drawn.root (List.cons_ne_nil _ _))
  | cons next outer => exact drawn.outer next List.mem_cons_self

theorem Draws.leave (drawn : outline.Drawn) (draws : Draws read out outline writer)
    (object : Bool) :
    Answers read out (outline.leave object) writer
      (Writer.closeWith (if object then closeBrace else closeBracket) object writer) := by
  obtain ⟨levels, root⟩ := outline
  unfold Outline.leave
  cases levels with
  | nil =>
    unfold Writer.closeWith
    rw [if_pos (.inl draws.tracks.depth)]
    rfl
  | cons level outer =>
    dsimp only
    cases due : level.due with
    | true =>
      unfold Writer.closeWith
      rw [Bool.true_or, if_pos rfl, if_pos (.inr (draws.due.trans due))]
      rfl
    | false =>
      have settled := draws.due.trans due
      by_cases same : level.isObject = object
      · subst same
        obtain ⟨after, ran, wrote⟩ := Writer.closeWith_wrote draws.tracks settled
          (if level.isObject then closeBrace else closeBracket)
        have done := @Writer.closeWith_done writer
          (if level.isObject then closeBrace else closeBracket) level.isObject
        rw [bne_self_eq_false, Bool.or_false, if_neg Bool.false_ne_true, ran]
        rw [ran] at done
        have awaits := drawn.awaits_outer
        refine ⟨rfl, ?_, ?_, wrote.settled.trans (dueOf_put _ _).symm, ?_⟩
        · rw [wrote.out, draws.out, put_text awaits, closed_text due]
          unfold Outline.text
          rw [levelsText]
          simp only [List.append_assoc]
        · rw [frames_put awaits]
          exact wrote.tracks
        · rw [put_done]
          exact done.trans (draws.done.trans (Bool.or_true _))
      · have differ : (level.isObject != object) = true := bne_iff_ne.mpr same
        unfold Writer.closeWith
        rw [differ, Bool.or_true, if_pos rfl, if_neg fun refused =>
          refused.elim draws.tracks.depth_pos (ne_true_of_eq_false settled), if_pos]
        · rfl
        · intro equal
          refine same ?_
          rw [← equal, Bool.eq_iff_iff, decide_eq_true_iff]
          exact draws.tracks.object_bit.symm

theorem Draws.key (draws : Draws read out outline writer) (name : List Char) :
    Answers read out (outline.key name) writer (Writer.key name writer) := by
  obtain ⟨levels, root⟩ := outline
  have refused : (writer.depth = 0 ∨ writer.isObject &&& writer.bit = 0 ∨ writer.valueDue) →
      Writer.key name writer = (.error .misplaced, writer) := by
    intro refused
    unfold Writer.key
    rw [if_pos refused]
    rfl
  unfold Outline.key
  cases levels with
  | nil => exact refused (.inl draws.tracks.depth)
  | cons level outer =>
    cases level with
    | array items =>
      refine refused (.inr (.inl ?_))
      by_contra object
      exact Bool.false_ne_true (draws.tracks.object_bit.mp object)
    | object members due =>
      cases due with
      | some other => exact refused (.inr (.inr draws.due))
      | none =>
        have tracks : writer.Tracks (⟨true, !members.isEmpty⟩ ::
            Writer.fill (frames outer)) := by
          have tracks := draws.tracks
          change writer.Tracks (⟨true, !members.isEmpty || false⟩ :: _) at tracks
          rwa [Bool.or_false] at tracks
        have writes : ∀ out, Writer.writeString out name = out ++ stringText name :=
          fun out => writeString_eq out name
        obtain ⟨after, ran, wrote, named, due⟩ := Writer.key_wrote tracks draws.due writes
        have done := @Writer.key_done writer name
        rw [ran] at done ⊢
        refine ⟨rfl, ?_, ?_, due, done.trans draws.done⟩
        · rw [wrote, draws.out]
          unfold Outline.text
          simp only [levelsText, Level.text, Level.dueText, List.append_assoc, List.cons_append,
            List.nil_append]
        · change after.Tracks (⟨true, !members.isEmpty || true⟩ :: _)
          rwa [Bool.or_true]

/-! ### Calls -/

/-- Every call gets the verdict of the outline, and a refused one leaves the writer as it is. -/
theorem Draws.answers (displays : Writer.Displays display read) (drawn : outline.Drawn)
    (draws : Draws read out outline writer) (call : Call) :
    Answers read out (outline.accept call) writer (call.write display writer) := by
  cases call with
  | beginObject => exact @Draws.enter _ _ _ _ (.object [] none) openBrace draws rfl rfl rfl
  | endObject => exact draws.leave drawn true
  | beginArray => exact @Draws.enter _ _ _ _ (.array []) openBracket draws rfl rfl rfl
  | endArray => exact draws.leave drawn false
  | key name => exact draws.key name
  | string text =>
    refine @Draws.single _ _ _ _ (.string text) _ draws fun writer => ?_
    rw [writeString_eq]
    rfl
  | int number => exact @Draws.single _ _ _ _ (.int number) _ draws (int_written number)
  | uint number =>
    refine @Draws.single _ _ _ _ (.uint number) _ draws fun writer => ?_
    rw [writeUnsigned_eq, ← Doc.unsignedNumber_text]
    rfl
  | bool flag => exact @Draws.single _ _ _ _ (.bool flag) _ draws fun writer => rfl
  | null => exact @Draws.single _ _ _ _ .null _ draws fun writer => rfl
  | float number =>
    change Answers read out (if number.isFinite then outline.value (.float number)
      else .error .nonFinite) writer (Writer.float display number writer)
    unfold Writer.float
    cases finite : number.isFinite with
    | false => rfl
    | true =>
      rw [if_pos rfl, if_neg (not_not_intro rfl)]
      refine @Draws.single _ _ _ _ (.float number) _ draws fun writer => ?_
      have shown := (displays number finite).2
      unfold Writer.floatText at shown
      dsimp only [Doc.text]
      rw [← shown]
      split
      · rw [List.append_nil]
      · unfold Writer.push
        dsimp only
        rw [List.append_assoc]

theorem enter_drawn (drawn : outline.Drawn) (empty : level.docs = [])
    (entered : outline.enter level = .ok next) :
    next.Drawn ∧ next.calls = outline.calls ++ level.calls := by
  unfold Outline.enter at entered
  split at entered
  · cases entered
  · rename_i room
    split at entered
    · rename_i awaits
      cases entered
      obtain ⟨levels, root⟩ := outline
      have around : ∀ level ∈ levels, level.awaits = true := by
        cases levels with
        | nil => exact nofun
        | cons level outer => exact List.forall_mem_cons.mpr ⟨awaits, drawn.outer⟩
      have incomplete : root = none := by
        cases levels with
        | nil => exact Option.isNone_iff_eq_none.mp awaits
        | cons level outer => exact drawn.root (List.cons_ne_nil _ _)
      refine ⟨⟨around, fun _ => incomplete, Nat.lt_of_not_le room, ⟨?_, drawn.roomy⟩,
        drawn.within⟩, ?_⟩
      · rw [empty]
        exact nofun
      · change _ ++ (levelsCalls levels ++ level.calls) = _
        rw [← List.append_assoc]
        rfl
    · cases entered

theorem value_drawn (drawn : outline.Drawn)
    (within : ∀ depth, doc.Within depth) (put : outline.value doc = .ok next) :
    next.Drawn ∧ next.calls = outline.calls ++ doc.calls := by
  unfold Outline.value at put
  split at put
  · rename_i awaits
    cases put
    exact ⟨drawn.put (within _), put_calls awaits⟩
  · cases put

theorem key_drawn (drawn : outline.Drawn) {name : List Char} (named : outline.key name = .ok next) :
    next.Drawn ∧ next.calls = outline.calls ++ [.key name] := by
  obtain ⟨levels, root⟩ := outline
  unfold Outline.key at named
  split at named
  · rename_i members outer same
    dsimp only at same
    subst same
    cases named
    refine ⟨⟨drawn.outer, fun _ => drawn.root (List.cons_ne_nil _ _), drawn.shallow, drawn.roomy,
      drawn.within⟩, ?_⟩
    unfold Outline.calls
    simp [levelsCalls, Level.calls]
  · cases named

theorem closed_within {depth : Nat} (each : ∀ doc ∈ level.docs, doc.Within depth) :
    level.closed.Within (depth + 1) := by
  cases level with
  | array items => exact .array each
  | object members due =>
    exact .object fun member among => each member.2 (List.mem_map_of_mem among)

theorem closed_calls (settled : level.due = false) :
    level.closed.calls =
      level.calls ++ [if level.isObject then .endObject else .endArray] := by
  cases level with
  | array items => rfl
  | object members due =>
    cases due with
    | none =>
      change Call.beginObject :: (Doc.membersCalls members ++ [.endObject]) =
        Call.beginObject :: ((Doc.membersCalls members ++ []) ++ [.endObject])
      rw [List.append_nil]
    | some name => cases settled

theorem leave_drawn (drawn : outline.Drawn) {object : Bool}
    (left : outline.leave object = .ok next) :
    next.Drawn ∧ next.calls = outline.calls ++ [if object then .endObject else .endArray] := by
  obtain ⟨levels, root⟩ := outline
  unfold Outline.leave at left
  cases levels with
  | nil => cases left
  | cons level outer =>
    dsimp only at left
    split at left
    · cases left
    · rename_i closes
      cases left
      obtain ⟨settled, same⟩ := Bool.or_eq_false_iff.mp (Bool.eq_false_iff.mpr closes)
      have kind : level.isObject = object := bne_eq_false_iff_eq.mp same
      subst kind
      have awaits := drawn.awaits_outer
      have around : Drawn ⟨outer, root⟩ :=
        ⟨fun level among => drawn.outer level (List.mem_of_mem_tail among),
          fun _ => drawn.root (List.cons_ne_nil _ _), Nat.le_of_succ_le drawn.shallow,
          drawn.roomy.2, drawn.within⟩
      have within : level.closed.Within (Writer.maxDepth - outer.length) := by
        have inner := closed_within drawn.roomy.1
        have room : outer.length + 1 ≤ Writer.maxDepth := drawn.shallow
        rwa [Nat.sub_add_eq, Nat.sub_add_cancel (Nat.sub_pos_of_lt room)] at inner
      refine ⟨around.put within, ?_⟩
      rw [put_calls awaits, closed_calls settled]
      unfold Outline.calls
      rw [levelsCalls]
      simp only [List.append_assoc]

/-- A call that is accepted is the last of those that describe the outline. -/
theorem accept_drawn (drawn : outline.Drawn) {call : Call}
    (accepted : outline.accept call = .ok next) :
    next.Drawn ∧ next.calls = outline.calls ++ [call] := by
  cases call with
  | beginObject => exact enter_drawn drawn rfl accepted
  | endObject => exact leave_drawn drawn accepted
  | beginArray => exact enter_drawn drawn rfl accepted
  | endArray => exact leave_drawn drawn accepted
  | key name => exact key_drawn drawn accepted
  | string text => exact value_drawn drawn (fun _ => .string text) accepted
  | int number => exact value_drawn drawn (fun _ => .int number) accepted
  | uint number => exact value_drawn drawn (fun _ => .uint number) accepted
  | bool flag => exact value_drawn drawn (fun _ => .bool flag) accepted
  | null => exact value_drawn drawn (fun _ => .null) accepted
  | float number =>
    change (if number.isFinite then outline.value (.float number) else .error .nonFinite) = _
      at accepted
    split at accepted
    · rename_i finite
      exact value_drawn drawn (fun _ => .float finite) accepted
    · cases accepted

/-! ### Runs -/

/-- Behind every sequence of calls, the writer holds what the accepted ones describe. -/
theorem Draws.run (displays : Writer.Displays display read) (calls : List Call)
    (drawn : outline.Drawn) (draws : Draws read out outline writer) :
    ∃ last : Outline, last.Drawn ∧ Draws read out last (Writer.after display calls writer) ∧
      last.calls = outline.calls ++ Writer.accepted display calls writer := by
  induction calls generalizing outline writer with
  | nil => exact ⟨outline, drawn, draws, (List.append_nil _).symm⟩
  | cons call rest inductionHypothesis =>
    have answers := draws.answers displays drawn call
    unfold Writer.accepted
    unfold Writer.after
    rw [List.foldl_cons]
    generalize call.write display writer = ran at answers ⊢
    obtain ⟨verdict, next⟩ := ran
    cases accepted : outline.accept call with
    | error error =>
      rw [accepted] at answers
      obtain ⟨rfl, rfl⟩ := Prod.mk.inj answers
      exact inductionHypothesis drawn draws
    | ok further =>
      rw [accepted] at answers
      obtain ⟨ok, draws⟩ := answers
      dsimp only at ok draws
      subst ok
      obtain ⟨drawn, described⟩ := accept_drawn drawn accepted
      obtain ⟨last, lastDrawn, lastDraws, whole⟩ := inductionHypothesis drawn draws
      refine ⟨last, lastDrawn, lastDraws, ?_⟩
      rw [whole, described, List.append_assoc]
      rfl

/-- A call that is refused leaves the writer as it is. -/
theorem Draws.refused (displays : Writer.Displays display read) (drawn : outline.Drawn)
    (draws : Draws read out outline writer) {call : Call}
    (refused : (call.write display writer).1 = .error error) :
    (call.write display writer).2 = writer := by
  have answers := draws.answers displays drawn call
  cases accepted : outline.accept call with
  | error error =>
    rw [accepted] at answers
    exact congrArg Prod.snd answers
  | ok next =>
    rw [accepted] at answers
    cases refused.symm.trans answers.1

/-- What is complete is one document, and all of it is written. -/
theorem Draws.complete (draws : Draws read out outline writer) (complete : writer.isComplete) :
    ∃ doc, outline = ⟨[], some doc⟩ := by
  obtain ⟨levels, root⟩ := outline
  obtain ⟨done, top⟩ := Bool.and_eq_true_iff.mp complete
  cases levels with
  | cons level outer => exact absurd (of_decide_eq_true top) draws.tracks.depth_pos
  | nil =>
    cases root with
    | none => cases draws.done.symm.trans done
    | some doc => exact ⟨doc, rfl⟩

end Outline

/-- Every sequence of calls from a new writer is taken: a refused call leaves the bytes and the
verdicts on all later calls as they are, and once the text is complete, the bytes behind the buffer
are one text of the grammar, for the document the accepted calls describe, which is parsed with a
sufficient depth and size. -/
theorem calls_write_text {display : Binary64 → Bytes} {read : Binary64 → Number}
    (displays : Writer.Displays display read) (out : Bytes) (calls : List Call) :
    let writer := Writer.after display calls (Writer.new out)
    (∀ (call : Call) error, (call.write display writer).1 = .error error →
      (call.write display writer).2.out = writer.out ∧
        ∀ later, Writer.verdicts display later (call.write display writer).2 =
          Writer.verdicts display later writer) ∧
    (writer.isComplete → ∃ doc : Doc,
      Writer.accepted display calls (Writer.new out) = doc.calls ∧
      writer.out = out ++ doc.text read ∧
      (∀ bigIntegers, JsonText (fun _ => True) bigIntegers Writer.maxDepth (doc.text read)
        (doc.value read bigIntegers)) ∧
      ((∀ number, number.isFinite = true → (read number).Finite) → ∀ options : Options,
        Writer.maxDepth ≤ options.maxDepth → (doc.text read).length ≤ options.maxSize →
        (options.topLevel = .objectOrArray →
          (doc.value read options.bigIntegers).isContainer = true) →
        parseWith (doc.text read) options = .ok (doc.value read options.bigIntegers))) := by
  intro writer
  obtain ⟨outline, drawn, draws, described⟩ :=
    (Outline.blank_draws out).run displays calls Outline.blank_drawn
  refine ⟨fun call error refused => ?_, fun complete => ?_⟩
  · have same : (call.write display writer).2 = writer := draws.refused displays drawn refused
    rw [same]
    exact ⟨rfl, fun _ => rfl⟩
  obtain ⟨doc, rfl⟩ := draws.complete complete
  have within : doc.Within Writer.maxDepth := drawn.within doc rfl
  have wellFormed : ∀ number, number.isFinite = true → (read number).WellFormed :=
    fun number finite => (displays number finite).1
  have isText : ∀ {allowed : Number → Prop} (bigIntegers : BigIntegers) {depth : Nat},
      Writer.maxDepth ≤ depth → Doc.Allows read allowed →
      JsonText allowed bigIntegers depth (doc.text read) (doc.value read bigIntegers) := by
    intro allowed bigIntegers depth deep allows
    have spelled := @JsonText.text _ _ _ [] [] _ [] _ (.inl rfl) nofun
      (@Doc.Within.spells read allowed bigIntegers _ _ (within.deeper deep) wellFormed allows)
      nofun
    rwa [List.append_nil] at spelled
  refine ⟨doc, ?_, ?_, fun bigIntegers => ?_, fun finite options deep small top => ?_⟩
  · have whole : doc.calls ++ [] = [] ++ Writer.accepted display calls (Writer.new out) := described
    rw [List.append_nil, List.nil_append] at whole
    exact whole.symm
  · have written := draws.out
    change writer.out = out ++ (doc.text read ++ []) at written
    rwa [List.append_nil] at written
  · exact isText bigIntegers (Nat.le_refl _)
      ⟨fun _ => trivial, fun _ => trivial, fun _ _ => trivial⟩
  · have cap : Writer.maxDepth ≤ min options.maxDepth depthCap :=
      Nat.le_min.mpr ⟨deep, by decide⟩
    refine parseWith_complete small (isText options.bigIntegers cap
      ⟨fun number => ?_, fun number => ?_, fun number isFinite => ?_⟩) top
    · exact fun refused => absurd (integerNumber_fits number) (refused.resolve_left nofun).2
    · exact fun _ => Doc.unsignedNumber_finite number
    · exact fun _ => finite number isFinite

/-- One and a half, as it is displayed. -/
def oneAndHalf : Number := ⟨false, [49], some [53], none⟩

theorem oneAndHalf_wellFormed : oneAndHalf.WellFormed := by
  have digits : ∀ byte, isAsciiDigit byte = true → Digits [byte] := fun byte digit =>
    ⟨List.cons_ne_nil _ _, List.forall_mem_singleton.mpr digit⟩
  refine ⟨digits 49 (by decide), by decide, ?_, nofun⟩
  rintro _ ⟨⟩
  exact digits 53 (by decide)

theorem oneAndHalf_finite : oneAndHalf.Finite := by
  have large := Doc.word_le_overflow
  unfold Number.Finite
  generalize Binary64.overflow = least at large ⊢
  change 15 * 1 < 10 * least
  omega

theorem calls_write_text_nested :
    let display := fun _ => ascii "1.5"
    let number := Binary64.finite false (3 * 2 ^ 1073)
    let calls := [.beginObject, .null, .key ['a'], .endObject, .beginArray, .float number, .uint 7,
      .endObject, .endArray, .endObject, .null]
    let writer := Writer.after display calls (Writer.new [])
    let options := { Options.default with maxDepth := 128 }
    writer.out = ascii "\x7b\"a\":[1.5,7]\x7d" ∧
    (∀ (call : Call) error, (call.write display writer).1 = .error error →
      (call.write display writer).2.out = writer.out ∧
        ∀ later, Writer.verdicts display later (call.write display writer).2 =
          Writer.verdicts display later writer) ∧
    ∃ doc : Doc,
      Writer.accepted display calls (Writer.new []) = doc.calls ∧
      writer.out = [] ++ doc.text (fun _ => oneAndHalf) ∧
      parseWith (doc.text fun _ => oneAndHalf) options =
        .ok (doc.value (fun _ => oneAndHalf) .lossy) := by
  intro display number calls writer options
  have shown : Writer.floatText display number = oneAndHalf.text := by decide
  have displays : Writer.Displays display fun _ => oneAndHalf := fun _ _ =>
    ⟨oneAndHalf_wellFormed, shown⟩
  obtain ⟨refused, complete⟩ := calls_write_text displays [] calls
  obtain ⟨doc, accepted, written, -, parsed⟩ := complete (by decide)
  refine ⟨by decide, refused, doc, accepted, written, ?_⟩
  refine parsed (fun _ _ => oneAndHalf_finite) options (by decide) ?_ nofun
  have short : writer.out.length ≤ options.maxSize := by decide
  rwa [written] at short

end ZeroServer.Json

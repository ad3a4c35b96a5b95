/-
This file reads the writer's bits as a stack: one frame for each open container. A call keeps the
stack, and what a value, an item or a member writes is stated over it.
-/

import ZeroServer.Json.Write

namespace ZeroServer.Json

open Http1 Lib

/-- What is known of an open container: whether it is an object, and whether it has a member. -/
structure Frame where
  object : Bool
  filled : Bool

namespace Writer

/-- The bits of open containers, the innermost one in front. -/
def Masks (hasMember isObject : BitVec 128) : List Frame → Prop
  | [] => True
  | frame :: outer =>
    isObject.getLsbD outer.length = frame.object ∧ hasMember.getLsbD outer.length = frame.filled ∧
      Masks hasMember isObject outer

/-- Bits above the stack do not matter. -/
theorem Masks.congr {hasMember isObject otherMember otherObject : BitVec 128} {frames : List Frame}
    (masks : Masks hasMember isObject frames)
    (members : ∀ place < frames.length, otherMember.getLsbD place = hasMember.getLsbD place)
    (objects : ∀ place < frames.length, otherObject.getLsbD place = isObject.getLsbD place) :
    Masks otherMember otherObject frames := by
  induction frames with
  | nil => trivial
  | cons frame outer inductionHypothesis =>
    obtain ⟨object, filled, rest⟩ := masks
    refine ⟨?_, ?_, inductionHypothesis rest
      (fun place below => members place (Nat.lt_succ_of_lt below))
      (fun place below => objects place (Nat.lt_succ_of_lt below))⟩
    · rw [objects _ (Nat.lt_succ_self _), object]
    · rw [members _ (Nat.lt_succ_self _), filled]

/-- The writer has these containers open. -/
structure Tracks (writer : Writer) (frames : List Frame) : Prop where
  depth : writer.depth = frames.length
  shallow : frames.length ≤ maxDepth
  masks : Masks writer.hasMember writer.isObject frames

theorem new_tracks (out : Bytes) : (new out).Tracks [] := ⟨rfl, Nat.zero_le _, trivial⟩

variable {writer middle after : Writer} {frame : Frame} {outer frames : List Frame}

theorem Tracks.bit (tracks : writer.Tracks (frame :: outer)) :
    writer.bit = BitVec.twoPow 128 outer.length := by
  have shallow : outer.length + 1 ≤ 128 := tracks.shallow
  unfold Writer.bit
  rw [tracks.depth, List.length_cons, Nat.add_sub_cancel, if_pos (by omega), BitVec.twoPow_eq]

theorem and_twoPow_ne_zero (mask : BitVec 128) {place : Nat} (inside : place < 128) :
    mask &&& BitVec.twoPow 128 place ≠ 0 ↔ mask.getLsbD place = true := by
  have some_ : BitVec.twoPow 128 place ≠ 0 := by
    intro zero
    have bit := congrArg (fun word => word.getLsbD place) zero
    simp [inside] at bit
  rw [BitVec.and_twoPow]
  cases mask.getLsbD place with
  | true => simpa using some_
  | false => simp

theorem Tracks.inside (tracks : writer.Tracks (frame :: outer)) : outer.length < 128 :=
  tracks.shallow

theorem Tracks.object_bit (tracks : writer.Tracks (frame :: outer)) :
    writer.isObject &&& writer.bit ≠ 0 ↔ frame.object = true := by
  rw [tracks.bit, and_twoPow_ne_zero _ tracks.inside, tracks.masks.1]

theorem Tracks.member_bit (tracks : writer.Tracks (frame :: outer)) :
    writer.hasMember &&& writer.bit ≠ 0 ↔ frame.filled = true := by
  rw [tracks.bit, and_twoPow_ne_zero _ tracks.inside, tracks.masks.2.1]

theorem Tracks.depth_pos (tracks : writer.Tracks (frame :: outer)) : writer.depth ≠ 0 := by
  rw [tracks.depth]
  exact Nat.succ_ne_zero _

/-- Only the bits and the depth matter for the stack. -/
theorem Tracks.congr (tracks : writer.Tracks frames) (depth : after.depth = writer.depth)
    (hasMember : after.hasMember = writer.hasMember) (isObject : after.isObject = writer.isObject) :
    after.Tracks frames :=
  ⟨depth.trans tracks.depth, tracks.shallow, by rw [hasMember, isObject]; exact tracks.masks⟩

/-- Once the innermost container has a member, its bit says so. -/
theorem Tracks.fill (tracks : writer.Tracks (frame :: outer)) (depth : after.depth = writer.depth)
    (hasMember : after.hasMember = writer.hasMember ||| writer.bit)
    (isObject : after.isObject = writer.isObject) :
    after.Tracks ({ frame with filled := true } :: outer) := by
  refine ⟨depth.trans tracks.depth, tracks.shallow, ?_⟩
  obtain ⟨object, -, rest⟩ := tracks.masks
  rw [hasMember, isObject, tracks.bit]
  refine ⟨object, ?_, rest.congr (fun place below => ?_) fun _ _ => rfl⟩
  · rw [BitVec.getLsbD_or, BitVec.getLsbD_twoPow]
    simp [tracks.inside]
  · rw [BitVec.getLsbD_or, BitVec.getLsbD_twoPow]
    simp [Nat.ne_of_gt below]

/-- An opened container has no member yet, whatever its bits said before. -/
theorem Tracks.enter (tracks : writer.Tracks frames) (room : frames.length < maxDepth)
    (byte : UInt8) (object : Bool) :
    (enter byte object writer).Tracks (⟨object, false⟩ :: frames) := by
  have inside : frames.length < 128 := room
  have bit : ({ writer.push [byte] with depth := writer.depth + 1 } : Writer).bit =
      BitVec.twoPow 128 frames.length := by
    unfold Writer.bit
    dsimp only
    rw [tracks.depth, Nat.add_sub_cancel, if_pos (by omega), BitVec.twoPow_eq]
  refine ⟨congrArg (· + 1) tracks.depth, room, ?_⟩
  unfold Writer.enter
  dsimp only
  rw [bit]
  refine ⟨?_, ?_, tracks.masks.congr (fun place below => ?_) fun place below => ?_⟩
  · cases object <;> simp [inside]
  · simp [inside]
  · simp [push, Nat.ne_of_lt below, Nat.lt_trans below inside]
  · cases object <;>
      simp [push, Nat.ne_of_lt below, Nat.lt_trans below inside]

/-- A closed container leaves the stack around it. -/
theorem Tracks.leave (tracks : writer.Tracks (frame :: outer))
    (depth : after.depth = writer.depth - 1) (hasMember : after.hasMember = writer.hasMember)
    (isObject : after.isObject = writer.isObject) : after.Tracks outer := by
  refine ⟨?_, Nat.le_of_succ_le tracks.shallow, ?_⟩
  · rw [depth, tracks.depth]
    rfl
  · rw [hasMember, isObject]
    exact tracks.masks.2.2

/-! ### Calls -/

variable {bytes : Bytes} {call : Writing} {room : Nat}

variable {name : Bytes} {text : List Char} {object : Bool}

theorem bind_ok {first second : Writing} (ran : first writer = (.ok (), middle)) :
    (first >>= fun _ => second) writer = second middle := by
  change ExceptT.bindCont (fun _ => second) (first writer).1 (first writer).2 = _
  rw [ran]
  rfl

/-- A value may be written here. -/
def Awaits (writer : Writer) : List Frame → Prop
  | [] => writer.done = false ∧ writer.valueDue = false
  | frame :: _ => writer.valueDue = frame.object ∧ (frame.object = true → frame.filled = true)

/-- The comma in front of what comes behind a member. -/
def commaIf (filled : Bool) : Bytes := if filled then [comma] else []

/-- What separates a value from what is in front of it. -/
def separator : List Frame → Bytes
  | [] => []
  | frame :: _ => if frame.object then [] else commaIf frame.filled

def fill : List Frame → List Frame
  | [] => []
  | frame :: outer => { frame with filled := true } :: outer

theorem length_fill (frames : List Frame) : (fill frames).length = frames.length := by
  cases frames <;> rfl

/-- A call wrote these bytes and left these containers open. -/
structure Wrote (frames : List Frame) (writer : Writer) (bytes : Bytes) (after : Writer) :
    Prop where
  out : after.out = writer.out ++ bytes
  tracks : after.Tracks frames
  settled : after.valueDue = false

theorem Wrote.behind {first second : Bytes} {inner : List Frame}
    (left : Wrote inner writer first middle) (right : Wrote frames middle second after) :
    Wrote frames writer (first ++ second) after :=
  ⟨by rw [right.out, left.out, List.append_assoc], right.tracks, right.settled⟩

/-- The separator is written where a value may be, and the value is accounted for. -/
theorem beforeValue_wrote (tracks : writer.Tracks frames) (awaits : writer.Awaits frames) :
    ∃ after, beforeValue writer = (.ok (), after) ∧ Wrote (fill frames) writer (separator frames)
      after := by
  unfold beforeValue
  cases frames with
  | nil =>
    obtain ⟨fresh, settled⟩ := awaits
    rw [if_pos (show writer.depth = 0 from tracks.depth), fresh]
    exact ⟨_, rfl, (List.append_nil _).symm, tracks.congr rfl rfl rfl, settled⟩
  | cons frame outer =>
    obtain ⟨due, named⟩ := awaits
    rw [if_neg tracks.depth_pos]
    cases object : frame.object with
    | true =>
      rw [if_pos (tracks.object_bit.mpr object), if_pos (due.trans object)]
      refine ⟨_, rfl, ?_, ?_, rfl⟩
      · rw [separator, if_pos object, List.append_nil]
      · have same : ({ frame with filled := true } : Frame) = frame := by
          rw [← named object]
        rw [fill, same]
        exact tracks.congr rfl rfl rfl
    | false =>
      rw [if_neg (mt tracks.object_bit.mp (ne_true_of_eq_false object)), separator, object]
      have settled := due.trans object
      by_cases filled : frame.filled = true
      · rw [if_pos (tracks.member_bit.mpr filled), commaIf, if_pos filled]
        exact ⟨_, rfl, rfl, tracks.fill rfl rfl rfl, settled⟩
      · rw [if_neg (mt tracks.member_bit.mp filled), commaIf, if_neg filled]
        exact ⟨_, rfl, (List.append_nil _).symm, tracks.fill rfl rfl rfl, settled⟩

/-- A call writes a value, wherever one may be with room for the containers it nests. -/
def Spells (call : Writing) (room : Nat) (bytes : Bytes) : Prop :=
  ∀ ⦃writer : Writer⦄ ⦃frames : List Frame⦄, writer.Tracks frames → writer.Awaits frames →
    frames.length + room ≤ maxDepth →
    ∃ after, call writer = (.ok (), after) ∧
      Wrote (fill frames) writer (separator frames ++ bytes) after

/-- A call writes what stands between the brackets of a container. -/
def Lists (object : Bool) (call : Writing) (room : Nat) (bytes : Bytes) : Prop :=
  ∀ ⦃writer : Writer⦄ ⦃filled : Bool⦄ ⦃outer : List Frame⦄,
    writer.Tracks (⟨object, filled⟩ :: outer) → writer.valueDue = false →
    outer.length + 1 + room ≤ maxDepth →
    ∃ after, call writer = (.ok (), after) ∧
      Wrote (⟨object, true⟩ :: outer) writer (commaIf filled ++ bytes) after

/-- A value without parts is put behind its separator. -/
theorem spells_single {update : Writer → Writer}
    (updates : ∀ writer, update writer = writer.push bytes) (room : Nat) :
    Spells (do beforeValue; change update) room bytes := by
  intro writer frames tracks awaits _
  obtain ⟨middle, ran, wrote⟩ := beforeValue_wrote tracks awaits
  refine ⟨middle.push bytes, ?_, wrote.behind ⟨rfl, wrote.tracks.congr rfl rfl rfl, wrote.settled⟩⟩
  rw [bind_ok ran, change, updates]

theorem lists_item (spells : Spells call room bytes) :
    Lists false call room bytes := fun _ _ _ tracks settled within =>
  spells tracks ⟨settled, nofun⟩ within

/-- A name is written where no value is due, and its value is due then. -/
theorem key_wrote {filled : Bool} (tracks : writer.Tracks (⟨true, filled⟩ :: outer))
    (settled : writer.valueDue = false) (writes : ∀ out, writeString out text = out ++ name) :
    ∃ middle, key text writer = (.ok (), middle) ∧
      middle.out = writer.out ++ (commaIf filled ++ (name ++ [colon])) ∧
      middle.Tracks (⟨true, true⟩ :: outer) ∧ middle.valueDue = true := by
  have isObject := tracks.object_bit.mpr rfl
  unfold key
  rw [if_neg fun refused => by
    rcases refused with top | array | due
    · exact tracks.depth_pos top
    · exact isObject array
    · exact Bool.noConfusion (settled.symm.trans due)]
  by_cases member : filled = true
  · rw [if_pos (tracks.member_bit.mpr member), commaIf, if_pos member]
    refine ⟨_, rfl, ?_, tracks.fill rfl rfl rfl, rfl⟩
    dsimp only [push]
    rw [writes, List.append_assoc, List.append_assoc]
  · rw [if_neg (mt tracks.member_bit.mp member), commaIf, if_neg member]
    refine ⟨_, rfl, ?_, tracks.fill rfl rfl rfl, rfl⟩
    dsimp only
    rw [writes, List.nil_append, List.append_assoc]

/-- Behind a name, a value is written with nothing in front of it. -/
theorem lists_member (spells : Spells call room bytes)
    (writes : ∀ out, writeString out text = out ++ name) :
    Lists true (do key text; call) room (name ++ colon :: bytes) := by
  intro writer filled outer tracks settled within
  obtain ⟨middle, ran, out, inside, due⟩ := key_wrote tracks settled writes
  obtain ⟨after, valued, wrote⟩ := spells inside ⟨due, fun _ => rfl⟩ within
  refine ⟨after, (bind_ok ran).trans valued, ?_, wrote.tracks, wrote.settled⟩
  rw [wrote.out, out, separator, if_pos rfl]
  simp only [List.append_assoc, List.cons_append, List.nil_append]

/-- Two parts of a container stand with a comma between them. -/
theorem lists_more {first second : Writing} {left right : Bytes}
    (lists : Lists object first room left) (later : Lists object second room right) :
    Lists object (do first; second) room (left ++ comma :: right) := by
  intro writer filled outer tracks settled within
  obtain ⟨middle, ran, wrote⟩ := lists tracks settled within
  obtain ⟨after, continued, rest⟩ := later wrote.tracks wrote.settled within
  refine ⟨after, (bind_ok ran).trans continued, ?_⟩
  have both := wrote.behind rest
  rwa [List.append_assoc] at both

/-! ### Containers -/

theorem openWith_wrote (tracks : writer.Tracks frames) (awaits : writer.Awaits frames)
    (room : frames.length < maxDepth) (byte : UInt8) (object : Bool) :
    ∃ after, openWith byte object writer = (.ok (), after) ∧
      Wrote (⟨object, false⟩ :: fill frames) writer (separator frames ++ [byte]) after := by
  obtain ⟨middle, ran, wrote⟩ := beforeValue_wrote tracks awaits
  refine ⟨enter byte object middle, ?_, wrote.behind ⟨rfl, ?_, wrote.settled⟩⟩
  · unfold openWith
    rw [if_neg (Nat.not_le_of_lt (tracks.depth.symm ▸ room)), bind_ok ran]
    rfl
  · exact wrote.tracks.enter ((length_fill frames).symm ▸ room) byte object

theorem closeWith_wrote (tracks : writer.Tracks (frame :: outer))
    (settled : writer.valueDue = false) (byte : UInt8) :
    ∃ after, closeWith byte frame.object writer = (.ok (), after) ∧
      Wrote outer writer [byte] after := by
  have matching : decide (writer.isObject &&& writer.bit ≠ 0) = frame.object := by
    rw [Bool.eq_iff_iff, decide_eq_true_iff]
    exact tracks.object_bit
  unfold closeWith
  rw [if_neg fun refused => refused.elim tracks.depth_pos (ne_true_of_eq_false settled),
    if_neg (not_not_intro matching)]
  exact ⟨_, rfl, rfl, tracks.leave rfl rfl rfl, settled⟩

/-- A container with nothing in it. -/
theorem spells_empty (opening closing : UInt8) (object : Bool) (room : Nat) :
    Spells (do openWith opening object; pure (); closeWith closing object) (room + 1)
      [opening, closing] := by
  intro writer frames tracks awaits within
  obtain ⟨middle, opened, started⟩ := openWith_wrote tracks awaits (by omega) opening object
  obtain ⟨after, closed, ended⟩ := closeWith_wrote started.tracks started.settled closing
  refine ⟨after, (bind_ok opened).trans ((bind_ok rfl).trans closed), ?_⟩
  have both := started.behind ended
  rwa [List.append_assoc] at both

/-- A container and what is in it. -/
theorem spells_container (lists : Lists object call room bytes) (opening closing : UInt8) :
    Spells (do openWith opening object; call; closeWith closing object) (room + 1)
      (opening :: (bytes ++ [closing])) := by
  intro writer frames tracks awaits within
  obtain ⟨middle, opened, started⟩ := openWith_wrote tracks awaits (by omega) opening object
  obtain ⟨inner, listed, wrote⟩ := lists started.tracks started.settled
    (by rw [length_fill]; omega)
  obtain ⟨after, closed, ended⟩ := closeWith_wrote wrote.tracks wrote.settled closing
  refine ⟨after, (bind_ok opened).trans ((bind_ok listed).trans closed), ?_⟩
  have both := (started.behind wrote).behind ended
  simpa only [List.append_assoc, commaIf, Bool.false_eq_true, if_false, List.nil_append,
    List.cons_append] using both

end Writer

end ZeroServer.Json

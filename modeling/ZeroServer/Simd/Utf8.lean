/-
This file models the streaming UTF-8 validator of zero-simd and proves that it is UTF-8 under any
fragmentation: the one-shot check and a run over fragments both find the longest text at the start
of the input and the maximal broken subpart behind it.
-/

import ZeroServer.Lib.Utf8

namespace ZeroServer.Simd

open Lib Lib.Utf8

abbrev Bytes := List UInt8

/-! ### The validator -/

/-- Why a byte sequence is not UTF-8. -/
structure Utf8Error where
  validUpTo : Nat
  errorLen : Option Nat
  deriving DecidableEq

/-- Where the validator is inside a sequence. -/
inductive State
  | start
  | tail1
  | tail2
  | tail3
  | e0
  | ed
  | f0
  | f4
  deriving DecidableEq

/-- A UTF-8 validator that resumes across fragments. -/
structure Utf8Validator where
  state : State
  seen : Nat
  deriving DecidableEq

/-- The number of bytes in front of the first one that is not allowed. -/
def scan (bytes : Bytes) (allowed : UInt8 → Bool) : Nat := (bytes.takeWhile allowed).length

def scanAscii (bytes : Bytes) : Nat := scan bytes fun byte => byte < 0x80

namespace Utf8Validator

def new : Utf8Validator := ⟨.start, 0⟩

def isComplete (validator : Utf8Validator) : Bool := validator.state = .start

/-- One more byte accepted of the sequence in progress, counted in an octet. -/
def grown (validator : Utf8Validator) : Nat := min (validator.seen + 1) 255

/-- Advance by one byte; nothing when the byte is invalid here. -/
def step (validator : Utf8Validator) (byte : UInt8) : Option Utf8Validator :=
  match validator.state with
  | .start =>
    if byte ≤ 0x7F then some ⟨.start, 0⟩
    else if 0xC2 ≤ byte ∧ byte ≤ 0xDF then some ⟨.tail1, 1⟩
    else if byte = 0xE0 then some ⟨.e0, 1⟩
    else if 0xE1 ≤ byte ∧ byte ≤ 0xEC ∨ 0xEE ≤ byte ∧ byte ≤ 0xEF then some ⟨.tail2, 1⟩
    else if byte = 0xED then some ⟨.ed, 1⟩
    else if byte = 0xF0 then some ⟨.f0, 1⟩
    else if 0xF1 ≤ byte ∧ byte ≤ 0xF3 then some ⟨.tail3, 1⟩
    else if byte = 0xF4 then some ⟨.f4, 1⟩
    else none
  | .tail1 => if 0x80 ≤ byte ∧ byte ≤ 0xBF then some ⟨.start, 0⟩ else none
  | .tail2 => if 0x80 ≤ byte ∧ byte ≤ 0xBF then some ⟨.tail1, validator.grown⟩ else none
  | .tail3 => if 0x80 ≤ byte ∧ byte ≤ 0xBF then some ⟨.tail2, validator.grown⟩ else none
  | .e0 => if 0xA0 ≤ byte ∧ byte ≤ 0xBF then some ⟨.tail1, 2⟩ else none
  | .ed => if 0x80 ≤ byte ∧ byte ≤ 0x9F then some ⟨.tail1, 2⟩ else none
  | .f0 => if 0x90 ≤ byte ∧ byte ≤ 0xBF then some ⟨.tail2, 2⟩ else none
  | .f4 => if 0x80 ≤ byte ∧ byte ≤ 0x8F then some ⟨.tail2, 2⟩ else none

/-- Validate the bytes from an index on, skipping ASCII between sequences. -/
def feedFrom (validator : Utf8Validator) (index : Nat) :
    Bytes → Utf8Validator × Except Utf8Error Unit
  | [] => (validator, .ok ())
  | byte :: rest =>
    if validator.state = .start ∧ 0 < scanAscii (byte :: rest) then
      feedFrom validator (index + scanAscii (byte :: rest))
        ((byte :: rest).drop (scanAscii (byte :: rest)))
    else
      match validator.step byte with
      | none => (validator, .error ⟨index - validator.seen, some (max validator.seen 1)⟩)
      | some next => feedFrom next (index + 1) rest
termination_by bytes => bytes.length
decreasing_by
  · rename_i skip
    rw [List.length_drop, List.length_cons]
    omega
  · exact Nat.lt_succ_self _

/-- Validate the next fragment. -/
def feed (validator : Utf8Validator) (bytes : Bytes) : Utf8Validator × Except Utf8Error Unit :=
  validator.feedFrom 0 bytes

/-- Check that no sequence is in progress at the end of the input. -/
def finish (validator : Utf8Validator) (len : Nat) : Except Utf8Error Unit :=
  if validator.isComplete then .ok () else .error ⟨len - validator.seen, none⟩

/-- Feed fragments in order until one is refused, with the offset it starts at. -/
def feedAll (validator : Utf8Validator) (consumed : Nat) :
    List Bytes → Except (Nat × Utf8Error) Utf8Validator
  | [] => .ok validator
  | fragment :: rest =>
    match validator.feed fragment with
    | (_, .error error) => .error (consumed, error)
    | (next, .ok ()) => next.feedAll (consumed + fragment.length) rest

end Utf8Validator

/-- Validate a complete byte sequence. -/
def validateUtf8 (bytes : Bytes) : Except Utf8Error Unit :=
  match Utf8Validator.new.feed bytes with
  | (_, .error error) => .error error
  | (validator, .ok ()) => validator.finish bytes.length

/-! ### What ends a sequence -/

/-- The bytes that end the sequence a state is inside. -/
def Ends : State → Bytes → Prop
  | .start, rest => rest = []
  | .tail1, rest => ∃ a, Tail a ∧ rest = [a]
  | .tail2, rest => ∃ a b, Tail a ∧ Tail b ∧ rest = [a, b]
  | .tail3, rest => ∃ a b c, Tail a ∧ Tail b ∧ Tail c ∧ rest = [a, b, c]
  | .e0, rest => ∃ a b, (0xA0 ≤ a ∧ a ≤ 0xBF) ∧ Tail b ∧ rest = [a, b]
  | .ed, rest => ∃ a b, (0x80 ≤ a ∧ a ≤ 0x9F) ∧ Tail b ∧ rest = [a, b]
  | .f0, rest => ∃ a b c, (0x90 ≤ a ∧ a ≤ 0xBF) ∧ Tail b ∧ Tail c ∧ rest = [a, b, c]
  | .f4, rest => ∃ a b c, (0x80 ≤ a ∧ a ≤ 0x8F) ∧ Tail b ∧ Tail c ∧ rest = [a, b, c]

/-- The bytes that make a character behind what a state has read. -/
def Follows (state : State) (rest : Bytes) : Prop :=
  if state = .start then WellFormed rest else Ends state rest

/-- How many bytes of a sequence each state has accepted. -/
def Counted (validator : Utf8Validator) : Prop :=
  match validator.state with
  | .start => validator.seen = 0
  | .tail1 => 1 ≤ validator.seen ∧ validator.seen ≤ 3
  | .tail2 => 1 ≤ validator.seen ∧ validator.seen ≤ 2
  | _ => validator.seen = 1

/-! ### One step -/

variable {byte : UInt8} {next validator : Utf8Validator}

theorem start_of_wellFormed (seen : Nat) {more : Bytes} (wellFormed : WellFormed (byte :: more)) :
    ∃ next, Utf8Validator.step ⟨.start, seen⟩ byte = some next ∧ Ends next.state more := by
  cases wellFormed with
  | one ascii => exact ⟨⟨.start, 0⟩, if_pos ascii, rfl⟩
  | two low high second =>
    refine ⟨⟨.tail1, 1⟩, ?_, _, second, rfl⟩
    simp only [Utf8Validator.step]
    grind
  | e0 low high third => exact ⟨_, rfl, _, _, ⟨low, high⟩, third, rfl⟩
  | three lead second third =>
    refine ⟨⟨.tail2, 1⟩, ?_, _, _, second, third, rfl⟩
    simp only [Utf8Validator.step]
    grind
  | ed low high third => exact ⟨_, rfl, _, _, ⟨low, high⟩, third, rfl⟩
  | f0 low high third fourth => exact ⟨_, rfl, _, _, _, ⟨low, high⟩, third, fourth, rfl⟩
  | four low high second third fourth =>
    refine ⟨⟨.tail3, 1⟩, ?_, _, _, _, second, third, fourth, rfl⟩
    simp only [Utf8Validator.step]
    grind
  | f4 low high third fourth => exact ⟨_, rfl, _, _, _, ⟨low, high⟩, third, fourth, rfl⟩

theorem wellFormed_of_start {seen : Nat} {more : Bytes}
    (stepped : Utf8Validator.step ⟨.start, seen⟩ byte = some next) (ends : Ends next.state more) :
    WellFormed (byte :: more) := by
  simp only [Utf8Validator.step] at stepped
  split at stepped
  · next ascii =>
    cases stepped
    obtain rfl : more = [] := ends
    exact .one ascii
  split at stepped
  · next range =>
    cases stepped
    obtain ⟨second, isTail, rfl⟩ := ends
    exact .two range.1 range.2 isTail
  split at stepped
  · next exactly =>
    cases stepped
    obtain ⟨second, third, range, isThird, rfl⟩ := ends
    exact exactly ▸ .e0 range.1 range.2 isThird
  split at stepped
  · next range =>
    cases stepped
    obtain ⟨second, third, isSecond, isThird, rfl⟩ := ends
    exact .three range isSecond isThird
  split at stepped
  · next exactly =>
    cases stepped
    obtain ⟨second, third, range, isThird, rfl⟩ := ends
    exact exactly ▸ .ed range.1 range.2 isThird
  split at stepped
  · next exactly =>
    cases stepped
    obtain ⟨second, third, fourth, range, isThird, isFourth, rfl⟩ := ends
    exact exactly ▸ .f0 range.1 range.2 isThird isFourth
  split at stepped
  · next range =>
    cases stepped
    obtain ⟨second, third, fourth, isSecond, isThird, isFourth, rfl⟩ := ends
    exact .four range.1 range.2 isSecond isThird isFourth
  split at stepped
  · next exactly =>
    cases stepped
    obtain ⟨second, third, fourth, range, isThird, isFourth, rfl⟩ := ends
    exact exactly ▸ .f4 range.1 range.2 isThird isFourth
  · cases stepped

/-- What makes a character behind a state starts with a byte the state accepts, and goes on with
what ends the sequence behind it. -/
theorem follows_cons (validator : Utf8Validator) (byte : UInt8) (more : Bytes) :
    Follows validator.state (byte :: more) ↔
      ∃ next, validator.step byte = some next ∧ Ends next.state more := by
  obtain ⟨state, seen⟩ := validator
  cases state with
  | start =>
    exact ⟨start_of_wellFormed seen, fun ⟨_, stepped, ends⟩ => wellFormed_of_start stepped ends⟩
  | tail1 => simp [Follows, Ends, Utf8Validator.step, Tail]
  | tail2 => simp [Follows, Ends, Utf8Validator.step, Tail]
  | tail3 => simp [Follows, Ends, Utf8Validator.step, Tail]
  | e0 => simp [Follows, Ends, Utf8Validator.step, Tail]
  | ed => simp [Follows, Ends, Utf8Validator.step, Tail]
  | f0 => simp [Follows, Ends, Utf8Validator.step, Tail]
  | f4 => simp [Follows, Ends, Utf8Validator.step, Tail]

theorem step_counted (counted : Counted validator) (stepped : validator.step byte = some next) :
    Counted next ∧
      (next.state = .start ∨ next.state ≠ .start ∧ next.seen = validator.seen + 1) := by
  obtain ⟨state, seen⟩ := validator
  cases state with
  | start =>
    obtain rfl : seen = 0 := counted
    simp only [Utf8Validator.step] at stepped
    repeat' split at stepped
    all_goals cases stepped
    all_goals simp [Counted]
  | tail2 =>
    have range : 1 ≤ seen ∧ seen ≤ 2 := counted
    simp only [Utf8Validator.step, Utf8Validator.grown, Option.ite_none_right_eq_some] at stepped
    obtain ⟨-, same⟩ := stepped
    cases same
    refine ⟨?_, .inr ⟨?_, ?_⟩⟩
    · simp only [Counted]
      omega
    · simp
    · dsimp only
      omega
  | tail3 =>
    obtain rfl : seen = 1 := counted
    simp only [Utf8Validator.step, Option.ite_none_right_eq_some] at stepped
    obtain rfl := Option.some.inj stepped.2
    simp [Counted, Utf8Validator.grown]
  | tail1 =>
    simp only [Utf8Validator.step, Option.ite_none_right_eq_some] at stepped
    obtain rfl := Option.some.inj stepped.2
    simp [Counted]
  | e0 | ed | f0 | f4 =>
    obtain rfl : seen = 1 := counted
    simp only [Utf8Validator.step, Option.ite_none_right_eq_some] at stepped
    obtain rfl := Option.some.inj stepped.2
    simp [Counted]

/-- Every state inside a sequence can still end it. -/
theorem ends_possible {state : State} (inside : state ≠ .start) :
    ∃ more, more ≠ [] ∧ Ends state more := by
  have tail : Tail 0x80 := ⟨by decide, by decide⟩
  cases state with
  | start => exact absurd rfl inside
  | tail1 => exact ⟨_, List.cons_ne_nil _ _, _, tail, rfl⟩
  | tail2 => exact ⟨_, List.cons_ne_nil _ _, _, _, tail, tail, rfl⟩
  | tail3 => exact ⟨_, List.cons_ne_nil _ _, _, _, _, tail, tail, tail, rfl⟩
  | e0 => exact ⟨_, List.cons_ne_nil _ _, 0xA0, _, by decide, tail, rfl⟩
  | ed => exact ⟨_, List.cons_ne_nil _ _, 0x80, _, by decide, tail, rfl⟩
  | f0 => exact ⟨_, List.cons_ne_nil _ _, 0x90, _, _, by decide, tail, tail, rfl⟩
  | f4 => exact ⟨_, List.cons_ne_nil _ _, 0x80, _, _, by decide, tail, tail, rfl⟩

/-! ### What a validator has read -/

/-- A validator has read a text and, behind it, the bytes of the sequence in progress. -/
structure Reads (validator : Utf8Validator) (text part : Bytes) : Prop where
  isText : Text IsChar text
  counted : Counted validator
  length : part.length = validator.seen
  follows : ∀ more, WellFormed (part ++ more) ↔ Follows validator.state more

namespace Reads

variable {validator : Utf8Validator} {text part : Bytes}

theorem new : Reads .new [] [] where
  isText := .nil
  counted := rfl
  length := rfl
  follows := fun _ => Iff.rfl

theorem part_nil (reads : Reads validator text part) (complete : validator.state = .start) :
    part = [] := by
  have counted := reads.counted
  rw [Counted, complete] at counted
  exact List.length_eq_zero_iff.mp (reads.length.trans counted)

theorem part_begins (reads : Reads validator text part) (inside : validator.state ≠ .start) :
    Begins IsChar part := by
  obtain ⟨more, some_, ends⟩ := ends_possible inside
  refine ⟨more, some_, ?_⟩
  rw [isChar_iff, reads.follows, Follows, if_neg inside]
  exact ends

theorem part_live (reads : Reads validator text part) : part = [] ∨ Begins IsChar part := by
  by_cases complete : validator.state = .start
  · exact .inl (reads.part_nil complete)
  · exact .inr (reads.part_begins complete)

theorem part_some (reads : Reads validator text part) (inside : validator.state ≠ .start) :
    part ≠ [] := by
  rintro rfl
  have counted := reads.counted
  have none_ : validator.seen = 0 := reads.length.symm
  unfold Counted at counted
  rw [none_] at counted
  split at counted <;> simp_all

theorem word_iff (reads : Reads validator text part) (byte : UInt8) (more : Bytes) :
    WellFormed (part ++ byte :: more) ↔
      ∃ next, validator.step byte = some next ∧ Ends next.state more := by
  rw [reads.follows, follows_cons]

/-- A byte that is accepted belongs to the sequence in progress, or ends it. -/
theorem step (reads : Reads validator text part) {byte : UInt8} {next : Utf8Validator}
    (stepped : validator.step byte = some next) :
    ∃ text' part', Reads next text' part' ∧ text' ++ part' = text ++ part ++ [byte] := by
  obtain ⟨counted, grown⟩ := step_counted reads.counted stepped
  have ends_iff : ∀ more, WellFormed (part ++ byte :: more) ↔ Ends next.state more := by
    intro more
    rw [reads.word_iff]
    exact ⟨fun ⟨other, same, ends⟩ => Option.some.inj (stepped.symm.trans same) ▸ ends,
      fun ends => ⟨next, stepped, ends⟩⟩
  rcases grown with complete | ⟨inside, seen⟩
  · have word : WellFormed (part ++ [byte]) := (ends_iff []).mpr (by rw [complete]; rfl)
    refine ⟨text ++ (part ++ [byte]), [], ⟨?_, counted, ?_, ?_⟩, ?_⟩
    · exact reads.isText.append (.single (isChar_iff.mpr word))
    · rw [Counted, complete] at counted
      exact counted.symm
    · intro more
      rw [Follows, if_pos complete, List.nil_append]
    · rw [List.append_nil, List.append_assoc]
  · refine ⟨text, part ++ [byte], ⟨reads.isText, counted, ?_, ?_⟩, ?_⟩
    · rw [List.length_append, List.length_singleton, reads.length, seen]
    · intro more
      rw [Follows, if_neg inside, List.append_assoc]
      exact ends_iff more
    · rw [List.append_assoc]

/-- A byte that is refused makes the input no text, broken where the sequence in progress is. -/
theorem refused (reads : Reads validator text part) (stepped : validator.step byte = none)
    (rest : Bytes) :
    IllFormed IsChar (text ++ part ++ byte :: rest) text.length
      (some (max validator.seen 1)) := by
  rw [List.append_assoc, ← reads.length]
  refine illFormed_of_broken prefixCode reads.isText reads.part_live fun more isWord => ?_
  obtain ⟨next, same, -⟩ := (reads.word_iff byte more).mp (isChar_iff.mp isWord)
  rw [stepped] at same
  cases same

end Reads

/-! ### Skipping ASCII -/

variable {index : Nat} {bytes : Bytes}

namespace Utf8Validator

/-- The loop without the skip. -/
def feedBytes (validator : Utf8Validator) (index : Nat) :
    Bytes → Utf8Validator × Except Utf8Error Unit
  | [] => (validator, .ok ())
  | byte :: rest =>
    match validator.step byte with
    | none => (validator, .error ⟨index - validator.seen, some (max validator.seen 1)⟩)
    | some next => feedBytes next (index + 1) rest

theorem feedBytes_skip (index : Nat) (bytes : Bytes) :
    feedBytes ⟨.start, 0⟩ (index + scanAscii bytes) (bytes.drop (scanAscii bytes)) =
      feedBytes ⟨.start, 0⟩ index bytes := by
  induction bytes generalizing index with
  | nil => rfl
  | cons byte bytes inductionHypothesis =>
    unfold scanAscii scan at inductionHypothesis ⊢
    rw [List.takeWhile_cons]
    by_cases below : byte < 0x80
    · have first : byte ≤ 0x7F := by grind
      have stepped : step ⟨.start, 0⟩ byte = some ⟨.start, 0⟩ := if_pos first
      rw [if_pos (decide_eq_true below), List.length_cons, List.drop_succ_cons,
        ← Nat.add_assoc, Nat.add_right_comm, inductionHypothesis, feedBytes, stepped]
    · rw [if_neg (by simpa using below)]
      rfl

/-- The skip over ASCII between sequences changes nothing. -/
theorem feedFrom_eq_feedBytes (counted : Counted validator) (index : Nat) (bytes : Bytes) :
    validator.feedFrom index bytes = validator.feedBytes index bytes := by
  fun_induction feedFrom validator index bytes with
  | case1 validator index => rfl
  | case2 validator index byte rest skip inductionHypothesis =>
    obtain ⟨state, seen⟩ := validator
    obtain rfl : state = .start := skip.1
    rw [inductionHypothesis counted]
    obtain rfl : seen = 0 := counted
    exact feedBytes_skip index (byte :: rest)
  | case3 validator index byte rest skip stepped => rw [feedBytes, stepped]
  | case4 validator index byte rest skip next stepped inductionHypothesis =>
    rw [feedBytes, stepped]
    exact inductionHypothesis (step_counted counted stepped).1

theorem feedBytes_append (validator : Utf8Validator) (index : Nat) (first second : Bytes) :
    validator.feedBytes index (first ++ second) =
      match validator.feedBytes index first with
      | (next, .ok ()) => next.feedBytes (index + first.length) second
      | (next, .error error) => (next, .error error) := by
  induction first generalizing validator index with
  | nil => rfl
  | cons byte first inductionHypothesis =>
    rw [List.cons_append, feedBytes, feedBytes]
    cases validator.step byte with
    | none => rfl
    | some next =>
      dsimp only
      rw [inductionHypothesis, List.length_cons, Nat.add_assoc, Nat.add_comm 1]

theorem feedBytes_counted (counted : Counted validator)
    (fed : validator.feedBytes index bytes = (next, .ok ())) : Counted next := by
  induction bytes generalizing validator index with
  | nil =>
    cases fed
    exact counted
  | cons byte bytes inductionHypothesis =>
    rw [feedBytes] at fed
    split at fed
    · cases fed
    · rename_i after stepped
      exact inductionHypothesis (step_counted counted stepped).1 fed

/-- Where an index starts shows in the error only. -/
theorem feedBytes_index (validator : Utf8Validator) (first second : Nat) (bytes : Bytes) :
    (validator.feedBytes first bytes).1 = (validator.feedBytes second bytes).1 ∧
      (validator.feedBytes first bytes).2.isOk = (validator.feedBytes second bytes).2.isOk := by
  induction bytes generalizing validator first second with
  | nil => exact ⟨rfl, rfl⟩
  | cons byte bytes inductionHypothesis =>
    rw [feedBytes, feedBytes]
    cases validator.step byte with
    | none => exact ⟨rfl, rfl⟩
    | some next => exact inductionHypothesis next _ _

/-- Two fragments fed one after the other are fed as one. -/
theorem feed_append (counted : Counted validator) (first second : Bytes) :
    (∀ next, validator.feed first = (next, .ok ()) →
      (validator.feed (first ++ second)).1 = (next.feed second).1 ∧
        (validator.feed (first ++ second)).2.isOk = (next.feed second).2.isOk) ∧
    ((validator.feed first).2.isOk = false → (validator.feed (first ++ second)).2.isOk = false) := by
  unfold feed
  rw [feedFrom_eq_feedBytes counted, feedFrom_eq_feedBytes counted, feedBytes_append]
  rcases fed : validator.feedBytes 0 first with ⟨after, _ | _⟩
  · exact ⟨nofun, fun _ => rfl⟩
  · refine ⟨fun next same => ?_, nofun⟩
    obtain rfl := (Prod.mk.inj same).1
    rw [feedFrom_eq_feedBytes (feedBytes_counted counted fed)]
    exact feedBytes_index _ _ _ _

end Utf8Validator

/-! ### Fragments -/

namespace Reads

variable {validator : Utf8Validator} {text part : Bytes}

/-- A fragment that is taken is read. -/
theorem feed_ok (reads : Reads validator text part)
    (fed : validator.feedBytes index bytes = (next, .ok ())) :
    ∃ text' part', Reads next text' part' ∧ text' ++ part' = text ++ part ++ bytes := by
  induction bytes generalizing validator text part index with
  | nil =>
    cases fed
    exact ⟨text, part, reads, (List.append_nil _).symm⟩
  | cons byte bytes inductionHypothesis =>
    rw [Utf8Validator.feedBytes] at fed
    split at fed
    · cases fed
    · next after stepped =>
      obtain ⟨text', part', stepReads, same⟩ := reads.step stepped
      obtain ⟨text'', part'', lastReads, whole⟩ := inductionHypothesis stepReads fed
      refine ⟨text'', part'', lastReads, ?_⟩
      rw [whole, same, List.append_assoc, List.singleton_append]

/-- A fragment that is refused is broken at the position the error names, when the sequence in
progress there began in it, and the error names its start otherwise. -/
theorem feed_error (reads : Reads validator text part) {error : Utf8Error}
    (fed : validator.feedBytes index bytes = (next, .error error)) (more : Bytes) :
    ∃ position count, error.errorLen = some count ∧
      IllFormed IsChar (text ++ part ++ bytes ++ more) position (some count) ∧
      error.validUpTo = index + position - (text ++ part).length := by
  induction bytes generalizing validator text part index with
  | nil => cases fed
  | cons byte bytes inductionHypothesis =>
    rw [Utf8Validator.feedBytes] at fed
    split at fed
    · next stepped =>
      cases fed
      refine ⟨text.length, _, rfl, ?_, ?_⟩
      · rw [List.append_assoc _ (byte :: bytes), List.cons_append]
        exact reads.refused stepped _
      · dsimp only
        rw [List.length_append, reads.length]
        omega
    · next after stepped =>
      obtain ⟨text', part', stepReads, same⟩ := reads.step stepped
      obtain ⟨position, count, length, faulty, valid⟩ := inductionHypothesis stepReads fed
      refine ⟨position, count, length, ?_, ?_⟩
      · rwa [same, List.append_assoc (text ++ part), List.singleton_append] at faulty
      · rw [valid, same, @List.length_append _ (text ++ part) [byte], List.length_singleton]
        omega

/-- At the end a sequence in progress is one the input ends inside. -/
theorem finish (reads : Reads validator text part) :
    validator.isComplete = true ∧ Text IsChar (text ++ part) ∨
      validator.isComplete = false ∧ IllFormed IsChar (text ++ part) text.length none := by
  by_cases complete : validator.state = .start
  · refine .inl ⟨decide_eq_true complete, ?_⟩
    rw [reads.part_nil complete, List.append_nil]
    exact reads.isText
  · exact .inr ⟨decide_eq_false complete,
      illFormed_of_begins prefixCode reads.isText (reads.part_some complete)
        (reads.part_begins complete)⟩

/-- A run over fragments reads them all, or stops at the start of what is no text. -/
theorem feedAll (reads : Reads validator text part) (consumed : Nat)
    (start : (text ++ part).length = consumed) (fragments : List Bytes) :
    (∃ next text' part', validator.feedAll consumed fragments = .ok next ∧
        Reads next text' part' ∧ text' ++ part' = text ++ part ++ fragments.flatten) ∨
      ∃ offset error position count, validator.feedAll consumed fragments = .error (offset, error) ∧
        error.errorLen = some count ∧
        IllFormed IsChar (text ++ part ++ fragments.flatten) position (some count) ∧
        error.validUpTo = position - offset := by
  induction fragments generalizing validator text part consumed with
  | nil =>
    refine .inl ⟨validator, text, part, rfl, reads, ?_⟩
    rw [List.flatten_nil, List.append_nil]
  | cons fragment fragments inductionHypothesis =>
    rw [Utf8Validator.feedAll, Utf8Validator.feed,
      Utf8Validator.feedFrom_eq_feedBytes reads.counted, List.flatten_cons]
    rcases fed : validator.feedBytes 0 fragment with ⟨next, _ | _⟩
    · next error =>
      obtain ⟨position, count, length, faulty, valid⟩ :=
        reads.feed_error fed fragments.flatten
      rw [List.append_assoc] at faulty
      refine .inr ⟨consumed, error, position, count, rfl, length, faulty, ?_⟩
      rw [valid, start, Nat.zero_add]
    · obtain ⟨text', part', nextReads, same⟩ := reads.feed_ok fed
      have later := inductionHypothesis nextReads (consumed + fragment.length)
        (by rw [same, List.length_append, start])
      rw [same, List.append_assoc] at later
      exact later

end Reads

/-! ### The verdicts -/

theorem validateUtf8_spec (bytes : Bytes) :
    validateUtf8 bytes = .ok () ∧ Text IsChar bytes ∨
      ∃ error, validateUtf8 bytes = .error error ∧
        IllFormed IsChar bytes error.validUpTo error.errorLen := by
  rw [validateUtf8, Utf8Validator.feed, Utf8Validator.feedFrom_eq_feedBytes Reads.new.counted]
  rcases fed : Utf8Validator.new.feedBytes 0 bytes with ⟨next, _ | _⟩
  · next error =>
    obtain ⟨position, count, length, faulty, valid⟩ := Reads.new.feed_error fed []
    rw [List.append_nil] at faulty
    refine .inr ⟨error, rfl, ?_⟩
    rw [length, valid]
    simpa using faulty
  · obtain ⟨text, part, reads, whole⟩ := Reads.new.feed_ok fed
    rw [List.nil_append, List.nil_append] at whole
    rcases reads.finish with ⟨complete, isText⟩ | ⟨inside, faulty⟩
    · exact .inl ⟨if_pos complete, whole ▸ isText⟩
    · refine .inr ⟨_, if_neg (by rw [inside]; exact Bool.false_ne_true), ?_⟩
      rw [whole] at faulty
      have position : bytes.length - next.seen = text.length := by
        rw [← whole, List.length_append, reads.length]
        omega
      rw [position]
      exact faulty

/-- The streaming UTF-8 validator is UTF-8 under any fragmentation. -/
theorem validator_refines_utf8 (bytes : Bytes) :
    (validateUtf8 bytes = .ok () ↔
      ∃ chars : List Char, bytes = chars.flatMap String.utf8EncodeChar) ∧
    (∀ error, validateUtf8 bytes = .error error →
      IllFormed IsChar bytes error.validUpTo error.errorLen) ∧
    ∀ fragments : List Bytes, fragments.flatten = bytes →
      ((∃ offset error, Utf8Validator.new.feedAll 0 fragments = .error (offset, error)) ↔
        ∃ whole count, validateUtf8 bytes = .error whole ∧ whole.errorLen = some count) ∧
      (∀ offset error whole, Utf8Validator.new.feedAll 0 fragments = .error (offset, error) →
        validateUtf8 bytes = .error whole →
        error.errorLen = whole.errorLen ∧
        (offset ≤ whole.validUpTo → offset + error.validUpTo = whole.validUpTo) ∧
        (whole.validUpTo < offset → error.validUpTo = 0)) ∧
      ((∃ validator, Utf8Validator.new.feedAll 0 fragments = .ok validator ∧
          validator.isComplete = true) ↔ validateUtf8 bytes = .ok ()) := by
  rw [← text_iff]
  rcases validateUtf8_spec bytes with ⟨ok, isText⟩ | ⟨whole, failed, faulty⟩
  · refine ⟨by simp [ok, isText], by simp [ok], ?_⟩
    rintro fragments rfl
    rcases Reads.new.feedAll 0 rfl fragments with
      ⟨validator, text, part, fed, reads, same⟩ | ⟨_, _, _, _, _, _, broken, _⟩
    · rcases reads.finish with ⟨complete, -⟩ | ⟨-, unfinished⟩
      · rw [ok, fed]
        simp [complete]
      · rw [same] at unfinished
        exact absurd isText unfinished.not_text
    · exact absurd isText broken.not_text
  · refine ⟨by simp [failed, faulty.not_text], ?_, ?_⟩
    · intro error same
      obtain rfl := Except.error.inj (failed.symm.trans same)
      exact faulty
    rintro fragments rfl
    rcases Reads.new.feedAll 0 rfl fragments with
      ⟨validator, text, part, fed, reads, same⟩ |
      ⟨offset, error, position, count, fed, length, broken, valid⟩
    · rcases reads.finish with ⟨-, isText⟩ | ⟨inside, unfinished⟩
      · rw [same] at isText
        exact absurd isText faulty.not_text
      · rw [same] at unfinished
        obtain ⟨-, none_⟩ := faulty.unique unfinished
        rw [fed, failed]
        simp [none_, inside]
    · obtain ⟨rfl, some_⟩ := faulty.unique broken
      rw [fed, failed]
      refine ⟨by simp [some_], ?_, by simp⟩
      rintro _ _ _ ⟨⟩ ⟨⟩
      rw [length, some_, valid]
      exact ⟨rfl, fun inside => Nat.add_sub_of_le inside,
        fun before => Nat.sub_eq_zero_of_le (Nat.le_of_lt before)⟩

end ZeroServer.Simd

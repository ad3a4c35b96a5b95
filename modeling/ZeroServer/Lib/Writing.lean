/-
This file develops writes into a buffer that may fail: two in a row, the second only after the
first went well, and writes that take back what they appended before they failed.
-/

namespace ZeroServer.Lib

/-- Whether a write went well, and the buffer afterwards. -/
abbrev Writing (Item : Type) := List Item → Option Unit × List Item

namespace Writing

variable {Item : Type}

/-- Write once more when the first write went well. -/
def andThen (first second : Writing Item) : Writing Item := fun out =>
  match first out with
  | (some (), out) => second out
  | (none, out) => (none, out)

/-- Truncate the buffer to what it was before a write that failed. -/
def orTruncate (writing : Writing Item) : Writing Item := fun out =>
  match writing out with
  | (some (), after) => (some (), after)
  | (none, after) => (none, after.take out.length)

/-- What a write appends when what it writes fits; otherwise it fails and appends some part. -/
structure Appends (writing : Writing Item) (fits : Prop) (items : List Item) : Prop where
  whole : fits → ∀ out, writing out = (some (), out ++ items)
  part : ¬fits → ∀ out, ∃ part, writing out = (none, out ++ part)

/-- What a write appends when what it writes fits; otherwise it fails and appends nothing. -/
structure AppendsOrNot (writing : Writing Item) (fits : Prop) (items : List Item) : Prop where
  whole : fits → ∀ out, writing out = (some (), out ++ items)
  none : ¬fits → ∀ out, writing out = (none, out)

variable {writing first second : Writing Item} {fits others : Prop} {items more : List Item}

theorem AppendsOrNot.appends (appends : writing.AppendsOrNot fits items) :
    writing.Appends fits items :=
  ⟨appends.whole, fun beyond out => ⟨[], by rw [List.append_nil]; exact appends.none beyond out⟩⟩

theorem Appends.andThen (one : first.Appends fits items) (two : second.Appends others more) :
    (first.andThen second).Appends (fits ∧ others) (items ++ more) := by
  refine ⟨fun both out => ?_, fun beyond out => ?_⟩
  · rw [Writing.andThen, one.whole both.1]
    dsimp only
    rw [two.whole both.2, List.append_assoc]
  · rw [Writing.andThen]
    rcases Classical.em fits with inside | outside
    · obtain ⟨part, written⟩ := two.part (fun fit => beyond ⟨inside, fit⟩) (out ++ items)
      rw [one.whole inside]
      dsimp only
      rw [written]
      exact ⟨items ++ part, by rw [List.append_assoc]⟩
    · obtain ⟨part, written⟩ := one.part outside out
      rw [written]
      exact ⟨part, rfl⟩

/-- A write that takes back what it appended appends all or nothing. -/
theorem Appends.orTruncate (appends : writing.Appends fits items) :
    writing.orTruncate.AppendsOrNot fits items := by
  refine ⟨fun inside out => ?_, fun outside out => ?_⟩
  · rw [Writing.orTruncate, appends.whole inside]
  · obtain ⟨part, written⟩ := appends.part outside out
    rw [Writing.orTruncate, written]
    dsimp only
    rw [List.take_left]

end Writing

end ZeroServer.Lib

/-
This file proves what a split of a field value into members does with the bytes of one member:
outside a quoted string, and inside one, what is no mark joins the part that is being read.
-/

import ZeroServer.Policy.Forwarded

namespace ZeroServer.Policy

open Http1

/-! ### Runs -/

namespace Splitting

theorem run_append (separator : UInt8) (state : Splitting) (first second : Bytes) :
    state.run separator (first ++ second) = (state.run separator first).run separator second :=
  List.foldl_append

/-- Bytes taken without leaving the part. -/
def extend (state : Splitting) (bytes : Bytes) : Splitting :=
  ⟨state.parts, state.part ++ bytes, state.quoted, state.escaped⟩

theorem extend_extend (state : Splitting) (first second : Bytes) :
    (state.extend first).extend second = state.extend (first ++ second) := by
  unfold extend
  rw [List.append_assoc]

variable {separator : UInt8} {bytes : Bytes} {state : Splitting}

/-- Bytes that join the part one by one join it together. -/
theorem run_extend (steps : ∀ byte ∈ bytes, ∀ other : Splitting, other.quoted = state.quoted →
      other.escaped = state.escaped → other.step separator byte = other.extend [byte]) :
    state.run separator bytes = state.extend bytes := by
  induction bytes generalizing state with
  | nil =>
    unfold extend
    rw [List.append_nil]
    rfl
  | cons byte bytes inductionHypothesis =>
    show (state.step separator byte).run separator bytes = _
    rw [steps byte List.mem_cons_self state rfl rfl]
    have rest : (state.extend [byte]).run separator bytes = (state.extend [byte]).extend bytes :=
      inductionHypothesis fun other member => steps other (List.mem_cons_of_mem _ member)
    rw [rest, extend_extend]
    rfl

/-- Outside a quoted string, bytes other than quotes and separators join the part. -/
theorem run_outside (outside : state.quoted = false) (unescaped : state.escaped = false)
    (plain : ∀ byte ∈ bytes, byte ≠ quote ∧ byte ≠ separator) :
    state.run separator bytes = state.extend bytes := by
  refine run_extend fun byte member other quoted escaped => ?_
  obtain ⟨noQuote, noSeparator⟩ := plain byte member
  rw [outside] at quoted
  rw [unescaped] at escaped
  unfold step extend take
  rw [if_neg (by rw [escaped]; decide), if_neg (by rw [quoted]; decide), if_neg noQuote,
    if_neg noSeparator, quoted, escaped]

/-- Inside a quoted string, bytes other than quotes and backslashes join the part. -/
theorem run_inside (inside : state.quoted = true) (unescaped : state.escaped = false)
    (plain : ∀ byte ∈ bytes, byte ≠ quote ∧ byte ≠ backslash) :
    state.run separator bytes = state.extend bytes := by
  refine run_extend fun byte member other quoted escaped => ?_
  obtain ⟨noQuote, noBackslash⟩ := plain byte member
  rw [inside] at quoted
  rw [unescaped] at escaped
  unfold step extend take
  rw [if_neg (by rw [escaped]; decide), if_pos quoted, if_neg noBackslash, if_neg noQuote,
    quoted, escaped]

end Splitting

/-- The separators of a list and of an element. -/
def Separates (separator : UInt8) : Prop := separator = comma ∨ separator = semicolon

end ZeroServer.Policy

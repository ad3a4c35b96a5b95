/-
This file is about the field lines of a message by name: the lines of one name are read in order,
and lines written behind one another are the lines of both.
-/

import ZeroServer.Policy.Splitting

namespace ZeroServer.Policy

open Http1 Splitting

/-! ### Field lines -/

/-- The values of the lines of a name, in order. -/
def linesOf (name : Bytes) (fields : List (Bytes × Bytes)) : List Bytes :=
  (fields.filter fun field => eqIgnoreAsciiCase field.1 name).map Prod.snd

theorem linesOf_append (name : Bytes) (first second : List (Bytes × Bytes)) :
    linesOf name (first ++ second) = linesOf name first ++ linesOf name second := by
  unfold linesOf
  rw [List.filter_append, List.map_append]

theorem linesOf_cons (name : Bytes) (field : Bytes × Bytes) (rest : List (Bytes × Bytes)) :
    linesOf name (field :: rest) =
      (if eqIgnoreAsciiCase field.1 name then [field.2] else []) ++ linesOf name rest := by
  unfold linesOf
  by_cases same : eqIgnoreAsciiCase field.1 name = true
  · rw [List.filter_cons, if_pos same, if_pos same]
    rfl
  · rw [List.filter_cons, if_neg same, if_neg same]
    rfl

theorem eqIgnoreAsciiCase_self (name : Bytes) : eqIgnoreAsciiCase name name = true := BEq.rfl

end ZeroServer.Policy

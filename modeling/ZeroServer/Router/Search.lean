/-
This file says what a trie holds and what the search through it finds: registration changes the
leaf of one pattern and no other, and the backtracking search returns the leaf of the first
pattern, in the order of its segments, among those that match, with exactly its captures.
-/

import ZeroServer.Router.Trie

namespace ZeroServer.Routing

open Http1 Uri Lib

variable {Handler : Type}

/-! ### What a pattern says of a path -/

variable {name : Bytes}

/-- A pattern matches a path segment by segment: a static segment is equal, a parameter takes any
segment that is not empty, a catch-all at the end takes whatever is left. -/
def matchesPath : List Segment → List Bytes → Bool
  | [], [] => true
  | .static bytes :: pattern, segment :: rest => bytes = segment && matchesPath pattern rest
  | .param _ :: pattern, segment :: rest => !segment.isEmpty && matchesPath pattern rest
  | [.catchAll _], _ => true
  | _, _ => false

/-- The names of a pattern in order, with the ranges of the segments they match; a catch-all takes
from its first segment to the end of the path. -/
def captures (length : Nat) : List Segment → List (Nat × Nat) → Params
  | .static _ :: pattern, _ :: spans => captures length pattern spans
  | .param name :: pattern, span :: spans => (name, span) :: captures length pattern spans
  | .catchAll name :: _, span :: _ => [(name, span.1, length)]
  | .catchAll name :: _, [] => [(name, length, length)]
  | _, _ => []

def Segment.rank : Segment → Nat
  | .static _ => 0
  | .param _ => 1
  | .catchAll _ => 2

/-- The position-by-position order of patterns: static, then parameter, then catch-all. -/
def Precedes : List Segment → List Segment → Prop
  | [], _ => True
  | _ :: _, [] => False
  | first :: rest, other :: others =>
    first.rank < other.rank ∨ (first.rank = other.rank ∧ Precedes rest others)

def endsInCatchAll (pattern : List Segment) : Bool := pattern.getLast?.any Segment.isCatchAll

/-- How many parameters a pattern captures. -/
def captured (pattern : List Segment) : Nat := (pattern.filter fun segment => segment.rank ≠ 0).length

theorem Params.push_fst (params : Params) (name : Bytes) (start stop : Nat) :
    (params.push name start stop).1 = true ↔ params.length < maxParams := by
  unfold Params.push
  split
  · rename_i room
    exact iff_of_true rfl room
  · rename_i full
    exact iff_of_false nofun full

theorem Params.push_snd {params : Params} (room : params.length < maxParams) {start stop : Nat} :
    (params.push name start stop).2 = params ++ [(name, start, stop)] := by
  unfold Params.push
  rw [if_pos room]

/-! ### What a trie holds -/

namespace Node

/-- The leaf of a pattern. -/
def atPattern : List Segment → Node Handler → Option (Leaf Handler)
  | [], node => node.leaf
  | .static bytes :: rest, node => (valueAt node.statics bytes).bind (atPattern rest)
  | .param name :: rest, node =>
    node.param.bind fun known => if known.1 = name then atPattern rest known.2 else none
  | .catchAll name :: rest, node =>
    if rest = [] then node.catchAll.bind fun known => if known.1 = name then some known.2 else none
    else none

/-- The static children of every node are in the order of their segments. -/
inductive Ordered : Node Handler → Prop
  | mk {node : Node Handler} (keyed : Keyed node.statics)
      (statics : ∀ entry ∈ node.statics, Ordered entry.2)
      (param : ∀ entry, node.param = some entry → Ordered entry.2) : Ordered node

variable {node : Node Handler}

theorem Ordered.keyed (ordered : node.Ordered) : Keyed node.statics := by
  cases ordered with
  | mk keyed => exact keyed

variable {bytes : Bytes}

theorem Ordered.child (ordered : node.Ordered) {child : Node Handler}
    (found : valueAt node.statics bytes = some child) : child.Ordered := by
  cases ordered with
  | mk keyed statics => exact statics _ ((valueAt_eq_some keyed).mp found)

theorem Ordered.paramChild (ordered : node.Ordered) {entry : Bytes × Node Handler}
    (found : node.param = some entry) : entry.2.Ordered := by
  cases ordered with
  | mk _ _ param => exact param entry found

theorem ordered_empty : ({} : Node Handler).Ordered :=
  .mk .nil (fun _ member => by cases member) (fun _ found => by cases found)

theorem atPattern_empty (pattern : List Segment) : ({} : Node Handler).atPattern pattern = none := by
  cases pattern with
  | nil => rfl
  | cons segment rest =>
    cases segment with
    | static bytes => rfl
    | param name => rfl
    | catchAll name => rw [atPattern]; exact ite_self none

/-- The child a static segment leads to, as the search finds it. -/
theorem valueAt_of_position {place : Nat} (known : position node.statics bytes = .ok place) :
    valueAt node.statics bytes = node.statics[place]?.map Prod.snd := by
  unfold valueAt
  rw [known]

theorem valueAt_of_missing {place : Nat} (missing : position node.statics bytes = .error place) :
    valueAt node.statics bytes = none := by
  unfold valueAt
  rw [missing]

/-- A node whose leaf of one pattern is edited, and no other. -/
structure Edited (pattern : Bytes) (edit : Leaf Handler → Except RouteError (Leaf Handler))
    (segments : List Segment) (node next : Node Handler) : Prop where
  ordered : next.Ordered
  leaves : ∃ leaf, edit ((node.atPattern segments).getD (Leaf.new pattern)) = .ok leaf ∧
    ∀ other, next.atPattern other = if other = segments then some leaf else node.atPattern other

section Registration

variable {pattern : Bytes} {edit : Leaf Handler → Except RouteError (Leaf Handler)}
  {rest : List Segment} {node child : Node Handler}

theorem Edited.leaf (ordered : node.Ordered) {leaf : Leaf Handler}
    (edited : edit (node.leaf.getD (Leaf.new pattern)) = .ok leaf) :
    Edited pattern edit [] node { node with leaf := some leaf } := by
  refine ⟨?_, leaf, edited, fun other => ?_⟩
  · cases ordered with
    | mk keyed statics param => exact .mk keyed statics param
  · cases other with
    | nil => rfl
    | cons segment others =>
      rw [if_neg (List.cons_ne_nil _ _)]
      cases segment <;> rfl

/-- The node behind a static segment was edited, and stands in the sorted children. -/
theorem Edited.static {statics : List (Bytes × Node Handler)} (ordered : node.Ordered)
    (below : Edited pattern edit rest
      ((valueAt node.statics bytes).getD {}) child) (keyed : Keyed statics)
    (values : ∀ other, valueAt statics other =
      if other = bytes then some child else valueAt node.statics other) :
    Edited pattern edit (.static bytes :: rest) node { node with statics := statics } := by
  obtain ⟨childOrdered, leaf, edited, leaves⟩ := below
  have start : node.atPattern (.static bytes :: rest) =
      ((valueAt node.statics bytes).getD {}).atPattern rest := by
    rw [atPattern]
    cases valueAt node.statics bytes with
    | none => exact (atPattern_empty rest).symm
    | some known => rfl
  refine ⟨.mk keyed (fun entry member => ?_) (fun entry found => ordered.paramChild found), leaf,
    by rw [start]; exact edited, fun other => ?_⟩
  · have found := (valueAt_eq_some keyed).mpr (show (entry.1, entry.2) ∈ statics from member)
    rw [values] at found
    split at found
    · cases found
      exact childOrdered
    · exact ordered.child found
  · cases other with
    | nil => rfl
    | cons segment others =>
      cases segment with
      | static text =>
        rw [atPattern, atPattern]
        dsimp only
        rw [values]
        by_cases same : text = bytes
        · subst same
          rw [if_pos rfl, Option.bind_some, leaves]
          by_cases equal : others = rest
          · rw [if_pos equal, if_pos (by rw [equal])]
          · rw [if_neg equal, if_neg (fun whole => equal (List.cons.inj whole).2)]
            cases valueAt node.statics text with
            | none => exact atPattern_empty others
            | some known => rfl
        · rw [if_neg same, if_neg (fun whole => same (Segment.static.inj (List.cons.inj whole).1))]
      | param name =>
        rw [if_neg (by simp)]
        rfl
      | catchAll name =>
        rw [if_neg (by simp)]
        rfl

theorem Edited.param (ordered : node.Ordered) (same : (node.param.getD (name, {})).1 = name)
    (below : Edited pattern edit rest (node.param.getD (name, {})).2 child) :
    Edited pattern edit (.param name :: rest) node
      { node with param := some (name, child) } := by
  obtain ⟨childOrdered, leaf, edited, leaves⟩ := below
  have start : ∀ others, node.atPattern (.param name :: others) =
      (node.param.getD (name, {})).2.atPattern others := by
    intro others
    rw [atPattern]
    rcases known : node.param with _ | entry
    · exact (atPattern_empty others).symm
    · rw [known] at same
      exact if_pos same
  refine ⟨.mk ordered.keyed (fun entry member => ?_) (fun entry found => ?_), leaf,
    by rw [start]; exact edited, fun other => ?_⟩
  · exact ordered.child ((valueAt_eq_some ordered.keyed).mpr member)
  · cases found
    exact childOrdered
  · cases other with
    | nil => rfl
    | cons segment others =>
      cases segment with
      | static text =>
        rw [if_neg (by simp)]
        rfl
      | param text =>
        by_cases equal : text = name
        · subst equal
          rw [start]
          refine (if_pos rfl).trans ?_
          rw [leaves]
          by_cases whole : others = rest
          · rw [if_pos whole, if_pos (by rw [whole])]
          · rw [if_neg whole, if_neg (fun both => whole (List.cons.inj both).2)]
        · rw [if_neg (fun whole => equal (Segment.param.inj (List.cons.inj whole).1))]
          refine (if_neg (Ne.symm equal)).trans ?_
          rw [atPattern]
          rcases known : node.param with _ | entry
          · rfl
          · rw [known] at same
            exact (if_neg fun both => equal (both.symm.trans same)).symm
      | catchAll text =>
        rw [if_neg (by simp)]
        rfl

theorem Edited.catchAll {leaf : Leaf Handler} (ordered : node.Ordered)
    (same : (node.catchAll.getD (name, Leaf.new pattern)).1 = name)
    (edited : edit (node.catchAll.getD (name, Leaf.new pattern)).2 = .ok leaf) :
    Edited pattern edit [.catchAll name] node { node with catchAll := some (name, leaf) } := by
  have start : (node.atPattern [.catchAll name]).getD (Leaf.new pattern) =
      (node.catchAll.getD (name, Leaf.new pattern)).2 := by
    rw [atPattern, if_pos rfl]
    rcases known : node.catchAll with _ | entry
    · rfl
    · rw [known] at same
      exact congrArg (Option.getD · (Leaf.new pattern)) (if_pos same)
  refine ⟨.mk ordered.keyed (fun entry member => ?_) (fun entry found => ordered.paramChild found),
    leaf, by rw [start]; exact edited, fun other => ?_⟩
  · exact ordered.child ((valueAt_eq_some ordered.keyed).mpr member)
  · cases other with
    | nil => rfl
    | cons segment others =>
      cases segment with
      | static text =>
        rw [if_neg (by simp)]
        rfl
      | param text =>
        rw [if_neg (by simp)]
        rfl
      | catchAll text =>
        rw [atPattern, atPattern]
        by_cases last : others = []
        · subst last
          rw [if_pos rfl, if_pos rfl, Option.bind_some]
          by_cases equal : text = name
          · subst equal
            rw [if_pos rfl]
            exact (if_pos rfl).symm
          · rw [if_neg fun whole => equal (Segment.catchAll.inj (List.cons.inj whole).1)]
            refine (if_neg (Ne.symm equal)).trans ?_
            rcases known : node.catchAll with _ | entry
            · rfl
            · rw [known] at same
              exact (if_neg fun both => equal (both.symm.trans same)).symm
        · rw [if_neg last, if_neg last, if_neg fun whole => last (List.cons.inj whole).2]

end Registration

/-- Registration edits the leaf of its pattern and no other, and the pattern captures no more
than there is room for. -/
theorem leafFor_spec {pattern : Bytes} {edit : Leaf Handler → Except RouteError (Leaf Handler)}
    {segments : List Segment} {params : Nat} {next : Node Handler} (ordered : node.Ordered)
    (done : node.leafFor pattern edit segments params = .ok next) :
    Edited pattern edit segments node next ∧
      (params ≤ maxParams → params + captured segments ≤ maxParams) := by
  induction segments generalizing params node next with
  | nil =>
    rw [leafFor] at done
    split at done
    · cases done
    · rename_i leaf edited
      cases done
      exact ⟨.leaf ordered edited, id⟩
  | cons segment rest inductionHypothesis =>
    cases segment with
    | static bytes =>
      rw [leafFor] at done
      split at done
      · rename_i place known
        split at done
        · cases done
        · rename_i entry found
          have value := valueAt_of_position known
          rw [found, Option.map_some] at value
          split at done
          · cases done
          · rename_i child below
            cases done
            obtain ⟨edited, room⟩ := inductionHypothesis (ordered.child value) below
            obtain ⟨same, keyed, values⟩ := ordered.keyed.replace known found child
            rw [same]
            exact ⟨.static ordered (by rw [value]; exact edited) keyed values, room⟩
      · rename_i place missing
        have value := valueAt_of_missing missing
        split at done
        · cases done
        · rename_i child below
          cases done
          obtain ⟨edited, room⟩ := inductionHypothesis ordered_empty below
          obtain ⟨keyed, values⟩ := ordered.keyed.insert missing child
          exact ⟨.static ordered (by rw [value]; exact edited) keyed values, room⟩
    | param name =>
      rw [leafFor] at done
      split at done
      · cases done
      · rename_i space
        dsimp only at done
        split at done
        · cases done
        · rename_i same
          have same := not_not.mp same
          split at done
          · cases done
          · rename_i child below
            cases done
            have childOrdered : (node.param.getD (name, {})).2.Ordered := by
              rcases known : node.param with _ | entry
              · exact ordered_empty
              · exact ordered.paramChild known
            obtain ⟨edited, room⟩ := inductionHypothesis childOrdered below
            rw [same]
            refine ⟨.param ordered same edited, fun _ => ?_⟩
            have := room (Nat.le_of_not_lt space)
            change params + (captured rest + 1) ≤ maxParams
            omega
    | catchAll name =>
      rw [leafFor] at done
      split at done
      · cases done
      · rename_i last
        have last := not_not.mp last
        subst last
        split at done
        · cases done
        · rename_i space
          dsimp only at done
          split at done
          · cases done
          · rename_i same
            have same := not_not.mp same
            split at done
            · cases done
            · rename_i leaf edited
              cases done
              rw [same]
              exact ⟨.catchAll ordered same edited, fun _ => Nat.le_of_not_lt space⟩

/-! ### What the search finds -/

/-- A pattern of the node that matches the segments and that the search may use. -/
structure Eligible (node : Node Handler) (catchAll : Bool) (texts : List Bytes)
    (pattern : List Segment) (leaf : Leaf Handler) : Prop where
  held : node.atPattern pattern = some leaf
  matched : matchesPath pattern texts = true
  allowed : catchAll = true ∨ endsInCatchAll pattern = false

/-- What a search has to answer: the leaf of the first eligible pattern with its captures behind
the parameters so far, or no leaf and the parameters as they were. -/
def Finds (node : Node Handler) (path : Bytes) (catchAll : Bool) (spans : List (Nat × Nat))
    (params : Params) : Option (Leaf Handler) × Params → Prop
  | (none, after) => after = params ∧ ∀ pattern leaf,
      ¬ node.Eligible catchAll (spans.map fun span => slice path span.1 span.2) pattern leaf
  | (some leaf, after) => ∃ pattern,
      node.Eligible catchAll (spans.map fun span => slice path span.1 span.2) pattern leaf ∧
      after = params ++ captures path.length pattern spans ∧
      ∀ other its, node.Eligible catchAll (spans.map fun span => slice path span.1 span.2) other its →
        Precedes pattern other

/-- Every pattern of the node leaves room for its captures. -/
def Roomy (node : Node Handler) (params : Params) : Prop :=
  ∀ pattern leaf, node.atPattern pattern = some leaf →
    params.length + captured pattern ≤ maxParams

section Search

variable {node : Node Handler} {path : Bytes} {wide : Bool} {params : Params}

theorem endsInCatchAll_cons {segment : Segment} (plain : segment.isCatchAll = false)
    (rest : List Segment) : endsInCatchAll (segment :: rest) = endsInCatchAll rest := by
  unfold endsInCatchAll
  cases rest with
  | nil => simpa using plain
  | cons next rest => rw [List.getLast?_cons_cons]

variable {texts : List Bytes} {rest : List Segment}

theorem Eligible.static {leaf : Leaf Handler} {text : Bytes}
    (eligible : node.Eligible wide (text :: texts) (.static bytes :: rest) leaf) :
    bytes = text ∧ ∃ child, valueAt node.statics text = some child ∧
      child.Eligible wide texts rest leaf := by
  obtain ⟨held, matched, allowed⟩ := eligible
  rw [matchesPath, Bool.and_eq_true, decide_eq_true_iff] at matched
  obtain ⟨rfl, matched⟩ := matched
  rw [atPattern] at held
  obtain ⟨child, found, held⟩ := Option.bind_eq_some_iff.mp held
  exact ⟨rfl, child, found, held, matched, by rwa [endsInCatchAll_cons rfl] at allowed⟩

theorem Eligible.param {leaf : Leaf Handler} {text : Bytes}
    (eligible : node.Eligible wide (text :: texts) (.param name :: rest) leaf) :
    text ≠ [] ∧ ∃ child, node.param = some (name, child) ∧
      child.Eligible wide texts rest leaf := by
  obtain ⟨held, matched, allowed⟩ := eligible
  rw [matchesPath, Bool.and_eq_true, Bool.not_eq_true', List.isEmpty_eq_false_iff] at matched
  rw [atPattern] at held
  obtain ⟨known, found, below⟩ := Option.bind_eq_some_iff.mp held
  split at below
  · rename_i same
    subst same
    exact ⟨matched.1, known.2, found, below, matched.2, by rwa [endsInCatchAll_cons rfl] at allowed⟩
  · cases below

theorem Eligible.catchAll {leaf : Leaf Handler}
    (eligible : node.Eligible wide texts (.catchAll name :: rest) leaf) :
    rest = [] ∧ wide = true ∧ node.catchAll = some (name, leaf) := by
  obtain ⟨held, matched, allowed⟩ := eligible
  rw [atPattern] at held
  split at held
  · rename_i last
    subst last
    obtain ⟨known, found, below⟩ := Option.bind_eq_some_iff.mp held
    split at below
    · rename_i same
      subst same
      cases below
      exact ⟨rfl, allowed.resolve_right (fun plain => by cases plain), found⟩
    · cases below
  · cases held

theorem Eligible.of_nil {pattern : List Segment} {leaf : Leaf Handler}
    (eligible : node.Eligible wide [] pattern leaf) :
    pattern = [] ∧ node.leaf = some leaf ∨ ∃ name, pattern = [.catchAll name] := by
  cases pattern with
  | nil => exact .inl ⟨rfl, eligible.held⟩
  | cons segment rest =>
    cases segment with
    | static bytes => cases eligible.matched
    | param name => cases eligible.matched
    | catchAll name =>
      obtain ⟨rfl, -⟩ := eligible.catchAll
      exact .inr ⟨name, rfl⟩

/-- The last resort of the search at a node: its catch-all. -/
theorem findCatchAll_finds (spans : List (Nat × Nat)) (roomy : node.Roomy params)
    (others : ∀ pattern leaf,
      node.Eligible wide (spans.map fun span => slice path span.1 span.2) pattern leaf →
        ∃ name, pattern = [.catchAll name]) :
    node.Finds path wide spans params
      (node.findCatchAll path ((spans.head?.map Prod.fst).getD path.length) params wide) := by
  have missing (absent : wide = true → node.catchAll = none) :
      node.Finds path wide spans params (none, params) := by
    refine ⟨rfl, fun pattern leaf eligible => ?_⟩
    obtain ⟨name, rfl⟩ := others pattern leaf eligible
    obtain ⟨-, used, found⟩ := eligible.catchAll
    rw [absent used] at found
    cases found
  unfold findCatchAll
  split
  · rename_i used
    split
    · rename_i child found
      have held : node.atPattern [.catchAll child.1] = some child.2 := by
        rw [atPattern, if_pos rfl, found]
        exact if_pos rfl
      have room : params.length < maxParams := roomy _ _ held
      unfold Params.push
      dsimp only
      rw [if_pos room]
      refine ⟨[.catchAll child.1], ⟨held, by rw [matchesPath], .inl used⟩, ?_, ?_⟩
      · cases spans <;> rfl
      · intro other its eligible
        obtain ⟨name, rfl⟩ := others other its eligible
        exact .inr ⟨rfl, trivial⟩
    · rename_i absent
      exact missing fun _ => absent
  · rename_i unused
    exact missing fun used => absurd used unused

variable {span : Nat × Nat} {spans : List (Nat × Nat)}

variable {result : Option (Leaf Handler) × Params}

/-- The search under a static child: what it finds is first of all, and when it finds nothing no
pattern that starts with a static segment matches. -/
theorem static_finds {child : Node Handler}
    (found : valueAt node.statics (slice path span.1 span.2) = some child)
    (below : child.Finds path wide spans params result) :
    (result.1.isSome = true → node.Finds path wide (span :: spans) params result) ∧
      (result.1 = none → result.2 = params ∧ ∀ bytes rest leaf,
        ¬ node.Eligible wide ((span :: spans).map fun span => slice path span.1 span.2)
          (.static bytes :: rest) leaf) := by
  rcases result with ⟨- | leaf, after⟩
  · refine ⟨nofun, fun _ => ⟨below.1, fun bytes rest leaf eligible => ?_⟩⟩
    obtain ⟨-, other, value, inside⟩ := eligible.static
    rw [found] at value
    cases value
    exact below.2 rest leaf inside
  · refine ⟨fun _ => ?_, nofun⟩
    obtain ⟨pattern, ⟨held, matched, allowed⟩, captured, first⟩ := below
    refine ⟨.static (slice path span.1 span.2) :: pattern, ⟨?_, ?_, ?_⟩, captured, ?_⟩
    · rw [atPattern, found]
      exact held
    · rw [List.map_cons, matchesPath, decide_eq_true rfl, Bool.true_and]
      exact matched
    · rw [endsInCatchAll_cons rfl]
      exact allowed
    · intro other its eligible
      cases other with
      | nil => cases eligible.matched
      | cons segment rest =>
        cases segment with
        | static bytes =>
          obtain ⟨-, same, value, inside⟩ := eligible.static
          rw [found] at value
          cases value
          exact .inr ⟨rfl, first rest its inside⟩
        | param name => exact .inl Nat.zero_lt_one
        | catchAll name => exact .inl Nat.zero_lt_two

/-- The search under the parameter child, when no static segment leads anywhere. -/
theorem param_finds {child : Bytes × Node Handler} (found : node.param = some child)
    (filled : slice path span.1 span.2 ≠ []) (statics : ∀ bytes rest leaf,
      ¬ node.Eligible wide ((span :: spans).map fun span => slice path span.1 span.2)
        (.static bytes :: rest) leaf)
    (below : child.2.Finds path wide spans (params ++ [(child.1, span)]) result) :
    (result.1.isSome = true → node.Finds path wide (span :: spans) params result) ∧
      (result.1 = none → result.2 = params ++ [(child.1, span)] ∧ ∀ name rest leaf,
        ¬ node.Eligible wide ((span :: spans).map fun span => slice path span.1 span.2)
          (.param name :: rest) leaf) := by
  rcases result with ⟨- | leaf, after⟩
  · refine ⟨nofun, fun _ => ⟨below.1, fun name rest leaf eligible => ?_⟩⟩
    obtain ⟨-, other, value, inside⟩ := eligible.param
    rw [found] at value
    cases value
    exact below.2 rest leaf inside
  · refine ⟨fun _ => ?_, nofun⟩
    obtain ⟨pattern, ⟨held, matched, allowed⟩, captured, first⟩ := below
    refine ⟨.param child.1 :: pattern, ⟨?_, ?_, ?_⟩, ?_, ?_⟩
    · rw [atPattern, found]
      exact (if_pos rfl).trans held
    · rw [List.map_cons, matchesPath, List.isEmpty_eq_false_iff.mpr filled, Bool.not_false,
        Bool.true_and]
      exact matched
    · rw [endsInCatchAll_cons rfl]
      exact allowed
    · rw [captured, List.append_assoc]
      rfl
    · intro other its eligible
      cases other with
      | nil => cases eligible.matched
      | cons segment rest =>
        cases segment with
        | static bytes => exact absurd eligible (statics bytes rest its)
        | param name =>
          obtain ⟨-, same, value, inside⟩ := eligible.param
          rw [found] at value
          cases value
          exact .inr ⟨rfl, first rest its inside⟩
        | catchAll name => exact .inl Nat.one_lt_two

theorem Roomy.static (roomy : node.Roomy params) {child : Node Handler}
    (found : valueAt node.statics bytes = some child) : child.Roomy params := by
  intro pattern leaf held
  refine roomy (.static bytes :: pattern) leaf ?_
  rw [atPattern, found]
  exact held

theorem Roomy.param (roomy : node.Roomy params) {child : Bytes × Node Handler}
    (found : node.param = some child) : child.2.Roomy (params ++ [(child.1, span)]) := by
  intro pattern leaf held
  have room := roomy (.param child.1 :: pattern) leaf (by
    rw [atPattern, found]
    exact (if_pos rfl).trans held)
  rw [List.length_append]
  change params.length + (captured pattern + 1) ≤ maxParams at room
  change params.length + 1 + captured pattern ≤ maxParams
  omega

/-- The search finds the first of the patterns that match. -/
theorem find_finds (ordered : node.Ordered) (spans : List (Nat × Nat)) (roomy : node.Roomy params) :
    node.Finds path wide spans params (node.find path wide spans params) := by
  induction spans generalizing node params with
  | nil =>
    rw [find]
    split
    · rename_i leaf found
      refine ⟨[], ⟨found, rfl, .inr rfl⟩, (List.append_nil _).symm, fun _ _ _ => trivial⟩
    · rename_i absent
      refine findCatchAll_finds [] roomy fun pattern leaf eligible => ?_
      rcases eligible.of_nil with ⟨-, found⟩ | last
      · rw [absent] at found
        cases found
      · exact last
  | cons span spans inductionHypothesis =>
    rw [find]
    dsimp only
    split
    · rename_i leaf after found
      split at found
      · rename_i place known
        have value := valueAt_of_position known
        split at found
        · rename_i entry reached
          rw [reached, Option.map_some] at value
          have below := static_finds value
            (inductionHypothesis (ordered.child value) (roomy.static value))
          rw [found] at below
          exact below.1 rfl
        · cases found
      · cases found
    · rename_i after found
      have unmatched : after = params ∧ ∀ bytes rest leaf,
          ¬ node.Eligible wide ((span :: spans).map fun span => slice path span.1 span.2)
            (.static bytes :: rest) leaf := by
        have absent (missing : valueAt node.statics (slice path span.1 span.2) = none) :
            ∀ bytes rest leaf, ¬ node.Eligible wide
              ((span :: spans).map fun span => slice path span.1 span.2)
              (.static bytes :: rest) leaf := by
          intro bytes rest leaf eligible
          obtain ⟨-, child, value, -⟩ := eligible.static
          rw [missing] at value
          cases value
        split at found
        · rename_i place known
          have value := valueAt_of_position known
          split at found
          · rename_i entry reached
            rw [reached, Option.map_some] at value
            have below := static_finds value
              (inductionHypothesis (ordered.child value) (roomy.static value))
            rw [found] at below
            exact below.2 rfl
          · rename_i outside
            cases found
            rw [outside] at value
            exact ⟨rfl, absent value⟩
        · rename_i place missing
          cases found
          exact ⟨rfl, absent (valueAt_of_missing missing)⟩
      obtain ⟨same, statics⟩ := unmatched
      subst same
      have absent (missing : ∀ child, node.param = some child →
          slice path span.1 span.2 ≠ [] → ¬ after.length < maxParams) :
          ∀ name rest leaf, ¬ node.Eligible wide
            ((span :: spans).map fun span => slice path span.1 span.2)
            (.param name :: rest) leaf := by
        intro name rest leaf eligible
        obtain ⟨filled, child, known, inside⟩ := eligible.param
        have roomyChild : child.Roomy (after ++ [(name, span)]) := roomy.param known
        have room := roomyChild rest leaf inside.held
        rw [List.length_append] at room
        refine missing _ known filled ?_
        change after.length + 1 + _ ≤ _ at room
        omega
      split
      · rename_i leaf later found
        split at found
        · rename_i child known
          split at found
          · rename_i used
            obtain ⟨filled, pushed⟩ := used
            have room := (Params.push_fst after child.1 span.1 span.2).mp pushed
            rw [Params.push_snd room] at found
            have below := param_finds known filled statics
              (inductionHypothesis (ordered.paramChild known) (roomy.param known))
            split at found
            · rename_i reached
              rw [reached] at below
              cases found
              exact below.1 rfl
            · cases found
          · cases found
        · cases found
      · rename_i later found
        have unmatched : later = after ∧ ∀ name rest leaf,
            ¬ node.Eligible wide ((span :: spans).map fun span => slice path span.1 span.2)
              (.param name :: rest) leaf := by
          split at found
          · rename_i child known
            split at found
            · rename_i used
              obtain ⟨filled, pushed⟩ := used
              have room := (Params.push_fst after child.1 span.1 span.2).mp pushed
              rw [Params.push_snd room] at found
              have below := param_finds known filled statics
                (inductionHypothesis (ordered.paramChild known) (roomy.param known))
              split at found
              · cases found
              · rename_i reached
                rw [reached] at below
                cases found
                obtain ⟨captured, params⟩ := below.2 rfl
                refine ⟨?_, params⟩
                dsimp only at captured
                unfold Params.pop
                rw [captured, List.dropLast_concat]
            · rename_i unused
              cases found
              refine ⟨rfl, absent fun other same filled room => unused ?_⟩
              exact ⟨filled, (Params.push_fst _ _ _ _).mpr room⟩
          · rename_i none_
            cases found
            refine ⟨rfl, absent fun other same => ?_⟩
            rw [none_] at same
            cases same
        obtain ⟨same, params⟩ := unmatched
        subst same
        refine findCatchAll_finds (span :: spans) roomy fun pattern leaf eligible => ?_
        cases pattern with
        | nil => cases eligible.matched
        | cons segment rest =>
          cases segment with
          | static bytes => exact absurd eligible (statics bytes rest leaf)
          | param name => exact absurd eligible (params name rest leaf)
          | catchAll name =>
            obtain ⟨rfl, -⟩ := eligible.catchAll
            exact ⟨name, rfl⟩

end Search

end Node

end ZeroServer.Routing

/-
This file models registration as it changes the trie in place and proves what a refused call leaves
behind. The nodes made on the way stay, without a leaf: no search sees them, and a static one is
as good as missing. A parameter node that was made fixes the name of the parameter at its place, and
a later route that names it otherwise is refused.
-/

import Mathlib.Data.List.Forall2
import ZeroServer.Router.Resolve
import ZeroServer.Uri.Normal

namespace ZeroServer.Routing

open Http1 Uri Lib

variable {Handler : Type}

/-! ### Registration in place -/

/-- Add the handler of a method, if it has none. -/
def Leaf.register (method : Method) (descriptor : Handler) (leaf : Leaf Handler) :
    Except RouteError (Leaf Handler) :=
  if (leaf.handlers method).isSome then .error .duplicate
  else .ok { leaf with
    handlers := fun other => if other = method then some descriptor else leaf.handlers other }

variable {segments : List Segment}

namespace Node

/-- The walk of `leafFor` on the trie itself: a refused one keeps the nodes it made. -/
def leafInPlace (pattern : Bytes) (edit : Leaf Handler → Except RouteError (Leaf Handler)) :
    List Segment → Nat → Node Handler → Except RouteError Unit × Node Handler
  | [], _, node =>
    let known := node.leaf.getD (Leaf.new pattern)
    match edit known with
    | .error refused => (.error refused, { node with leaf := some known })
    | .ok leaf => (.ok (), { node with leaf := some leaf })
  | .static bytes :: rest, params, node =>
    match position node.statics bytes with
    | .ok place =>
      match node.statics[place]? with
      | none => (.error .invalidPattern, node)
      | some known =>
        let below := leafInPlace pattern edit rest params known.2
        (below.1, { node with statics := node.statics.set place (known.1, below.2) })
    | .error place =>
      let below := leafInPlace pattern edit rest params {}
      (below.1, { node with statics := node.statics.insertIdx place (bytes, below.2) })
  | .param name :: rest, params, node =>
    if maxParams < params + 1 then (.error .tooManyParameters, node)
    else
      let known := node.param.getD (name, {})
      if known.1 ≠ name then (.error .parameterConflict, { node with param := some known })
      else
        let below := leafInPlace pattern edit rest (params + 1) known.2
        (below.1, { node with param := some (known.1, below.2) })
  | .catchAll name :: rest, params, node =>
    if rest ≠ [] then (.error .catchAllNotLast, node)
    else if maxParams < params + 1 then (.error .tooManyParameters, node)
    else
      let known := node.catchAll.getD (name, Leaf.new pattern)
      if known.1 ≠ name then (.error .parameterConflict, { node with catchAll := some known })
      else
        match edit known.2 with
        | .error refused => (.error refused, { node with catchAll := some known })
        | .ok leaf => (.ok (), { node with catchAll := some (known.1, leaf) })

/-! ### What can be seen of a trie -/

/-- The child a static segment leads to; a missing child is an empty one. -/
def child (node : Node Handler) (bytes : Bytes) : Node Handler :=
  (valueAt node.statics bytes).getD {}

/-- The child a parameter leads to. -/
def paramChild (node : Node Handler) : Node Handler := (node.param.map Prod.snd).getD {}

/-- One step down: along a static segment, or along the parameter. -/
def step (node : Node Handler) : Option Bytes → Node Handler
  | some bytes => node.child bytes
  | none => node.paramChild

def follow : List (Option Bytes) → Node Handler → Node Handler
  | [], node => node
  | first :: rest, node => follow rest (node.step first)

/-- What a node shows: its leaf, its catch-all and the name of its parameter. -/
def face (node : Node Handler) : Option (Leaf Handler) × Option (Bytes × Leaf Handler) ×
    Option Bytes := (node.leaf, node.catchAll, node.param.map Prod.fst)

/-- Wherever one goes, the nodes show the same. -/
def Alike (left right : Node Handler) : Prop :=
  ∀ steps, (follow steps left).face = (follow steps right).face

variable {left right node : Node Handler}

theorem Alike.refl (node : Node Handler) : Alike node node := fun _ => rfl

theorem Alike.step (alike : Alike left right) (first : Option Bytes) :
    Alike (left.step first) (right.step first) := fun steps => alike (first :: steps)

theorem Alike.of_step (faces : left.face = right.face)
    (below : ∀ first, Alike (left.step first) (right.step first)) : Alike left right
  | [] => faces
  | first :: rest => below first rest

theorem Alike.leaf (alike : Alike left right) : left.leaf = right.leaf :=
  congrArg Prod.fst (alike [])

theorem Alike.catchAll (alike : Alike left right) : left.catchAll = right.catchAll :=
  congrArg (fun face => face.2.1) (alike [])

theorem Alike.name (alike : Alike left right) :
    left.param.map Prod.fst = right.param.map Prod.fst :=
  congrArg (fun face => face.2.2) (alike [])

/-! ### The search sees no more -/

theorem findCatchAll_alike (alike : Alike left right) (path : Bytes) (start : Nat)
    (params : Params) (catchAll : Bool) :
    left.findCatchAll path start params catchAll =
      right.findCatchAll path start params catchAll := by
  unfold findCatchAll
  rw [alike.catchAll]

theorem find_empty (path : Bytes) (catchAll : Bool) (spans : List (Nat × Nat)) (params : Params) :
    ({} : Node Handler).find path catchAll spans params = (none, params) := by
  have nothing : ∀ start,
      ({} : Node Handler).findCatchAll path start params catchAll = (none, params) := by
    intro start
    unfold findCatchAll
    cases catchAll <;> rfl
  cases spans with
  | nil => exact nothing path.length
  | cons span rest => exact nothing span.1

/-- The search goes through the children, and a missing one is as good as an empty one. -/
theorem find_cons (node : Node Handler) (path : Bytes) (catchAll : Bool) (start stop : Nat)
    (rest : List (Nat × Nat)) (params : Params) :
    node.find path catchAll ((start, stop) :: rest) params =
      match (node.child (slice path start stop)).find path catchAll rest params with
      | (some leaf, params) => (some leaf, params)
      | (none, params) =>
        match (match node.param.map Prod.fst with
          | some name =>
            if slice path start stop ≠ [] ∧ (params.push name start stop).1 = true then
              match node.paramChild.find path catchAll rest (params.push name start stop).2 with
              | (some leaf, params) => (some leaf, params)
              | (none, params) => (none, params.pop)
            else (none, params)
          | none => (none, params) : Option (Leaf Handler) × Params) with
        | (some leaf, params) => (some leaf, params)
        | (none, params) => node.findCatchAll path start params catchAll := by
  rw [find]
  unfold child paramChild valueAt
  cases position node.statics (slice path start stop) with
  | error place =>
    dsimp only [Option.getD_none]
    rw [find_empty]
    cases node.param <;> rfl
  | ok place =>
    dsimp only
    cases node.statics[place]? with
    | none =>
      dsimp only [Option.map_none, Option.getD_none]
      rw [find_empty]
      cases node.param <;> rfl
    | some known =>
      dsimp only [Option.map_some, Option.getD_some]
      rcases known.2.find path catchAll rest params with ⟨_ | _, behind⟩
      · cases node.param <;> rfl
      · rfl

theorem find_alike (alike : Alike left right) (path : Bytes) (catchAll : Bool)
    (spans : List (Nat × Nat)) (params : Params) :
    left.find path catchAll spans params = right.find path catchAll spans params := by
  induction spans generalizing left right params with
  | nil =>
    rw [find, find, alike.leaf]
    cases right.leaf with
    | some leaf => rfl
    | none => exact findCatchAll_alike alike path _ params catchAll
  | cons span rest inductionHypothesis =>
    obtain ⟨start, stop⟩ := span
    have below : ∀ params, left.paramChild.find path catchAll rest params =
        right.paramChild.find path catchAll rest params :=
      fun params => inductionHypothesis (alike.step none) params
    have static : (left.child (slice path start stop)).find path catchAll rest params =
        (right.child (slice path start stop)).find path catchAll rest params :=
      inductionHypothesis (alike.step (some (slice path start stop))) params
    rw [find_cons, find_cons]
    simp only [below, static, alike.name, findCatchAll_alike alike]

/-! ### Registration sees no more -/

variable {pattern : Bytes} {edit : Leaf Handler → Except RouteError (Leaf Handler)}

variable {params : Nat}

variable {bytes : Bytes}

theorem Ordered.step (ordered : node.Ordered) (first : Option Bytes) :
    (node.step first).Ordered := by
  cases first with
  | some bytes =>
    change ((valueAt node.statics bytes).getD {}).Ordered
    rcases found : valueAt node.statics bytes with _ | known
    · exact ordered_empty
    · exact ordered.child found
  | none =>
    change ((node.param.map Prod.snd).getD {}).Ordered
    rcases found : node.param with _ | known
    · exact ordered_empty
    · exact ordered.paramChild found

/-- A node whose child behind a static segment is replaced, and no other. -/
structure Replaced (bytes : Bytes) (below node next : Node Handler) : Prop where
  face : next.face = node.face
  same : next.child bytes = below
  ordered : next.Ordered
  others : ∀ first, first ≠ some bytes → next.step first = node.step first

theorem replaced_statics (ordered : node.Ordered) {below : Node Handler}
    (belowOrdered : below.Ordered) {statics : List (Bytes × Node Handler)} (keyed : Keyed statics)
    (values : ∀ other, valueAt statics other =
      if other = bytes then some below else valueAt node.statics other) :
    Replaced bytes below node { node with statics := statics } := by
  refine ⟨rfl, ?_, .mk keyed (fun entry member => ?_) fun entry found => ordered.paramChild found,
    fun first other => ?_⟩
  · change (valueAt statics bytes).getD {} = below
    rw [values, if_pos rfl]
    rfl
  · have found := (valueAt_eq_some keyed).mpr (show (entry.1, entry.2) ∈ statics from member)
    rw [values] at found
    split at found
    · cases found
      exact belowOrdered
    · exact ordered.child found
  · cases first with
    | none => rfl
    | some text =>
      change (valueAt statics text).getD {} = (valueAt node.statics text).getD {}
      rw [values, if_neg fun same => other (congrArg some same)]

/-- A walk along a static segment goes on at the child and puts it back. -/
theorem leafInPlace_static (ordered : node.Ordered) {rest : List Segment}
    (below : ((node.child bytes).leafInPlace pattern edit rest params).2.Ordered) :
    (node.leafInPlace pattern edit (.static bytes :: rest) params).1 =
        ((node.child bytes).leafInPlace pattern edit rest params).1 ∧
      Replaced bytes ((node.child bytes).leafInPlace pattern edit rest params).2 node
        (node.leafInPlace pattern edit (.static bytes :: rest) params).2 := by
  rw [leafInPlace]
  cases place : position node.statics bytes with
  | ok index =>
    have answers := binarySearchBy_answers (ordered.keyed.ranked bytes)
    unfold position at place
    rw [place] at answers
    obtain ⟨known, found, -⟩ := answers
    have value : valueAt node.statics bytes = node.statics[index]?.map Prod.snd :=
      valueAt_of_position place
    rw [found, Option.map_some] at value
    have there : node.child bytes = known.2 := by
      unfold child
      rw [value]
      rfl
    rw [there] at below ⊢
    dsimp only
    rw [found]
    obtain ⟨same, keyed, values⟩ := ordered.keyed.replace place found
      (known.2.leafInPlace pattern edit rest params).2
    dsimp only
    rw [same]
    exact ⟨rfl, replaced_statics ordered below keyed values⟩
  | error index =>
    have value := valueAt_of_missing place
    have there : node.child bytes = {} := by
      unfold child
      rw [value]
      rfl
    rw [there] at below ⊢
    obtain ⟨keyed, values⟩ := ordered.keyed.insert place
      (({} : Node Handler).leafInPlace pattern edit rest params).2
    exact ⟨rfl, replaced_statics ordered below keyed values⟩

/-- The name a parameter segment meets, and the child behind it. -/
theorem param_getD (node : Node Handler) (name : Bytes) :
    node.param.getD (name, {}) = ((node.param.map Prod.fst).getD name, node.paramChild) := by
  unfold paramChild
  cases node.param <;> rfl

theorem leafInPlace_ordered (pattern : Bytes)
    (edit : Leaf Handler → Except RouteError (Leaf Handler))
    (ordered : node.Ordered) (segments : List Segment) (params : Nat) :
    (node.leafInPlace pattern edit segments params).2.Ordered := by
  induction segments generalizing params node with
  | nil =>
    rw [leafInPlace]
    cases ordered with
    | mk keyed statics param => split <;> exact .mk keyed statics param
  | cons segment rest inductionHypothesis =>
    cases segment with
    | static bytes =>
      exact (leafInPlace_static ordered
        (inductionHypothesis (ordered.step (some bytes)) params)).2.ordered
    | param name =>
      rw [leafInPlace, param_getD]
      have below := inductionHypothesis (ordered.step none) (params + 1)
      have put : ∀ (text : Bytes) {child : Node Handler}, child.Ordered →
          ({ node with param := some (text, child) } : Node Handler).Ordered := by
        intro text child childOrdered
        refine .mk ordered.keyed
          (fun entry member => ordered.child ((valueAt_eq_some ordered.keyed).mpr member))
          fun entry found => ?_
        cases found
        exact childOrdered
      dsimp only
      split
      · exact ordered
      · split
        · exact put _ (ordered.step none)
        · exact put _ below
    | catchAll name =>
      rw [leafInPlace]
      cases ordered with
      | mk keyed statics param =>
        split
        · exact .mk keyed statics param
        · split
          · exact .mk keyed statics param
          · dsimp only
            split
            · exact .mk keyed statics param
            · split <;> exact .mk keyed statics param

/-- Registration does the same to tries that show the same. -/
theorem leafInPlace_alike (pattern : Bytes) (edit : Leaf Handler → Except RouteError (Leaf Handler))
    (alike : Alike left right) (ordered : left.Ordered) (ordered' : right.Ordered)
    (segments : List Segment) (params : Nat) :
    (left.leafInPlace pattern edit segments params).1 =
        (right.leafInPlace pattern edit segments params).1 ∧
      Alike (left.leafInPlace pattern edit segments params).2
        (right.leafInPlace pattern edit segments params).2 := by
  induction segments generalizing params left right with
  | nil =>
    have below : ∀ first, Alike (left.step first) (right.step first) := alike.step
    have sameName := alike.name
    have sameCatchAll := alike.catchAll
    rw [leafInPlace, leafInPlace, alike.leaf]
    split
    · refine ⟨rfl, .of_step ?_ below⟩
      unfold face
      rw [sameName, sameCatchAll]
    · refine ⟨rfl, .of_step ?_ below⟩
      unfold face
      rw [sameName, sameCatchAll]
  | cons segment rest inductionHypothesis =>
    cases segment with
    | static bytes =>
      obtain ⟨answer, belowAlike⟩ := inductionHypothesis (alike.step (some bytes))
        (ordered.step _) (ordered'.step _) params
      obtain ⟨leftAnswer, leftReplaced⟩ := leafInPlace_static ordered
        (leafInPlace_ordered pattern edit (ordered.step (some bytes)) rest params)
      obtain ⟨rightAnswer, rightReplaced⟩ := leafInPlace_static ordered'
        (leafInPlace_ordered pattern edit (ordered'.step (some bytes)) rest params)
      refine ⟨leftAnswer.trans (answer.trans rightAnswer.symm), .of_step ?_ fun first => ?_⟩
      · rw [leftReplaced.face, rightReplaced.face]
        exact alike []
      · by_cases same : first = some bytes
        · subst same
          change Alike (Node.child _ bytes) (Node.child _ bytes)
          rw [leftReplaced.same, rightReplaced.same]
          exact belowAlike
        · rw [leftReplaced.others first same, rightReplaced.others first same]
          exact alike.step first
    | param name =>
      obtain ⟨answer, belowAlike⟩ := inductionHypothesis (alike.step none)
        (ordered.step none) (ordered'.step none) (params + 1)
      have put : ∀ (text : Bytes) {leftChild rightChild : Node Handler},
          Alike leftChild rightChild → Alike { left with param := some (text, leftChild) }
            { right with param := some (text, rightChild) } := by
        intro text leftChild rightChild childAlike
        refine .of_step ?_ fun first => ?_
        · unfold face
          rw [alike.leaf, alike.catchAll]
          rfl
        · cases first with
          | none => exact childAlike
          | some bytes => exact alike.step (some bytes)
      rw [leafInPlace, leafInPlace, param_getD, param_getD, alike.name]
      dsimp only
      split
      · exact ⟨rfl, alike⟩
      · split
        · exact ⟨rfl, put _ (alike.step none)⟩
        · exact ⟨answer, put _ belowAlike⟩
    | catchAll name =>
      have put : ∀ child,
          Alike { left with catchAll := child } { right with catchAll := child } := by
        refine fun child => .of_step ?_ alike.step
        unfold face
        rw [alike.leaf, alike.name]
      rw [leafInPlace, leafInPlace, alike.catchAll]
      dsimp only
      split
      · exact ⟨rfl, alike⟩
      · split
        · exact ⟨rfl, alike⟩
        · split
          · exact ⟨rfl, put _⟩
          · split
            · exact ⟨rfl, put _⟩
            · exact ⟨rfl, put _⟩

/-! ### What a refused walk leaves -/

/-- The walk of a pattern comes, before it is refused, to a parameter where the trie has none yet:
it makes the node and fixes its name. -/
def fixesName : List Segment → Nat → Node Handler → Bool
  | .static bytes :: rest, params, node => fixesName rest params (node.child bytes)
  | .param name :: rest, params, node =>
    if maxParams < params + 1 then false
    else match node.param with
      | none => true
      | some known => known.1 = name && fixesName rest (params + 1) known.2
  | _, _, _ => false

variable {method : Method} {descriptor : Handler}

/-- A refused walk that fixes no name changes nothing that can be seen. -/
theorem leafInPlace_refused (ordered : node.Ordered) {refused : RouteError}
    (refusal : (node.leafInPlace pattern (Leaf.register method descriptor) segments params).1 =
      .error refused) (fixes : fixesName segments params node = false) :
    Alike (node.leafInPlace pattern (Leaf.register method descriptor) segments params).2 node := by
  induction segments generalizing params node with
  | nil =>
    rw [leafInPlace] at refusal ⊢
    cases known : node.leaf with
    | none =>
      rw [known] at refusal
      cases refusal
    | some leaf =>
      rw [known] at refusal
      dsimp only [Option.getD_some] at refusal ⊢
      split at refusal
      · refine .of_step ?_ fun first => Alike.refl _
        unfold face
        rw [known]
      · cases refusal
  | cons segment rest inductionHypothesis =>
    cases segment with
    | static bytes =>
      obtain ⟨answer, replaced⟩ := leafInPlace_static ordered
        (leafInPlace_ordered pattern (Leaf.register method descriptor)
          (ordered.step (some bytes)) rest params)
      rw [answer] at refusal
      refine .of_step replaced.face fun first => ?_
      by_cases same : first = some bytes
      · subst same
        change Alike (Node.child _ bytes) (Node.child _ bytes)
        rw [replaced.same]
        exact inductionHypothesis (ordered.step (some bytes)) refusal fixes
      · rw [replaced.others first same]
        exact .refl _
    | param name =>
      rw [leafInPlace] at refusal ⊢
      rw [fixesName] at fixes
      split at refusal
      · rename_i full
        rw [if_pos full]
        exact .refl node
      · rename_i space
        rw [if_neg space] at fixes ⊢
        rcases known : node.param with _ | entry
        · rw [known] at fixes
          cases fixes
        · rw [known] at fixes refusal
          dsimp only [Option.getD_some] at fixes refusal ⊢
          have put : ∀ {child : Node Handler}, Alike child entry.2 →
              Alike { node with param := some (entry.1, child) } node := by
            intro child childAlike
            refine .of_step ?_ fun first => ?_
            · unfold face
              rw [known]
              rfl
            · cases first with
              | some bytes => exact .refl _
              | none =>
                change Alike child node.paramChild
                unfold paramChild
                rw [known]
                exact childAlike
          split at refusal
          · rename_i differs
            rw [if_pos differs]
            exact put (.refl entry.2)
          · rename_i same
            rw [if_neg same]
            rw [decide_eq_true (not_not.mp same), Bool.true_and] at fixes
            exact put (inductionHypothesis (ordered.paramChild known) refusal fixes)
    | catchAll name =>
      have put : ∀ {child : Option (Bytes × Leaf Handler)}, node.catchAll = child →
          Alike { node with catchAll := child } node := by
        intro child same
        refine .of_step ?_ fun first => Alike.refl _
        unfold face
        rw [same]
      rw [leafInPlace] at refusal ⊢
      split at refusal
      · rename_i more
        rw [if_pos more]
        exact .refl node
      · rename_i last
        rw [if_neg last]
        split at refusal
        · rename_i full
          rw [if_pos full]
          exact .refl node
        · rename_i space
          rw [if_neg space]
          rcases known : node.catchAll with _ | entry
          · rw [known] at refusal
            dsimp only [Option.getD_none] at refusal
            rw [if_neg (not_not.mpr rfl)] at refusal
            cases refusal
          · rw [known] at refusal
            dsimp only [Option.getD_some] at refusal ⊢
            split at refusal
            · rename_i differs
              rw [if_pos differs]
              exact put known
            · rename_i same
              rw [if_neg same]
              split at refusal
              · exact put known
              · cases refusal

/-- A walk that fixes a name makes a place where another name was accepted and no longer is. -/
theorem leafInPlace_fixes (pattern : Bytes) (edit : Leaf Handler → Except RouteError (Leaf Handler))
    (method : Method) (descriptor : Handler) (ordered : node.Ordered)
    (fixes : fixesName segments params node = true) :
    ∃ front name back, segments = front ++ .param name :: back ∧ ∀ text other, other ≠ name →
      (node.leafInPlace text (Leaf.register method descriptor) (front ++ [.param other]) params).1 =
          .ok () ∧
        ((node.leafInPlace pattern edit segments params).2.leafInPlace text
          (Leaf.register method descriptor) (front ++ [.param other]) params).1 =
            .error .parameterConflict := by
  induction segments generalizing params node with
  | nil => cases fixes
  | cons segment rest inductionHypothesis =>
    cases segment with
    | static bytes =>
      have childOrdered := leafInPlace_ordered pattern edit
        (ordered.step (some bytes)) rest params
      obtain ⟨-, replaced⟩ := leafInPlace_static ordered childOrdered
      obtain ⟨front, name, back, rfl, differs⟩ :=
        inductionHypothesis (ordered.step (some bytes)) fixes
      refine ⟨.static bytes :: front, name, back, rfl, fun text other apart => ?_⟩
      obtain ⟨accepted, refused⟩ := differs text other apart
      refine ⟨?_, ?_⟩
      · exact (leafInPlace_static ordered (leafInPlace_ordered text
          (Leaf.register method descriptor) (ordered.step (some bytes)) _ params)).1.trans accepted
      · refine (leafInPlace_static replaced.ordered (leafInPlace_ordered text
          (Leaf.register method descriptor) (replaced.ordered.step (some bytes)) _
          params)).1.trans ?_
        rw [replaced.same]
        exact refused
    | param name =>
      rw [fixesName] at fixes
      split at fixes
      · cases fixes
      · rename_i space
        rcases known : node.param with _ | entry
        · refine ⟨[], name, rest, rfl, fun text other apart => ⟨?_, ?_⟩⟩
          · rw [List.nil_append, leafInPlace, if_neg space, known]
            exact congrArg Prod.fst (if_neg (not_not.mpr rfl))
          · have made : (node.leafInPlace pattern edit (.param name :: rest) params).2.param =
                some (name, (leafInPlace pattern edit rest (params + 1) {}).2) := by
              rw [leafInPlace, if_neg space, known]
              exact congrArg (fun done : Except RouteError Unit × Node Handler => done.2.param)
                (if_neg (not_not.mpr rfl))
            rw [List.nil_append, leafInPlace, if_neg space, made]
            exact congrArg Prod.fst (if_pos (Ne.symm apart))
        · rw [known] at fixes
          rw [Bool.and_eq_true, decide_eq_true_eq] at fixes
          obtain ⟨same, fixes⟩ := fixes
          obtain ⟨front, shown, back, rfl, differs⟩ :=
            inductionHypothesis (ordered.paramChild known) fixes
          refine ⟨.param name :: front, shown, back, rfl, fun text other apart => ?_⟩
          obtain ⟨accepted, refused⟩ := differs text other apart
          refine ⟨?_, ?_⟩
          · rw [List.cons_append, leafInPlace, if_neg space, known]
            dsimp only [Option.getD_some]
            rw [if_neg (not_not.mpr same)]
            exact accepted
          · have made : (node.leafInPlace pattern edit
                (.param name :: (front ++ .param shown :: back)) params).2.param = some (entry.1, (leafInPlace pattern edit
                  (front ++ .param shown :: back) (params + 1) entry.2).2) := by
              rw [leafInPlace, if_neg space, known]
              exact congrArg (fun done : Except RouteError Unit × Node Handler => done.2.param)
                (if_neg (not_not.mpr same))
            rw [List.cons_append, leafInPlace, if_neg space, made]
            dsimp only [Option.getD_some]
            rw [if_neg (not_not.mpr same)]
            exact refused
    | catchAll name => cases fixes

end Node

/-! ### A pattern with another name -/

variable {texts : List Bytes} {mode : TrailingSlash}

/-- Segments, each with the `/` behind it. -/
def leading (segments : List Bytes) : Bytes := segments.flatMap fun segment => segment ++ [slash]

theorem splitOn_cut {rest middle : Bytes} {front back : List Bytes}
    (parts : rest.splitOn slash = front ++ middle :: back) : slash ∉ middle ∧
      (∃ behind, rest = leading front ++ middle ++ behind ∧
        (behind = [] ∨ behind.head? = some slash)) ∧
      ∀ last, slash ∉ last → (leading front ++ last).splitOn slash = front ++ [last] := by
  induction front generalizing rest with
  | nil =>
    obtain ⟨segment, next, rfl, plain, -, ends⟩ := findIdx_slash rest
    have same : middle = segment := by
      rcases ends with rfl | ahead
      · rw [List.append_nil, List.splitOn_eq_singleton plain] at parts
        exact (List.cons.inj parts).1.symm
      · cases next with
        | nil => cases ahead
        | cons first next =>
          cases ahead
          rw [List.splitOn_append_cons_self_of_not_mem plain] at parts
          exact (List.cons.inj parts).1.symm
    subst same
    exact ⟨plain, ⟨next, rfl, ends⟩, fun last lastPlain => List.splitOn_eq_singleton lastPlain⟩
  | cons segment front inductionHypothesis =>
    obtain ⟨first, next, rfl, plain, -, ends⟩ := findIdx_slash rest
    rcases ends with rfl | ahead
    · rw [List.append_nil, List.splitOn_eq_singleton plain] at parts
      have lengths := congrArg List.length parts
      simp at lengths
    · cases next with
      | nil => cases ahead
      | cons byte next =>
        cases ahead
        rw [List.splitOn_append_cons_self_of_not_mem plain] at parts
        obtain ⟨rfl, others⟩ := List.cons.inj parts
        obtain ⟨middlePlain, ⟨behind, rfl, ends⟩, cut⟩ := inductionHypothesis others
        refine ⟨middlePlain, ⟨behind, ?_, ends⟩, fun last lastPlain => ?_⟩
        · simp [leading]
        · have whole : leading (first :: front) ++ last =
              first ++ slash :: (leading front ++ last) := by
            simp [leading]
          rw [whole, List.splitOn_append_cons_self_of_not_mem plain, cut last lastPlain]
          rfl

theorem parseSegments_ok {parsed : List Segment}
    (done : parseSegments texts parsed = .ok segments) : ∃ new, segments = parsed ++ new ∧
      List.Forall₂ (fun text segment => parseSegment text = .ok segment) texts new ∧
      (segments.length ≤ maxSegments + 1 ∨ texts = []) := by
  induction texts generalizing parsed with
  | nil =>
    cases done
    exact ⟨[], (List.append_nil _).symm, .nil, .inr rfl⟩
  | cons text texts inductionHypothesis =>
    rw [parseSegments] at done
    split at done
    · cases done
    · rename_i short
      split at done
      · cases done
      · rename_i next read
        obtain ⟨new, rfl, reads, bound⟩ := inductionHypothesis done
        refine ⟨next :: new, by simp, .cons read reads, .inl ?_⟩
        rcases bound with bound | rfl
        · exact bound
        · cases reads
          simp
          omega

theorem parseSegments_reads {parsed new : List Segment}
    (reads : List.Forall₂ (fun text segment => parseSegment text = .ok segment) texts new)
    (short : (parsed ++ new).length ≤ maxSegments + 1) :
    parseSegments texts parsed = .ok (parsed ++ new) := by
  induction reads generalizing parsed with
  | nil => rw [List.append_nil, parseSegments]
  | cons read _ inductionHypothesis =>
    rw [List.length_append, List.length_cons] at short
    rw [parseSegments, if_neg (by omega), read]
    dsimp only
    rw [inductionHypothesis (by simp; omega), List.append_assoc]
    rfl

theorem forall₂_cut {Left Right : Type} {relation : Left → Right → Prop} {lefts : List Left}
    {front back : List Right} {middle : Right}
    (related : List.Forall₂ relation lefts (front ++ middle :: back)) :
    ∃ before left behind, lefts = before ++ left :: behind ∧
      List.Forall₂ relation before front ∧ relation left middle := by
  induction front generalizing lefts with
  | nil =>
    cases related with
    | cons here _ => exact ⟨[], _, _, rfl, .nil, here⟩
  | cons first front inductionHypothesis =>
    cases related with
    | cons here rest =>
      obtain ⟨before, left, behind, rfl, others, there⟩ := inductionHypothesis rest
      exact ⟨_ :: before, left, behind, rfl, .cons here others, there⟩

theorem parseSegment_param {text name : Bytes} (read : parseSegment text = .ok (.param name)) :
    text = 58 :: name ∧ name ≠ [] := by
  unfold parseSegment at read
  split at read
  · split at read
    · cases read
    · rename_i some_
      cases read
      exact ⟨rfl, some_⟩
  · cases read
  · cases read

/-- A path in normal form holds no `?`. -/
theorem splitQuery_spelled {path : Bytes} (spelled : Spelled path) :
    splitQuery path = (path, none) := by
  have plain : ∀ byte : Fin 256, (hexValue ⟨⟨byte⟩⟩).isSome = true ∨ isPchar ⟨⟨byte⟩⟩ = true →
      ((⟨⟨byte⟩⟩ : UInt8) == question) = false := by decide +kernel
  have apart : ∀ byte ∈ path, (byte == question) = false := by
    obtain ⟨items, rfl, fine⟩ := spelled
    intro byte member
    obtain ⟨item, inside, held⟩ := List.mem_flatMap.mp member
    have valid := (fine item inside).1
    cases item with
    | plain other =>
      obtain rfl := List.mem_singleton.mp held
      rcases valid with rfl | pchar
      · rfl
      · exact plain byte.toBitVec.toFin (.inr pchar)
    | triplet high low =>
      rcases List.mem_cons.mp held with rfl | held
      · rfl
      · rcases List.mem_cons.mp held with rfl | held
        · exact plain byte.toBitVec.toFin (.inl valid.1)
        · obtain rfl := List.mem_singleton.mp held
          exact plain byte.toBitVec.toFin (.inl valid.2)
  unfold splitQuery
  rw [List.findIdx?_eq_none_iff.mpr apart]

theorem spelled_x : Spelled [120] :=
  ⟨[.plain 120], rfl, fun item member => by
    rw [List.mem_singleton.mp member]
    exact ⟨.inr (by decide +kernel), rfl⟩⟩

/-- The path a pattern is compiled from. -/
theorem trim_cases (mode : TrailingSlash) (path : Bytes) :
    path = mode.trim path ∨ path = mode.trim path ++ [slash] := by
  unfold TrailingSlash.trim
  cases mode with
  | strict => exact .inl rfl
  | ignore =>
    dsimp only
    split
    · rename_i ends
      exact .inr (List.dropLast_append_getLast? slash ends.2).symm
    · exact .inl rfl

theorem normalizePattern_normal {pattern normalized : Bytes}
    (normal : normalizePattern pattern = .ok normalized) (mode : TrailingSlash) :
    Spelled (mode.trim normalized) ∧ Dotless (mode.trim normalized) := by
  have whole : Spelled normalized ∧ Dotless normalized := by
    unfold normalizePattern at normal
    split at normal
    · cases normal
    · split at normal
      · rename_i path done
        cases normal
        exact (normalizePath_canonical done).2.2.1
      · cases normal
  rcases trim_cases mode normalized with same | same
  · rw [← same]
    exact whole
  · rw [same] at whole
    refine ⟨(whole.1.split (.inr rfl)).1, fun segment member => whole.2 segment ?_⟩
    rw [segmentsOf_append]
    exact List.mem_append_left _ member

theorem parsePattern_ok {path : Bytes} (parsed : parsePattern path = .ok segments)
    (some_ : segments ≠ []) :
    ∃ rest, path = slash :: rest ∧
      List.Forall₂ (fun text segment => parseSegment text = .ok segment) (rest.splitOn slash)
        segments ∧ segments.length ≤ maxSegments + 1 ∧
      (maxSegments < segments.length → segments.getLast?.any Segment.isCatchAll = true) := by
  unfold parsePattern at parsed
  split at parsed
  · rename_i rest
    split at parsed
    · cases parsed
      exact absurd rfl some_
    · split at parsed
      · cases parsed
      · rename_i read
        split at parsed
        · cases parsed
        · rename_i fits
          cases parsed
          obtain ⟨new, same, reads, bound⟩ := parseSegments_ok read
          rw [List.nil_append] at same
          subst same
          refine ⟨rest, rfl, reads, bound.resolve_right (splitOn_ne_nil rest), fun long => ?_⟩
          by_contra plain
          exact fits ⟨long, plain⟩
  · cases parsed

/-- A path in normal form that does not end in `/` is compiled as it stands. -/
theorem compile_spelled {body : Bytes} {last : UInt8} (spelled : Spelled (slash :: body))
    (dotless : Dotless (slash :: body)) (ends : body.getLast? = some last) (plain : last ≠ slash)
    (reads : List.Forall₂ (fun text segment => parseSegment text = .ok segment)
      (body.splitOn slash) segments) (short : segments.length ≤ maxSegments) :
    compile mode (slash :: body) = .ok segments := by
  have normal : normalizePattern (slash :: body) = .ok (slash :: body) := by
    unfold normalizePattern
    rw [if_neg (not_not.mpr (show (slash :: body).head? = some slash from rfl)),
      splitQuery_spelled spelled]
    unfold normalizePath
    rw [isNormalPath_true.mpr ⟨spelled, dotless⟩]
  have some_ : body ≠ [] := by
    rintro rfl
    cases ends
  have kept : mode.trim (slash :: body) = slash :: body := by
    unfold TrailingSlash.trim
    cases mode with
    | strict => rfl
    | ignore =>
      refine if_neg fun both => plain ?_
      have whole := both.2
      rw [List.getLast?_cons, ends] at whole
      exact Option.some.inj whole
  have parsed : parseSegments (body.splitOn slash) [] = .ok ([] ++ segments) :=
    parseSegments_reads reads (by rw [List.nil_append]; omega)
  rw [List.nil_append] at parsed
  unfold compile
  rw [normal]
  dsimp only
  rw [kept]
  change (if body = [] then Except.ok [] else _) = _
  rw [if_neg some_, parsed]
  exact if_neg fun long => absurd long.1 (by omega)

/-- A pattern can be cut behind one of its parameters, and the parameter renamed. -/
theorem compile_renamed {pattern : Bytes} {front back : List Segment} {name : Bytes}
    (compiled : compile mode pattern = .ok (front ++ .param name :: back)) :
    ∃ text, compile mode text = .ok (front ++ [.param (name ++ [120])]) := by
  unfold compile at compiled
  split at compiled
  · cases compiled
  · rename_i normalized normal
    obtain ⟨spelled, dotless⟩ := normalizePattern_normal normal mode
    obtain ⟨rest, path, reads, bound, wide⟩ := parsePattern_ok compiled (by simp)
    rw [path] at spelled dotless
    obtain ⟨before, middle, behind, parts, beforeReads, read⟩ := forall₂_cut reads
    obtain ⟨rfl, named⟩ := parseSegment_param read
    obtain ⟨plain, ⟨after, rfl, ends⟩, cut⟩ := splitOn_cut parts
    have plainLast : slash ∉ (58 :: name) ++ [120] := by
      intro held
      rcases List.mem_append.mp held with old | new
      · exact plain old
      · exact absurd (List.mem_singleton.mp new) (by decide)
    have pieces := cut _ plainLast
    have lead : Spelled (slash :: (leading before ++ 58 :: name)) :=
      (Spelled.split (show Spelled ((slash :: (leading before ++ 58 :: name)) ++ after)
        from spelled) ends).1
    have segmentsOf_slash : ∀ body : Bytes, segmentsOf (slash :: body) = [] :: segmentsOf body :=
      fun body => segmentsOf_append [] body
    have ending : (leading before ++ ((58 :: name) ++ [120])).getLast? = some 120 := by
      rw [← List.append_assoc, List.getLast?_concat]
    refine ⟨slash :: (leading before ++ ((58 :: name) ++ [120])), compile_spelled ?_ ?_ ending
      (by decide) ?_ ?_⟩
    · rw [← List.append_assoc]
      exact lead.append spelled_x
    · intro segment member
      rw [segmentsOf_slash, show segmentsOf _ = _ from pieces] at member
      rw [Dotless, segmentsOf_slash, show segmentsOf _ = _ from parts] at dotless
      rcases List.mem_cons.mp member with rfl | other
      · rfl
      · rcases List.mem_append.mp other with old | new
        · exact dotless segment (List.mem_cons_of_mem _ (List.mem_append_left _ old))
        · rw [List.mem_singleton.mp new]
          exact decide_eq_false (by rintro (wrong | wrong) <;> cases wrong)
    · rw [pieces]
      exact List.rel_append beforeReads (.cons (if_neg (by simp)) .nil)
    · rw [List.length_append, List.length_cons] at bound wide ⊢
      by_contra long
      rw [List.length_nil] at long
      have none_ : back = [] := List.length_eq_zero_iff.mp (by omega)
      subst none_
      rw [List.getLast?_concat] at wide
      exact Bool.false_ne_true (wide (by omega))

/-! ### Calls and what they answer -/

namespace Router

/-- `route` on the router itself: a refused call keeps the nodes it made. -/
def routeInPlace (router : Router Handler) (method : Method) (pattern : Bytes)
    (descriptor : Handler) : Except RouteError Unit × Router Handler :=
  match compile router.trailingSlash pattern with
  | .error refused => (.error refused, router)
  | .ok segments =>
    let done := router.root.leafInPlace pattern (Leaf.register method descriptor) segments 0
    (done.1, { router with root := done.2 })

end Router

/-- A call on a router. -/
inductive Call (Handler : Type) where
  | route (method : Method) (pattern : Bytes) (descriptor : Handler)
  | mount (under : Bytes) (child : Router Handler)
  | resolve (method path : Bytes)

/-- What a call answers. -/
inductive Answer (Handler : Type) where
  | registered (done : Except RouteError Unit)
  | resolved (resolution : Resolution Handler)

namespace Router

/-- What a call answers, and the router after it. -/
def call (router : Router Handler) : Call Handler → Answer Handler × Router Handler
  | .route method pattern descriptor =>
    let done := router.routeInPlace method pattern descriptor
    (.registered done.1, done.2)
  | .mount under child =>
    match router.mount under child with
    | .error refused => (.registered (.error refused), router)
    | .ok next => (.registered (.ok ()), next)
  | .resolve method path => (.resolved (router.resolve method path), router)

/-- What calls answer, one after the other. -/
def answers : List (Call Handler) → Router Handler → List (Answer Handler)
  | [], _ => []
  | first :: rest, router => (router.call first).1 :: answers rest (router.call first).2

/-- A router that calls lead to from a new one, those that were refused among them. -/
inductive Reached : Router Handler → Prop
  | new (mode : TrailingSlash) : Reached { trailingSlash := mode }
  | call {router : Router Handler} (reached : Reached router) (made : Call Handler) :
    Reached (router.call made).2

/-- Whether what is mounted stays in front of a new mount: longer paths do, and of one length those
that are not behind it. -/
def mountedBefore (path : Bytes) (known : Bytes × Router Handler) : Bool :=
  match compare known.1.length path.length with
  | .gt => true
  | .lt => false
  | .eq => compare known.1 path != .gt

/-- A mount is refused whatever the router, or goes to its place among the mounts. -/
theorem mount_cases (under : Bytes) (child : Router Handler) :
    (∃ refused, ∀ router : Router Handler, router.mount under child = .error refused) ∨
      ∃ place : List (Bytes × Router Handler) → List (Bytes × Router Handler),
        ∀ router : Router Handler,
          router.mount under child = .ok { router with mounts := place router.mounts } := by
  unfold mount
  cases normalizePattern under with
  | error refused => exact .inl ⟨refused, fun _ => rfl⟩
  | ok normalized =>
    dsimp only
    generalize (if normalized.getLast? = some slash then normalized.dropLast
      else normalized) = trimmed
    by_cases bare : trimmed = []
    · exact .inl ⟨.rootMount, fun _ => if_pos bare⟩
    · by_cases marked : (trimmed.any fun byte => byte = 58 || byte = 42) = true
      · exact .inl ⟨.invalidPattern, fun _ => (if_neg bare).trans (if_pos marked)⟩
      · by_cases long : maxSegments < trimmed.count slash
        · exact .inl ⟨.tooManySegments, fun _ =>
            (if_neg bare).trans ((if_neg marked).trans (if_pos long))⟩
        · refine .inr ⟨fun mounts => mounts.insertIdx
            (mounts.takeWhile (mountedBefore trimmed)).length (trimmed, child), fun _ => ?_⟩
          exact (if_neg bare).trans ((if_neg marked).trans (if_neg long))

variable {router : Router Handler}

theorem routeInPlace_ordered (ordered : router.root.Ordered) (method : Method) (pattern : Bytes)
    (descriptor : Handler) : (router.routeInPlace method pattern descriptor).2.root.Ordered := by
  unfold routeInPlace
  split
  · exact ordered
  · exact Node.leafInPlace_ordered pattern _ ordered _ 0

theorem call_ordered (ordered : router.root.Ordered) (made : Call Handler) :
    (router.call made).2.root.Ordered := by
  cases made with
  | route method pattern descriptor => exact routeInPlace_ordered ordered method pattern descriptor
  | mount under child =>
    unfold call
    dsimp only
    rcases mount_cases under child with ⟨refused, same⟩ | ⟨place, same⟩
    · rw [same]
      exact ordered
    · rw [same]
      exact ordered
  | resolve method path => exact ordered

theorem Reached.ordered (reached : Reached router) : router.root.Ordered := by
  induction reached with
  | new mode => exact Node.ordered_empty
  | call _ made inductionHypothesis => exact call_ordered inductionHypothesis made

/-- Two routers that answer alike: the same mounts, and tries that show the same. -/
structure Alike (left right : Router Handler) : Prop where
  roots : Node.Alike left.root right.root
  mounts : left.mounts = right.mounts
  mode : left.trailingSlash = right.trailingSlash
  ordered : left.root.Ordered
  ordered' : right.root.Ordered

theorem Alike.resolve {left right : Router Handler} (alike : Alike left right)
    (method path : Bytes) : left.resolve method path = right.resolve method path := by
  obtain ⟨leftRoot, mounts, mode⟩ := left
  obtain ⟨rightRoot, _, _⟩ := right
  obtain ⟨roots, rfl, rfl, -, -⟩ := alike
  have same : ∀ path catchAll spans params, leftRoot.find path catchAll spans params =
      rightRoot.find path catchAll spans params := Node.find_alike roots
  unfold Router.resolve resolveMethod
  simp only [same]

theorem Alike.routeInPlace {left right : Router Handler} (alike : Alike left right)
    (method : Method) (pattern : Bytes) (descriptor : Handler) :
    (left.routeInPlace method pattern descriptor).1 =
        (right.routeInPlace method pattern descriptor).1 ∧
      Alike (left.routeInPlace method pattern descriptor).2
        (right.routeInPlace method pattern descriptor).2 := by
  have mode := alike.mode
  unfold Router.routeInPlace
  rw [mode]
  cases compile right.trailingSlash pattern with
  | error refused => exact ⟨rfl, alike⟩
  | ok segments =>
    obtain ⟨answer, roots⟩ := Node.leafInPlace_alike pattern (Leaf.register method descriptor)
      alike.roots alike.ordered alike.ordered' segments 0
    exact ⟨answer, roots, alike.mounts, rfl,
      Node.leafInPlace_ordered pattern _ alike.ordered segments 0,
      Node.leafInPlace_ordered pattern _ alike.ordered' segments 0⟩

theorem Alike.call {left right : Router Handler} (alike : Alike left right)
    (made : Call Handler) : (left.call made).1 = (right.call made).1 ∧
      Alike (left.call made).2 (right.call made).2 := by
  cases made with
  | route method pattern descriptor =>
    obtain ⟨answer, after⟩ := alike.routeInPlace method pattern descriptor
    exact ⟨congrArg Answer.registered answer, after⟩
  | resolve method path => exact ⟨congrArg Answer.resolved (alike.resolve method path), alike⟩
  | mount under child =>
    unfold Router.call
    dsimp only
    rcases mount_cases under child with ⟨refused, same⟩ | ⟨place, same⟩
    · rw [same, same]
      exact ⟨rfl, alike⟩
    · rw [same, same]
      exact ⟨rfl, alike.roots, congrArg place alike.mounts, alike.mode, alike.ordered,
        alike.ordered'⟩

theorem Alike.answers {left right : Router Handler} (alike : Alike left right)
    (calls : List (Call Handler)) : Router.answers calls left = Router.answers calls right := by
  induction calls generalizing left right with
  | nil => rfl
  | cons first rest inductionHypothesis =>
    obtain ⟨answer, after⟩ := alike.call first
    rw [Router.answers, Router.answers, answer, inductionHypothesis after]

end Router

/-! ### A refused registration -/

/-- A refused registration is as if it had not been made, whatever calls follow, exactly when its
pattern comes to no parameter where the router has none yet. -/
theorem refused_unseen_iff {router : Router Handler} (reached : router.Reached) {method : Method}
    {pattern : Bytes} {descriptor : Handler} {refused : RouteError}
    (refusal : (router.routeInPlace method pattern descriptor).1 = .error refused) :
    (∀ calls, Router.answers calls (router.routeInPlace method pattern descriptor).2 =
        Router.answers calls router) ↔
      ∀ segments, compile router.trailingSlash pattern = .ok segments →
        router.root.fixesName segments 0 = false := by
  have ordered := reached.ordered
  cases compiled : compile router.trailingSlash pattern with
  | error wrong =>
    refine iff_of_true (fun calls => ?_) nofun
    unfold Router.routeInPlace
    rw [compiled]
  | ok segments =>
    have done : router.routeInPlace method pattern descriptor =
        ((router.root.leafInPlace pattern (Leaf.register method descriptor) segments 0).1,
          { router with root := (router.root.leafInPlace pattern
            (Leaf.register method descriptor) segments 0).2 }) := by
      unfold Router.routeInPlace
      rw [compiled]
    rw [done] at refusal ⊢
    constructor
    · rintro unseen _ ⟨⟩
      by_contra fixes
      rw [Bool.not_eq_false] at fixes
      obtain ⟨front, name, back, rfl, differs⟩ := Node.leafInPlace_fixes pattern
        (Leaf.register method descriptor) method descriptor ordered fixes
      obtain ⟨text, renamed⟩ := compile_renamed compiled
      have apart : name ++ [120] ≠ name := by
        intro same
        have lengths := congrArg List.length same
        rw [List.length_append, List.length_singleton] at lengths
        omega
      obtain ⟨accepted, refused⟩ := differs text (name ++ [120]) apart
      have answer := unseen [.route method text descriptor]
      unfold Router.answers Router.call Router.routeInPlace at answer
      dsimp only at answer
      rw [renamed] at answer
      dsimp only at answer
      rw [accepted, refused] at answer
      cases answer
    · intro silent calls
      have alike : Router.Alike { router with root := (router.root.leafInPlace pattern
          (Leaf.register method descriptor) segments 0).2 } router :=
        ⟨Node.leafInPlace_refused ordered refusal (silent segments rfl), rfl, rfl,
          Node.leafInPlace_ordered pattern _ ordered segments 0, ordered⟩
      exact alike.answers calls

/-- A pattern refused behind a parameter it names leaves the name: a pattern that was accepted
before is no longer. -/
theorem refused_seen : ¬ ∀ (router : Router Nat), router.Reached → ∀ (method : Method)
    (pattern : Bytes) (descriptor : Nat) (refused : RouteError),
    (router.routeInPlace method pattern descriptor).1 = .error refused → ∀ calls,
      Router.answers calls (router.routeInPlace method pattern descriptor).2 =
        Router.answers calls router := by
  intro unseen
  have accepted : (({} : Router Nat).routeInPlace .get (ascii "/a/:b") 2).1 = .ok () := by
    decide +kernel
  have conflict : ((({} : Router Nat).routeInPlace .get (ascii "/a/:x/*y/z") 1).2.routeInPlace
      .get (ascii "/a/:b") 2).1 = .error .parameterConflict := by decide +kernel
  have same := unseen {} (.new .ignore) .get (ascii "/a/:x/*y/z") 1 .catchAllNotLast
    (by decide +kernel) [.route .get (ascii "/a/:b") 2]
  unfold Router.answers Router.call at same
  dsimp only at same
  rw [accepted, conflict] at same
  cases same

theorem refused_unseen_iff_named :
    (∀ calls, Router.answers calls
        (({} : Router Nat).routeInPlace .get (ascii "/a/:x/*y/z") 1).2 =
        Router.answers calls {}) ↔
      ∀ segments, compile .ignore (ascii "/a/:x/*y/z") = .ok segments →
        ({} : Node Nat).fixesName segments 0 = false :=
  refused_unseen_iff (.new .ignore) (show (({} : Router Nat).routeInPlace .get
    (ascii "/a/:x/*y/z") 1).1 = .error .catchAllNotLast by decide +kernel)

end ZeroServer.Routing

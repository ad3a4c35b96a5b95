/-
This file models registration and resolution of a router without mounts and proves that resolution
is the linear specification: among the registered patterns that match the path, those without a
catch-all come first, and of them the first in the order of the segments answers, with exactly its
own captures. What a router answers does not depend on the order of its registrations.
-/

import Mathlib.Data.List.Pairwise
import ZeroServer.Router.Search

namespace ZeroServer.Routing

open Http1 Uri Lib

/-! ### The router -/

/-- The methods with a route on a path. -/
abbrev Allow := Method → Bool

structure Router (Handler : Type) where
  root : Node Handler := {}
  mounts : List (Bytes × Router Handler) := []
  trailingSlash : TrailingSlash := .ignore

/-- What a request resolves to. -/
inductive Resolution (Handler : Type) where
  | matched (descriptor : Handler) (params : Params) (head : Bool)
  | notFound
  | methodNotAllowed (allow : Allow)
  | options (allow : Allow)
  | notImplemented

variable {Handler : Type}

def Leaf.handler (leaf : Leaf Handler) (method : Method) : Option Handler := leaf.handlers method

/-- The methods a leaf answers: those registered, `HEAD` with `GET`, and `OPTIONS` always. -/
def Leaf.allow (leaf : Leaf Handler) : Allow := fun method =>
  (leaf.handler method).isSome || (method = .head && (leaf.handler .get).isSome) ||
    method = .options

/-- The answer of a leaf: its handler, the `GET` handler for `HEAD`, or the methods it has. -/
def dispatch (leaf : Leaf Handler) (method : Method) (params : Params) : Resolution Handler :=
  match leaf.handler method with
  | some descriptor => .matched descriptor params false
  | none =>
    match if method = .head then leaf.handler .get else none with
    | some descriptor => .matched descriptor params true
    | none => if method = .options then .options leaf.allow else .methodNotAllowed leaf.allow

/-- The ranges of the segments of a path behind its leading `/`, from an offset on. -/
def segmentSpans : Bytes → Nat → Nat → List (Nat × Nat) → Option (List (Nat × Nat))
  | [], start, offset, spans =>
    if spans.length < maxSegments then some (spans ++ [(start, offset)]) else none
  | byte :: rest, start, offset, spans =>
    if byte = slash then
      if spans.length < maxSegments then
        segmentSpans rest (offset + 1) (offset + 1) (spans ++ [(start, offset)])
      else none
    else segmentSpans rest start (offset + 1) spans

namespace Router

/-- Register a descriptor for a method and a pattern. -/
def route (router : Router Handler) (method : Method) (pattern : Bytes) (descriptor : Handler) :
    Except RouteError (Router Handler) :=
  match compile router.trailingSlash pattern with
  | .error refused => .error refused
  | .ok segments =>
    let edit (leaf : Leaf Handler) : Except RouteError (Leaf Handler) :=
      if (leaf.handlers method).isSome then .error .duplicate
      else .ok { leaf with
        handlers := fun other => if other = method then some descriptor else leaf.handlers other }
    match router.root.leafFor pattern edit segments 0 with
    | .error refused => .error refused
    | .ok root => .ok { router with root := root }

/-- Mount a router under a prefix: the longest prefixes come first, and the earlier mounts of one
length in the order of their prefixes. -/
def mount (router : Router Handler) (under : Bytes) (child : Router Handler) :
    Except RouteError (Router Handler) :=
  match normalizePattern under with
  | .error refused => .error refused
  | .ok normalized =>
    let trimmed := if normalized.getLast? = some slash then normalized.dropLast else normalized
    if trimmed = [] then .error .rootMount
    else if trimmed.any fun byte => byte = 58 || byte = 42 then .error .invalidPattern
    else if maxSegments < trimmed.count slash then .error .tooManySegments
    else
      let before (known : Bytes × Router Handler) : Bool :=
        match compare known.1.length trimmed.length with
        | .gt => true
        | .lt => false
        | .eq => compare known.1 trimmed != .gt
      let place := (router.mounts.takeWhile before).length
      .ok { router with mounts := router.mounts.insertIdx place (trimmed, child) }

/-- What a mount makes of a path: the path its router sees, if the path is under the prefix. -/
def mountedPath (under path : Bytes) : Option Bytes :=
  if under.isPrefixOf path then
    let remainder := path.drop under.length
    if remainder = [] then some [slash]
    else if remainder.head? = some slash then some remainder
    else none
  else none

/-- The parameters of a mounted router over the whole path. -/
def shiftParams (params : Params) (by_ : Nat) : Params :=
  params.map fun param => (param.1, param.2.1 + by_, param.2.2 + by_)

def shiftResolution (by_ : Nat) : Resolution Handler → Resolution Handler
  | .matched descriptor params head => .matched descriptor (shiftParams params by_) head
  | other => other

mutual

def resolveMethod (method : Method) : Router Handler → Bytes → Resolution Handler
  | ⟨root, mounts, trailingSlash⟩, given =>
    let path := trailingSlash.trim given
    match path with
    | 47 :: rest =>
      match if rest = [] then some [] else segmentSpans rest 1 1 [] with
      | none => .notFound
      | some spans =>
        match root.find path false spans [] with
        | (some leaf, params) => dispatch leaf method params
        | (none, _) =>
          match resolveMounts method mounts path with
          | some resolution => resolution
          | none =>
            match root.find path true spans [] with
            | (some leaf, params) => dispatch leaf method params
            | (none, _) => .notFound
    | _ => .notFound

/-- The answer of the first mount the path is under. -/
def resolveMounts (method : Method) : List (Bytes × Router Handler) → Bytes →
    Option (Resolution Handler)
  | [], _ => none
  | (under, router) :: rest, path =>
    match mountedPath under path with
    | some child => some (shiftResolution under.length (resolveMethod method router child))
    | none => resolveMounts method rest path

end

/-- Resolve a method token and a normalized path. -/
def resolve (router : Router Handler) (method : Bytes) (path : Bytes) : Resolution Handler :=
  match Method.parse method with
  | none => .notImplemented
  | some method => resolveMethod method router path

/-- A resolution with the normalized path it was made for, and the query. -/
structure Resolved (Handler : Type) where
  resolution : Resolution Handler
  path : Bytes
  query : Option Bytes

/-- Split the query off a target, normalize the path and resolve it. -/
def resolveTarget (router : Router Handler) (method target : Bytes) :
    Except UriError (Resolved Handler) :=
  match normalizePath (splitQuery target).1 with
  | .error refused => .error refused
  | .ok path => .ok ⟨router.resolve method path, path, (splitQuery target).2⟩

end Router

/-! ### Registrations -/

/-- One successful call of `route`. -/
structure Registration (Handler : Type) where
  method : Method
  pattern : Bytes
  descriptor : Handler

/-- A router built by a sequence of calls, none of them refused. -/
def build (mode : TrailingSlash) : List (Registration Handler) → Router Handler →
    Except RouteError (Router Handler)
  | [], router => .ok router
  | call :: rest, router =>
    match router.route call.method call.pattern call.descriptor with
    | .error refused => .error refused
    | .ok next => build mode rest next

/-! ### The specification -/

/-- The patterns of the calls. -/
def patterns (mode : TrailingSlash) (calls : List (Registration Handler)) : List (List Segment) :=
  calls.filterMap fun call => (compile mode call.pattern).toOption

/-- The descriptor registered for a method on a pattern. -/
def handlerOf (mode : TrailingSlash) (calls : List (Registration Handler))
    (pattern : List Segment) (method : Method) : Option Handler :=
  (calls.find? fun call =>
    call.method = method ∧ (compile mode call.pattern).toOption = some pattern).map (·.descriptor)

/-- What a pattern answers: the handlers registered on it, with these captures. -/
def answer (mode : TrailingSlash) (calls : List (Registration Handler)) (pattern : List Segment)
    (method : Method) (params : Params) : Resolution Handler :=
  dispatch { handlers := handlerOf mode calls pattern, pattern := [] } method params

/-- The segments of a path behind its leading `/`; the root path has none. -/
def pathSegments (rest : Bytes) : List Bytes := if rest = [] then [] else rest.splitOn slash

/-- The ranges of segments that stand behind one another, a `/` between any two. -/
def spansFrom : Nat → List Bytes → List (Nat × Nat)
  | _, [] => []
  | start, segment :: rest =>
    (start, start + segment.length) :: spansFrom (start + segment.length + 1) rest

/-! ### Segments of a path -/

theorem splitOn_cons (byte : UInt8) (rest : Bytes) :
    (byte :: rest).splitOn slash = if byte = slash then [] :: rest.splitOn slash
      else (rest.splitOn slash).modifyHead (byte :: ·) := by
  unfold List.splitOn
  rw [List.splitOnP_cons_eq_if_modifyHead]
  simp only [beq_iff_eq]

theorem splitOn_ne_nil (rest : Bytes) : rest.splitOn slash ≠ [] := List.splitOnP_ne_nil _ _

/-- The scan finds the ranges of the segments, as long as there is room for them. -/
theorem segmentSpans_eq (rest : Bytes) (start offset : Nat) (spans : List (Nat × Nat)) :
    ∃ first others, rest.splitOn slash = first :: others ∧
      segmentSpans rest start offset spans =
        if spans.length + (first :: others).length ≤ maxSegments then
          some (spans ++ (start, offset + first.length) ::
            spansFrom (offset + first.length + 1) others)
        else none := by
  induction rest generalizing start offset spans with
  | nil =>
    refine ⟨[], [], rfl, ?_⟩
    rw [segmentSpans]
    rfl
  | cons byte rest inductionHypothesis =>
    rw [splitOn_cons, segmentSpans]
    by_cases separator : byte = slash
    · obtain ⟨first, others, pieces, scanned⟩ :=
        inductionHypothesis (offset + 1) (offset + 1) (spans ++ [(start, offset)])
      refine ⟨[], first :: others, by rw [if_pos separator, pieces], ?_⟩
      rw [if_pos separator, scanned, List.length_append]
      simp only [List.length_cons, List.length_nil]
      by_cases room : spans.length < maxSegments
      · rw [if_pos room]
        by_cases fits : spans.length + 1 + (others.length + 1) ≤ maxSegments
        · rw [if_pos fits, if_pos (by omega), List.append_assoc]
          rfl
        · rw [if_neg fits, if_neg (by omega)]
      · rw [if_neg room, if_neg (by omega)]
    · obtain ⟨first, others, pieces, scanned⟩ := inductionHypothesis start (offset + 1) spans
      refine ⟨byte :: first, others, by rw [if_neg separator, pieces]; rfl, ?_⟩
      rw [if_neg separator, scanned]
      simp only [List.length_cons]
      rw [Nat.add_right_comm offset 1 first.length, Nat.add_assoc offset first.length 1]

/-- The ranges read the segments back. -/
theorem slices_spansFrom (before : Bytes) (segments : List Bytes) :
    (spansFrom before.length segments).map
      (fun span => slice (before ++ [slash].intercalate segments) span.1 span.2) = segments := by
  induction segments generalizing before with
  | nil => rfl
  | cons segment rest inductionHypothesis =>
    have own : ∀ behind : Bytes,
        slice (before ++ (segment ++ behind)) before.length (before.length + segment.length) =
          segment := by
      intro behind
      unfold slice Span.of
      dsimp only
      rw [if_pos ⟨Nat.le_add_right _ _, by simp only [List.length_append]; omega⟩,
        List.drop_left, Nat.add_sub_cancel_left, List.take_left]
    rw [spansFrom, List.map_cons]
    cases rest with
    | nil =>
      have whole : [slash].intercalate [segment] = segment ++ [] := by
        rw [List.append_nil]
        exact List.intercalate_singleton
      rw [whole, own]
      rfl
    | cons next rest =>
      have whole : [slash].intercalate (segment :: next :: rest) =
          segment ++ ([slash] ++ [slash].intercalate (next :: rest)) := by
        rw [List.intercalate_cons_cons, List.append_assoc]
      have later := inductionHypothesis (before ++ segment ++ [slash])
      rw [List.length_append, List.length_append, List.length_singleton] at later
      rw [whole, own]
      refine congrArg (segment :: ·) ((congrArg (List.map · _) ?_).trans later)
      simp only [List.append_assoc]

/-- What the router reads of a path: the ranges of its segments, if they are not too many. -/
theorem scan_spec (rest : Bytes) (short : (pathSegments rest).length ≤ maxSegments) :
    (if rest = [] then some [] else segmentSpans rest 1 1 []) =
      some (spansFrom 1 (pathSegments rest)) ∧
    (spansFrom 1 (pathSegments rest)).map
      (fun span => slice (slash :: rest) span.1 span.2) = pathSegments rest := by
  unfold pathSegments at short ⊢
  by_cases root : rest = []
  · rw [if_pos root, if_pos root]
    exact ⟨rfl, rfl⟩
  · rw [if_neg root] at short
    rw [if_neg root, if_neg root]
    obtain ⟨first, others, pieces, scanned⟩ := segmentSpans_eq rest 1 1 []
    rw [pieces] at short
    have whole := slices_spansFrom [slash] (rest.splitOn slash)
    rw [show [slash].intercalate (rest.splitOn slash) = rest from List.intercalate_splitOn slash]
      at whole
    refine ⟨?_, whole⟩
    rw [scanned, List.length_nil, Nat.zero_add, if_pos short, pieces]
    rfl

/-! ### What registration keeps -/

variable {segments pattern : List Segment} {calls : List (Registration Handler)}

variable {call : Registration Handler} {descriptor : Handler}

variable {method : Method}

/-- What a router built by these calls holds. -/
structure Holds (mode : TrailingSlash) (calls : List (Registration Handler))
    (router : Router Handler) : Prop where
  trailingSlash : router.trailingSlash = mode
  mounts : router.mounts = []
  ordered : router.root.Ordered
  roomy : router.root.Roomy []
  registered : ∀ pattern, (∃ leaf, router.root.atPattern pattern = some leaf) ↔
    pattern ∈ patterns mode calls
  handlers : ∀ pattern leaf, router.root.atPattern pattern = some leaf →
    ∀ method, leaf.handlers method = handlerOf mode calls pattern method
  single : calls.Pairwise fun earlier later => ¬ (earlier.method = later.method ∧
    compile mode earlier.pattern = compile mode later.pattern)

theorem holds_new (mode : TrailingSlash) :
    Holds mode ([] : List (Registration Handler)) { trailingSlash := mode } where
  trailingSlash := rfl
  mounts := rfl
  ordered := Node.ordered_empty
  roomy pattern leaf held := by
    rw [Node.atPattern_empty] at held
    cases held
  registered pattern := by
    rw [Node.atPattern_empty]
    exact iff_of_false nofun nofun
  handlers pattern leaf held := by
    rw [Node.atPattern_empty] at held
    cases held
  single := .nil

theorem handlerOf_concat (mode : TrailingSlash) (calls : List (Registration Handler))
    (call : Registration Handler) (compiled : compile mode call.pattern = .ok segments)
    (pattern : List Segment) (method : Method) : handlerOf mode (calls ++ [call]) pattern method =
      (handlerOf mode calls pattern method).or
        (if method = call.method ∧ pattern = segments then some call.descriptor else none) := by
  unfold handlerOf
  rw [List.find?_append, Option.map_or]
  refine congrArg (Option.or _) ?_
  have same : (call.method = method ∧ (compile mode call.pattern).toOption = some pattern) ↔
      (method = call.method ∧ pattern = segments) := by
    rw [compiled]
    exact and_congr eq_comm (Option.some_inj.trans eq_comm)
  by_cases here : method = call.method ∧ pattern = segments
  · rw [if_pos here, List.find?_singleton, if_pos (decide_eq_true (same.mpr here))]
    rfl
  · rw [if_neg here, List.find?_singleton, if_neg]
    · rfl
    · rw [decide_eq_true_iff]
      exact fun reached => here (same.mp reached)

/-- A call of the sequence is found. -/
theorem handlerOf_isSome {mode : TrailingSlash} (member : call ∈ calls)
    (compiled : compile mode call.pattern = .ok segments) :
    (handlerOf mode calls segments call.method).isSome = true := by
  unfold handlerOf
  rw [Option.isSome_map, List.find?_isSome]
  exact ⟨call, member, decide_eq_true ⟨rfl, by rw [compiled]; rfl⟩⟩

theorem mem_patterns_of_handlerOf {mode : TrailingSlash}
    (found : handlerOf mode calls pattern method = some descriptor) :
    pattern ∈ patterns mode calls := by
  unfold handlerOf at found
  obtain ⟨call, here, -⟩ := Option.map_eq_some_iff.mp found
  have same := List.find?_some here
  rw [decide_eq_true_iff] at same
  exact List.mem_filterMap.mpr ⟨call, List.mem_of_find?_eq_some here, same.2⟩

theorem patterns_concat {mode : TrailingSlash} (calls : List (Registration Handler))
    (compiled : compile mode call.pattern = .ok segments) :
    patterns mode (calls ++ [call]) = patterns mode calls ++ [segments] := by
  unfold patterns
  rw [List.filterMap_append, List.filterMap_cons, compiled]
  rfl

theorem Holds.route {mode : TrailingSlash} {router next : Router Handler}
    (holds : Holds mode calls router) (call : Registration Handler)
    (done : router.route call.method call.pattern call.descriptor = .ok next) :
    Holds mode (calls ++ [call]) next := by
  unfold Router.route at done
  rw [holds.trailingSlash] at done
  split at done
  · cases done
  · rename_i segments compiled
    dsimp only at done
    split at done
    · cases done
    · rename_i root registered
      cases done
      obtain ⟨⟨ordered, leaf, edited, leaves⟩, room⟩ := Node.leafFor_spec holds.ordered registered
      have old : ∀ method, ((router.root.atPattern segments).getD
          (Leaf.new call.pattern)).handlers method = handlerOf mode calls segments method := by
        intro method
        rcases known : router.root.atPattern segments with _ | leaf
        · rcases found : handlerOf mode calls segments method with _ | descriptor
          · rfl
          · obtain ⟨leaf, held⟩ := (holds.registered segments).mpr (mem_patterns_of_handlerOf found)
            rw [known] at held
            cases held
        · exact holds.handlers segments leaf known method
      split at edited
      · cases edited
      · rename_i vacant
        cases edited
        rw [old, Bool.not_eq_true, Option.isSome_eq_false_iff, Option.isNone_iff_eq_none] at vacant
        refine ⟨rfl, holds.mounts, ordered, ?_, ?_, ?_, ?_⟩
        · intro pattern leaf held
          rw [leaves] at held
          split at held
          · rename_i same
            rw [same]
            exact Nat.le_trans (Nat.add_le_add_right (Nat.zero_le _) _) (room (by decide))
          · exact holds.roomy pattern leaf held
        · intro pattern
          rw [leaves, patterns_concat calls compiled, List.mem_append, List.mem_singleton,
            ← holds.registered pattern]
          by_cases same : pattern = segments
          · rw [if_pos same]
            exact iff_of_true ⟨_, rfl⟩ (.inr same)
          · rw [if_neg same]
            exact ⟨.inl, fun either => either.resolve_right same⟩
        · intro pattern leaf held method
          rw [leaves] at held
          rw [handlerOf_concat mode calls call compiled]
          split at held
          · rename_i same
            subst same
            cases held
            dsimp only
            rw [old]
            by_cases here : method = call.method
            · rw [if_pos here, here, vacant, if_pos ⟨rfl, rfl⟩]
              rfl
            · rw [if_neg here, if_neg (fun both => here both.1), Option.or_none]
          · rename_i apart
            rw [if_neg (fun both => apart both.2), Option.or_none]
            exact holds.handlers pattern leaf held method
        · rw [List.pairwise_append]
          refine ⟨holds.single, List.pairwise_singleton _ _, fun earlier member later last => ?_⟩
          rw [List.mem_singleton.mp last]
          rintro ⟨method, pattern⟩
          have found := handlerOf_isSome member (pattern.trans compiled)
          rw [method, vacant] at found
          cases found

theorem Holds.build {mode : TrailingSlash} {done : List (Registration Handler)}
    {router final : Router Handler} (holds : Holds mode done router)
    (built : build mode calls router = .ok final) : Holds mode (done ++ calls) final := by
  induction calls generalizing done router with
  | nil =>
    cases built
    rw [List.append_nil]
    exact holds
  | cons call rest inductionHypothesis =>
    rw [Routing.build] at built
    split at built
    · cases built
    · rename_i next routed
      have later := inductionHypothesis (holds.route call routed) built
      rw [List.append_assoc] at later
      exact later

/-! ### The first pattern is one -/

variable {texts : List Bytes}

/-- Two patterns of a trie that match one path are the same when neither is behind the other. -/
theorem Precedes.antisymm {node : Node Handler} {left right : List Segment}
    {leftLeaf rightLeaf : Leaf Handler} (leftHeld : node.Eligible true texts left leftLeaf)
    (rightHeld : node.Eligible true texts right rightLeaf) (before : Precedes left right)
    (after : Precedes right left) : left = right := by
  induction left generalizing node texts right with
  | nil =>
    cases right with
    | nil => rfl
    | cons _ _ => exact after.elim
  | cons first rest inductionHypothesis =>
    cases right with
    | nil => exact before.elim
    | cons second others =>
      have ranks : first.rank = second.rank := by
        rcases before with less | ⟨same, -⟩
        · rcases after with more | ⟨same, -⟩
          · omega
          · exact same.symm
        · exact same
      have beforeRest := (before.resolve_left (by omega)).2
      have afterRest := (after.resolve_left (by omega)).2
      cases first with
      | static bytes =>
        cases second with
        | static other =>
          cases texts with
          | nil => cases leftHeld.matched
          | cons text texts =>
            obtain ⟨rfl, child, value, leftInside⟩ := leftHeld.static
            obtain ⟨rfl, same, again, rightInside⟩ := rightHeld.static
            rw [value] at again
            cases again
            rw [inductionHypothesis leftInside rightInside beforeRest afterRest]
        | param name => cases ranks
        | catchAll name => cases ranks
      | param name =>
        cases second with
        | static other => cases ranks
        | param other =>
          cases texts with
          | nil => cases leftHeld.matched
          | cons text texts =>
            obtain ⟨-, child, value, leftInside⟩ := leftHeld.param
            obtain ⟨-, same, again, rightInside⟩ := rightHeld.param
            rw [value] at again
            cases again
            rw [inductionHypothesis leftInside rightInside beforeRest afterRest]
        | catchAll name => cases ranks
      | catchAll name =>
        cases second with
        | static other => cases ranks
        | param other => cases ranks
        | catchAll other =>
          obtain ⟨rfl, -, value⟩ := leftHeld.catchAll
          obtain ⟨rfl, -, again⟩ := rightHeld.catchAll
          rw [value] at again
          cases again
          rfl

/-! ### Resolution -/

/-- The registered patterns that match the segments of a path. -/
def Matching (mode : TrailingSlash) (calls : List (Registration Handler)) (segments : List Bytes)
    (pattern : List Segment) : Prop :=
  pattern ∈ patterns mode calls ∧ matchesPath pattern segments = true

section Resolution

variable {mode : TrailingSlash} {calls : List (Registration Handler)} {router : Router Handler}

theorem Holds.eligible (holds : Holds mode calls router) {wide : Bool} :
    (∃ leaf, router.root.Eligible wide texts pattern leaf) ↔
      Matching mode calls texts pattern ∧ (wide = true ∨ endsInCatchAll pattern = false) := by
  constructor
  · rintro ⟨leaf, held, matched, allowed⟩
    exact ⟨⟨(holds.registered pattern).mp ⟨leaf, held⟩, matched⟩, allowed⟩
  · rintro ⟨⟨member, matched⟩, allowed⟩
    obtain ⟨leaf, held⟩ := (holds.registered pattern).mpr member
    exact ⟨leaf, held, matched, allowed⟩

theorem dispatch_congr {left right : Leaf Handler} (same : left.handlers = right.handlers)
    (method : Method) (params : Params) :
    dispatch left method params = dispatch right method params := by
  unfold dispatch Leaf.allow Leaf.handler
  rw [same]

theorem Holds.dispatch_eq (holds : Holds mode calls router) {leaf : Leaf Handler}
    (held : router.root.atPattern pattern = some leaf) (method : Method) (params : Params) :
    dispatch leaf method params = answer mode calls pattern method params :=
  dispatch_congr (funext (holds.handlers pattern leaf held)) method params

/-- What the router makes of a path whose segments it has room for. -/
theorem Holds.resolve_eq (holds : Holds mode calls router) (method : Method) {path rest : Bytes}
    (lead : mode.trim path = slash :: rest) (short : (pathSegments rest).length ≤ maxSegments) :
    Router.resolveMethod method router path =
      match router.root.find (slash :: rest) false (spansFrom 1 (pathSegments rest)) [] with
      | (some leaf, params) => dispatch leaf method params
      | (none, _) =>
        match router.root.find (slash :: rest) true (spansFrom 1 (pathSegments rest)) [] with
        | (some leaf, params) => dispatch leaf method params
        | (none, _) => .notFound := by
  obtain ⟨root, mounts, trailingSlash⟩ := router
  have trimmed : trailingSlash = mode := holds.trailingSlash
  have unmounted : mounts = [] := holds.mounts
  subst trimmed
  subst unmounted
  rw [Router.resolveMethod, lead]
  dsimp only
  split
  · rename_i tail same
    cases same
    rw [(scan_spec rest short).1]
    dsimp only
    rw [Router.resolveMounts]
  · rename_i other
    exact absurd rfl (other rest)

/-- The router answers with the first matching pattern without a catch-all, else with the first
matching pattern, else with not found. -/
theorem Holds.resolve_cases (holds : Holds mode calls router) (method : Method) {path rest : Bytes}
    (lead : mode.trim path = slash :: rest) (short : (pathSegments rest).length ≤ maxSegments) :
    (∃ pattern, (Matching mode calls (pathSegments rest) pattern ∧
        endsInCatchAll pattern = false) ∧
      (∀ other, Matching mode calls (pathSegments rest) other → endsInCatchAll other = false →
        Precedes pattern other) ∧
      Router.resolveMethod method router path = answer mode calls pattern method
        (captures (slash :: rest).length pattern (spansFrom 1 (pathSegments rest)))) ∨
    ((∀ other, Matching mode calls (pathSegments rest) other → endsInCatchAll other = true) ∧
      ∃ pattern, Matching mode calls (pathSegments rest) pattern ∧
      (∀ other, Matching mode calls (pathSegments rest) other → Precedes pattern other) ∧
      Router.resolveMethod method router path = answer mode calls pattern method
        (captures (slash :: rest).length pattern (spansFrom 1 (pathSegments rest)))) ∨
    ((∀ other, ¬ Matching mode calls (pathSegments rest) other) ∧
      Router.resolveMethod method router path = .notFound) := by
  have texts := (scan_spec rest short).2
  have plain : router.root.Finds (slash :: rest) false _ [] (router.root.find _ _ _ _) :=
    Node.find_finds holds.ordered (spansFrom 1 (pathSegments rest)) holds.roomy
  have wide : router.root.Finds (slash :: rest) true _ [] (router.root.find _ _ _ _) :=
    Node.find_finds holds.ordered (spansFrom 1 (pathSegments rest)) holds.roomy
  rw [holds.resolve_eq method lead short]
  revert plain wide
  rcases router.root.find (slash :: rest) false (spansFrom 1 (pathSegments rest)) [] with
    ⟨- | leaf, params⟩
  · rcases router.root.find (slash :: rest) true (spansFrom 1 (pathSegments rest)) [] with
      ⟨- | leaf, params⟩
    · rintro - ⟨-, none_⟩
      rw [texts] at none_
      refine .inr (.inr ⟨fun other matching => ?_, rfl⟩)
      obtain ⟨leaf, eligible⟩ := holds.eligible.mpr ⟨matching, .inl rfl⟩
      exact none_ other leaf eligible
    · rintro ⟨-, none_⟩ ⟨pattern, eligible, captured, first⟩
      rw [texts] at none_ eligible first
      refine .inr (.inl ⟨fun other matching => ?_, pattern,
        (holds.eligible.mp ⟨leaf, eligible⟩).1, fun other matching => ?_, ?_⟩)
      · by_contra ends
        obtain ⟨leaf, eligible⟩ := holds.eligible.mpr
          ⟨matching, .inr (Bool.eq_false_iff.mpr ends)⟩
        exact none_ other leaf eligible
      · obtain ⟨its, eligible⟩ := holds.eligible.mpr ⟨matching, .inl rfl⟩
        exact first other its eligible
      · rw [captured]
        exact holds.dispatch_eq eligible.held method _
  · rintro ⟨pattern, eligible, captured, first⟩ -
    rw [texts] at eligible first
    obtain ⟨matching, allowed⟩ := holds.eligible.mp ⟨leaf, eligible⟩
    refine .inl ⟨pattern, ⟨matching, allowed.resolve_left (by decide)⟩,
      fun other matching ends => ?_, ?_⟩
    · obtain ⟨its, eligible⟩ := holds.eligible.mpr ⟨matching, .inr ends⟩
      exact first other its eligible
    · rw [captured]
      exact holds.dispatch_eq eligible.held method _

theorem Holds.unique (holds : Holds mode calls router) {segments : List Bytes}
    {left right : List Segment} (leftMatches : Matching mode calls segments left)
    (rightMatches : Matching mode calls segments right) (before : Precedes left right)
    (after : Precedes right left) : left = right := by
  obtain ⟨leftLeaf, leftHeld⟩ := holds.eligible.mpr ⟨leftMatches, .inl rfl⟩
  obtain ⟨rightLeaf, rightHeld⟩ := holds.eligible.mpr ⟨rightMatches, .inl rfl⟩
  exact Precedes.antisymm leftHeld rightHeld before after

end Resolution

/-! ### The order of registration -/

variable {other : List (Registration Handler)}

/-- The calls of a router built without a refusal: no two for one method on one pattern. -/
def Single (mode : TrailingSlash) (calls : List (Registration Handler)) : Prop :=
  calls.Pairwise fun earlier later => ¬ (earlier.method = later.method ∧
    compile mode earlier.pattern = compile mode later.pattern)

variable {mode : TrailingSlash} {calls : List (Registration Handler)}

theorem handlerOf_eq_some (single : Single mode calls) :
    handlerOf mode calls pattern method = some descriptor ↔ ∃ call ∈ calls,
      call.method = method ∧ compile mode call.pattern = .ok pattern ∧
        call.descriptor = descriptor := by
  have compiled : ∀ call : Registration Handler,
      (compile mode call.pattern).toOption = some pattern →
        compile mode call.pattern = .ok pattern := by
    intro call
    rcases compile mode call.pattern with _ | segments
    · exact nofun
    · rintro ⟨⟩
      rfl
  constructor
  · intro found
    unfold handlerOf at found
    obtain ⟨call, here, same⟩ := Option.map_eq_some_iff.mp found
    have shape := List.find?_some here
    rw [decide_eq_true_iff] at shape
    exact ⟨call, List.mem_of_find?_eq_some here, shape.1, compiled call shape.2, same⟩
  · rintro ⟨call, member, rfl, reached, rfl⟩
    obtain ⟨descriptor, found⟩ := Option.isSome_iff_exists.mp (handlerOf_isSome member reached)
    unfold handlerOf at found ⊢
    obtain ⟨other, here, same⟩ := Option.map_eq_some_iff.mp found
    have shape := List.find?_some here
    rw [decide_eq_true_iff] at shape
    have equal : other = call := by
      by_contra apart
      have symmetric : Std.Symm fun earlier later : Registration Handler =>
          ¬ (earlier.method = later.method ∧
            compile mode earlier.pattern = compile mode later.pattern) :=
        ⟨fun earlier later differ both => differ ⟨both.1.symm, both.2.symm⟩⟩
      exact List.Pairwise.forall single (List.mem_of_find?_eq_some here) member apart
        ⟨shape.1, (compiled other shape.2).trans reached.symm⟩
    rw [here, equal]
    rfl

theorem mem_patterns_perm (same : other.Perm calls) :
    pattern ∈ patterns mode other ↔ pattern ∈ patterns mode calls :=
  (same.filterMap _).mem_iff

theorem answer_perm (same : other.Perm calls) (single : Single mode calls)
    (singleOther : Single mode other) (pattern : List Segment) (method : Method) (params : Params) :
    answer mode other pattern method params = answer mode calls pattern method params := by
  refine dispatch_congr (funext fun method => Option.ext fun descriptor => ?_) method params
  change handlerOf mode other pattern method = _ ↔ handlerOf mode calls pattern method = _
  rw [handlerOf_eq_some single, handlerOf_eq_some singleOther]
  exact exists_congr fun call => and_congr_left' same.mem_iff

/-! ### The refinement -/

theorem trim_absolute (mode : TrailingSlash) {path : Bytes} (absolute : path.head? = some slash) :
    mode.trim path = slash :: (mode.trim path).tail := by
  obtain ⟨rest, rfl⟩ : ∃ rest, path = slash :: rest := by
    cases path with
    | nil => cases absolute
    | cons first rest =>
      cases absolute
      exact ⟨rest, rfl⟩
  cases mode with
  | strict => rfl
  | ignore =>
    unfold TrailingSlash.trim
    dsimp only
    split
    · rename_i long
      cases rest with
      | nil => exact absurd long.1 (by decide)
      | cons second others => rfl
    · rfl

/-- Resolution is the linear specification, for every trailing-slash mode and every sequence of
registrations none of which was refused. Of the registered patterns that match the path, as the
mode reads it, segment by segment: when one has no catch-all, there is a first of those in the
position-by-position order, and it answers; when all have one, there is a first of all, and it
answers; when there is none, nothing is found. The captures are the pattern's own names in order
with the ranges of the segments they match. Registering in another order changes nothing. -/
theorem resolve_refines {router : Router Handler}
    (built : build mode calls { trailingSlash := mode } = .ok router) {token : Bytes}
    {method : Method} (known : Method.parse token = some method) {path : Bytes}
    (absolute : path.head? = some slash)
    (short : (pathSegments (mode.trim path).tail).length ≤ maxSegments) :
    let segments := pathSegments (mode.trim path).tail
    let matching := Matching mode calls segments
    let answers := fun pattern => answer mode calls pattern method
      (captures (mode.trim path).length pattern (spansFrom 1 segments))
    ((∃ pattern, matching pattern ∧ endsInCatchAll pattern = false) →
      ∃ pattern, (matching pattern ∧ endsInCatchAll pattern = false) ∧
        ∀ other, matching other → endsInCatchAll other = false → Precedes pattern other) ∧
    (∀ pattern, matching pattern → endsInCatchAll pattern = false →
      (∀ other, matching other → endsInCatchAll other = false → Precedes pattern other) →
      router.resolve token path = answers pattern) ∧
    ((∀ other, matching other → endsInCatchAll other = true) →
      ((∃ pattern, matching pattern) →
        ∃ pattern, matching pattern ∧ ∀ other, matching other → Precedes pattern other) ∧
      ∀ pattern, matching pattern → (∀ other, matching other → Precedes pattern other) →
        router.resolve token path = answers pattern) ∧
    ((∀ pattern, ¬ matching pattern) → router.resolve token path = .notFound) ∧
    ∀ (reordered : List (Registration Handler)) (other : Router Handler), reordered.Perm calls →
      build mode reordered { trailingSlash := mode } = .ok other →
        other.resolve token path = router.resolve token path := by
  have holds := (holds_new mode).build built
  rw [List.nil_append] at holds
  have lead := trim_absolute mode absolute
  intro segments matching answers
  have resolves {router : Router Handler} :
      router.resolve token path = Router.resolveMethod method router path := by
    unfold Router.resolve
    rw [known]
  have cases_ := holds.resolve_cases method lead short
  rw [← lead, ← resolves] at cases_
  have plainFirst : ∀ pattern, matching pattern → endsInCatchAll pattern = false →
      (∀ other, matching other → endsInCatchAll other = false → Precedes pattern other) →
      router.resolve token path = answers pattern := by
    intro pattern matches_ ends least
    rcases cases_ with ⟨first, shape, before, answered⟩ | ⟨wide, -⟩ | ⟨none_, -⟩
    · have same := holds.unique matches_ shape.1 (least first shape.1 shape.2)
        (before pattern matches_ ends)
      rw [answered, same]
    · rw [wide pattern matches_] at ends
      cases ends
    · exact absurd matches_ (none_ pattern)
  have wideFirst (wide : ∀ other, matching other → endsInCatchAll other = true) :
      ∀ pattern, matching pattern → (∀ other, matching other → Precedes pattern other) →
        router.resolve token path = answers pattern := by
    intro pattern matches_ least
    rcases cases_ with ⟨first, shape, -⟩ | ⟨-, first, matchesFirst, before, answered⟩ | ⟨none_, -⟩
    · rw [wide first shape.1] at shape
      cases shape.2
    · have same := holds.unique matches_ matchesFirst (least first matchesFirst)
        (before pattern matches_)
      rw [answered, same]
    · exact absurd matches_ (none_ pattern)
  have nothing (none_ : ∀ pattern, ¬ matching pattern) :
      router.resolve token path = .notFound := by
    rcases cases_ with ⟨first, shape, -⟩ | ⟨-, first, matches_, -⟩ | ⟨-, answered⟩
    · exact absurd shape.1 (none_ first)
    · exact absurd matches_ (none_ first)
    · exact answered
  refine ⟨?_, plainFirst, fun wide => ⟨?_, wideFirst wide⟩, nothing,
    fun reordered other same rebuilt => ?_⟩
  · rintro ⟨plain, matches_, ends⟩
    rcases cases_ with ⟨first, shape, least, -⟩ | ⟨wide, -⟩ | ⟨none_, -⟩
    · exact ⟨first, shape, least⟩
    · rw [wide plain matches_] at ends
      cases ends
    · exact absurd matches_ (none_ plain)
  · rintro ⟨some_, matches_⟩
    rcases cases_ with ⟨first, shape, -⟩ | ⟨-, first, matches_, least, -⟩ | ⟨none_, -⟩
    · rw [wide first shape.1] at shape
      cases shape.2
    · exact ⟨first, matches_, least⟩
    · exact absurd matches_ (none_ some_)
  · have holdsOther := (holds_new mode).build rebuilt
    rw [List.nil_append] at holdsOther
    have both : ∀ pattern, matching pattern → Matching mode reordered segments pattern :=
      fun pattern matches_ => ⟨(mem_patterns_perm same).mpr matches_.1, matches_.2⟩
    have back : ∀ pattern, Matching mode reordered segments pattern → matching pattern :=
      fun pattern matches_ => ⟨(mem_patterns_perm same).mp matches_.1, matches_.2⟩
    have casesOther := holdsOther.resolve_cases method lead short
    rw [← lead, ← resolves] at casesOther
    rcases casesOther with ⟨first, shape, least, answered⟩ | ⟨wide, first, matches_, least, answered⟩ |
      ⟨none_, answered⟩
    · rw [answered, answer_perm same holds.single holdsOther.single]
      exact (plainFirst first (back first shape.1) shape.2
        fun other matches_ => least other (both other matches_)).symm
    · rw [answered, answer_perm same holds.single holdsOther.single]
      exact (wideFirst (fun other matches_ => wide other (both other matches_)) first
        (back first matches_) fun other matches_ => least other (both other matches_)).symm
    · rw [answered]
      exact (nothing fun pattern matches_ => none_ pattern (both pattern matches_)).symm

/-- Routes that overlap: a static segment, a parameter and a catch-all. -/
def usersRoutes : List (Registration Nat) :=
  [⟨.get, ascii "/users/me", 4⟩, ⟨.get, ascii "/users/:id", 5⟩, ⟨.get, ascii "/*", 10⟩]

theorem resolve_refines_users : ∃ router,
    build .ignore usersRoutes { trailingSlash := .ignore } = .ok router ∧
      router.resolve (ascii "GET") (ascii "/users/42") = .matched 5 [(ascii "id", 7, 9)] false := by
  obtain ⟨router, built⟩ : ∃ router,
      build .ignore usersRoutes { trailingSlash := .ignore } = .ok router := by
    rcases built : build .ignore usersRoutes { trailingSlash := .ignore } with refused | router
    · have accepted : (build .ignore usersRoutes { trailingSlash := .ignore }).toOption.isSome =
          true := by decide +kernel
      rw [built] at accepted
      cases accepted
    · exact ⟨router, rfl⟩
  have registered : patterns .ignore usersRoutes =
      [[.static (ascii "users"), .static (ascii "me")],
        [.static (ascii "users"), .param (ascii "id")], [.catchAll (ascii "*")]] := by
    decide +kernel
  have segments : pathSegments (TrailingSlash.trim .ignore (ascii "/users/42")).tail =
      [ascii "users", ascii "42"] := by decide +kernel
  have known : Method.parse (ascii "GET") = some .get := by decide +kernel
  have absolute : (ascii "/users/42").head? = some slash := by decide +kernel
  have short : (pathSegments (TrailingSlash.trim .ignore (ascii "/users/42")).tail).length ≤
      maxSegments := by rw [segments]; decide
  refine ⟨router, built, ?_⟩
  refine ((resolve_refines built known absolute short).2.1
    [.static (ascii "users"), .param (ascii "id")]
    ⟨by rw [registered]; decide +kernel, by decide +kernel⟩ rfl ?_).trans ?_
  · rintro other ⟨member, matched⟩ ends
    rw [registered] at member
    rw [segments] at matched
    simp only [List.mem_cons, List.not_mem_nil, or_false] at member
    rcases member with rfl | rfl | rfl
    · exact absurd matched (by decide +kernel)
    · exact .inr ⟨rfl, .inr ⟨rfl, trivial⟩⟩
    · cases ends
  · have handler : handlerOf .ignore usersRoutes
        [.static (ascii "users"), .param (ascii "id")] .get = some 5 := by decide +kernel
    unfold answer dispatch Leaf.handler
    dsimp only
    rw [handler]
    exact congrArg (Resolution.matched 5 · false) (by decide +kernel)

end ZeroServer.Routing

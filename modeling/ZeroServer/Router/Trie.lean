/-
This file models the router: patterns compiled to segments, a trie with sorted static children,
parameters and catch-alls, registration into it and the backtracking search through it, which
carries the captured parameters along and takes back what an abandoned branch captured.
-/

import ZeroServer.Lib.BinarySearch
import ZeroServer.Uri.Path

namespace ZeroServer.Routing

open Http1 Uri Lib

def maxParams : Nat := 16

def maxSegments : Nat := 64

/-- Why a route or a mount was refused. -/
inductive RouteError where
  | noLeadingSlash
  | invalidPattern
  | emptyParameterName
  | catchAllNotLast
  | tooManyParameters
  | parameterConflict
  | duplicate
  | rootMount
  | tooManySegments
  deriving DecidableEq

/-- What a trailing `/` means. -/
inductive TrailingSlash where
  | ignore
  | strict
  deriving DecidableEq

/-- A path or a normalized pattern as the mode reads it. -/
def TrailingSlash.trim (mode : TrailingSlash) (path : Bytes) : Bytes :=
  match mode with
  | .ignore => if 1 < path.length ∧ path.getLast? = some slash then path.dropLast else path
  | .strict => path

/-! ### Patterns -/

/-- A segment of a pattern. -/
inductive Segment where
  | static (bytes : Bytes)
  | param (name : Bytes)
  | catchAll (name : Bytes)
  deriving DecidableEq

def normalizePattern (pattern : Bytes) : Except RouteError Bytes :=
  if pattern.head? ≠ some slash then .error .noLeadingSlash
  else match normalizePath (splitQuery pattern).1 with
    | .ok normal => .ok normal
    | .error _ => .error .invalidPattern

def parseSegment (segment : Bytes) : Except RouteError Segment :=
  match segment with
  | 58 :: name => if name = [] then .error .emptyParameterName else .ok (.param name)
  | 42 :: name => .ok (.catchAll (if name = [] then ascii "*" else name))
  | _ => .ok (.static segment)

/-- The segments of the rest of a pattern, behind those already parsed. -/
def parseSegments : List Bytes → List Segment → Except RouteError (List Segment)
  | [], parsed => .ok parsed
  | segment :: rest, parsed =>
    if maxSegments < parsed.length then .error .tooManySegments
    else match parseSegment segment with
      | .error refused => .error refused
      | .ok next => parseSegments rest (parsed ++ [next])

def Segment.isCatchAll : Segment → Bool
  | .catchAll _ => true
  | _ => false

def parsePattern (normalized : Bytes) : Except RouteError (List Segment) :=
  match normalized with
  | 47 :: rest =>
    if rest = [] then .ok []
    else match parseSegments (rest.splitOn slash) [] with
      | .error refused => .error refused
      | .ok segments =>
        if maxSegments < segments.length ∧ ¬ (segments.getLast?.any Segment.isCatchAll) then
          .error .tooManySegments
        else .ok segments
  | _ => .error .noLeadingSlash

/-- The segments a pattern is registered under. -/
def compile (mode : TrailingSlash) (pattern : Bytes) : Except RouteError (List Segment) :=
  match normalizePattern pattern with
  | .error refused => .error refused
  | .ok normalized => parsePattern (mode.trim normalized)

/-! ### The trie -/

/-- The handlers registered on one pattern. -/
structure Leaf (Handler : Type) where
  handlers : Method → Option Handler
  pattern : Bytes

structure Node (Handler : Type) where
  statics : List (Bytes × Node Handler) := []
  param : Option (Bytes × Node Handler) := none
  catchAll : Option (Bytes × Leaf Handler) := none
  leaf : Option (Leaf Handler) := none

variable {Handler : Type}

def Leaf.new (pattern : Bytes) : Leaf Handler := { handlers := fun _ => none, pattern := pattern }

/-- Walk to the leaf of a pattern, making the nodes that are missing, and edit it. -/
def Node.leafFor (pattern : Bytes) (edit : Leaf Handler → Except RouteError (Leaf Handler)) :
    List Segment → Nat → Node Handler → Except RouteError (Node Handler)
  | [], _, node =>
    match edit (node.leaf.getD (Leaf.new pattern)) with
    | .error refused => .error refused
    | .ok leaf => .ok { node with leaf := some leaf }
  | .static bytes :: rest, params, node =>
    match position node.statics bytes with
    | .ok place =>
      match node.statics[place]? with
      | none => .error .invalidPattern
      | some known =>
        match leafFor pattern edit rest params known.2 with
        | .error refused => .error refused
        | .ok child => .ok { node with statics := node.statics.set place (known.1, child) }
    | .error place =>
      match leafFor pattern edit rest params {} with
      | .error refused => .error refused
      | .ok child => .ok { node with statics := node.statics.insertIdx place (bytes, child) }
  | .param name :: rest, params, node =>
    if maxParams < params + 1 then .error .tooManyParameters
    else
      let known := node.param.getD (name, {})
      if known.1 ≠ name then .error .parameterConflict
      else match leafFor pattern edit rest (params + 1) known.2 with
        | .error refused => .error refused
        | .ok child => .ok { node with param := some (known.1, child) }
  | .catchAll name :: rest, params, node =>
    if rest ≠ [] then .error .catchAllNotLast
    else if maxParams < params + 1 then .error .tooManyParameters
    else
      let known := node.catchAll.getD (name, Leaf.new pattern)
      if known.1 ≠ name then .error .parameterConflict
      else match edit known.2 with
        | .error refused => .error refused
        | .ok leaf => .ok { node with catchAll := some (known.1, leaf) }

/-- The captured parameters: each name with the range of the path it captured. -/
abbrev Params := List (Bytes × Nat × Nat)

/-- Add a parameter, unless there is no room: whether it was added, and the parameters. -/
def Params.push (params : Params) (name : Bytes) (start stop : Nat) : Bool × Params :=
  if params.length < maxParams then (true, params ++ [(name, start, stop)]) else (false, params)

def Params.pop (params : Params) : Params := params.dropLast

/-- The bytes of a range of the path. -/
def slice (path : Bytes) (start stop : Nat) : Bytes := Span.of ⟨start, stop⟩ path

/-- Capture the rest of the path, from an offset on. -/
def Node.findCatchAll (node : Node Handler) (path : Bytes) (start : Nat) (params : Params)
    (catchAll : Bool) : Option (Leaf Handler) × Params :=
  if catchAll then
    match node.catchAll with
    | some child =>
      let pushed := params.push child.1 start path.length
      if pushed.1 then (some child.2, pushed.2) else (none, params)
    | none => (none, params)
  else (none, params)

/-- The leaf the rest of the path reaches, and the parameters captured on the way. -/
def Node.find (path : Bytes) (catchAll : Bool) :
    List (Nat × Nat) → Node Handler → Params → Option (Leaf Handler) × Params
  | [], node, params =>
    match node.leaf with
    | some leaf => (some leaf, params)
    | none => node.findCatchAll path path.length params catchAll
  | (start, stop) :: rest, node, params =>
    let segment := slice path start stop
    let afterStatic :=
      match position node.statics segment with
      | .ok place =>
        match node.statics[place]? with
        | some known => find path catchAll rest known.2 params
        | none => (none, params)
      | .error _ => (none, params)
    match afterStatic with
    | (some leaf, params) => (some leaf, params)
    | (none, params) =>
      let afterParam :=
        match node.param with
        | some child =>
          let pushed := params.push child.1 start stop
          if segment ≠ [] ∧ pushed.1 = true then
            match find path catchAll rest child.2 pushed.2 with
            | (some leaf, params) => (some leaf, params)
            | (none, params) => (none, params.pop)
          else (none, params)
        | none => (none, params)
      match afterParam with
      | (some leaf, params) => (some leaf, params)
      | (none, params) => node.findCatchAll path start params catchAll

end ZeroServer.Routing

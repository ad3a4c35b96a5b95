/-
This file models how a policy is chosen for a request: the rules of one kind stand in the order of
their prefix lengths, and the last one that covers the path judges. A preflight is judged by the
path as received and the request it announces by the path its route matched, so the two agree
exactly on targets that arrive in normal form.
-/

import Mathlib.Data.List.Sort
import ZeroServer.Http1.Head
import ZeroServer.Router.Resolve

namespace ZeroServer.Host

open Http1 Uri Routing

variable {Rule : Type}

/-! ### Rules -/

/-- The path of a target without its query. -/
def pathOf (target : Bytes) : Bytes :=
  match target.findIdx? (· == question) with
  | some place => target.take place
  | none => target

/-- Whether a prefix covers a path on a segment boundary. -/
def covers (under path : Bytes) : Bool :=
  if under = [slash] then true
  else if under.isPrefixOf path then
    path.drop under.length = [] ∨ (path.drop under.length).head? = some slash
  else false

/-- The last entry that covers the path. -/
def lastCovering (rules : List (Bytes × Rule)) (path : Bytes) : Option (Bytes × Rule) :=
  rules.reverse.find? fun entry => covers entry.1 path

def covering (rules : List (Bytes × Rule)) (path : Bytes) : Option Rule :=
  (lastCovering rules path).map Prod.snd

/-- The path a policy is matched against: the route's normalized path when a route ran, the path as
received otherwise. -/
def matchedPath (routePath target : Bytes) : Bytes :=
  if routePath = [] then pathOf target else routePath

/-- The CORS rules of a server, in the order of their prefix lengths and then of registration. -/
structure Rules (Rule : Type) where
  cors : List (Bytes × Rule) := []

namespace Rules

def new (policies : List (Bytes × Rule)) : Rules Rule :=
  ⟨policies.insertionSort fun left right => left.1.length ≤ right.1.length⟩

/-- The rule a preflight is judged by, before it is routed. -/
def before (rules : Rules Rule) (target : Bytes) : Option Rule :=
  covering rules.cors (pathOf target)

/-- The rule a response is judged by, with the path its route matched. -/
def afterWith (rules : Rules Rule) (routePath target : Bytes) : Option Rule :=
  covering rules.cors (matchedPath routePath target)

end Rules

/-- A pattern without a trailing `/` past the root. -/
def normalPattern (pattern : Bytes) : Bytes :=
  if pattern.getLast? = some slash ∧ pattern.dropLast ≠ [] then pattern.dropLast else pattern

/-- A policy prefix: `/` for empty, otherwise an absolute path without a trailing `/` or a
query. -/
def normalPrefix (given : Bytes) : Option Bytes :=
  if given = [] ∨ given = [slash] then some [slash]
  else if given.head? ≠ some slash ∨ question ∈ given then none
  else some (normalPattern given)

/-- Policies as an application registers them, each under a prefix it accepted. -/
def Registered (policies : List (Bytes × Rule)) : Prop :=
  ∀ policy ∈ policies, ∃ given, normalPrefix given = some policy.1

/-! ### The rule that governs a path -/

variable {path : Bytes} {policies : List (Bytes × Rule)}

/-- The policy that governs a path, by its place in the order of registration: its prefix covers
the path, and every other that covers it is shorter, or as long and not registered later. -/
def Governs (policies : List (Bytes × Rule)) (path : Bytes) (place : Nat)
    (policy : Bytes × Rule) : Prop :=
  policies[place]? = some policy ∧ covers policy.1 path = true ∧
    ∀ (other : Nat) (its : Bytes × Rule), policies[other]? = some its → covers its.1 path = true →
      its.1.length < policy.1.length ∨ (its.1.length = policy.1.length ∧ other ≤ place)

/-- The governing policy, found in one pass from the last registration to the first. -/
def governing (path : Bytes) : List (Bytes × Rule) → Option (Bytes × Rule)
  | [] => none
  | policy :: rest =>
    match governing path rest with
    | some best =>
      if covers policy.1 path ∧ best.1.length < policy.1.length then some policy else some best
    | none => if covers policy.1 path then some policy else none

theorem governing_eq_none (none_ : governing path policies = none) :
    ∀ policy ∈ policies, covers policy.1 path = false := by
  induction policies with
  | nil => exact fun policy member => by cases member
  | cons first rest inductionHypothesis =>
    rw [governing] at none_
    split at none_
    · split at none_ <;> cases none_
    · rename_i absent
      split at none_
      · cases none_
      · rename_i apart
        intro policy member
        rcases List.mem_cons.mp member with rfl | later
        · exact Bool.eq_false_iff.mpr apart
        · exact inductionHypothesis absent policy later

theorem governing_spec {policy : Bytes × Rule} (found : governing path policies = some policy) :
    ∃ place, Governs policies path place policy := by
  induction policies generalizing policy with
  | nil => cases found
  | cons first rest inductionHypothesis =>
    rw [governing] at found
    split at found
    · rename_i best known
      obtain ⟨place, here, covered, most⟩ := inductionHypothesis known
      split at found
      · rename_i longer
        cases found
        refine ⟨0, rfl, longer.1, fun other its there covers_ => ?_⟩
        cases other with
        | zero =>
          cases there
          exact .inr ⟨rfl, Nat.le_refl 0⟩
        | succ other =>
          rcases most other its there covers_ with less | ⟨equal, -⟩
          · exact .inl (Nat.lt_trans less longer.2)
          · exact .inl (equal ▸ longer.2)
      · rename_i kept
        cases found
        refine ⟨place + 1, here, covered, fun other its there covers_ => ?_⟩
        cases other with
        | zero =>
          cases there
          have bound : first.1.length ≤ policy.1.length :=
            Nat.le_of_not_lt fun longer => kept ⟨covers_, longer⟩
          rcases Nat.lt_or_eq_of_le bound with less | equal
          · exact .inl less
          · exact .inr ⟨equal, Nat.zero_le _⟩
        | succ other =>
          rcases most other its there covers_ with less | ⟨equal, earlier⟩
          · exact .inl less
          · exact .inr ⟨equal, Nat.succ_le_succ earlier⟩
    · rename_i absent
      split at found
      · rename_i covered
        cases found
        refine ⟨0, rfl, covered, fun other its there covers_ => ?_⟩
        cases other with
        | zero =>
          cases there
          exact .inr ⟨rfl, Nat.le_refl 0⟩
        | succ other =>
          rw [governing_eq_none absent its (List.mem_of_getElem? there)] at covers_
          cases covers_
      · cases found

theorem lastCovering_cons (entry : Bytes × Rule) (rest : List (Bytes × Rule)) (path : Bytes) :
    lastCovering (entry :: rest) path =
      (lastCovering rest path).or (if covers entry.1 path then some entry else none) := by
  unfold lastCovering
  rw [List.reverse_cons, List.find?_append, List.find?_singleton]

/-- Sorting by length puts the governing policy last of those that cover the path. -/
theorem lastCovering_orderedInsert (path : Bytes) (policy : Bytes × Rule)
    {sorted : List (Bytes × Rule)}
    (ordered : sorted.Pairwise fun left right => left.1.length ≤ right.1.length) :
    lastCovering (sorted.orderedInsert (fun left right => left.1.length ≤ right.1.length) policy)
        path =
      match lastCovering sorted path with
      | some best =>
        if covers policy.1 path ∧ best.1.length < policy.1.length then some policy else some best
      | none => if covers policy.1 path then some policy else none := by
  induction sorted with
  | nil =>
    rw [List.orderedInsert_nil, lastCovering_cons]
    rfl
  | cons first rest inductionHypothesis =>
    obtain ⟨longer, orderedRest⟩ := List.pairwise_cons.mp ordered
    rw [List.orderedInsert_cons]
    by_cases front : policy.1.length ≤ first.1.length
    · rw [if_pos front, lastCovering_cons]
      rcases found : lastCovering (first :: rest) path with _ | best
      · rfl
      · have member := List.mem_reverse.mp (List.mem_of_find?_eq_some found)
        have bound : policy.1.length ≤ best.1.length := by
          rcases List.mem_cons.mp member with rfl | behind
          · exact front
          · exact Nat.le_trans front (longer best behind)
        dsimp only
        rw [Option.some_or, if_neg (fun both => Nat.not_lt.mpr bound both.2)]
    · rw [if_neg front, lastCovering_cons, inductionHypothesis orderedRest, lastCovering_cons]
      rcases lastCovering rest path with _ | best
      · dsimp only
        rw [Option.none_or]
        by_cases covered : covers policy.1 path = true
        · rw [if_pos covered, Option.some_or]
          by_cases second : covers first.1 path = true
          · rw [if_pos second]
            exact (if_pos ⟨covered, Nat.lt_of_not_le front⟩).symm
          · rw [if_neg second]
        · rw [if_neg covered, Option.none_or]
          by_cases second : covers first.1 path = true
          · rw [if_pos second]
            exact (if_neg fun both => covered both.1).symm
          · rw [if_neg second]
      · rw [Option.some_or]
        dsimp only
        split <;> rfl

theorem sorted_byLength (policies : List (Bytes × Rule)) :
    (policies.insertionSort fun left right => left.1.length ≤ right.1.length).Pairwise
      fun left right => left.1.length ≤ right.1.length := by
  have total : Std.Total fun left right : Bytes × Rule => left.1.length ≤ right.1.length :=
    ⟨fun left right => Nat.le_total _ _⟩
  have trans : IsTrans (Bytes × Rule) fun left right => left.1.length ≤ right.1.length :=
    ⟨fun _ _ _ => Nat.le_trans⟩
  exact List.pairwise_insertionSort _ policies

theorem covering_new (policies : List (Bytes × Rule)) (path : Bytes) :
    covering (Rules.new policies).cors path = (governing path policies).map Prod.snd := by
  unfold covering Rules.new
  refine congrArg (Option.map Prod.snd) ?_
  induction policies with
  | nil => rfl
  | cons policy rest inductionHypothesis =>
    rw [List.insertionSort_cons, lastCovering_orderedInsert, inductionHypothesis, governing]
    · exact sorted_byLength rest

/-- The rule that judges a path is the one of the policy that governs it. -/
theorem covering_governs (policies : List (Bytes × Rule)) (path : Bytes) (rule : Rule) :
    covering (Rules.new policies).cors path = some rule ↔
      ∃ place policy, Governs policies path place policy ∧ policy.2 = rule := by
  rw [covering_new]
  constructor
  · intro found
    obtain ⟨policy, best, same⟩ := Option.map_eq_some_iff.mp found
    obtain ⟨place, governs⟩ := governing_spec best
    exact ⟨place, policy, governs, same⟩
  · rintro ⟨place, policy, ⟨here, covered, most⟩, rfl⟩
    rcases known : governing path policies with _ | best
    · rw [governing_eq_none known policy (List.mem_of_getElem? here)] at covered
      cases covered
    · obtain ⟨other, there, coveredBest, mostBest⟩ := governing_spec known
      have same : place = other := by
        rcases most other best there coveredBest with less | ⟨equal, earlier⟩
        · rcases mostBest place policy here covered with more | ⟨equal, -⟩
          · omega
          · omega
        · rcases mostBest place policy here covered with more | ⟨-, later⟩
          · omega
          · exact Nat.le_antisymm later earlier
      subst same
      rw [here] at there
      cases there
      rfl

/-! ### A preflight and its request -/

/-- The path of a target is what the router splits off it. -/
theorem splitQuery_fst (target : Bytes) : (splitQuery target).1 = pathOf target := by
  unfold splitQuery pathOf
  cases target.findIdx? (· == question) <;> rfl

theorem question_notMem_pathOf (target : Bytes) : question ∉ pathOf target := by
  unfold pathOf
  split
  · rename_i place found
    obtain ⟨inside, -, before⟩ := List.findIdx?_eq_some_iff_getElem.mp found
    intro member
    obtain ⟨index, bound, same⟩ := List.mem_iff_getElem.mp member
    rw [List.length_take] at bound
    rw [List.getElem_take] at same
    exact before index (by omega) (by rw [same]; rfl)
  · rename_i absent
    intro member
    rw [List.findIdx?_eq_none_iff] at absent
    exact absurd (absent question member) (by decide)

/-- Any absolute path without a query can be a policy's prefix. -/
theorem normalPrefix_slash (absolute : path.head? = some slash) (plain : question ∉ path) :
    normalPrefix (path ++ [slash]) = some path := by
  obtain ⟨rest, rfl⟩ : ∃ rest, path = slash :: rest := by
    cases path with
    | nil => cases absolute
    | cons first rest =>
      cases absolute
      exact ⟨rest, rfl⟩
  unfold normalPrefix normalPattern
  rw [if_neg (by simp), if_neg, if_pos]
  · rw [List.dropLast_concat]
  · rw [List.getLast?_concat, List.dropLast_concat]
    exact ⟨rfl, List.cons_ne_nil _ _⟩
  · rintro (other | query)
    · exact other rfl
    · rcases List.mem_append.mp query with inside | last
      · exact plain inside
      · exact absurd (List.mem_singleton.mp last) (by decide)

theorem covers_self (path : Bytes) : covers path path = true := by
  unfold covers
  split
  · rfl
  · rw [if_pos (List.isPrefixOf_iff_prefix.mpr (List.prefix_refl path)), List.drop_length]
    rfl

/-- A prefix past the root covers no path of its length or less but itself. -/
theorem covers_short {under : Bytes} (covered : covers under path = true) (past : under ≠ [slash])
    (short : path.length ≤ under.length) : under = path := by
  unfold covers at covered
  rw [if_neg past] at covered
  split at covered
  · rename_i starts
    exact (List.isPrefixOf_iff_prefix.mp starts).eq_of_length_le short
  · cases covered

/-- The path the route of a call matched: the normalized path when a route ran, or the handler of
misses in its place, and none otherwise. -/
def routePath {Handler : Type} (router : Router Handler) (miss : Bool) (method target : Bytes) :
    Bytes :=
  match router.resolveTarget method target with
  | .ok ⟨.matched _ _ _, path, _⟩ => path
  | .ok ⟨_, path, _⟩ => if miss then path else []
  | .error _ => []

/-- Whether the request runs a route, or the handler of misses in its place. -/
def Routed {Handler : Type} (router : Router Handler) (miss : Bool)
    (method target : Bytes) : Prop :=
  ∃ resolved, router.resolveTarget method target = .ok resolved ∧
    (miss = true ∨ ∃ descriptor params head, resolved.resolution = .matched descriptor params head)

/-- The route path of a call that ran a route is the target's path in normal form. -/
theorem Routed.routePath {Handler : Type} {router : Router Handler} {miss : Bool}
    {method target : Bytes} (routed : Routed router miss method target) :
    normalizePath (pathOf target) = .ok (Host.routePath router miss method target) := by
  obtain ⟨⟨resolution, path, query⟩, resolved, ran⟩ := routed
  unfold Host.routePath
  rw [resolved]
  unfold Router.resolveTarget at resolved
  rw [splitQuery_fst] at resolved
  split at resolved
  · cases resolved
  · rename_i normal normalized
    cases resolved
    rw [normalized]
    dsimp only at ran ⊢
    rcases ran with kept | ⟨descriptor, params, head, matched⟩
    · cases router.resolve method path with
      | matched descriptor params head => rfl
      | notFound => exact congrArg Except.ok (if_pos kept).symm
      | methodNotAllowed allow => exact congrArg Except.ok (if_pos kept).symm
      | options allow => exact congrArg Except.ok (if_pos kept).symm
      | notImplemented => exact congrArg Except.ok (if_pos kept).symm
    · rw [matched]

/-- The rule a preflight is judged by is the rule that judges the request it announces, whatever
the policies, exactly when the target's path arrives in normal form. The path of an accepted target
has the shape asked for by `classifyTarget_path`. -/
theorem before_eq_after_iff {Handler : Type} {router : Router Handler} {miss : Bool}
    {method target : Bytes} (shaped : pathOf target = [] ∨ (pathOf target).head? = some slash)
    (routed : Routed router miss method target) :
    (∀ (Rule : Type) (policies : List (Bytes × Rule)), Registered policies →
      (Rules.new policies).before target =
        (Rules.new policies).afterWith (routePath router miss method target) target ∧
      ∀ rule, (Rules.new policies).before target = some rule ↔
        ∃ place policy, Governs policies (routePath router miss method target) place policy ∧
          policy.2 = rule) ↔
    normalizePath (pathOf target) = .ok (pathOf target) := by
  have normalized := routed.routePath
  revert normalized
  generalize routePath router miss method target = normal
  intro normalized
  have after : ∀ {Rule : Type} (policies : List (Bytes × Rule)),
      (Rules.new policies).afterWith normal target =
        covering (Rules.new policies).cors normal := by
    intro Rule policies
    unfold Rules.afterWith matchedPath
    rcases shaped with empty | absolute
    · rw [empty] at normalized
      cases normalized
      rw [if_pos rfl, empty]
    · refine congrArg _ (if_neg ?_)
      rintro rfl
      cases normalizePath_absolute absolute normalized
  constructor
  · intro agree
    by_contra spelled
    have other : pathOf target ≠ normal := by
      intro same
      rw [same] at normalized spelled
      exact spelled normalized
    have absolute : (pathOf target).head? = some slash := by
      refine shaped.resolve_left fun empty => spelled ?_
      rw [empty]
      rfl
    have past : pathOf target ≠ [slash] := by
      intro root
      exact spelled (by rw [root]; rfl)
    let policies : List (Bytes × Bool) := [([slash], false), (pathOf target, true)]
    have registered : Registered policies := by
      intro policy member
      rcases List.mem_pair.mp member with rfl | rfl
      · exact ⟨[slash], rfl⟩
      · exact ⟨_, normalPrefix_slash absolute (question_notMem_pathOf target)⟩
    have strict : Governs policies (pathOf target) 1 (pathOf target, true) := by
      refine ⟨rfl, covers_self _, fun other its there covered => ?_⟩
      match other, there with
      | 0, there =>
        cases there
        refine .inl (Nat.lt_of_not_le fun short => past ?_)
        obtain ⟨rest, spelled⟩ := List.head?_eq_some_iff.mp absolute
        rw [spelled] at short ⊢
        rw [List.length_eq_zero_iff.mp (Nat.le_zero.mp (Nat.le_of_succ_le_succ short))]
      | 1, there =>
        cases there
        exact .inr ⟨rfl, Nat.le_refl 1⟩
    have before : (Rules.new policies).before target = some true :=
      (covering_governs policies _ true).mpr ⟨1, _, strict, rfl⟩
    obtain ⟨-, judged⟩ := agree Bool policies registered
    obtain ⟨place, policy, ⟨here, covered, -⟩, granted⟩ := (judged true).mp before
    match place, here with
    | 0, here =>
      cases here
      cases granted
    | 1, here =>
      cases here
      exact other (covers_short covered past (normalizePath_length normalized))
  · intro normal_
    rw [normalized] at normal_
    cases normal_
    intro Rule policies registered
    refine ⟨(after policies).symm, covering_governs policies _⟩

def adminRoutes : List (Registration Nat) := [⟨.delete, ascii "/admin", 1⟩]

/-- A rule that grants every method over the whole server, and one that grants none under
`/admin`. -/
def adminPolicies : List (Bytes × Bool) := [(ascii "/", true), (ascii "/admin", false)]

/-- The route a resolution ran without parameters, and the path it matched. -/
def ranRoute : Except UriError (Router.Resolved Nat) → Option (Nat × Bool × Bytes)
  | .ok ⟨.matched descriptor [] head, path, none⟩ => some (descriptor, head, path)
  | _ => none

theorem eq_of_ranRoute {resolved : Except UriError (Router.Resolved Nat)} {descriptor : Nat}
    {head : Bool} (ran : ranRoute resolved = some (descriptor, head, path)) :
    resolved = .ok ⟨.matched descriptor [] head, path, none⟩ := by
  unfold ranRoute at ran
  split at ran
  · cases ran
    rfl
  · cases ran

theorem adminRouter_built : ∃ router, build .ignore adminRoutes { } = .ok router ∧
    router.resolveTarget (ascii "DELETE") (ascii "/admin") =
      .ok ⟨.matched 1 [] false, ascii "/admin", none⟩ ∧
    router.resolveTarget (ascii "DELETE") (ascii "/%61dmin") =
      .ok ⟨.matched 1 [] false, ascii "/admin", none⟩ := by
  have ran : (build .ignore adminRoutes { }).toOption.map
      (fun router => [ascii "/admin", ascii "/%61dmin"].map
        fun target => ranRoute (router.resolveTarget (ascii "DELETE") target)) =
      some [some (1, false, ascii "/admin"), some (1, false, ascii "/admin")] := by
    decide +kernel
  rcases built : build .ignore adminRoutes { } with refused | router
  · rw [built] at ran
    cases ran
  · rw [built] at ran
    obtain ⟨plain, rest⟩ := List.cons.inj (Option.some.inj ran)
    obtain ⟨spelled, -⟩ := List.cons.inj rest
    exact ⟨router, rfl, eq_of_ranRoute plain, eq_of_ranRoute spelled⟩

/-- What the rules make of the two spellings of the path. -/
theorem admin_facts :
    (∀ policy ∈ adminPolicies, normalPrefix policy.1 = some policy.1) ∧
      (Rules.new adminPolicies).before (ascii "/%61dmin") = some true ∧
      (Rules.new adminPolicies).afterWith (ascii "/admin") (ascii "/%61dmin") = some false ∧
      (pathOf (ascii "/admin")).head? = some slash ∧
      normalizePath (pathOf (ascii "/admin")) = .ok (pathOf (ascii "/admin")) := by
  decide +kernel

theorem adminPolicies_registered : Registered adminPolicies := fun policy member =>
  ⟨policy.1, admin_facts.1 policy member⟩

theorem before_ne_after_admin : ∃ router, build .ignore adminRoutes { } = .ok router ∧
    Registered adminPolicies ∧ Routed router false (ascii "DELETE") (ascii "/%61dmin") ∧
    routePath router false (ascii "DELETE") (ascii "/%61dmin") = ascii "/admin" ∧
    (Rules.new adminPolicies).before (ascii "/%61dmin") = some true ∧
    (Rules.new adminPolicies).afterWith
      (routePath router false (ascii "DELETE") (ascii "/%61dmin")) (ascii "/%61dmin") =
        some false := by
  obtain ⟨router, built, -, spelled⟩ := adminRouter_built
  have path : routePath router false (ascii "DELETE") (ascii "/%61dmin") = ascii "/admin" := by
    unfold routePath
    rw [spelled]
  refine ⟨router, built, adminPolicies_registered, ⟨_, spelled, .inr ⟨1, [], false, rfl⟩⟩, path,
    admin_facts.2.1, ?_⟩
  rw [path]
  exact admin_facts.2.2.1

theorem before_eq_after_iff_admin : ∃ router, build .ignore adminRoutes { } = .ok router ∧
    (Rules.new adminPolicies).before (ascii "/admin") =
      (Rules.new adminPolicies).afterWith
        (routePath router false (ascii "DELETE") (ascii "/admin")) (ascii "/admin") := by
  obtain ⟨router, built, plain, -⟩ := adminRouter_built
  have routed : Routed router false (ascii "DELETE") (ascii "/admin") :=
    ⟨_, plain, .inr ⟨1, [], false, rfl⟩⟩
  exact ⟨router, built, ((before_eq_after_iff (.inr admin_facts.2.2.2.1) routed).mpr
    admin_facts.2.2.2.2 Bool adminPolicies adminPolicies_registered).1⟩

end ZeroServer.Host

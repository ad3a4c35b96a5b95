/-
This file proves that a mounted router owns its prefix. However the calls were ordered, a path no
route of the parent matches without a catch-all is resolved by the router of the longest prefix it
is under, at any depth of mounts, and what that router captured is read at the same place of the
whole path.
-/

import Mathlib.Data.List.MinMax
import ZeroServer.Router.Resolve

namespace ZeroServer.Routing

open Http1 Uri Lib

variable {Handler : Type}

/-! ### Building a router with mounts -/

/-- One successful call of `route` or `mount`. -/
inductive Assembly (Handler : Type) where
  | route (registration : Registration Handler)
  | mount (under : Bytes) (child : Router Handler)

/-- A router built by a sequence of calls, none of them refused. -/
def assemble : List (Assembly Handler) → Router Handler → Except RouteError (Router Handler)
  | [], router => .ok router
  | .route call :: rest, router =>
    match router.route call.method call.pattern call.descriptor with
    | .error refused => .error refused
    | .ok next => assemble rest next
  | .mount under child :: rest, router =>
    match router.mount under child with
    | .error refused => .error refused
    | .ok next => assemble rest next

/-- The prefix a mount is kept under. -/
def mountPrefix (under : Bytes) : Option Bytes :=
  match normalizePattern under with
  | .error _ => none
  | .ok normalized =>
    some (if normalized.getLast? = some slash then normalized.dropLast else normalized)

/-- The routes among the calls. -/
def routesOf (calls : List (Assembly Handler)) : List (Registration Handler) :=
  calls.filterMap fun
    | .route call => some call
    | .mount _ _ => none

/-- The mounts among the calls, in the order they were made. -/
def mountsOf (calls : List (Assembly Handler)) : List (Bytes × Router Handler) :=
  calls.filterMap fun
    | .route _ => none
    | .mount under child => (mountPrefix under).map (·, child)

/-! ### The order of the mounts -/

variable {made : List (Bytes × Router Handler)}

variable {mounts : List (Bytes × Router Handler)}

/-- Whether a mount is tried before a new one of another prefix: longer prefixes first, then in the
order of the prefixes, then the earlier mount. -/
def triedBefore (known new : Bytes) : Bool :=
  match compare known.length new.length with
  | .gt => true
  | .lt => false
  | .eq => compare known new != .gt

theorem triedBefore_iff {known new : Bytes} :
    triedBefore known new = true ↔
      new.length < known.length ∨ (known.length = new.length ∧ compare known new ≠ .gt) := by
  unfold triedBefore
  rcases order : compare known.length new.length with _ | _ | _
  · have less := Nat.compare_eq_lt.mp order
    simp only [Bool.false_eq_true, false_iff]
    omega
  · have same := Nat.compare_eq_eq.mp order
    simp [same]
  · have more := Nat.compare_eq_gt.mp order
    simp only [true_iff]
    omega

theorem triedBefore_refl (known : Bytes) : triedBefore known known = true := by
  refine triedBefore_iff.mpr (.inr ⟨rfl, ?_⟩)
  have self : compare known known = .eq := Std.ReflCmp.compare_self
  rw [self]
  decide

theorem triedBefore_trans {first second third : Bytes} (early : triedBefore first second = true)
    (late : triedBefore second third = true) : triedBefore first third = true := by
  rw [triedBefore_iff] at early late ⊢
  rcases early with longer | ⟨same, before⟩
  · rcases late with longer' | ⟨same', -⟩ <;> omega
  · rcases late with longer' | ⟨same', before'⟩
    · omega
    · exact .inr ⟨same.trans same', Std.TransCmp.le_trans before before'⟩

theorem triedBefore_total {first second : Bytes} (late : triedBefore first second = false) :
    triedBefore second first = true ∧ first ≠ second := by
  have apart := Bool.eq_false_iff.mp late
  rw [ne_eq, triedBefore_iff, not_or] at apart
  refine ⟨?_, ?_⟩
  · rw [triedBefore_iff]
    rcases Nat.lt_trichotomy first.length second.length with less | same | more
    · exact .inl less
    · refine .inr ⟨same.symm, fun above => apart.2 ⟨same, fun above' => ?_⟩⟩
      rw [Std.OrientedCmp.gt_iff_lt] at above
      rw [above] at above'
      cases above'
    · exact absurd more apart.1
  · rintro rfl
    exact Bool.eq_false_iff.mp late (triedBefore_refl first)

/-- What the mounts of a router are, given the mounts made so far: they stand in the order they are
tried, and those of one prefix in the order they were made. -/
structure Mounted (made mounts : List (Bytes × Router Handler)) : Prop where
  sorted : mounts.Pairwise fun earlier later => triedBefore earlier.1 later.1 = true
  stable : ∀ under : Bytes, mounts.filter (·.1 = under) = made.filter (·.1 = under)

theorem mounted_nil : Mounted ([] : List (Bytes × Router Handler)) [] := ⟨.nil, fun _ => rfl⟩

theorem Mounted.insert (mounted : Mounted made mounts) (new : Bytes × Router Handler) :
    Mounted (made ++ [new])
      (mounts.insertIdx (mounts.takeWhile fun known => triedBefore known.1 new.1).length new) := by
  obtain ⟨sorted, stable⟩ := mounted
  generalize front_ : (mounts.takeWhile fun known => triedBefore known.1 new.1) = front
  generalize back_ : (mounts.dropWhile fun known => triedBefore known.1 new.1) = back
  have whole : mounts = front ++ back := by
    rw [← front_, ← back_, List.takeWhile_append_dropWhile]
  have early : ∀ known ∈ front, triedBefore known.1 new.1 = true := by
    intro known member
    rw [← front_] at member
    have passed := List.all_takeWhile (p := fun known => triedBefore known.1 new.1) (l := mounts)
    exact List.all_eq_true.mp passed known member
  rw [whole, List.pairwise_append] at sorted
  have late : ∀ known ∈ back, triedBefore new.1 known.1 = true ∧ known.1 ≠ new.1 := by
    cases back with
    | nil => exact nofun
    | cons first rest =>
      have stopped : triedBefore first.1 new.1 = false := by
        have some_ : mounts.dropWhile (fun known => triedBefore known.1 new.1) ≠ [] := by
          rw [back_]
          exact List.cons_ne_nil first rest
        have head := List.head_dropWhile_not
          (fun known : Bytes × Router Handler => triedBefore known.1 new.1) some_
        simp only [back_, List.head_cons] at head
        exact head
      obtain ⟨after, apart⟩ := triedBefore_total stopped
      intro known member
      rcases List.mem_cons.mp member with rfl | member
      · exact ⟨after, apart⟩
      · have behind := (List.pairwise_cons.mp sorted.2.1).1 known member
        refine ⟨triedBefore_trans after behind, fun same => ?_⟩
        rw [same, stopped] at behind
        cases behind
  have inserted : mounts.insertIdx front.length new = front ++ new :: back := by
    rw [whole, insertIdx_eq_append _ _ (by rw [List.length_append]; omega), List.take_left,
      List.drop_left]
  rw [inserted]
  refine ⟨?_, fun under => ?_⟩
  · rw [List.pairwise_append, List.pairwise_cons]
    refine ⟨sorted.1, ⟨fun known member => (late known member).1, sorted.2.1⟩, ?_⟩
    intro known member other memberOther
    rcases List.mem_cons.mp memberOther with rfl | behind
    · exact early known member
    · exact sorted.2.2 known member other behind
  · have before := stable under
    rw [whole, List.filter_append] at before
    rw [List.filter_append, List.filter_append, ← before, List.filter_cons]
    by_cases same : new.1 = under
    · have none_ : back.filter (·.1 = under) = [] := by
        refine List.filter_eq_nil_iff.mpr fun known member => ?_
        rw [← same]
        exact fun equal => (late known member).2 (of_decide_eq_true equal)
      rw [none_, List.append_nil, List.filter_singleton, decide_eq_true same, cond_true, if_pos rfl]
    · rw [List.filter_singleton, decide_eq_false same, cond_false,
        if_neg Bool.false_ne_true, List.append_nil]

/-! ### The owner of a path -/

variable {under : Bytes} {child : Router Handler}

/-- A prefix owns a path it is equal to or is followed in by `/`. -/
def Owns (under path : Bytes) : Prop := path = under ∨ ∃ rest, path = under ++ slash :: rest

/-- What the router of a prefix sees of a path the prefix owns. -/
def stripped (under path : Bytes) : Bytes :=
  if path = under then [slash] else path.drop under.length

theorem mountedPath_eq_some {path child : Bytes} :
    Router.mountedPath under path = some child ↔ Owns under path ∧ child = stripped under path := by
  unfold Router.mountedPath Owns stripped
  by_cases begins : under.isPrefixOf path = true
  · obtain ⟨rest, rfl⟩ := List.isPrefixOf_iff_prefix.mp begins
    rw [if_pos begins, List.drop_left]
    cases rest with
    | nil =>
      rw [List.append_nil, if_pos rfl, if_pos rfl, Option.some_inj]
      exact ⟨fun same => ⟨.inl rfl, same.symm⟩, fun both => both.2.symm⟩
    | cons byte rest =>
      have apart : under ++ byte :: rest ≠ under := by
        intro same
        have lengths := congrArg List.length same
        rw [List.length_append, List.length_cons] at lengths
        omega
      dsimp only
      rw [if_neg (List.cons_ne_nil byte rest), if_neg apart, List.head?_cons]
      by_cases separator : byte = slash
      · rw [if_pos (congrArg some separator), Option.some_inj]
        refine ⟨fun same => ⟨.inr ⟨rest, ?_⟩, same.symm⟩, fun both => both.2.symm⟩
        rw [separator]
      · rw [if_neg fun same => separator (Option.some_inj.mp same)]
        refine iff_of_false nofun ?_
        rintro ⟨same | ⟨other, same⟩, -⟩
        · exact apart same
        · exact separator (List.cons.inj (List.append_cancel_left same)).1
  · rw [if_neg begins]
    refine iff_of_false nofun ?_
    rintro ⟨same | ⟨rest, same⟩, -⟩
    · exact begins (List.isPrefixOf_iff_prefix.mpr ⟨[], by rw [List.append_nil, same]⟩)
    · exact begins (List.isPrefixOf_iff_prefix.mpr ⟨_, same.symm⟩)

theorem mountedPath_isSome {path : Bytes} :
    (Router.mountedPath under path).isSome = true ↔ Owns under path := by
  rw [Option.isSome_iff_exists]
  constructor
  · rintro ⟨child, mounted⟩
    exact (mountedPath_eq_some.mp mounted).1
  · intro owns
    exact ⟨_, mountedPath_eq_some.mpr ⟨owns, rfl⟩⟩

theorem Owns.begins {path : Bytes} (owns : Owns under path) : under <+: path := by
  rcases owns with same | ⟨rest, same⟩
  · exact ⟨[], by rw [List.append_nil, same]⟩
  · exact ⟨_, same.symm⟩

/-- The mount a path belongs to, of those made: the longest prefix that owns the path, and of the
mounts of that prefix the one made first. -/
structure Owner (made : List (Bytes × Router Handler)) (path under : Bytes)
    (child : Router Handler) : Prop where
  owns : Owns under path
  longest : ∀ other ∈ made, Owns other.1 path → other.1.length ≤ under.length
  first : made.find? (fun mount => mount.1 = under) = some (under, child)

theorem resolveMounts_eq (method : Method) (mounts : List (Bytes × Router Handler)) (path : Bytes) :
    Router.resolveMounts method mounts path =
      (mounts.find? fun mount => (Router.mountedPath mount.1 path).isSome).map fun mount =>
        Router.shiftResolution mount.1.length
          (Router.resolveMethod method mount.2 (stripped mount.1 path)) := by
  induction mounts with
  | nil =>
    rw [Router.resolveMounts]
    rfl
  | cons mount rest inductionHypothesis =>
    obtain ⟨under, router⟩ := mount
    rw [Router.resolveMounts, List.find?_cons]
    dsimp only
    rcases mounted : Router.mountedPath under path with _ | child
    · exact inductionHypothesis
    · rw [(mountedPath_eq_some.mp mounted).2]
      rfl

/-- The mounts are tried so that the owner of a path comes first. -/
theorem Mounted.resolveMounts (mounted : Mounted made mounts) {path : Bytes}
    (owner : Owner made path under child) (method : Method) :
    Router.resolveMounts method mounts path = some (Router.shiftResolution under.length
      (Router.resolveMethod method child (stripped under path))) := by
  obtain ⟨sorted, stable⟩ := mounted
  have member : ∀ mount ∈ mounts, mount ∈ made := by
    intro mount held
    have kept : mount ∈ mounts.filter (·.1 = mount.1) :=
      List.mem_filter.mpr ⟨held, decide_eq_true rfl⟩
    rw [stable] at kept
    exact (List.mem_filter.mp kept).1
  have firstKept : mounts.find? (fun mount => mount.1 = under) = some (under, child) := by
    rw [← List.head?_filter, stable, List.head?_filter]
    exact owner.first
  have isOwner : ∀ {mount : Bytes × Router Handler} {front back : List (Bytes × Router Handler)},
      mounts = front ++ mount :: back → Owns mount.1 path →
      (∀ earlier ∈ front, ¬ Owns earlier.1 path) → mount = (under, child) := by
    intro mount front back whole owns skipped
    have longest := owner.longest mount
      (member mount (by rw [whole]; exact List.mem_append_right _ List.mem_cons_self)) owns
    have long : under.length ≤ mount.1.length := by
      have held : (under, child) ∈ front ++ mount :: back := by
        rw [← whole]
        exact List.mem_of_find?_eq_some firstKept
      rcases List.mem_append.mp held with inFront | inRest
      · exact absurd owner.owns (skipped _ inFront)
      · rcases List.mem_cons.mp inRest with same | behind
        · rw [← same]
        · rw [whole, List.pairwise_append] at sorted
          have before := (List.pairwise_cons.mp sorted.2.1).1 _ behind
          rcases triedBefore_iff.mp before with longer | ⟨same, -⟩
          · exact Nat.le_of_lt longer
          · exact Nat.le_of_eq same.symm
    have same : mount.1 = under := by
      obtain ⟨mountRest, mountWhole⟩ := owns.begins
      obtain ⟨underRest, underWhole⟩ := owner.owns.begins
      exact List.append_inj_left (mountWhole.trans underWhole.symm) (by omega)
    have found : mounts.find? (fun mount => mount.1 = under) = some mount := by
      have none_ : front.find? (fun mount => mount.1 = under) = none := by
        refine List.find?_eq_none.mpr fun earlier inFront equal => skipped earlier inFront ?_
        rw [of_decide_eq_true equal]
        exact owner.owns
      rw [whole, List.find?_append, none_, Option.none_or, List.find?_cons, decide_eq_true same]
    rw [firstKept] at found
    exact (Option.some_inj.mp found).symm
  rw [resolveMounts_eq]
  rcases found : mounts.find? fun mount => (Router.mountedPath mount.1 path).isSome with _ | mount
  · have none_ := List.find?_eq_none.mp found _ (List.mem_of_find?_eq_some firstKept)
    exact absurd (mountedPath_isSome.mpr owner.owns) none_
  · obtain ⟨owns, front, back, whole, skipped⟩ := List.find?_eq_some_iff_append.mp found
    have same := isOwner whole (mountedPath_isSome.mp owns) fun earlier inFront owned => by
      have passed := skipped earlier inFront
      rw [mountedPath_isSome.mpr owned] at passed
      cases passed
    subst same
    rw [found]
    rfl

/-- A path some mount owns has an owner. -/
theorem exists_owner {path : Bytes} (owned : ∃ mount ∈ made, Owns mount.1 path) :
    ∃ under child, Owner made path under child := by
  let owning := made.filter fun mount => (Router.mountedPath mount.1 path).isSome
  have mem_owning : ∀ {mount : Bytes × Router Handler},
      mount ∈ owning ↔ mount ∈ made ∧ Owns mount.1 path := by
    intro mount
    exact List.mem_filter.trans (and_congr_right' mountedPath_isSome)
  obtain ⟨known, member, owns⟩ := owned
  rcases longest : owning.argmax fun mount => mount.1.length with _ | ⟨under, child⟩
  · have empty := List.argmax_eq_none.mp longest
    have held := mem_owning.mpr ⟨member, owns⟩
    rw [empty] at held
    cases held
  · obtain ⟨made_, owns⟩ := mem_owning.mp (List.argmax_mem longest)
    rcases first : made.find? (fun mount => mount.1 = under) with _ | ⟨same, child⟩
    · have none_ := List.find?_eq_none.mp first _ made_
      exact absurd (decide_eq_true rfl) none_
    · have equal : same = under := of_decide_eq_true (List.find?_eq_some_iff_append.mp first).1
      rw [equal] at first
      refine ⟨under, child, owns, fun other memberOther ownsOther => ?_, first⟩
      have held := mem_owning.mpr ⟨memberOther, ownsOther⟩
      exact List.le_of_mem_argmax (f := fun mount => mount.1.length) held longest

/-! ### What the calls build -/

variable {router : Router Handler} {mode : TrailingSlash} {calls : List (Assembly Handler)}

variable {next : Router Handler}

/-- What a router built by these routes and mounts holds. -/
structure Assembled (mode : TrailingSlash) (routes : List (Registration Handler))
    (made : List (Bytes × Router Handler)) (router : Router Handler) : Prop where
  holds : Holds mode routes { router with mounts := [] }
  mounted : Mounted made router.mounts
  absolute : ∀ mount ∈ made, mount.1.head? = some slash

theorem route_eq_ok {call : Registration Handler}
    (done : router.route call.method call.pattern call.descriptor = .ok next) :
    ({ router with mounts := [] } : Router Handler).route call.method call.pattern
      call.descriptor = .ok { next with mounts := [] } ∧ next.mounts = router.mounts := by
  unfold Router.route at done ⊢
  split at done
  · cases done
  · rename_i segments compiled
    dsimp only at done ⊢
    split at done
    · cases done
    · rename_i root registered
      cases done
      rw [compiled]
      dsimp only
      rw [registered]
      exact ⟨rfl, rfl⟩

theorem splitQuery_absolute {target : Bytes} (absolute : target.head? = some slash) :
    (splitQuery target).1.head? = some slash := by
  obtain ⟨rest, rfl⟩ : ∃ rest, target = slash :: rest := by
    cases target with
    | nil => cases absolute
    | cons first rest =>
      cases absolute
      exact ⟨rest, rfl⟩
  have plain : (slash == question) = false := by decide
  unfold splitQuery
  rw [List.findIdx?_cons, plain]
  rcases rest.findIdx? (· == question) with _ | place
  · rfl
  · rfl

theorem normalizePattern_absolute {pattern normalized : Bytes}
    (normal : normalizePattern pattern = .ok normalized) : normalized.head? = some slash := by
  unfold normalizePattern at normal
  split at normal
  · cases normal
  · rename_i lead
    split at normal
    · rename_i path done
      cases normal
      exact normalizePath_absolute (splitQuery_absolute (not_not.mp lead)) done
    · cases normal

theorem mount_eq_ok (done : router.mount under child = .ok next) :
    ∃ trimmed, mountPrefix under = some trimmed ∧ trimmed.head? = some slash ∧
      ({ next with mounts := [] } : Router Handler) = { router with mounts := [] } ∧
      next.mounts = router.mounts.insertIdx
        (router.mounts.takeWhile fun known => triedBefore known.1 trimmed).length
        (trimmed, child) := by
  unfold Router.mount at done
  unfold mountPrefix
  rcases normal : normalizePattern under with refused | normalized
  · rw [normal] at done
    cases done
  · have absolute := normalizePattern_absolute normal
    rw [normal] at done
    dsimp only at done ⊢
    generalize kept : (if normalized.getLast? = some slash then normalized.dropLast
      else normalized) = trimmed at done
    split at done
    · cases done
    · rename_i some_
      split at done
      · cases done
      · split at done
        · cases done
        · cases done
          refine ⟨trimmed, rfl, ?_, rfl, rfl⟩
          rw [← kept] at some_ ⊢
          split at some_
          · rename_i last
            have long : 1 < normalized.length := by
              rw [← ne_eq, ← List.length_pos_iff_ne_nil, List.length_dropLast] at some_
              omega
            rw [if_pos last, List.head?_dropLast, if_pos long, absolute]
          · rename_i last
            rw [if_neg last, absolute]

theorem Assembled.of_assemble {routes : List (Registration Handler)} {final : Router Handler}
    (assembled : Assembled mode routes made router) (built : assemble calls router = .ok final) :
    Assembled mode (routes ++ routesOf calls) (made ++ mountsOf calls) final := by
  induction calls generalizing routes made router with
  | nil =>
    cases built
    rw [routesOf, mountsOf, List.filterMap_nil, List.filterMap_nil, List.append_nil,
      List.append_nil]
    exact assembled
  | cons call rest inductionHypothesis =>
    cases call with
    | route call =>
      rw [assemble] at built
      split at built
      · cases built
      · rename_i next routed
        obtain ⟨alone, kept⟩ := route_eq_ok routed
        have step : Assembled mode (routes ++ [call]) made next := by
          refine ⟨assembled.holds.route call alone, ?_, assembled.absolute⟩
          rw [kept]
          exact assembled.mounted
        have later := inductionHypothesis step built
        rw [List.append_assoc] at later
        exact later
    | mount under child =>
      rw [assemble] at built
      split at built
      · cases built
      · rename_i next mounted
        obtain ⟨trimmed, kept, absolute, same, inserted⟩ := mount_eq_ok mounted
        have step : Assembled mode routes (made ++ [(trimmed, child)]) next := by
          refine ⟨?_, ?_, ?_⟩
          · rw [same]
            exact assembled.holds
          · rw [inserted]
            exact assembled.mounted.insert (trimmed, child)
          · intro mount member
            rcases List.mem_append.mp member with old | new
            · exact assembled.absolute mount old
            · rw [List.mem_singleton.mp new]
              exact absolute
        have later := inductionHypothesis step built
        have made_ : mountsOf (.mount under child :: rest) = (trimmed, child) :: mountsOf rest := by
          unfold mountsOf
          refine List.filterMap_cons_some ?_
          dsimp only
          rw [kept]
          rfl
        rw [List.append_assoc, List.singleton_append, ← made_] at later
        exact later

theorem assembled_of_calls (built : assemble calls { trailingSlash := mode } = .ok router) :
    Assembled mode (routesOf calls) (mountsOf calls) router := by
  have new : Assembled mode ([] : List (Registration Handler)) [] { trailingSlash := mode } :=
    ⟨holds_new mode, mounted_nil, nofun⟩
  have later := new.of_assemble built
  rw [List.nil_append, List.nil_append] at later
  exact later

/-! ### What a router with mounts answers -/

section Answers

variable {mode : TrailingSlash} {routes : List (Registration Handler)}
  {made : List (Bytes × Router Handler)} {router : Router Handler}

/-- No route without a catch-all matches a path. -/
def OnlyCatchAlls (mode : TrailingSlash) (routes : List (Registration Handler)) (path : Bytes) :
    Prop :=
  ∀ pattern, Matching mode routes (pathSegments (mode.trim path).tail) pattern →
    endsInCatchAll pattern = true

/-- The search for a route without a catch-all ends at a leaf exactly if one matches. -/
theorem Assembled.find_plain (assembled : Assembled mode routes made router) {rest : Bytes}
    (short : (pathSegments rest).length ≤ maxSegments) :
    (∀ pattern, Matching mode routes (pathSegments rest) pattern → endsInCatchAll pattern = true) ↔
      (router.root.find (slash :: rest) false (spansFrom 1 (pathSegments rest)) []).1 = none := by
  have holds := assembled.holds
  have texts := (scan_spec rest short).2
  have plain : router.root.Finds (slash :: rest) false _ [] (router.root.find _ _ _ _) :=
    Node.find_finds holds.ordered (spansFrom 1 (pathSegments rest)) holds.roomy
  revert plain
  rcases router.root.find (slash :: rest) false (spansFrom 1 (pathSegments rest)) [] with
    ⟨- | leaf, params⟩
  · rintro ⟨-, none_⟩
    rw [texts] at none_
    refine iff_of_true (fun pattern matching => ?_) rfl
    by_contra ends
    obtain ⟨leaf, eligible⟩ := holds.eligible.mpr ⟨matching, .inr (Bool.eq_false_iff.mpr ends)⟩
    exact none_ pattern leaf eligible
  · rintro ⟨pattern, eligible, -, -⟩
    rw [texts] at eligible
    obtain ⟨matching, allowed⟩ := holds.eligible.mp ⟨leaf, eligible⟩
    refine iff_of_false (fun wide => ?_) nofun
    rw [wide pattern matching] at allowed
    exact absurd allowed (by decide)

/-- The answer of the router of the owner is final. -/
theorem Assembled.resolveMethod_owner (assembled : Assembled mode routes made router) {path : Bytes}
    (short : (pathSegments (mode.trim path).tail).length ≤ maxSegments)
    (plain : OnlyCatchAlls mode routes path) (owner : Owner made (mode.trim path) under child)
    (method : Method) : Router.resolveMethod method router path =
      Router.shiftResolution under.length
        (Router.resolveMethod method child (stripped under (mode.trim path))) := by
  have lead : mode.trim path = slash :: (mode.trim path).tail := by
    obtain ⟨rest, whole⟩ := owner.owns.begins
    have absolute := assembled.absolute _ (List.mem_of_find?_eq_some owner.first)
    rw [← whole]
    cases under with
    | nil => cases absolute
    | cons first others =>
      cases absolute
      rfl
  have mounted := assembled.mounted.resolveMounts owner method
  have none_ := (assembled.find_plain short).mp plain
  have trimmed : router.trailingSlash = mode := assembled.holds.trailingSlash
  obtain ⟨root, mounts, trailingSlash⟩ := router
  subst trimmed
  rw [Router.resolveMethod, lead]
  dsimp only at none_ mounted ⊢
  split
  · rename_i tail same
    cases same
    rw [(scan_spec _ short).1]
    dsimp only
    rcases found : root.find (slash :: (trailingSlash.trim path).tail) false
      (spansFrom 1 (pathSegments (trailingSlash.trim path).tail)) [] with ⟨- | leaf, params⟩
    · rw [← lead, mounted]
    · rw [found] at none_
      cases none_
  · rename_i other
    exact absurd rfl (other _)

/-- A path the router answers for itself: a route without a catch-all matches it, or no mount owns
it. -/
def Settled (mode : TrailingSlash) (routes : List (Registration Handler))
    (made : List (Bytes × Router Handler)) (path : Bytes) : Prop :=
  ¬ OnlyCatchAlls mode routes path ∨ ∀ mount ∈ made, ¬ Owns mount.1 (mode.trim path)

/-- A path with too many segments is not found. -/
theorem segmentSpans_none {rest : Bytes} (long : maxSegments < (pathSegments rest).length) :
    (if rest = [] then some [] else segmentSpans rest 1 1 []) = none := by
  unfold pathSegments at long
  split at long
  · exact absurd long (by decide)
  · rename_i some_
    obtain ⟨first, others, pieces, scanned⟩ := segmentSpans_eq rest 1 1 []
    rw [pieces] at long
    rw [if_neg some_, scanned, List.length_nil, Nat.zero_add, if_neg (Nat.not_le.mpr long)]

/-- A path without a leading `/` or with too many segments is not found. -/
theorem resolveMethod_unread {path : Bytes}
    (unread : ∀ rest, router.trailingSlash.trim path = slash :: rest →
      maxSegments < (pathSegments rest).length) (method : Method) :
    Router.resolveMethod method router path = .notFound := by
  obtain ⟨root, mounts, trailingSlash⟩ := router
  dsimp only at unread
  rw [Router.resolveMethod]
  generalize trailingSlash.trim path = read at *
  split
  · rename_i rest
    rw [segmentSpans_none (unread rest rfl)]
  · rfl

/-- A path the router answers for itself is resolved as if there were no mounts. -/
theorem Assembled.resolveMethod_settled (assembled : Assembled mode routes made router)
    {path : Bytes} (settled : Settled mode routes made path) (method : Method) :
    Router.resolveMethod method router path =
      Router.resolveMethod method { router with mounts := [] } path := by
  have none_ : (∀ mount ∈ made, ¬ Owns mount.1 (mode.trim path)) →
      Router.resolveMounts method router.mounts (mode.trim path) = none := by
    intro free
    rw [resolveMounts_eq, List.find?_eq_none.mpr]
    · rfl
    · intro mount held owns
      have kept : mount ∈ router.mounts.filter (·.1 = mount.1) :=
        List.mem_filter.mpr ⟨held, decide_eq_true rfl⟩
      rw [assembled.mounted.stable] at kept
      exact free mount (List.mem_filter.mp kept).1 (mountedPath_isSome.mp owns)
  have plain := fun rest => @Assembled.find_plain _ mode routes made router assembled rest
  have trimmed : router.trailingSlash = mode := assembled.holds.trailingSlash
  unfold Settled OnlyCatchAlls at settled
  obtain ⟨root, mounts, trailingSlash⟩ := router
  subst trimmed
  dsimp only at none_ plain settled ⊢
  rw [Router.resolveMethod, Router.resolveMethod]
  generalize trailingSlash.trim path = read at *
  split
  · rename_i rest
    rcases Nat.lt_or_ge maxSegments (pathSegments rest).length with long | short
    · rw [segmentSpans_none long]
    · rw [(scan_spec rest short).1]
      dsimp only
      rcases settled with matched | free
      · have some_ := mt (plain rest short).mpr matched
        rcases found : root.find (47 :: rest) false (spansFrom 1 (pathSegments rest)) [] with
          ⟨- | leaf, params⟩
        · exact absurd (congrArg Prod.fst found) some_
        · rfl
      · rw [none_ free, Router.resolveMounts]
  · rfl

theorem captures_inside {length : Nat} (pattern : List Segment) {spans : List (Nat × Nat)}
    (inside : ∀ span ∈ spans, span.1 ≤ span.2 ∧ span.2 ≤ length) :
    ∀ param ∈ captures length pattern spans, param.2.1 ≤ param.2.2 ∧ param.2.2 ≤ length := by
  induction pattern generalizing spans with
  | nil => exact nofun
  | cons segment rest inductionHypothesis =>
    cases spans with
    | nil =>
      cases segment with
      | static _ => exact nofun
      | param _ => exact nofun
      | catchAll name =>
        intro param member
        rw [List.mem_singleton.mp member]
        exact ⟨Nat.le_refl length, Nat.le_refl length⟩
    | cons span spans =>
      have own := inside span List.mem_cons_self
      have later := inductionHypothesis fun span member =>
        inside span (List.mem_cons_of_mem _ member)
      cases segment with
      | static _ => exact later
      | param _ =>
        intro param member
        rcases List.mem_cons.mp member with rfl | member
        · exact own
        · exact later param member
      | catchAll name =>
        intro param member
        rw [List.mem_singleton.mp member]
        exact ⟨Nat.le_trans own.1 own.2, Nat.le_refl length⟩

theorem spansFrom_inside (start : Nat) (segments : List Bytes) :
    ∀ span ∈ spansFrom start segments,
      span.1 ≤ span.2 ∧ span.2 ≤ start + ([slash].intercalate segments).length := by
  induction segments generalizing start with
  | nil => exact nofun
  | cons segment rest inductionHypothesis =>
    intro span member
    have whole : start + segment.length ≤
        start + ([slash].intercalate (segment :: rest)).length := by
      cases rest with
      | nil => rw [List.intercalate_singleton]
      | cons next rest =>
        rw [List.intercalate_cons_cons, List.length_append, List.length_append]
        omega
    rcases List.mem_cons.mp member with rfl | member
    · exact ⟨Nat.le_add_right _ _, whole⟩
    · cases rest with
      | nil => cases member
      | cons next rest =>
        obtain ⟨ordered, inside⟩ := inductionHypothesis _ span member
        rw [List.intercalate_cons_cons, List.length_append, List.length_append,
          List.length_singleton]
        exact ⟨ordered, by omega⟩

/-- What a router without mounts captures lies in the path it read. -/
theorem Holds.captures_inside (holds : Holds mode routes router) {path : Bytes} {method : Method}
    {descriptor : Handler} {params : Params} {head : Bool}
    (matched : Router.resolveMethod method router path = .matched descriptor params head) :
    ∀ param ∈ params, param.2.1 ≤ param.2.2 ∧ param.2.2 ≤ (mode.trim path).length := by
  have own : ∀ pattern rest, mode.trim path = slash :: rest →
      Router.resolveMethod method router path = answer mode routes pattern method
        (captures (slash :: rest).length pattern (spansFrom 1 (pathSegments rest))) →
      ∀ param ∈ params, param.2.1 ≤ param.2.2 ∧ param.2.2 ≤ (mode.trim path).length := by
    intro pattern rest lead answered
    rw [matched] at answered
    have same : params = captures (slash :: rest).length pattern
        (spansFrom 1 (pathSegments rest)) := by
      unfold answer dispatch at answered
      split at answered
      · cases answered
        rfl
      · split at answered
        · cases answered
          rfl
        · split at answered <;> cases answered
    rw [same, lead]
    refine Routing.captures_inside pattern fun span member => ?_
    obtain ⟨ordered, inside⟩ := spansFrom_inside 1 (pathSegments rest) span member
    refine ⟨ordered, ?_⟩
    rw [List.length_cons, Nat.add_comm]
    unfold pathSegments at inside
    split at inside
    · rename_i root
      rw [root]
      exact inside
    · rw [show [slash].intercalate (rest.splitOn slash) = rest from List.intercalate_splitOn slash]
        at inside
      exact inside
  have trimmed : router.trailingSlash = mode := holds.trailingSlash
  by_cases unread : ∀ rest, mode.trim path = slash :: rest →
      maxSegments < (pathSegments rest).length
  · rw [← trimmed] at unread
    rw [resolveMethod_unread unread] at matched
    cases matched
  · obtain ⟨rest, unread⟩ := not_forall.mp unread
    obtain ⟨lead, short⟩ := Classical.not_imp.mp unread
    rcases holds.resolve_cases method lead (Nat.not_lt.mp short) with
      ⟨pattern, -, -, answered⟩ | ⟨-, pattern, -, -, answered⟩ | ⟨-, answered⟩
    · exact own pattern rest lead answered
    · exact own pattern rest lead answered
    · rw [answered] at matched
      cases matched

end Answers

/-! ### Prefix ownership -/

variable {last : Router Handler} {offset : Nat} {whole : Bool}

/-- A path is handed down from a router to the routers of its owners, one mount after the other: how
long the prefixes are together, and whether one of them was the whole path its router read. -/
inductive Delegates : Router Handler → Bytes → Nat → Bool → Router Handler → Bytes → Prop
  | here (router : Router Handler) (path : Bytes) : Delegates router path 0 false router path
  | down {mode : TrailingSlash} {calls : List (Assembly Handler)} {router child last :
      Router Handler} {path under lastPath : Bytes} {offset : Nat} {whole : Bool}
      (built : assemble calls { trailingSlash := mode } = .ok router)
      (short : (pathSegments (mode.trim path).tail).length ≤ maxSegments)
      (plain : OnlyCatchAlls mode (routesOf calls) path)
      (owner : Owner (mountsOf calls) (mode.trim path) under child)
      (further : Delegates child (stripped under (mode.trim path)) offset whole last lastPath) :
      Delegates router path (offset + under.length) (mode.trim path = under || whole) last lastPath

theorem shiftResolution_zero (resolution : Resolution Handler) :
    Router.shiftResolution 0 resolution = resolution := by
  cases resolution with
  | matched descriptor params head =>
    exact congrArg (Resolution.matched descriptor · head) (List.map_id' params)
  | _ => rfl

theorem shiftResolution_add (first second : Nat) (resolution : Resolution Handler) :
    Router.shiftResolution second (Router.shiftResolution first resolution) =
      Router.shiftResolution (first + second) resolution := by
  cases resolution with
  | matched descriptor params head =>
    refine congrArg (Resolution.matched descriptor · head) ?_
    unfold Router.shiftParams
    rw [List.map_map]
    refine List.map_congr_left fun param _ => ?_
    rw [Function.comp_apply, Nat.add_assoc, Nat.add_assoc]
  | _ => rfl

theorem trim_begins (mode : TrailingSlash) (path : Bytes) : mode.trim path <+: path := by
  cases mode with
  | strict => exact List.prefix_refl path
  | ignore =>
    unfold TrailingSlash.trim
    dsimp only
    split
    · exact List.dropLast_prefix path
    · exact List.prefix_refl path

theorem Delegates.resolveMethod {path lastPath : Bytes}
    (delegates : Delegates router path offset whole last lastPath) (method : Method) :
    Router.resolveMethod method router path =
      Router.shiftResolution offset (Router.resolveMethod method last lastPath) := by
  induction delegates with
  | here router path => exact (shiftResolution_zero _).symm
  | down built short plain owner further inductionHypothesis =>
    rw [(assembled_of_calls built).resolveMethod_owner short plain owner, inductionHypothesis,
      shiftResolution_add]

/-- The path of the last router stands in the whole path, behind the prefixes. -/
theorem Delegates.path {path lastPath : Bytes}
    (delegates : Delegates router path offset whole last lastPath) (proper : whole = false) :
    ∃ front back, path = front ++ lastPath ++ back ∧
      front.length = offset := by
  induction delegates with
  | here router path => exact ⟨[], [], (List.append_nil _).symm, rfl⟩
  | @down mode calls router child last path under lastPath offset whole built short plain owner
      further inductionHypothesis =>
    obtain ⟨apart, proper⟩ := Bool.or_eq_false_iff.mp proper
    obtain ⟨front, back, same, length⟩ := inductionHypothesis proper
    obtain ⟨behind, trimmed⟩ := trim_begins mode path
    obtain ⟨rest, split_⟩ := owner.owns.begins
    have seen : stripped under (mode.trim path) = rest := by
      unfold stripped
      rw [if_neg (of_decide_eq_false apart), ← split_, List.drop_left]
    refine ⟨under ++ front, back ++ behind, ?_, ?_⟩
    · rw [← trimmed, ← split_, ← seen, same]
      simp only [List.append_assoc]
    · rw [List.length_append, length, Nat.add_comm]

/-- A range inside a part of a path reads the same bytes of the path. -/
theorem slice_append (front inner back : Bytes) {start stop : Nat} (ordered : start ≤ stop)
    (inside : stop ≤ inner.length) :
    slice (front ++ inner ++ back) (start + front.length) (stop + front.length) =
      slice inner start stop := by
  unfold slice Span.of
  dsimp only
  rw [if_pos ⟨by omega, by simp only [List.length_append]; omega⟩, if_pos ⟨ordered, inside⟩,
    List.append_assoc, Nat.add_comm start, ← List.drop_drop, List.drop_left,
    List.drop_append_of_le_length (by omega), List.take_append_of_le_length]
  · congr 1
    omega
  · rw [List.length_drop]
    omega

/-- Mounts own their prefixes. Of a router built by any calls none of which was refused, take a path
it has room for, no route of it matches without a catch-all, and some mount of it owns: as long as
the router reads it, with the trailing `/` its mode drops. There is an owner: the longest prefix
that is the path or is followed in it by `/`, and of the mounts of that prefix the first. Its router
answers, for every method and whatever the order of the calls, also when it finds nothing. At any
depth of mounts, what the last router captured itself lies inside the whole path and reads there
what it reads in the path of that router, unless a prefix was all there was. -/
theorem resolve_mounted {mode : TrailingSlash} {calls : List (Assembly Handler)}
    {router : Router Handler} (built : assemble calls { trailingSlash := mode } = .ok router)
    {path : Bytes} (short : (pathSegments (mode.trim path).tail).length ≤ maxSegments)
    (plain : OnlyCatchAlls mode (routesOf calls) path)
    (owned : ∃ mount ∈ mountsOf calls, Owns mount.1 (mode.trim path)) (token : Bytes) :
    (∃ under child, Owner (mountsOf calls) (mode.trim path) under child) ∧
    (∀ under child, Owner (mountsOf calls) (mode.trim path) under child →
      router.resolve token path = Router.shiftResolution under.length
        (child.resolve token (stripped under (mode.trim path)))) ∧
    ∀ offset whole (last : Router Handler) (lastPath : Bytes),
      Delegates router path offset whole last lastPath →
      router.resolve token path = Router.shiftResolution offset (last.resolve token lastPath) ∧
      (whole = false → ∀ (lastMode : TrailingSlash) (lastCalls : List (Assembly Handler)),
        assemble lastCalls { trailingSlash := lastMode } = .ok last →
        Settled lastMode (routesOf lastCalls) (mountsOf lastCalls) lastPath →
        ∀ descriptor params head, last.resolve token lastPath = .matched descriptor params head →
          router.resolve token path =
            .matched descriptor (Router.shiftParams params offset) head ∧
          ∀ param ∈ params, param.2.1 ≤ param.2.2 ∧ param.2.2 + offset ≤ path.length ∧
            slice path (param.2.1 + offset) (param.2.2 + offset) =
              slice lastPath param.2.1 param.2.2) := by
  have resolves : ∀ {left right : Router Handler} {leftPath rightPath : Bytes} {by_ : Nat},
      (∀ method, Router.resolveMethod method left leftPath =
        Router.shiftResolution by_ (Router.resolveMethod method right rightPath)) →
      left.resolve token leftPath = Router.shiftResolution by_ (right.resolve token rightPath) := by
    intro left right leftPath rightPath by_ each
    unfold Router.resolve
    rcases Method.parse token with _ | method
    · rfl
    · exact each method
  refine ⟨exists_owner owned, fun under child owner => ?_,
    fun offset whole last lastPath delegates => ⟨resolves delegates.resolveMethod, ?_⟩⟩
  · exact resolves ((assembled_of_calls built).resolveMethod_owner short plain owner)
  · intro proper lastMode lastCalls lastBuilt settled descriptor params head matched
    have assembled := assembled_of_calls lastBuilt
    refine ⟨?_, fun param member => ?_⟩
    · rw [resolves delegates.resolveMethod, matched]
      rfl
    · unfold Router.resolve at matched
      rcases known : Method.parse token with _ | method
      · rw [known] at matched
        cases matched
      · rw [known] at matched
        dsimp only at matched
        rw [assembled.resolveMethod_settled settled] at matched
        obtain ⟨ordered, inside⟩ := assembled.holds.captures_inside matched param member
        obtain ⟨front, back, same, length⟩ := delegates.path proper
        have long := (trim_begins lastMode lastPath).length_le
        rw [same, ← length]
        refine ⟨ordered, ?_, slice_append front lastPath back ordered (by omega)⟩
        simp only [List.length_append]
        omega

/-- What a request was matched to, if it was. -/
def Resolution.found : Resolution Handler → Option (Handler × Params × Bool)
  | .matched descriptor params head => some (descriptor, params, head)
  | _ => none

theorem shiftResolution_found (by_ : Nat) (resolution : Resolution Handler) :
    (Router.shiftResolution by_ resolution).found =
      resolution.found.map fun found => (found.1, Router.shiftParams found.2.1 by_, found.2.2) := by
  cases resolution <;> rfl

/-- A router with one catch-all. -/
def files : Router Nat :=
  ((({} : Router Nat).route .get (ascii "/*rest") 7).toOption).getD {}

/-- A router with that router under a prefix. -/
def mountedFiles : Router Nat := ((({} : Router Nat).mount (ascii "/m") files).toOption).getD {}

/-- A path of 64 segments. -/
def deepPath : Bytes := (List.replicate 64 (ascii "/a")).flatten

theorem mountedFiles_built :
    assemble [.mount (ascii "/m") files] { trailingSlash := .ignore } = .ok mountedFiles := by
  rcases built : ({} : Router Nat).mount (ascii "/m") files with refused | router
  · have accepted : (({} : Router Nat).mount (ascii "/m") files).toOption.isSome = true := by
      decide +kernel
    rw [built] at accepted
    cases accepted
  · unfold assemble mountedFiles
    rw [built]
    rfl

theorem mountedFiles_mounts : mountsOf [.mount (ascii "/m") files] = [(ascii "/m", files)] := by
  have kept : mountPrefix (ascii "/m") = some (ascii "/m") := by decide +kernel
  unfold mountsOf
  refine List.filterMap_cons_some ?_
  dsimp only
  rw [kept]
  rfl

theorem mountedFiles_owner (path : Bytes) (owns : Owns (ascii "/m") path) :
    Owner (mountsOf [.mount (ascii "/m") files]) path (ascii "/m") files := by
  rw [mountedFiles_mounts]
  refine ⟨owns, fun other member _ => ?_, ?_⟩
  · rw [List.mem_singleton.mp member]
  · rw [List.find?_singleton, if_pos (decide_eq_true rfl)]

theorem resolve_mounted_files :
    (mountedFiles.resolve (ascii "GET") (ascii "/m/a")).found =
      some (7, [(ascii "rest", 3, 4)], false) := by
  have read : TrailingSlash.trim .ignore (ascii "/m/a") = ascii "/m" ++ slash :: ascii "a" := by
    decide +kernel
  have owner := mountedFiles_owner (TrailingSlash.trim .ignore (ascii "/m/a"))
    (.inr ⟨ascii "a", read⟩)
  have answered := (@resolve_mounted _ _ _ _ mountedFiles_built (ascii "/m/a") (by decide +kernel)
    nofun ⟨_, List.mem_of_find?_eq_some owner.first, owner.owns⟩ (ascii "GET")).2.1 _ _ owner
  have child : (files.resolve (ascii "GET")
      (stripped (ascii "/m") (TrailingSlash.trim .ignore (ascii "/m/a")))).found =
      some (7, [(ascii "rest", 1, 2)], false) := by decide +kernel
  rw [answered, shiftResolution_found, child]
  decide +kernel

/-- Behind a prefix a router finds paths that the whole router has no room for. -/
theorem resolve_mounted_deep :
    ¬ ∀ (mode : TrailingSlash) (calls : List (Assembly Nat)) (router : Router Nat),
      assemble calls { trailingSlash := mode } = .ok router →
      ∀ (path under : Bytes) (child : Router Nat) (token : Bytes),
        normalizePath path = .ok path → OnlyCatchAlls mode (routesOf calls) path →
        Owner (mountsOf calls) path under child →
        router.resolve token path =
          Router.shiftResolution under.length (child.resolve token (stripped under path)) := by
  intro claimed
  have lead : ascii "/m" ++ deepPath = ascii "/m" ++ slash :: deepPath.tail := by decide +kernel
  have owner := mountedFiles_owner (ascii "/m" ++ deepPath) (.inr ⟨deepPath.tail, lead⟩)
  have answered := claimed .ignore _ mountedFiles mountedFiles_built (ascii "/m" ++ deepPath) _ _
    (ascii "GET") (by decide +kernel) nofun owner
  have whole : (mountedFiles.resolve (ascii "GET") (ascii "/m" ++ deepPath)).found = none := by
    decide +kernel
  have child : (files.resolve (ascii "GET")
      (stripped (ascii "/m") (ascii "/m" ++ deepPath))).found.isSome = true := by decide +kernel
  rw [answered, shiftResolution_found, Option.map_eq_none_iff] at whole
  rw [whole] at child
  cases child

end ZeroServer.Routing

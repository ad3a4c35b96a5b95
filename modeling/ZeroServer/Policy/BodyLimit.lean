/-
This file models the table of body limits, whose prefixes are kept with the longest first, and proves
that what a request may carry depends on nothing but the normal form of its path and what was given
last for each prefix, whatever the order.
-/

import Mathlib.Order.Bounds.Basic
import Mathlib.Order.MinMax
import ZeroServer.Lib.Joined
import ZeroServer.Lib.Ranked
import ZeroServer.Uri.Normal

namespace ZeroServer.Policy

open Http1 Lib Uri

/-! ### The table -/

/-- One prefix and its limit. -/
structure Rule where
  under : Bytes
  limit : Nat
  deriving DecidableEq

/-- The body limits, the longest prefix first. -/
structure BodyLimits where
  default : Nat
  rules : List Rule
  deriving DecidableEq

/-- Why a prefix is refused: it is not an absolute path without a query, or no path at all. -/
inductive RouteError where
  | shape (text : Bytes)
  | path (text : Bytes) (refused : UriError)
  deriving DecidableEq

/-- Drop one trailing `/`, keeping the root as it is. -/
def trimSlash (path : Bytes) : Bytes :=
  if path.getLast? = some slash ∧ path.dropLast ≠ [] then path.dropLast else path

/-- Whether a prefix covers a path on a segment boundary. -/
def covers (under path : Bytes) : Bool :=
  if under = [slash] then path.head? = some slash
  else if under.isPrefixOf path then
    path.drop under.length = [] ∨ (path.drop under.length).head? = some slash
  else false

namespace BodyLimits

def new (default : Nat) : BodyLimits := ⟨default, []⟩

variable (limits : BodyLimits)

/-- Add a prefix; one that is added again replaces its earlier limit. -/
def route (text : Bytes) (limit : Nat) : Except RouteError BodyLimits :=
  if text.head? ≠ some slash ∨ question ∈ text then .error (.shape text)
  else
    match normalizePath text with
    | .error refused => .error (.path text refused)
    | .ok normal =>
      let under := trimSlash normal
      let rules := limits.rules.filter fun rule => rule.under ≠ under
      let place := rules.findIdx fun rule => rule.under.length < under.length
      .ok { limits with rules := rules.take place ++ ⟨under, limit⟩ :: rules.drop place }

/-- The smallest limit of the table, the default included. -/
def smallest : Nat := (limits.rules.map Rule.limit).foldl min limits.default

/-- The limit for one request. -/
def limit (target : Bytes) : Nat :=
  match normalizePath (splitQuery target).1 with
  | .error _ => limits.smallest
  | .ok path =>
    ((limits.rules.find? fun rule => covers rule.under path).map Rule.limit).getD limits.default

/-- A table after some prefixes were added. -/
def routes (calls : List (Bytes × Nat)) : Except RouteError BodyLimits :=
  calls.foldlM (fun limits call => limits.route call.1 call.2) limits

end BodyLimits

/-! ### What was given -/

/-- The prefix a text stands for, if it is taken. -/
def normalPrefix (text : Bytes) : Option Bytes :=
  if text.head? ≠ some slash ∨ question ∈ text then none
  else (normalizePath text).toOption.map trimSlash

/-- The limit given last for a prefix. -/
def lastLimit (calls : List (Bytes × Nat)) (under : Bytes) : Option Nat :=
  ((calls.filter fun call => normalPrefix call.1 = some under).getLast?).map Prod.snd

/-- A prefix covers a path: its segments begin those of the path. The root covers every absolute
path. -/
def Under (under path : Bytes) : Prop :=
  if under = [slash] then path.head? = some slash else segmentsOf under <+: segmentsOf path

/-- What a normalized path may carry: the limit of the longest prefix that covers it. -/
inductive Allows (default : Nat) (calls : List (Bytes × Nat)) (path : Bytes) : Nat → Prop
  | uncovered (apart : ∀ under limit, lastLimit calls under = some limit → ¬ Under under path) :
    Allows default calls path default
  | longest {under : Bytes} {limit : Nat} (given : lastLimit calls under = some limit)
    (covered : Under under path)
    (longest : ∀ other otherLimit, lastLimit calls other = some otherLimit → Under other path →
      other ≠ under → other.length < under.length) : Allows default calls path limit

/-! ### Prefixes and segments -/

variable {path : Bytes}

variable {under : Bytes}

theorem covers_iff : covers under path = true ↔ Under under path := by
  unfold covers Under
  by_cases root : under = [slash]
  · rw [if_pos root, if_pos root]
    exact decide_eq_true_iff
  rw [if_neg root, if_neg root]
  constructor
  · intro covered
    split at covered
    · rename_i begins
      obtain ⟨rest, rfl⟩ := List.isPrefixOf_iff_prefix.mp begins
      rw [List.drop_left, decide_eq_true_eq] at covered
      rcases covered with rfl | boundary
      · refine ⟨[], ?_⟩
        rw [List.append_nil, List.append_nil]
      · obtain ⟨more, rfl⟩ := List.head?_eq_some_iff.mp boundary
        exact ⟨segmentsOf more, (segmentsOf_append under more).symm⟩
    · cases covered
  · rintro ⟨behind, whole⟩
    have some_ : segmentsOf under ≠ [] := List.splitOn_ne_nil slash under
    have joined : [slash].intercalate (segmentsOf under ++ behind) = path := by
      rw [whole]
      exact List.intercalate_splitOn slash
    have kept : [slash].intercalate (segmentsOf under) = under := List.intercalate_splitOn slash
    cases behind with
    | nil =>
      rw [List.append_nil, kept] at joined
      subst joined
      rw [if_pos (List.isPrefixOf_iff_prefix.mpr List.prefix_rfl), List.drop_length]
      rfl
    | cons next behind =>
      rw [intercalate_append _ _ _ some_, kept] at joined
      subst joined
      rw [if_pos (List.isPrefixOf_iff_prefix.mpr (List.prefix_append _ _)), List.drop_left]
      rfl

/-- Two prefixes of one length that cover a path are the same. -/
theorem Under.same {first second : Bytes} (covers : Under first path) (covers' : Under second path)
    (equal : first.length = second.length) : first = second := by
  have begins : ∀ {under}, Under under path → under <+: path := by
    intro under covered
    have matched := covers_iff.mpr covered
    unfold Policy.covers at matched
    split at matched
    · rename_i root
      obtain ⟨rest, rfl⟩ := List.head?_eq_some_iff.mp (of_decide_eq_true matched)
      rw [root]
      exact List.prefix_append [slash] rest
    · split at matched
      · rename_i before
        exact List.isPrefixOf_iff_prefix.mp before
      · cases matched
  exact (List.prefix_of_prefix_length_le (begins covers) (begins covers') equal.le).eq_of_length equal

/-! ### What registrations leave -/

variable {calls : List (Bytes × Nat)} {rules : List Rule}

/-- The rule of a call that is taken. -/
def ruleOf (call : Bytes × Nat) : Option Rule :=
  (normalPrefix call.1).map fun under => ⟨under, call.2⟩

theorem route_ok {limits after : BodyLimits} {text : Bytes} {limit : Nat} :
    limits.route text limit = .ok after ↔ ∃ rule, ruleOf (text, limit) = some rule ∧
      after = { limits with rules := Ranked.put Rule.under List.length limits.rules rule } := by
  unfold BodyLimits.route ruleOf normalPrefix
  dsimp only
  split
  · exact ⟨nofun, fun ⟨_, never, _⟩ => nomatch never⟩
  · cases normalizePath text with
    | error refused => exact ⟨nofun, fun ⟨_, never, _⟩ => nomatch never⟩
    | ok normal =>
      refine ⟨fun done => ⟨_, rfl, (Except.ok.inj done).symm⟩, ?_⟩
      rintro ⟨rule, same, rfl⟩
      cases same
      rfl

/-- Calls that are all taken leave the table of their rules. -/
theorem routes_ok {default : Nat} {after : BodyLimits} :
    (BodyLimits.new default).routes calls = .ok after ↔
      ∃ rules, calls.map ruleOf = rules.map some ∧
        after = ⟨default, Ranked.table Rule.under List.length rules⟩ := by
  induction calls using List.reverseRecOn generalizing after with
  | nil =>
    refine ⟨fun done => ⟨[], rfl, (Except.ok.inj done).symm⟩, ?_⟩
    rintro ⟨rules, taken, rfl⟩
    rw [List.map_eq_nil_iff.mp taken.symm]
    rfl
  | append_singleton calls call inductionHypothesis =>
    have step : (BodyLimits.new default).routes (calls ++ [call]) =
        (BodyLimits.new default).routes calls >>= fun limits => limits.route call.1 call.2 := by
      unfold BodyLimits.routes
      simp only [List.foldlM_append, List.foldlM_cons, List.foldlM_nil, bind_pure]
    rw [step, List.map_append, List.map_singleton]
    constructor
    · intro done
      rcases before : (BodyLimits.new default).routes calls with refused | limits
      · rw [before] at done
        cases done
      · rw [before] at done
        obtain ⟨rules, taken, rfl⟩ := inductionHypothesis.mp before
        obtain ⟨rule, isRule, rfl⟩ := route_ok.mp done
        refine ⟨rules ++ [rule], ?_, ?_⟩
        · rw [taken, List.map_append, List.map_singleton]
          exact congrArg (fun last => rules.map some ++ [last]) isRule
        · rw [Ranked.table_concat]
    · rintro ⟨rules, taken, rfl⟩
      obtain ⟨front, final, rfl, before, last⟩ := List.append_eq_map_iff.mp taken
      obtain ⟨rule, rfl, isRule⟩ := List.map_eq_singleton_iff.mp last
      rw [inductionHypothesis.mpr ⟨front, before.symm, rfl⟩, Ranked.table_concat]
      exact route_ok.mpr ⟨rule, isRule.symm, rfl⟩

/-- Of calls that are all taken, the last rule for a prefix has the limit given last for it. -/
theorem last_lastLimit (taken : calls.map ruleOf = rules.map some) (under : Bytes) :
    (Ranked.last Rule.under rules under).map Rule.limit = lastLimit calls under := by
  have filtered : ((calls.filter fun call => normalPrefix call.1 = some under).map Prod.snd) =
      (rules.filter fun rule => rule.under = under).map Rule.limit := by
    induction calls generalizing rules with
    | nil =>
      rw [List.map_eq_nil_iff.mp taken.symm]
      rfl
    | cons call calls inductionHypothesis =>
      obtain ⟨rule, rest, rfl, isRule, others⟩ := List.map_eq_cons_iff.mp taken.symm
      obtain ⟨prefixed, known, rfl⟩ := Option.map_eq_some_iff.mp isRule.symm
      have inner := inductionHypothesis others.symm
      rw [List.filter_cons, List.filter_cons, known]
      by_cases same : prefixed = under
      · rw [if_pos (decide_eq_true (congrArg some same)), if_pos (decide_eq_true same),
          List.map_cons, List.map_cons, inner]
      · rw [if_neg (by simpa using same), if_neg (by simpa using same), inner]
  unfold Ranked.last lastLimit
  rw [← List.getLast?_map, ← List.getLast?_map, filtered]

/-- The rules of the table are the limits given last. -/
theorem lastLimit_iff (taken : calls.map ruleOf = rules.map some) {limit : Nat} :
    lastLimit calls under = some limit ↔
      ⟨under, limit⟩ ∈ Ranked.table Rule.under List.length rules := by
  rw [Ranked.mem_table, ← last_lastLimit taken]
  constructor
  · intro given
    obtain ⟨rule, found, rfl⟩ := Option.map_eq_some_iff.mp given
    have same := Ranked.key_of_last found
    subst same
    exact found
  · intro found
    rw [found]
    rfl

/-! ### The limit -/

theorem isLeast_foldl_min (start : Nat) (values : List Nat) :
    IsLeast {value | value = start ∨ value ∈ values} (values.foldl min start) := by
  induction values generalizing start with
  | nil => exact ⟨.inl rfl, fun value held => (held.resolve_right List.not_mem_nil).ge⟩
  | cons first rest inductionHypothesis =>
    obtain ⟨held, least⟩ := inductionHypothesis (min start first)
    refine ⟨?_, ?_⟩
    · show _ = start ∨ rest.foldl min (min start first) ∈ first :: rest
      rcases held with same | later
      · rcases min_choice start first with left | right
        · exact .inl (same.trans left)
        · exact .inr (List.mem_cons.mpr (.inl (same.trans right)))
      · exact .inr (List.mem_cons_of_mem _ later)
    · rintro value (rfl | member)
      · exact (least (.inl rfl)).trans (min_le_left _ _)
      · rcases List.mem_cons.mp member with rfl | later
        · exact (least (.inl rfl)).trans (min_le_right _ _)
        · exact least (.inr later)

section Limit

variable {default : Nat} {calls others : List (Bytes × Nat)} {rules : List Rule}

/-- The limits of a table of calls that were taken. -/
theorem limit_table (taken : calls.map ruleOf = rules.map some) :
    Allows default calls path ((((Ranked.table Rule.under List.length rules).find? fun rule =>
      covers rule.under path).map Rule.limit).getD default) := by
  have ordered := @Ranked.ordered_table _ _ _ Rule.under List.length rules
  cases found : (Ranked.table Rule.under List.length rules).find? fun rule =>
    covers rule.under path with
  | none =>
    refine .uncovered fun under limit given covered => ?_
    have held := (lastLimit_iff taken).mp given
    have missed := List.find?_eq_none.mp found _ held
    exact missed (covers_iff.mpr covered)
  | some rule =>
    have apart : ∀ first ∈ Ranked.table Rule.under List.length rules,
        ∀ second ∈ Ranked.table Rule.under List.length rules, covers first.under path = true →
        covers second.under path = true → first.under.length = second.under.length →
        first.under = second.under := fun first _ second _ covered covered' equal =>
      (covers_iff.mp covered).same (covers_iff.mp covered') equal
    obtain ⟨member, covered, longest⟩ := (ordered.find_eq apart).mp found
    refine .longest ((lastLimit_iff taken).mpr member) (covers_iff.mp covered) ?_
    intro other otherLimit given otherCovers different
    exact longest _ ((lastLimit_iff taken).mp given) (covers_iff.mpr otherCovers) different

/-- What a path may carry is settled by the limits given last. -/
theorem Allows.unique {limit limit' : Nat} (first : Allows default calls path limit)
    (second : Allows default others path limit') (same : lastLimit calls = lastLimit others) :
    limit = limit' := by
  cases first with
  | uncovered apart =>
    cases second with
    | uncovered => rfl
    | longest given covered => exact absurd covered (apart _ _ (by rw [same]; exact given))
  | longest given covered longest =>
    cases second with
    | uncovered apart => exact absurd covered (apart _ _ (by rw [← same]; exact given))
    | longest given' covered' longest' =>
      rename_i under under'
      have equal : under = under' := by
        by_contra different
        have below := longest _ _ (by rw [same]; exact given') covered' (Ne.symm different)
        exact Nat.lt_asymm below (longest' _ _ (by rw [← same]; exact given) covered different)
      rw [equal, same] at given
      exact Option.some.inj (given.symm.trans given')

/-- The smallest limit is the least of those given last and the default. -/
theorem smallest_table (taken : calls.map ruleOf = rules.map some) :
    IsLeast {limit | limit = default ∨ ∃ under, lastLimit calls under = some limit}
      (BodyLimits.smallest ⟨default, Ranked.table Rule.under List.length rules⟩) := by
  have least := isLeast_foldl_min default
    ((Ranked.table Rule.under List.length rules).map Rule.limit)
  have same : {limit | limit = default ∨ ∃ under, lastLimit calls under = some limit} =
      {limit | limit = default ∨
        limit ∈ (Ranked.table Rule.under List.length rules).map Rule.limit} := by
    ext limit
    refine or_congr_right ⟨fun ⟨under, given⟩ => ?_, fun member => ?_⟩
    · exact List.mem_map.mpr ⟨_, (lastLimit_iff taken).mp given, rfl⟩
    · obtain ⟨rule, held, rfl⟩ := List.mem_map.mp member
      exact ⟨rule.under, (lastLimit_iff taken).mpr held⟩
  rw [same]
  exact least

variable {table : BodyLimits}

/-- What a target may carry, the path being what its normalization says. -/
theorem limit_routes (done : (BodyLimits.new default).routes calls = .ok table) (target : Bytes) :
    match normalizePath (splitQuery target).1 with
    | .ok path => Allows default calls path (table.limit target)
    | .error _ => IsLeast {limit | limit = default ∨ ∃ under, lastLimit calls under = some limit}
        (table.limit target) := by
  obtain ⟨rules, taken, rfl⟩ := routes_ok.mp done
  unfold BodyLimits.limit
  cases normalizePath (splitQuery target).1 with
  | ok path => exact limit_table taken
  | error refused => exact smallest_table taken

/-- Two tables with the same last limits allow the same. -/
theorem limit_congr {table' : BodyLimits} (done : (BodyLimits.new default).routes calls = .ok table)
    (done' : (BodyLimits.new default).routes others = .ok table')
    (same : lastLimit calls = lastLimit others) (target : Bytes) :
    table.limit target = table'.limit target := by
  have first := limit_routes done target
  have second := limit_routes done' target
  revert first second
  cases normalizePath (splitQuery target).1 with
  | ok path => exact fun first second => first.unique second same
  | error refused =>
    intro first second
    rw [← same] at second
    exact first.unique second

/-- Calls with different prefixes are taken in any order, with the same last limits. -/
theorem routes_perm (done : (BodyLimits.new default).routes calls = .ok table)
    (perm : calls.Perm others) (once : (calls.map fun call => normalPrefix call.1).Nodup) :
    (∃ table', (BodyLimits.new default).routes others = .ok table') ∧
      lastLimit calls = lastLimit others := by
  obtain ⟨rules, taken, rfl⟩ := routes_ok.mp done
  have given : ∀ {calls : List (Bytes × Nat)}, (∀ call ∈ calls, (ruleOf call).isSome = true) →
      calls.map ruleOf = (calls.filterMap ruleOf).map some := by
    intro calls all
    induction calls with
    | nil => rfl
    | cons call calls inductionHypothesis =>
      obtain ⟨here, others⟩ := List.forall_mem_cons.mp all
      obtain ⟨rule, isRule⟩ := Option.isSome_iff_exists.mp here
      rw [List.map_cons, List.filterMap_cons, isRule, inductionHypothesis others]
      rfl
  have known : ∀ call ∈ calls, (ruleOf call).isSome = true := by
    intro call member
    have inside : ruleOf call ∈ rules.map some := taken ▸ List.mem_map_of_mem member
    obtain ⟨rule, -, same⟩ := List.mem_map.mp inside
    rw [← same]
    rfl
  have mine := given known
  have theirs := given fun call member => known call (perm.mem_iff.mpr member)
  have keys : calls.map (fun call => normalPrefix call.1) =
      ((calls.filterMap ruleOf).map Rule.under).map some := by
    have projected := congrArg (List.map (Option.map Rule.under)) mine
    rw [List.map_map, List.map_map] at projected
    rw [List.map_map]
    refine Eq.trans (List.map_congr_left fun call _ => ?_) projected
    show _ = Option.map Rule.under (ruleOf call)
    unfold ruleOf
    cases normalPrefix call.1 <;> rfl
  refine ⟨⟨_, routes_ok.mpr ⟨_, theirs, rfl⟩⟩, ?_⟩
  funext under
  rw [← last_lastLimit mine, ← last_lastLimit theirs,
    Ranked.last_perm (perm.filterMap ruleOf) (List.Nodup.of_map some (keys ▸ once))]

end Limit

/-- The limit of a target is the one given last for the longest prefix that covers the normal form
of its path, whatever the spelling of the path and the order of the prefixes. -/
theorem limit_longest {default : Nat} {calls : List (Bytes × Nat)} {table : BodyLimits}
    (done : (BodyLimits.new default).routes calls = .ok table) (target : Bytes) :
    (match normalizePath (splitQuery target).1 with
      | .ok path => Allows default calls path (table.limit target)
      | .error _ => IsLeast {limit | limit = default ∨ ∃ under, lastLimit calls under = some limit}
          (table.limit target)) ∧
      (∀ other normal, normalizePath (splitQuery target).1 = .ok normal →
        normalizePath (splitQuery other).1 = .ok normal → table.limit other = table.limit target) ∧
      (∀ others table', (BodyLimits.new default).routes others = .ok table' →
        lastLimit calls = lastLimit others → table'.limit target = table.limit target) ∧
      ∀ others, calls.Perm others → (calls.map fun call => normalPrefix call.1).Nodup →
        ∃ table', (BodyLimits.new default).routes others = .ok table' ∧
          table'.limit target = table.limit target := by
  refine ⟨limit_routes done target, ?_, ?_, ?_⟩
  · intro other normal mine others
    unfold BodyLimits.limit
    rw [mine, others]
  · intro others table' done' same
    exact (limit_congr done done' same target).symm
  · intro others perm once
    obtain ⟨⟨table', done'⟩, same⟩ := routes_perm done perm once
    exact ⟨table', done', (limit_congr done done' same target).symm⟩

/-- An upload is held to the limit of its prefix, however it is spelled. -/
theorem limit_longest_upload :
    BodyLimits.limit ⟨5, [⟨ascii "/up", 9⟩, ⟨ascii "/", 7⟩]⟩ (ascii "/%75p/a?b") =
      BodyLimits.limit ⟨5, [⟨ascii "/up", 9⟩, ⟨ascii "/", 7⟩]⟩ (ascii "/up/./a") :=
  (limit_longest (by decide +kernel : (BodyLimits.new 5).routes
    [(ascii "/", 7), (ascii "/up/", 3), (ascii "/x/../up", 9)] =
      .ok ⟨5, [⟨ascii "/up", 9⟩, ⟨ascii "/", 7⟩]⟩) (ascii "/up/./a")).2.1 _ (ascii "/up/a")
    (by decide +kernel) (by decide +kernel)

end ZeroServer.Policy

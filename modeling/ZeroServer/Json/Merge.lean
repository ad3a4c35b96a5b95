/-
This file proves that repeated names merge the same way at every object size: scanning the members
and sorting them by name both keep each name where it comes first, with the value it has last.
-/

import Mathlib.Data.List.Nodup
import Mathlib.Data.List.Perm.Basic
import ZeroServer.Json.Value
import ZeroServer.Lib.Groups

namespace ZeroServer.Json

open Http1 Lib

/-! ### What merging is for -/

variable {members : List Member}

variable {name : List Char} {member : Member}

/-- The last member of a name. -/
def lastOf (members : List Member) (name : List Char) : Option Member :=
  members.reverse.find? fun member => member.1 = name

/-- Each distinct name once, in the order of first occurrence, with the value of its last one. -/
def merged (members : List Member) : List Member :=
  (members.map Prod.fst).eraseDups.filterMap (lastOf members)

/-- The members of a large object with every repeated name merged. -/
def mergeSorted (members : List Member) : List Member :=
  let groups := nameGroups members
  let dropped := (groups.filter fun group => (repeats group).isSome).flatMap List.tail
  let swapped := (groups.filterMap repeats).foldl swapValues members
  (swapped.zipIdx.filter fun entry => entry.2 ∉ dropped).map Prod.fst

theorem mergeRepeated_eq (members : List Member) :
    mergeRepeated members = if members.length ≤ scannedMembers then members.foldl mergeMember []
      else mergeSorted members := rfl

theorem lastOf_snoc (members : List Member) (member : Member) (name : List Char) :
    lastOf (members ++ [member]) name =
      if member.1 = name then some member else lastOf members name := by
  unfold lastOf
  rw [List.reverse_append, List.reverse_singleton, List.singleton_append, List.find?_cons]
  by_cases same : member.1 = name
  · rw [if_pos same, decide_eq_true same]
  · rw [if_neg same, decide_eq_false same]

theorem lastOf_name (found : lastOf members name = some member) : member.1 = name := by
  have same := List.find?_some (show members.reverse.find? _ = some member from found)
  exact of_decide_eq_true same

theorem lastOf_known (known : name ∈ members.map Prod.fst) :
    ∃ member, lastOf members name = some member := by
  obtain ⟨member, inside, rfl⟩ := List.mem_map.mp known
  refine Option.isSome_iff_exists.mp (List.find?_isSome.mpr ⟨member, ?_, decide_eq_true rfl⟩)
  exact List.mem_reverse.mpr inside

/-! ### Scanning -/

variable {names : List (List Char)}

theorem eraseDups_snoc (names : List (List Char)) (name : List Char) :
    (names ++ [name]).eraseDups =
      if name ∈ names then names.eraseDups else names.eraseDups ++ [name] := by
  rw [List.eraseDups_append]
  by_cases known : name ∈ names
  · rw [if_pos known]
    simp [List.removeAll, known]
  · rw [if_neg known]
    simp [List.removeAll, List.eraseDups_cons, known]

theorem nodup_eraseDups (names : List (List Char)) : names.eraseDups.Nodup := by
  induction names using List.reverseRecOn with
  | nil => exact List.nodup_nil
  | append_singleton names name inductionHypothesis =>
    rw [eraseDups_snoc]
    split
    · exact inductionHypothesis
    · rename_i fresh
      refine inductionHypothesis.append (List.nodup_singleton name) ?_
      rw [List.disjoint_singleton]
      exact fun known => fresh (List.mem_eraseDups.mp known)

theorem modify_middle {Item : Type} (before after : List Item) (item : Item)
    (change : Item → Item) :
    (before ++ item :: after).modify before.length change = before ++ change item :: after := by
  induction before with
  | nil => rfl
  | cons head before inductionHypothesis =>
    rw [List.cons_append, List.length_cons, List.modify_succ_cons, inductionHypothesis]
    rfl

/-- What is known of other names does not change. -/
theorem filterMap_lastOf_snoc (others : member.1 ∉ names) :
    names.filterMap (lastOf (members ++ [member])) = names.filterMap (lastOf members) := by
  refine List.filterMap_congr fun name among => ?_
  rw [lastOf_snoc, if_neg]
  rintro rfl
  exact others among

theorem findIdx?_others (others : name ∉ names) :
    (names.filterMap (lastOf members)).findIdx? (fun existing => existing.1 = name) = none := by
  refine List.findIdx?_eq_none_iff.mpr fun existing among => decide_eq_false ?_
  rintro rfl
  obtain ⟨other, inside, found⟩ := List.mem_filterMap.mp among
  exact others (lastOf_name found ▸ inside)

/-- One more member is merged as it is scanned. -/
theorem merged_snoc (members : List Member) (member : Member) :
    merged (members ++ [member]) = mergeMember (merged members) member := by
  unfold merged mergeMember
  rw [List.map_append, List.map_singleton, eraseDups_snoc]
  split
  · rename_i known
    have distinct := nodup_eraseDups (members.map Prod.fst)
    obtain ⟨before, after, parts⟩ := List.append_of_mem (List.mem_eraseDups.mpr known)
    obtain ⟨last, found⟩ := lastOf_known known
    rw [parts] at distinct ⊢
    have apart := List.nodup_middle.mp distinct
    obtain ⟨fresh, -⟩ := List.nodup_cons.mp apart
    have front : member.1 ∉ before := fun among => fresh (List.mem_append_left _ among)
    have back : member.1 ∉ after := fun among => fresh (List.mem_append_right _ among)
    have here : lastOf (members ++ [member]) member.1 = some member := by
      rw [lastOf_snoc, if_pos rfl]
    rw [List.filterMap_append, List.filterMap_append, List.filterMap_cons_some here,
      List.filterMap_cons_some found, filterMap_lastOf_snoc front, filterMap_lastOf_snoc back,
      List.findIdx?_append, findIdx?_others front, List.findIdx?_cons,
      if_pos (decide_eq_true (lastOf_name found))]
    dsimp only [Option.map_some, Option.none_or]
    rw [Nat.zero_add, modify_middle, lastOf_name found]
  · rename_i fresh
    have others : member.1 ∉ (members.map Prod.fst).eraseDups := fun among =>
      fresh (List.mem_eraseDups.mp among)
    have here : lastOf (members ++ [member]) member.1 = some member := by
      rw [lastOf_snoc, if_pos rfl]
    rw [findIdx?_others others, List.filterMap_append, filterMap_lastOf_snoc others,
      List.filterMap_cons_some here, List.filterMap_nil]

theorem merged_scanned (members : List Member) : members.foldl mergeMember [] = merged members := by
  induction members using List.reverseRecOn with
  | nil => rfl
  | append_singleton members member inductionHypothesis =>
    rw [List.foldl_append, inductionHypothesis, merged_snoc]
    rfl

/-! ### Sorting -/

/-- Whether no place before has the name of a place. -/
def isFirst (names : List (List Char)) (place : Nat) : Bool :=
  decide (∀ earlier < place, names[earlier]? ≠ names[place]?)

/-- The places where a name is for the first time, in order, spell the distinct names. -/
theorem filterMap_isFirst (names : List (List Char)) :
    ((List.range names.length).filter (isFirst names)).filterMap (names[·]?) = names.eraseDups := by
  induction names using List.reverseRecOn with
  | nil => rfl
  | append_singleton names name inductionHypothesis =>
    have front : ∀ place < names.length, (names ++ [name])[place]? = names[place]? :=
      fun place inside => List.getElem?_append_left inside
    have same : ∀ place ∈ List.range names.length,
        isFirst (names ++ [name]) place = isFirst names place := by
      intro place inside
      have within := List.mem_range.mp inside
      refine decide_eq_decide.mpr (forall₂_congr fun earlier below => ?_)
      rw [front place within, front earlier (Nat.lt_trans below within)]
    have old : ((List.range names.length).filter (isFirst (names ++ [name]))).filterMap
        ((names ++ [name])[·]?) = names.eraseDups := by
      rw [← inductionHypothesis, List.filter_congr same]
      refine List.filterMap_congr fun place among => front place ?_
      exact List.mem_range.mp (List.mem_filter.mp among).1
    have last : (names ++ [name])[names.length]? = some name := List.getElem?_concat_length
    rw [List.length_append, List.length_singleton, List.range_succ, List.filter_append,
      List.filterMap_append, old, eraseDups_snoc, List.filter_singleton]
    by_cases known : name ∈ names
    · have notFirst : isFirst (names ++ [name]) names.length = false := by
        obtain ⟨earlier, below, found⟩ := List.mem_iff_getElem.mp known
        refine decide_eq_false fun first => first earlier below ?_
        rw [front earlier below, last, List.getElem?_eq_getElem below, found]
      rw [if_pos known, notFirst]
      exact List.append_nil _
    · have first : isFirst (names ++ [name]) names.length = true := by
        refine decide_eq_true fun earlier below same => known ?_
        rw [front earlier below, last] at same
        exact List.mem_of_getElem? same
      rw [if_neg known, first]
      exact congrArg (names.eraseDups ++ ·) (List.filterMap_cons_some last)

/-- Filtering by place is picking the places. -/
theorem zipIdx_filter (members : List Member) (keep : Nat → Bool) :
    (members.zipIdx.filter fun entry => keep entry.2).map Prod.fst =
      ((List.range members.length).filter keep).filterMap (members[·]?) := by
  induction members using List.reverseRecOn with
  | nil => rfl
  | append_singleton members member inductionHypothesis =>
    have old : ((List.range members.length).filter keep).filterMap ((members ++ [member])[·]?) =
        ((List.range members.length).filter keep).filterMap (members[·]?) := by
      refine List.filterMap_congr fun place among => List.getElem?_append_left ?_
      exact List.mem_range.mp (List.mem_filter.mp among).1
    have last : (members ++ [member])[members.length]? = some member := List.getElem?_concat_length
    rw [List.zipIdx_append, List.filter_append, List.map_append, inductionHypothesis,
      List.length_append, List.length_singleton, List.range_succ, List.filter_append,
      List.filterMap_append, old]
    refine congrArg (_ ++ ·) ?_
    rw [List.zipIdx_singleton, List.filter_singleton, List.filter_singleton, Nat.zero_add]
    dsimp only
    cases keep members.length with
    | false => rfl
    | true =>
      have one : [members.length].filterMap ((members ++ [member])[·]?) = [member] :=
        List.filterMap_cons_some last
      exact one.symm

/-- The name of the member at a place. -/
def nameAt (members : List Member) (place : Nat) : Option (List Char) :=
  (members[place]?).map Prod.fst

/-- The order of the octets of names. -/
def Below (left right : Option (List Char)) : Prop :=
  (left.map Utf8.encode).getD [] < (right.map Utf8.encode).getD []

theorem nameOrder_iff (members : List Member) (left right : Nat) :
    nameOrder members left right = true ↔
      Below (nameAt members left) (nameAt members right) ∨
        ((nameAt members left).map Utf8.encode).getD [] =
          ((nameAt members right).map Utf8.encode).getD [] ∧ left ≤ right := by
  unfold nameOrder Below nameAt
  rw [decide_eq_true_iff, Option.map_map, Option.map_map]
  rfl

theorem below_trans {first second third : Option (List Char)} (front : Below first second)
    (back : Below second third) : Below first third := List.lt_trans front back

/-- The places by name: each name below those behind it, and each place below those of its name
behind it. -/
theorem sorted_places (members : List Member) :
    ((List.range members.length).mergeSort (nameOrder members)).Pairwise fun left right =>
      Below (nameAt members left) (nameAt members right) ∨
        nameAt members left = nameAt members right ∧ left ≤ right := by
  have sorted := @List.pairwise_mergeSort _ (nameOrder members)
    (fun first second third front back => ?_) (fun left right => ?_) (List.range members.length)
  · refine sorted.imp_of_mem fun {left right} leftAmong rightAmong ordered => ?_
    rcases (nameOrder_iff members left right).mp ordered with below | ⟨same, front⟩
    · exact .inl below
    · have known : ∀ {place : Nat},
          place ∈ (List.range members.length).mergeSort (nameOrder members) →
          ∃ name, nameAt members place = some name := by
        intro place among
        have inside := List.mem_range.mp (List.mem_mergeSort.mp among)
        exact ⟨_, by rw [nameAt, List.getElem?_eq_getElem inside, Option.map_some]⟩
      obtain ⟨first, isFirst⟩ := known leftAmong
      obtain ⟨second, isSecond⟩ := known rightAmong
      rw [isFirst, isSecond] at same
      refine .inr ⟨?_, front⟩
      rw [isFirst, isSecond, Utf8.encode_injective same]
  · rw [nameOrder_iff] at front back ⊢
    rcases front with below | ⟨same, before⟩
    · rcases back with later | ⟨equal, -⟩
      · exact .inl (below_trans below later)
      · refine .inl ?_
        unfold Below at below ⊢
        rwa [← equal]
    · rcases back with later | ⟨equal, after⟩
      · refine .inl ?_
        unfold Below at later ⊢
        rwa [same]
      · exact .inr ⟨same.trans equal, Nat.le_trans before after⟩
  · rw [Bool.or_eq_true, nameOrder_iff, nameOrder_iff]
    by_cases below : Below (nameAt members left) (nameAt members right)
    · exact .inl (.inl below)
    by_cases above : Below (nameAt members right) (nameAt members left)
    · exact .inr (.inl above)
    have same := List.le_antisymm (List.not_lt.mp above) (List.not_lt.mp below)
    rcases Nat.le_total left right with before | after
    · exact .inl (.inr ⟨same, before⟩)
    · exact .inr (.inr ⟨same.symm, after⟩)

/-! ### Groups of one name -/

variable {place : Nat} {group : List Nat}

theorem nameAt_eq (members : List Member) (place : Nat) :
    nameAt members place = (members.map Prod.fst)[place]? := List.getElem?_map.symm

theorem nameGroups_eq (members : List Member) : nameGroups members =
    groups (nameAt members) ((List.range members.length).mergeSort (nameOrder members)) := rfl

theorem mem_flatten_nameGroups : place ∈ (nameGroups members).flatten ↔ place < members.length := by
  rw [nameGroups_eq, flatten_groups, List.mem_mergeSort, List.mem_range]

theorem inside_of_group (among : group ∈ nameGroups members) (here : place ∈ group) :
    place < members.length :=
  mem_flatten_nameGroups.mp (List.mem_flatten.mpr ⟨group, among, here⟩)

theorem group_name (among : group ∈ nameGroups members) {left right : Nat} (first : left ∈ group)
    (second : right ∈ group) :
    nameAt members left = nameAt members right := name_of_mem_group among first second

/-- The places of a group rise. -/
theorem group_ascends (among : group ∈ nameGroups members) : group.Pairwise (· < ·) := by
  have within : group.Sublist ((List.range members.length).mergeSort (nameOrder members)) := by
    rw [← flatten_groups (nameAt members)
      ((List.range members.length).mergeSort (nameOrder members))]
    exact List.sublist_flatten_of_mem among
  have distinct : group.Nodup :=
    ((List.mergeSort_perm _ _).nodup_iff.mpr List.nodup_range).sublist within
  refine (((sorted_places members).sublist within).and distinct).imp_of_mem ?_
  rintro left right first second ⟨below | ⟨-, before⟩, differ⟩
  · rw [group_name among first second] at below
    exact absurd below (List.lt_irrefl _)
  · exact Nat.lt_of_le_of_ne before differ

theorem groups_differ (members : List Member) :
    (nameGroups members).Pairwise fun front back =>
      ∀ left ∈ front, ∀ right ∈ back, nameAt members left ≠ nameAt members right := by
  have sorted := (sorted_places members).imp fun {left right} ordered =>
    Or.imp_right And.left ordered
  refine (@groups_apart _ _ _ (nameAt members) Below @below_trans _ sorted).imp ?_
  intro front back apart left first right second same
  have below := apart left first right second
  rw [same] at below
  exact List.lt_irrefl _ below

/-- Groups that share a name are the same. -/
theorem group_unique {other : List Nat} (among : group ∈ nameGroups members)
    (besides : other ∈ nameGroups members) {left right : Nat} (first : left ∈ group)
    (second : right ∈ other) (same : nameAt members left = nameAt members right) :
    group = other := by
  have differ := groups_differ members
  by_contra apart
  generalize nameGroups members = all at among besides differ
  induction differ with
  | nil => cases among
  | cons front _ inductionHypothesis =>
    rcases List.mem_cons.mp among with rfl | later
    · rcases List.mem_cons.mp besides with rfl | behind
      · exact apart rfl
      · exact front other behind left first right second same
    · rcases List.mem_cons.mp besides with rfl | behind
      · exact front group later right second left first same.symm
      · exact inductionHypothesis later behind

/-- A group holds every place of its name. -/
theorem same_group (among : group ∈ nameGroups members) {other : Nat} (here : place ∈ group)
    (inside : other < members.length) (same : nameAt members place = nameAt members other) :
    other ∈ group := by
  obtain ⟨besides, isGroup, there⟩ := List.mem_flatten.mp (mem_flatten_nameGroups.mpr inside)
  rwa [group_unique among isGroup here there same]

/-- The first place of a group, the places behind it and the last one. -/
theorem group_parts (among : group ∈ nameGroups members) (here : place ∈ group) :
    ∃ first later, group = first :: later ∧ (∀ other ∈ later, first < other) ∧
      isFirst (members.map Prod.fst) first = true ∧
      ∀ other ∈ later, isFirst (members.map Prod.fst) other = false := by
  have ascends := group_ascends among
  cases group with
  | nil => cases here
  | cons first later =>
    obtain ⟨front, -⟩ := List.pairwise_cons.mp ascends
    refine ⟨first, later, rfl, front, ?_, fun other behind => ?_⟩
    · refine decide_eq_true fun earlier below same => ?_
      rw [← nameAt_eq, ← nameAt_eq] at same
      have inside := Nat.lt_trans below (inside_of_group among List.mem_cons_self)
      rcases List.mem_cons.mp (same_group among List.mem_cons_self inside same.symm) with
        rfl | behind
      · exact Nat.lt_irrefl _ below
      · exact Nat.lt_asymm below (front earlier behind)
    · refine decide_eq_false fun isFirst => isFirst first (front other behind) ?_
      rw [← nameAt_eq, ← nameAt_eq]
      exact group_name among List.mem_cons_self (List.mem_cons_of_mem first behind)

/-- The places dropped are those that are not the first of their name. -/
theorem mem_dropped (inside : place < members.length) :
    place ∈ ((nameGroups members).filter fun group => (repeats group).isSome).flatMap List.tail ↔
      isFirst (members.map Prod.fst) place = false := by
  rw [List.mem_flatMap]
  constructor
  · rintro ⟨group, among, behind⟩
    have isGroup := (List.mem_filter.mp among).1
    obtain ⟨first, later, rfl, -, -, notFirst⟩ :=
      group_parts isGroup (List.mem_of_mem_tail behind)
    exact notFirst place behind
  · intro notFirst
    obtain ⟨group, isGroup, here⟩ := List.mem_flatten.mp (mem_flatten_nameGroups.mpr inside)
    obtain ⟨first, later, rfl, front, isFirst, -⟩ := group_parts isGroup here
    rcases List.mem_cons.mp here with rfl | behind
    · rw [isFirst] at notFirst
      cases notFirst
    · refine ⟨first :: later, List.mem_filter.mpr ⟨isGroup, ?_⟩, behind⟩
      have some_ : later ≠ [] := List.ne_nil_of_mem behind
      have last : (first :: later).getLast? = some (later.getLast some_) := by
        rw [List.getLast?_eq_some_getLast (List.cons_ne_nil _ _), List.getLast_cons some_]
      have differ : first ≠ later.getLast some_ :=
        Nat.ne_of_lt (front _ (List.getLast_mem some_))
      unfold repeats
      rw [last, List.head?_cons]
      dsimp only
      rw [if_neg differ]
      rfl

/-! ### Values in their places -/

variable {places : Nat × Nat} {pairs : List (Nat × Nat)}

theorem length_swapValues (members : List Member) (places : Nat × Nat) :
    (swapValues members places).length = members.length := by
  unfold swapValues
  split
  · split
    · rw [List.length_set, List.length_set]
    · rfl
  · rfl

/-- Places that are not swapped keep their members. -/
theorem swapValues_others (members : List Member) (notFirst : place ≠ places.1)
    (notLast : place ≠ places.2) : (swapValues members places)[place]? = members[place]? := by
  unfold swapValues
  split
  · split
    · rw [List.getElem?_set_ne notLast.symm, List.getElem?_set_ne notFirst.symm]
    · rfl
  · rfl

theorem swapValues_first {first last : Nat} {kept latest : Member} (before : first < last)
    (here : members[first]? = some kept) (there : members[last]? = some latest) :
    (swapValues members (first, last))[first]? = some (kept.1, latest.2) := by
  unfold swapValues
  dsimp only
  rw [here, there]
  dsimp only
  obtain ⟨inside, -⟩ := List.getElem?_eq_some_iff.mp here
  rw [if_pos before, List.getElem?_set_ne (Nat.ne_of_gt before), List.getElem?_set_self inside]

theorem swapped_others (apart : ∀ places ∈ pairs, place ≠ places.1 ∧ place ≠ places.2)
    (members : List Member) : (pairs.foldl swapValues members)[place]? = members[place]? := by
  induction pairs generalizing members with
  | nil => rfl
  | cons places rest inductionHypothesis =>
    obtain ⟨⟨notFirst, notLast⟩, later⟩ := List.forall_mem_cons.mp apart
    rw [List.foldl_cons, inductionHypothesis later, swapValues_others members notFirst notLast]

theorem length_swapped (pairs : List (Nat × Nat)) (members : List Member) :
    (pairs.foldl swapValues members).length = members.length := by
  induction pairs generalizing members with
  | nil => rfl
  | cons places rest inductionHypothesis =>
    rw [List.foldl_cons, inductionHypothesis, length_swapValues]

/-- Pairs without a place in common swap alone: the first place of each takes the value of its
last. -/
theorem swapped_first (apart : pairs.Pairwise fun one other =>
      (one.1 ≠ other.1 ∧ one.1 ≠ other.2) ∧ one.2 ≠ other.1 ∧ one.2 ≠ other.2) {first last : Nat}
    (among : (first, last) ∈ pairs) (before : first < last) {kept latest : Member}
    (here : members[first]? = some kept) (there : members[last]? = some latest) :
    (pairs.foldl swapValues members)[first]? = some (kept.1, latest.2) := by
  induction apart generalizing members with
  | nil => cases among
  | @cons places rest front _ inductionHypothesis =>
    rw [List.foldl_cons]
    rcases List.mem_cons.mp among with rfl | later
    · rw [swapped_others fun other behind => (front other behind).1]
      exact swapValues_first before here there
    · obtain ⟨⟨firstFirst, firstLast⟩, lastFirst, lastLast⟩ := front (first, last) later
      refine inductionHypothesis later ?_ ?_
      · rwa [swapValues_others members firstFirst.symm lastFirst.symm]
      · rwa [swapValues_others members firstLast.symm lastLast.symm]

theorem repeats_some {first last : Nat} (found : repeats group = some (first, last)) :
    group.head? = some first ∧ group.getLast? = some last ∧ first ≠ last := by
  unfold repeats at found
  split at found
  · rename_i front back isFront isBack
    split at found
    · cases found
    · rename_i differ
      cases found
      exact ⟨isFront, isBack, differ⟩
  · cases found

theorem repeats_mem (found : repeats group = some places) :
    places.1 ∈ group ∧ places.2 ∈ group := by
  obtain ⟨isFirst, isLast, -⟩ := repeats_some found
  exact ⟨List.mem_of_mem_head? isFirst, List.mem_of_getLast? isLast⟩

/-- No place is in two swaps. -/
theorem swaps_apart (members : List Member) :
    ((nameGroups members).filterMap repeats).Pairwise fun one other =>
      (one.1 ≠ other.1 ∧ one.1 ≠ other.2) ∧ one.2 ≠ other.1 ∧ one.2 ≠ other.2 := by
  refine List.pairwise_filterMap.mpr ((groups_differ members).imp ?_)
  intro front back differ one isOne other isOther
  obtain ⟨oneFirst, oneLast⟩ := repeats_mem isOne
  obtain ⟨otherFirst, otherLast⟩ := repeats_mem isOther
  have apart : ∀ left ∈ front, ∀ right ∈ back, left ≠ right := by
    rintro left first right second rfl
    exact differ left first left second rfl
  exact ⟨⟨apart _ oneFirst _ otherFirst, apart _ oneFirst _ otherLast⟩,
    apart _ oneLast _ otherFirst, apart _ oneLast _ otherLast⟩

theorem lastOf_place (here : members[place]? = some member)
    (last : ∀ later, place < later → nameAt members later ≠ some member.1) :
    lastOf members member.1 = some member := by
  obtain ⟨inside, rfl⟩ := List.getElem?_eq_some_iff.mp here
  have parts : members = members.take place ++ members[place] :: members.drop (place + 1) := by
    rw [← List.drop_eq_getElem_cons inside, List.take_append_drop]
  have behind : (members.drop (place + 1)).reverse.find?
      (fun member => member.1 = members[place].1) = none := by
    refine List.find?_eq_none.mpr fun other among same => ?_
    obtain ⟨offset, found⟩ := List.mem_iff_getElem?.mp (List.mem_reverse.mp among)
    rw [List.getElem?_drop] at found
    refine last (place + 1 + offset) (Nat.lt_of_lt_of_le (Nat.lt_succ_self place)
      (Nat.le_add_right _ _)) ?_
    rw [nameAt, found]
    exact congrArg some (of_decide_eq_true same)
  generalize members[place] = member at parts behind
  unfold lastOf
  rw [parts, List.reverse_append, List.reverse_cons, List.append_assoc, List.find?_append, behind,
    Option.none_or, List.singleton_append, List.find?_cons, decide_eq_true rfl]

/-- After the swaps, the first place of a name has its last member. -/
theorem swapped_lastOf (inside : place < members.length)
    (first : isFirst (members.map Prod.fst) place = true) :
    (((nameGroups members).filterMap repeats).foldl swapValues members)[place]? =
      (nameAt members place).bind (lastOf members) := by
  obtain ⟨group, isGroup, here⟩ := List.mem_flatten.mp (mem_flatten_nameGroups.mpr inside)
  obtain ⟨head, later, rfl, front, -, notFirst⟩ := group_parts isGroup here
  rcases List.mem_cons.mp here with rfl | behind
  · have isHere : members[place]? = some members[place] := List.getElem?_eq_getElem inside
    have named : nameAt members place = some members[place].1 := by
      rw [nameAt, isHere, Option.map_some]
    rw [named, Option.bind_some]
    cases later with
    | nil =>
      have alone : ∀ places ∈ (nameGroups members).filterMap repeats,
          place ≠ places.1 ∧ place ≠ places.2 := by
        intro places among
        obtain ⟨other, isOther, found⟩ := List.mem_filterMap.mp among
        obtain ⟨firstThere, lastThere⟩ := repeats_mem found
        have differ : place ∉ other := by
          intro member
          have single : repeats [place] = none := if_pos rfl
          rw [← group_unique isGroup isOther here member rfl, single] at found
          cases found
        constructor
        · rintro rfl
          exact differ firstThere
        · rintro rfl
          exact differ lastThere
      rw [swapped_others alone, isHere, lastOf_place isHere]
      intro other behind same
      have within : other < members.length := by
        obtain ⟨member, found, -⟩ := Option.map_eq_some_iff.mp same
        exact (List.getElem?_eq_some_iff.mp found).1
      have among := same_group isGroup here within (named.trans same.symm)
      rw [List.mem_singleton.mp among] at behind
      exact Nat.lt_irrefl _ behind
    | cons next rest =>
      have some_ : next :: rest ≠ [] := List.cons_ne_nil _ _
      have isLast : (place :: next :: rest).getLast? = some ((next :: rest).getLast some_) := by
        rw [List.getLast?_eq_some_getLast (List.cons_ne_nil _ _), List.getLast_cons some_]
      have lastAmong := List.getLast_mem some_
      generalize (next :: rest).getLast some_ = last at isLast lastAmong
      have before := front last lastAmong
      have found : repeats (place :: next :: rest) = some (place, last) := by
        unfold repeats
        rw [isLast, List.head?_cons]
        dsimp only
        rw [if_neg (Nat.ne_of_lt before)]
      have inGroup := List.mem_cons_of_mem place lastAmong
      have within := inside_of_group isGroup inGroup
      have isThere : members[last]? = some members[last] := List.getElem?_eq_getElem within
      have lastNamed : nameAt members last = some members[last].1 := by
        rw [nameAt, isThere, Option.map_some]
      have same : members[place].1 = members[last].1 := by
        have equal := group_name isGroup here inGroup
        rw [named, lastNamed] at equal
        exact Option.some_inj.mp equal
      rw [swapped_first (swaps_apart members) (List.mem_filterMap.mpr ⟨_, isGroup, found⟩) before
        isHere isThere, same, lastOf_place isThere]
      intro other behind equal
      have among : other ∈ place :: next :: rest := by
        have within : other < members.length := by
          obtain ⟨member, found, -⟩ := Option.map_eq_some_iff.mp equal
          exact (List.getElem?_eq_some_iff.mp found).1
        exact same_group isGroup inGroup within (lastNamed.trans equal.symm)
      have most : ∀ other ∈ place :: next :: rest, other ≤ last := by
        obtain ⟨front, parts⟩ := List.getLast?_eq_some_iff.mp isLast
        have ascends := group_ascends isGroup
        rw [parts] at ascends ⊢
        intro other among
        rcases List.mem_append.mp among with earlier | isLast
        · exact Nat.le_of_lt ((List.pairwise_append.mp ascends).2.2 other earlier last
            (List.mem_singleton_self last))
        · exact Nat.le_of_eq (List.mem_singleton.mp isLast)
      exact Nat.not_lt.mpr (most other among) behind
  · rw [notFirst place behind] at first
    cases first

/-- Sorting merges as scanning does. -/
theorem merged_sorted (members : List Member) : mergeSorted members = merged members := by
  unfold mergeSorted merged
  dsimp only
  rw [zipIdx_filter _ fun place => decide (place ∉ _), length_swapped, ← filterMap_isFirst,
    List.filterMap_filterMap, List.length_map]
  have kept : ∀ place ∈ List.range members.length,
      decide (place ∉ ((nameGroups members).filter fun group =>
        (repeats group).isSome).flatMap List.tail) = isFirst (members.map Prod.fst) place := by
    intro place among
    have dropped := mem_dropped (List.mem_range.mp among)
    cases first : isFirst (members.map Prod.fst) place with
    | false => exact decide_eq_false fun kept => kept (dropped.mpr first)
    | true =>
      refine decide_eq_true fun gone => ?_
      rw [dropped.mp gone] at first
      cases first
  rw [List.filter_congr kept]
  refine List.filterMap_congr fun place among => ?_
  obtain ⟨within, first⟩ := List.mem_filter.mp among
  rw [swapped_lastOf (List.mem_range.mp within) first, nameAt_eq]

theorem mergeRepeated_merged (members : List Member) : mergeRepeated members = merged members := by
  rw [mergeRepeated_eq]
  split
  · exact merged_scanned members
  · exact merged_sorted members

/-- Repeated names merge alike at every size of an object: scanning its members and sorting them
by name both keep each distinct name once, in the order of first occurrence, with the value of its
last one. -/
theorem repeats_merge_alike (members : List Member) :
    mergeRepeated members = merged members ∧ members.foldl mergeMember [] = merged members ∧
      mergeSorted members = merged members :=
  ⟨mergeRepeated_merged members, merged_scanned members, merged_sorted members⟩

/-! ### Distinct names -/

theorem merged_distinct (distinct : (members.map Prod.fst).Nodup) : merged members = members := by
  induction members using List.reverseRecOn with
  | nil => rfl
  | append_singleton members member inductionHypothesis =>
    rw [List.map_append, List.map_singleton] at distinct
    have fresh : member.1 ∉ members.map Prod.fst := fun known =>
      List.disjoint_of_nodup_append distinct known (List.mem_singleton_self _)
    have unknown : members.findIdx? (fun existing => existing.1 = member.1) = none := by
      refine List.findIdx?_eq_none_iff.mpr fun existing known => decide_eq_false fun same => ?_
      exact fresh (same ▸ List.mem_map_of_mem known)
    rw [merged_snoc, inductionHypothesis (List.nodup_append.mp distinct).1, mergeMember, unknown]

/-- Distinct names are not merged. -/
theorem mergeRepeated_distinct (distinct : (members.map Prod.fst).Nodup) :
    mergeRepeated members = members :=
  (mergeRepeated_merged members).trans (merged_distinct distinct)

end ZeroServer.Json

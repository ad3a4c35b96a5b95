/-
This file models conditional requests: entity tags and their two comparisons, lists of them, and the
preconditions in the order they are evaluated. A list is split at its commas before its tags are
read, so a tag that holds a comma is never found in it.
-/

import ZeroServer.Date.Parse
import ZeroServer.Lib.Trim
import ZeroServer.Static.Range

namespace ZeroServer.Static

open Http1 Lib Date

/-! ### Entity tags -/

/-- An entity tag without its quotes, weak or strong. -/
structure EntityTag where
  weak : Bool
  opaqueTag : Bytes
  deriving DecidableEq

/-- A byte of an opaque tag. -/
def isEtagc (byte : UInt8) : Bool :=
  byte = 0x21 ∨ (0x23 ≤ byte ∧ byte ≤ 0x7E) ∨ 0x80 ≤ byte

namespace EntityTag

/-- The opaque tag between two quotes. -/
def parseQuoted (weak : Bool) (quoted : Bytes) : Option EntityTag :=
  match quoted with
  | [] => none
  | first :: rest =>
    if first = quote ∧ rest.getLast? = some quote ∧ rest.dropLast.all isEtagc = true then
      some ⟨weak, rest.dropLast⟩
    else none

/-- Parses one entity tag. -/
def parse (value : Bytes) : Option EntityTag :=
  if ascii "W/" <+: value then parseQuoted true (value.drop 2) else parseQuoted false value

def strongEq (first second : EntityTag) : Bool :=
  !first.weak && !second.weak && first.opaqueTag = second.opaqueTag

def weakEq (first second : EntityTag) : Bool := first.opaqueTag = second.opaqueTag

end EntityTag

/-- The members of a list of entity tags, those that are empty left out. -/
def tags (list : Bytes) : List (Option EntityTag) := (listElements list).map EntityTag.parse

/-! ### Preconditions -/

/-- The current validators of a representation. -/
structure Validators where
  etag : Option EntityTag
  lastModified : Option Nat
  deriving DecidableEq

/-- The precondition fields of a request. -/
structure Preconditions where
  ifMatch : Option Bytes
  ifNoneMatch : Option Bytes
  ifModifiedSince : Option Bytes
  ifUnmodifiedSince : Option Bytes
  ifRange : Option Bytes
  range : Option Bytes
  deriving DecidableEq

/-- What the preconditions decided. -/
inductive Outcome where
  | proceed (range : Option Bytes)
  | notModified
  | preconditionFailed
  deriving DecidableEq

def star : UInt8 := 42

/-- Whether a list matches the current entity tag. -/
def listMatches (list : Bytes) (current : Option EntityTag)
    (compare : EntityTag → EntityTag → Bool) : Bool :=
  if trimOws list = [star] then true
  else
    match current with
    | none => false
    | some current => (tags list).any fun member => member.any fun tag => compare tag current

/-- A value that is one date. -/
def oneDate (value : Bytes) (now : Nat) : Option Nat :=
  if value.contains comma ∧ 1 < (value.filter (· == comma)).length then none
  else parseHttpDate (trimOws value) now

/-- The condition of `If-Range`: the tag itself, or the date itself once its second has passed. -/
def ifRangeMatches (value : Bytes) (current : Validators) (now : Nat) : Bool :=
  if [quote] <+: value ∨ ascii "W/" <+: value then
    match EntityTag.parse value, current.etag with
    | some given, some etag => given.strongEq etag
    | _, _ => false
  else
    match parseHttpDate value now, current.lastModified with
    | some date, some modified => date = modified ∧ min (modified + 1) u64Max ≤ now
    | _, _ => false

/-- The last step: the range to apply. -/
def evaluateRange (method : Option Method) (request : Preconditions) (current : Validators)
    (now : Nat) : Outcome :=
  if method ≠ some .get then .proceed none
  else
    match request.range with
    | none => .proceed none
    | some range =>
      match request.ifRange with
      | none => .proceed (some range)
      | some ifRange =>
        .proceed (if ifRangeMatches (trimOws ifRange) current now then some range else none)

/-- The third and the fourth step: `If-None-Match`, or else `If-Modified-Since`. -/
def evaluateCached (method : Option Method) (request : Preconditions) (current : Validators)
    (now : Nat) : Outcome :=
  let getOrHead : Bool := method = some .get ∨ method = some .head
  match request.ifNoneMatch with
  | some list =>
    if listMatches list current.etag EntityTag.weakEq then
      if getOrHead then .notModified else .preconditionFailed
    else evaluateRange method request current now
  | none =>
    match if getOrHead then request.ifModifiedSince else none with
    | none => evaluateRange method request current now
    | some value =>
      match oneDate value now, current.lastModified with
      | some date, some modified =>
        if modified ≤ date then .notModified else evaluateRange method request current now
      | _, _ => evaluateRange method request current now

/-- Evaluate the preconditions in their order. -/
def evaluate (method : Option Method) (request : Preconditions) (current : Validators)
    (now : Nat) : Outcome :=
  match request.ifMatch with
  | some list =>
    if listMatches list current.etag EntityTag.strongEq then
      evaluateCached method request current now
    else .preconditionFailed
  | none =>
    match request.ifUnmodifiedSince with
    | none => evaluateCached method request current now
    | some value =>
      match oneDate value now, current.lastModified with
      | some date, some modified =>
        if date < modified then .preconditionFailed
        else evaluateCached method request current now
      | _, _ => evaluateCached method request current now

/-! ### Lists of entity tags -/

/-- An entity tag of the grammar. -/
def EntityTag.Valid (tag : EntityTag) : Prop := tag.opaqueTag.all isEtagc = true

/-- An entity tag as it is written. -/
def EntityTag.text (tag : EntityTag) : Bytes :=
  (if tag.weak then ascii "W/" else []) ++ [quote] ++ tag.opaqueTag ++ [quote]

/-- A place of a list: padding and, if the place is not empty, a tag. -/
structure ListPlace where
  before : Bytes
  tag : Option EntityTag
  after : Bytes
  blank : ∀ byte ∈ before ++ after, isOws byte = true
  valid : ∀ held ∈ tag, held.Valid

def ListPlace.text (place : ListPlace) : Bytes :=
  place.before ++ (place.tag.map EntityTag.text).getD [] ++ place.after

/-- A list of places as it is written, with commas between them. -/
def listText : List ListPlace → Bytes
  | [] => []
  | [place] => place.text
  | place :: next :: rest => place.text ++ comma :: listText (next :: rest)

/-- A list of entity tags, or any. -/
inductive TagSet where
  | any
  | list (tags : List EntityTag)
  deriving DecidableEq

/-- A value of the grammar and what it stands for. -/
inductive IsTagSet : Bytes → TagSet → Prop
  | any {value : Bytes} (star_ : trimOws value = [star]) : IsTagSet value .any
  | list (places : List ListPlace) : IsTagSet (listText places) (.list (places.filterMap (·.tag)))

/-- Whether a tag set has the current tag under a comparison. -/
def TagSet.has (compare : EntityTag → EntityTag → Bool) (current : Option EntityTag) :
    TagSet → Bool
  | .any => true
  | .list tags => tags.any fun tag => current.any fun current => compare tag current

/-- No tag that holds a comma is the current one. -/
def TagSet.Splits (compare : EntityTag → EntityTag → Bool) (current : Option EntityTag) :
    TagSet → Prop
  | .any => True
  | .list tags => ∀ tag ∈ tags, ∀ held ∈ current, compare tag held = true → comma ∉ tag.opaqueTag

/-! ### Tags between commas -/

variable {bytes : Bytes}

variable {tag : EntityTag}

theorem isEtagc_marks : isEtagc quote = false ∧ isOws quote = false ∧ isOws 87 = false ∧
    isOws comma = false ∧ isOws star = false := by decide

theorem EntityTag.text_eq (tag : EntityTag) :
    tag.text = (if tag.weak then ascii "W/" else []) ++ (quote :: (tag.opaqueTag ++ [quote])) := by
  unfold EntityTag.text
  simp only [List.append_assoc, List.cons_append, List.nil_append]

theorem EntityTag.parse_text (valid : tag.Valid) : EntityTag.parse tag.text = some tag := by
  have quoted : ∀ weak, parseQuoted weak (quote :: (tag.opaqueTag ++ [quote])) =
      some ⟨weak, tag.opaqueTag⟩ := by
    intro weak
    unfold parseQuoted
    dsimp only
    rw [List.getLast?_concat, List.dropLast_concat, if_pos ⟨rfl, rfl, valid⟩]
  rw [EntityTag.text_eq]
  obtain ⟨weak, opaqueTag⟩ := tag
  unfold EntityTag.parse
  cases weak with
  | true =>
    rw [if_pos rfl, if_pos (List.prefix_append _ _)]
    exact quoted true
  | false =>
    have strong : ¬ ascii "W/" <+: quote :: (opaqueTag ++ [quote]) := fun begins =>
      absurd (List.cons_prefix_cons.mp begins).1 (by decide)
    rw [if_neg Bool.false_ne_true, List.nil_append, if_neg strong]
    exact quoted false

/-- What is read as a tag holds two quotes. -/
theorem EntityTag.count_of_parse {piece : Bytes} (known : EntityTag.parse piece = some tag) :
    2 ≤ piece.count quote := by
  have quoted : ∀ {weak piece}, parseQuoted weak piece = some tag → 2 ≤ piece.count quote := by
    intro weak piece known
    unfold parseQuoted at known
    split at known
    · cases known
    split at known
    · rename_i first rest shape
      obtain ⟨rfl, last, -⟩ := shape
      rw [List.count_cons_self]
      exact Nat.succ_le_succ (List.count_pos_iff.mpr (List.mem_of_getLast? last))
    · cases known
  unfold EntityTag.parse at known
  split at known
  · exact (quoted known).trans (List.Sublist.count_le _ (List.drop_sublist _ _))
  · exact quoted known

/-- The tags that are read in a text. -/
def readTags (text : Bytes) : List EntityTag := (tags text).filterMap id

theorem listElements_comma (value : Bytes) : listElements value =
    ((value.splitOn comma).map trimOws).filter fun element => !element.isEmpty := rfl

theorem readTags_append (front behind : Bytes) :
    readTags (front ++ comma :: behind) = readTags front ++ readTags behind := by
  unfold readTags tags
  rw [listElements_comma, listElements_comma, listElements_comma, List.splitOn_append_cons_self, List.map_append, List.filter_append, List.map_append,
    List.filterMap_append]

/-- With one quote alone nothing is read. -/
theorem readTags_single {text : Bytes} (few : text.count quote ≤ 1) : readTags text = [] := by
  unfold readTags tags
  refine List.filterMap_eq_nil_iff.mpr fun member held => ?_
  obtain ⟨piece, inside, rfl⟩ := List.mem_map.mp held
  obtain ⟨whole, split_, rfl⟩ := List.mem_map.mp (List.mem_of_mem_filter inside)
  cases known : EntityTag.parse (trimOws whole) with
  | none => rfl
  | some tag =>
    have many := EntityTag.count_of_parse known
    have part := ((trimBoth_sublist isOws whole).trans (mem_splitOn_sublist split_)).count_le quote
    exact absurd (many.trans (part.trans few)) (by decide)

/-- A text without a comma is one member. -/
theorem readTags_plain {text : Bytes} (plain : comma ∉ text) :
    readTags text = if trimOws text = [] then [] else (EntityTag.parse (trimOws text)).toList := by
  unfold readTags tags
  rw [listElements_comma, List.splitOn_eq_singleton plain]
  by_cases empty : trimOws text = []
  · rw [if_pos empty, List.map_singleton, empty]
    rfl
  · have filled : (!(trimOws text).isEmpty) = true := by
      rw [Bool.not_eq_true', List.isEmpty_eq_false_iff]
      exact empty
    rw [if_neg empty, List.map_singleton, List.filter_cons, if_pos filled, List.filter_nil,
      List.map_singleton, List.filterMap_cons]
    cases EntityTag.parse (trimOws text) <;> rfl

theorem EntityTag.text_edges (tag : EntityTag) : tag.text ≠ [] ∧
    (∀ byte ∈ tag.text.head?, isOws byte = false) ∧
    ∀ byte ∈ tag.text.getLast?, isOws byte = false := by
  obtain ⟨weak, opaqueTag⟩ := tag
  refine ⟨List.append_ne_nil_of_right_ne_nil _ (List.cons_ne_nil _ _), fun byte held => ?_,
    fun byte held => ?_⟩
  · rw [EntityTag.text_eq] at held
    cases weak with
    | true =>
      cases held
      decide
    | false =>
      cases held
      decide
  · unfold EntityTag.text at held
    rw [List.getLast?_concat] at held
    cases held
    decide

theorem comma_notMem_blank (blank : ∀ byte ∈ bytes, isOws byte = true) :
    comma ∉ bytes := fun member => Bool.false_ne_true (blank comma member)

theorem count_blank (blank : ∀ byte ∈ bytes, isOws byte = true) : bytes.count quote = 0 :=
  List.count_eq_zero.mpr fun member => Bool.false_ne_true (blank quote member)

theorem count_valid (valid : bytes.all isEtagc = true) : bytes.count quote = 0 :=
  List.count_eq_zero.mpr fun member =>
    Bool.false_ne_true (isEtagc_marks.1 ▸ List.all_eq_true.mp valid quote member)

/-- Of a place the tag is read, unless a comma is in it. -/
theorem readTags_place (place : ListPlace) :
    readTags place.text = place.tag.toList.filter fun tag => comma ∉ tag.opaqueTag := by
  obtain ⟨before, tag, after, blank, valid⟩ := place
  have blankBefore : ∀ byte ∈ before, isOws byte = true := fun byte member =>
    blank byte (List.mem_append_left _ member)
  have blankAfter : ∀ byte ∈ after, isOws byte = true := fun byte member =>
    blank byte (List.mem_append_right _ member)
  unfold ListPlace.text
  cases tag with
  | none =>
    show readTags (before ++ [] ++ after) = []
    rw [List.append_nil]
    refine readTags_single ?_
    rw [count_blank blank]
    exact Nat.zero_le 1
  | some tag =>
    have tagValid := valid tag rfl
    show readTags (before ++ tag.text ++ after) = _
    by_cases held : comma ∈ tag.opaqueTag
    · obtain ⟨front, rest, split_⟩ := List.append_of_mem held
      obtain ⟨weak, opaqueTag⟩ := tag
      obtain rfl : opaqueTag = front ++ comma :: rest := split_
      have parts : front.all isEtagc = true ∧ rest.all isEtagc = true := by
        unfold EntityTag.Valid at tagValid
        rw [List.all_append, List.all_cons, Bool.and_eq_true, Bool.and_eq_true] at tagValid
        exact ⟨tagValid.1, tagValid.2.2⟩
      have shape : before ++ EntityTag.text ⟨weak, front ++ comma :: rest⟩ ++ after =
          (before ++ ((if weak then ascii "W/" else []) ++ [quote] ++ front)) ++
            comma :: (rest ++ [quote] ++ after) := by
        unfold EntityTag.text
        simp only [List.append_assoc, List.cons_append]
      have lead : (if weak then ascii "W/" else []).count quote = 0 := by
        cases weak <;> decide
      have one : [quote].count quote = 1 := rfl
      rw [shape, readTags_append, readTags_single, readTags_single]
      · show ([] : List EntityTag) = List.filter _ [_]
        rw [List.filter_singleton]
        simp
      · rw [List.count_append, List.count_append, count_valid parts.2, count_blank blankAfter, one]
      · rw [List.count_append, List.count_append, List.count_append, count_blank blankBefore, lead,
          count_valid parts.1, one]
    · obtain ⟨some_, first, last⟩ := tag.text_edges
      have whole : trimOws (before ++ tag.text ++ after) = tag.text :=
        trimBoth_padded blankBefore blankAfter some_ first last
      have plain : comma ∉ before ++ tag.text ++ after := by
        have lead : comma ∉ (if tag.weak then ascii "W/" else []) := by
          cases tag.weak <;> decide
        unfold EntityTag.text
        simp only [List.mem_append, not_or]
        exact ⟨⟨comma_notMem_blank blankBefore, ⟨⟨⟨lead, by decide⟩, held⟩, by decide⟩⟩,
          comma_notMem_blank blankAfter⟩
      rw [readTags_plain plain, whole, if_neg some_, EntityTag.parse_text tagValid]
      show [tag] = List.filter _ [tag]
      rw [List.filter_singleton, decide_eq_true held]
      rfl

/-- Of a list those tags are read that hold no comma. -/
theorem readTags_listText (places : List ListPlace) :
    readTags (listText places) =
      (places.filterMap (·.tag)).filter fun tag => comma ∉ tag.opaqueTag := by
  have cons : ∀ (place : ListPlace) (rest : List ListPlace),
      ((place :: rest).filterMap (·.tag)).filter (fun tag => comma ∉ tag.opaqueTag) =
        (place.tag.toList.filter fun tag => comma ∉ tag.opaqueTag) ++
          (rest.filterMap (·.tag)).filter fun tag => comma ∉ tag.opaqueTag := by
    intro place rest
    rw [List.filterMap_cons]
    cases place.tag with
    | none => rfl
    | some tag =>
      rw [← List.filter_append]
      rfl
  induction places with
  | nil => rfl
  | cons place rest inductionHypothesis =>
    rw [cons]
    cases rest with
    | nil => rw [listText, readTags_place, List.filterMap_nil, List.filter_nil, List.append_nil]
    | cons next rest =>
      rw [listText, readTags_append, readTags_place, inductionHypothesis]

/-! ### Lists are matched -/

variable {places : List ListPlace} {compare : EntityTag → EntityTag → Bool}

theorem mem_listText {byte : UInt8} (held : byte ∈ listText places) :
    byte = comma ∨ ∃ place ∈ places, byte ∈ place.text := by
  induction places with
  | nil => cases held
  | cons place rest inductionHypothesis =>
    cases rest with
    | nil => exact .inr ⟨place, List.mem_cons_self, held⟩
    | cons next rest =>
      rw [listText, List.mem_append, List.mem_cons] at held
      rcases held with here | same | later
      · exact .inr ⟨place, List.mem_cons_self, here⟩
      · exact .inl same
      · refine (inductionHypothesis later).imp id fun ⟨other, member, inside⟩ => ?_
        exact ⟨other, List.mem_cons_of_mem _ member, inside⟩

theorem text_listText {place : ListPlace} (member : place ∈ places) {byte : UInt8}
    (held : byte ∈ place.text) : byte ∈ listText places := by
  induction places with
  | nil => cases member
  | cons first rest inductionHypothesis =>
    cases rest with
    | nil =>
      rw [List.mem_singleton.mp member] at held
      exact held
    | cons next rest =>
      rw [listText, List.mem_append, List.mem_cons]
      rcases List.mem_cons.mp member with rfl | later
      · exact .inl held
      · exact .inr (.inr (inductionHypothesis later))

/-- A list of tags is not the star. -/
theorem listText_star (places : List ListPlace) : trimOws (listText places) ≠ [star] := by
  intro same
  obtain ⟨-, quoteDark, -, commaDark, starDark⟩ := isEtagc_marks
  have inside : star ∈ listText places :=
    (trimBoth_sublist isOws _).subset (same ▸ List.mem_cons_self : star ∈ trimOws _)
  rcases mem_listText inside with comma_ | ⟨place, member, held⟩
  · exact absurd comma_ (by decide)
  obtain ⟨before, tag, after, blank, valid⟩ := place
  cases tag with
  | none =>
    have padding : star ∈ before ++ after := by
      simpa only [ListPlace.text, Option.map_none, Option.getD_none, List.append_nil] using held
    rw [blank star padding] at starDark
    cases starDark
  | some tag =>
    have quoted : quote ∈ listText places := by
      refine text_listText member (List.mem_append_left _ (List.mem_append_right _ ?_))
      exact List.mem_append_right _ List.mem_cons_self
    have kept : quote ∈ trimOws (listText places) := mem_trimBoth quoted quoteDark
    rw [same] at kept
    exact absurd (List.mem_singleton.mp kept) (by decide)

theorem any_readTags (list : Bytes) (test : EntityTag → Bool) :
    ((tags list).any fun member => member.any test) = (readTags list).any test := by
  unfold readTags
  induction tags list with
  | nil => rfl
  | cons member rest inductionHypothesis =>
    rw [List.any_cons, inductionHypothesis, List.filterMap_cons]
    cases member with
    | none => rfl
    | some tag => rfl

/-- Tags that a comparison equates are the same characters. -/
def Sharp (compare : EntityTag → EntityTag → Bool) : Prop :=
  ∀ first second, compare first second = true → first.opaqueTag = second.opaqueTag

theorem sharp_strongEq : Sharp EntityTag.strongEq := fun first second same => by
  unfold EntityTag.strongEq at same
  rw [Bool.and_eq_true] at same
  exact of_decide_eq_true same.2

theorem sharp_weakEq : Sharp EntityTag.weakEq := fun _ _ same => of_decide_eq_true same

/-- A list is matched as the grammar reads it exactly if no tag of it that is the current one holds
a comma. -/
theorem listMatches_has {value : Bytes} {set : TagSet} {current : Option EntityTag}
    (sharp : Sharp compare) (isSet : IsTagSet value set) :
    listMatches value current compare = set.has compare current ↔ set.Splits compare current := by
  cases isSet with
  | any star_ =>
    unfold listMatches
    rw [if_pos star_]
    exact ⟨fun _ => trivial, fun _ => rfl⟩
  | list places =>
    unfold listMatches
    rw [if_neg (listText_star places)]
    cases current with
    | none =>
      refine ⟨fun _ tag _ held none_ => (nomatch none_), fun _ => ?_⟩
      show false = (places.filterMap (·.tag)).any fun _ => false
      rw [List.any_eq_false.mpr fun _ _ => Bool.false_ne_true]
    | some current =>
      dsimp only
      rw [any_readTags, readTags_listText]
      show ((places.filterMap (·.tag)).filter _).any (fun tag => compare tag current) =
        (places.filterMap (·.tag)).any (fun tag => compare tag current) ↔ _
      constructor
      · intro same tag member held isCurrent equal plain
        cases isCurrent
        have found : ((places.filterMap (·.tag)).filter fun tag => comma ∉ tag.opaqueTag).any
            (fun tag => compare tag current) = true := by
          rw [same]
          exact List.any_eq_true.mpr ⟨tag, member, equal⟩
        obtain ⟨other, kept, otherEqual⟩ := List.any_eq_true.mp found
        have fresh := of_decide_eq_true (List.mem_filter.mp kept).2
        rw [sharp _ _ otherEqual, ← sharp _ _ equal] at fresh
        exact fresh plain
      · intro splits
        rw [Bool.eq_iff_iff, List.any_eq_true, List.any_eq_true]
        constructor
        · rintro ⟨tag, kept, equal⟩
          exact ⟨tag, List.mem_of_mem_filter kept, equal⟩
        · rintro ⟨tag, member, equal⟩
          refine ⟨tag, List.mem_filter.mpr ⟨member, decide_eq_true ?_⟩, equal⟩
          exact splits tag member current rfl equal

/-! ### The steps -/

/-- Whether a date and the current one are known and stand in a relation. -/
def dated (value : Option Bytes) (current : Validators) (now : Nat) (test : Nat → Nat → Bool) :
    Bool :=
  value.any fun value => (oneDate value now).any fun date =>
    current.lastModified.any fun modified => test date modified

/-- The last step as it is prescribed. -/
def prescribedRange (method : Option Method) (request : Preconditions) (current : Validators)
    (now : Nat) : Outcome :=
  .proceed (if method = some .get then
    request.range.filter fun _ =>
      request.ifRange.all fun value => ifRangeMatches (trimOws value) current now
    else none)

/-- The third to the fifth step as they are prescribed. -/
def prescribedCached (method : Option Method) (request : Preconditions) (noneSet : Option TagSet)
    (current : Validators) (now : Nat) : Outcome :=
  let getOrHead : Bool := method = some .get ∨ method = some .head
  if noneSet.any fun set => set.has EntityTag.weakEq current.etag then
    if getOrHead then .notModified else .preconditionFailed
  else if noneSet.isNone ∧ getOrHead = true ∧
      dated request.ifModifiedSince current now fun date modified => modified ≤ date then
    .notModified
  else prescribedRange method request current now

/-- The steps as they are prescribed, over the lists as the grammar reads them. -/
def prescribed (method : Option Method) (request : Preconditions) (matchSet noneSet : Option TagSet)
    (current : Validators) (now : Nat) : Outcome :=
  if matchSet.any fun set => !set.has EntityTag.strongEq current.etag then .preconditionFailed
  else if matchSet.isNone ∧
      dated request.ifUnmodifiedSince current now fun date modified => date < modified then
    .preconditionFailed
  else prescribedCached method request noneSet current now

/-- How a list is matched, and how the grammar reads it. -/
def Reads (compare : EntityTag → EntityTag → Bool) (current : Option EntityTag)
    (list : Option Bytes) (set : Option TagSet) : Prop :=
  ∀ value ∈ list, ∀ read ∈ set, listMatches value current compare = read.has compare current

theorem reads_iff {current : Option EntityTag} {list : Option Bytes} {set : Option TagSet}
    (sharp : Sharp compare) (isSet : Option.Rel IsTagSet list set) :
    Reads compare current list set ↔ ∀ read ∈ set, read.Splits compare current := by
  cases isSet with
  | none => exact ⟨fun _ => nofun, fun _ => nofun⟩
  | some isSet =>
    unfold Reads
    simp only [Option.mem_some_iff, forall_eq', listMatches_has sharp isSet]

variable {method : Option Method} {request : Preconditions} {matchSet noneSet : Option TagSet}
  {current : Validators} {now : Nat}

theorem evaluateRange_prescribed :
    evaluateRange method request current now = prescribedRange method request current now := by
  unfold evaluateRange prescribedRange
  by_cases get : method = some .get
  · rw [if_neg (not_not.mpr get), if_pos get]
    cases request.range with
    | none => rfl
    | some range =>
      cases request.ifRange with
      | none => rfl
      | some value => rfl
  · rw [if_pos get, if_neg get]

/-- A step that a date decides. -/
theorem dated_step {value : Bytes} {R : Nat → Nat → Prop} [DecidableRel R] {yes no : Outcome} :
    (match oneDate value now, current.lastModified with
      | some date, some modified => if R date modified then yes else no
      | _, _ => no) =
      if dated (some value) current now fun date modified => R date modified then yes else no := by
  unfold dated
  rw [Option.any_some]
  cases oneDate value now with
  | none => rfl
  | some date =>
    cases current.lastModified with
    | none => rfl
    | some modified => simp only [Option.any_some, decide_eq_true_eq]

theorem evaluateCached_of_reads (isNone : Option.Rel IsTagSet request.ifNoneMatch noneSet)
    (reads : Reads EntityTag.weakEq current.etag request.ifNoneMatch noneSet) :
    evaluateCached method request current now =
      prescribedCached method request noneSet current now := by
  unfold evaluateCached prescribedCached
  rw [evaluateRange_prescribed]
  dsimp only
  revert isNone reads
  generalize decide (method = some .get ∨ method = some .head) = getOrHead
  intro isNone reads
  cases listed : request.ifNoneMatch with
  | none =>
    rw [listed] at isNone
    cases isNone
    dsimp only
    rw [Option.any_none, if_neg Bool.false_ne_true]
    cases getOrHead with
    | false => rfl
    | true =>
      rw [if_pos rfl]
      cases dates : request.ifModifiedSince with
      | none => rfl
      | some value =>
        simp only [Option.isNone_none, true_and]
        exact @dated_step _ _ value (fun date modified => modified ≤ date) _ _ _
  | some value =>
    rw [listed] at isNone reads
    cases isNone with
    | some isSet =>
      dsimp only
      rw [reads value rfl _ rfl, Option.any_some]
      simp only [Option.isNone_some, Bool.false_eq_true, false_and, if_false]

/-- With lists that are matched as the grammar reads them the steps are those prescribed. -/
theorem evaluate_of_reads (isMatch : Option.Rel IsTagSet request.ifMatch matchSet)
    (isNone : Option.Rel IsTagSet request.ifNoneMatch noneSet)
    (matched : Reads EntityTag.strongEq current.etag request.ifMatch matchSet)
    (unmatched : Reads EntityTag.weakEq current.etag request.ifNoneMatch noneSet) :
    evaluate method request current now =
      prescribed method request matchSet noneSet current now := by
  unfold evaluate prescribed
  rw [evaluateCached_of_reads isNone unmatched]
  cases listed : request.ifMatch with
  | none =>
    rw [listed] at isMatch
    cases isMatch
    dsimp only
    rw [Option.any_none, if_neg Bool.false_ne_true]
    cases dates : request.ifUnmodifiedSince with
    | none => rfl
    | some value =>
      simp only [Option.isNone_none, true_and]
      exact @dated_step _ _ value (fun date modified => date < modified) _ _ _
  | some value =>
    rw [listed] at isMatch matched
    cases isMatch with
    | @some _ set isSet =>
      dsimp only
      rw [matched value rfl _ rfl, Option.any_some]
      cases set.has EntityTag.strongEq current.etag <;> rfl

/-- Lists are matched, and the steps decided, as the grammar reads the lists, exactly if no tag of
them that is the current one holds a comma. -/
theorem evaluate_lists (method : Option Method) (request : Preconditions) (current : Validators)
    (now : Nat) (matchSet noneSet : Option TagSet)
    (isMatch : Option.Rel IsTagSet request.ifMatch matchSet)
    (isNone : Option.Rel IsTagSet request.ifNoneMatch noneSet) :
    (Reads EntityTag.strongEq current.etag request.ifMatch matchSet ∧
        Reads EntityTag.weakEq current.etag request.ifNoneMatch noneSet ∧
        evaluate method request current now =
          prescribed method request matchSet noneSet current now) ↔
      (∀ set ∈ matchSet, set.Splits EntityTag.strongEq current.etag) ∧
        ∀ set ∈ noneSet, set.Splits EntityTag.weakEq current.etag := by
  rw [← reads_iff sharp_strongEq isMatch, ← reads_iff sharp_weakEq isNone]
  exact ⟨fun all => ⟨all.1, all.2.1⟩,
    fun both => ⟨both.1, both.2, evaluate_of_reads isMatch isNone both.1 both.2⟩⟩

/-- A GET with an `If-None-Match` of one tag. -/
def ifNoneMatch (list : Bytes) : Preconditions := ⟨none, some list, none, none, none, none⟩

/-- One tag as a list. -/
def onePlace (opaqueTag : Bytes) (valid : opaqueTag.all isEtagc = true) : ListPlace where
  before := []
  tag := some ⟨false, opaqueTag⟩
  after := []
  blank := nofun
  valid := fun _ held => Option.mem_some_iff.mp held ▸ valid

theorem evaluate_lists_plain :
    evaluate (some .get) (ifNoneMatch (ascii "\"a\"")) ⟨some ⟨false, ascii "a"⟩, none⟩ 0 =
      prescribed (some .get) (ifNoneMatch (ascii "\"a\"")) none (some (.list [⟨false, ascii "a"⟩]))
        ⟨some ⟨false, ascii "a"⟩, none⟩ 0 := by
  have isNone : Option.Rel IsTagSet (some (ascii "\"a\"")) (some (.list [⟨false, ascii "a"⟩])) :=
    .some (.list [onePlace (ascii "a") (by decide)])
  refine ((evaluate_lists (some .get) (ifNoneMatch (ascii "\"a\""))
    ⟨some ⟨false, ascii "a"⟩, none⟩ 0 none (some (.list [⟨false, ascii "a"⟩])) .none isNone).mpr
      ⟨nofun, ?_⟩).2.2
  intro set held
  cases held
  intro tag member current isCurrent same
  rw [List.mem_singleton.mp member]
  decide

/-- A tag with a comma is the current one and is not found. -/
theorem comma_tag_missed :
    ¬ (Reads EntityTag.weakEq (some ⟨false, ascii "a,b"⟩) (some (ascii "\"a,b\""))
        (some (.list [⟨false, ascii "a,b"⟩])) ∧
      evaluate (some .get) (ifNoneMatch (ascii "\"a,b\"")) ⟨some ⟨false, ascii "a,b"⟩, none⟩ 0 =
        prescribed (some .get) (ifNoneMatch (ascii "\"a,b\"")) none
          (some (.list [⟨false, ascii "a,b"⟩])) ⟨some ⟨false, ascii "a,b"⟩, none⟩ 0) := by
  rintro ⟨-, same⟩
  revert same
  decide

end ZeroServer.Static

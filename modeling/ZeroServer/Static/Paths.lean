/-
This file models the standard library's paths as the operating system spells them: a name is pushed
behind a separator, and a path is read as its components. Names without separators come back as they
were pushed.
-/

import ZeroServer.Uri.Path

namespace ZeroServer.Static

open Http1 Uri

def backslash : UInt8 := 92

/-! ### Paths -/

section Paths

variable (windows : Bool)

def isSeparator (byte : UInt8) : Bool := byte = slash ∨ (windows = true ∧ byte = backslash)

/-- The separator a pushed name is put behind. -/
def mainSeparator : UInt8 := if windows then backslash else slash

/-- A name that replaces the path it is pushed on: it begins at a root or with a drive. -/
def isRooted (name : Bytes) : Bool :=
  name.head?.any (isSeparator windows) || (windows && name[1]? = some colon)

def push (path name : Bytes) : Bytes :=
  if isRooted windows name then name
  else if path.getLast?.all (isSeparator windows) then path ++ name
  else path ++ mainSeparator windows :: name

/-- What stands between two separators and is no component is nothing or stays where it is. -/
def isComponent (name : Bytes) : Bool := name ≠ [] ∧ name ≠ [dot]

/-- The names a path goes through. -/
def components (path : Bytes) : List Bytes :=
  (path.splitOnP (isSeparator windows)).filter isComponent

def fileName (path : Bytes) : Option Bytes :=
  (components windows path).getLast?.filter fun name => name ≠ [dot, dot]

/-- A path without its last name and the separators around it. -/
def parent (path : Bytes) : Bytes :=
  (((path.reverse.dropWhile (isSeparator windows)).dropWhile
    fun byte => !isSeparator windows byte).dropWhile (isSeparator windows)).reverse

def withFileName (path name : Bytes) : Bytes :=
  push windows (if (fileName windows path).isSome then parent windows path else path) name

/-- The path that pushing names one after another gives. -/
def joined (names : List Bytes) : Bytes := names.foldl (push windows) []

/-- Where names lead, a parent name leading back by one. -/
def lexical (names : List Bytes) : List Bytes :=
  names.foldl (fun place name => if name = [dot, dot] then place.dropLast else place ++ [name]) []

end Paths

/-! ### Plain names -/

variable {other : Bytes}

/-- A name that is one component wherever it is pushed. -/
structure Plain (windows : Bool) (name : Bytes) : Prop where
  some_ : name ≠ []
  here : name ≠ [dot]
  climbs : name ≠ [dot, dot]
  whole : ∀ byte ∈ name, isSeparator windows byte = false
  drive : windows = true → colon ∉ name

variable {windows : Bool} {name path : Bytes} {names : List Bytes}

theorem isSeparator_main (windows : Bool) : isSeparator windows (mainSeparator windows) = true := by
  cases windows <;> rfl

/-- Behind a path come the components of what is pushed on it. -/
theorem components_push (stays : isRooted windows other = false) :
    components windows (push windows path other) =
      components windows path ++ components windows other := by
  unfold push
  rw [stays, if_neg Bool.false_ne_true]
  unfold components
  rcases List.eq_nil_or_concat path with rfl | ⟨front, last, rfl⟩
  · rfl
  · rw [List.concat_eq_append, List.getLast?_concat, Option.all_some]
    by_cases ends : isSeparator windows last = true
    · have single : (front ++ [last]).splitOnP (isSeparator windows) =
          front.splitOnP (isSeparator windows) ++ [[]] :=
        List.splitOnP_append_cons front [] ends
      rw [if_pos ends, List.append_assoc, List.singleton_append,
        List.splitOnP_append_cons front other ends, single, List.filter_append, List.filter_append,
        List.append_assoc]
      rfl
    · rw [if_neg ends, List.splitOnP_append_cons _ other (isSeparator_main windows),
        List.filter_append]

namespace Plain

theorem not_rooted (plain : Plain windows name) : isRooted windows name = false := by
  unfold isRooted
  rw [Bool.or_eq_false_iff]
  constructor
  · cases first : name.head? with
    | none => rfl
    | some byte => exact plain.whole byte (List.mem_of_mem_head? first)
  · cases windows with
    | false => rfl
    | true =>
      refine decide_eq_false fun second => plain.drive rfl ?_
      exact List.mem_of_getElem? second

theorem split (plain : Plain windows name) : name.splitOnP (isSeparator windows) = [name] :=
  List.splitOnP_eq_singleton plain.whole

theorem components_name (plain : Plain windows name) : components windows name = [name] := by
  have passes : isComponent name = true := decide_eq_true ⟨plain.some_, plain.here⟩
  unfold components
  rw [plain.split, List.filter_singleton, passes, cond_true]

/-- A path that ends in a plain name ends in no separator. -/
theorem push_last (plain : Plain windows name) (path : Bytes) :
    (push windows path name).getLast?.all (isSeparator windows) = false := by
  have last : ∀ front : Bytes, (front ++ name).getLast?.all (isSeparator windows) = false := by
    intro front
    rw [List.getLast?_append_of_ne_nil _ plain.some_, List.getLast?_eq_some_getLast plain.some_,
      Option.all_some]
    exact plain.whole _ (List.getLast_mem plain.some_)
  unfold push
  rw [plain.not_rooted, if_neg Bool.false_ne_true]
  split
  · exact last path
  · have behind := last (path ++ [mainSeparator windows])
    rwa [List.append_assoc, List.singleton_append] at behind

end Plain

theorem joined_concat (names : List Bytes) (name : Bytes) :
    joined windows (names ++ [name]) = push windows (joined windows names) name :=
  List.foldl_concat ..

/-- Pushed names come back as the components. -/
theorem components_foldl (plain : ∀ name ∈ names, Plain windows name) (path : Bytes) :
    components windows (names.foldl (push windows) path) = components windows path ++ names := by
  induction names generalizing path with
  | nil => exact (List.append_nil _).symm
  | cons name names inductionHypothesis =>
    have first := plain name List.mem_cons_self
    rw [List.foldl_cons, inductionHypothesis fun name member =>
        plain name (List.mem_cons_of_mem _ member),
      components_push first.not_rooted, first.components_name, List.append_assoc]
    rfl

theorem components_joined (plain : ∀ name ∈ names, Plain windows name) :
    components windows (joined windows names) = names := components_foldl plain []

/-- A joined path is empty or ends in no separator. -/
theorem joined_ends (plain : ∀ name ∈ names, Plain windows name) :
    names = [] ∨ (joined windows names).getLast?.all (isSeparator windows) = false := by
  rcases List.eq_nil_or_concat names with none_ | ⟨front, last, rfl⟩
  · exact .inl none_
  · rw [List.concat_eq_append] at plain ⊢
    rw [joined_concat]
    exact .inr ((plain last (List.mem_append_right _ List.mem_cons_self)).push_last _)

/-- A joined path is relative. -/
theorem joined_not_rooted (plain : ∀ name ∈ names, Plain windows name) :
    isRooted windows (joined windows names) = false := by
  have relative : (joined windows names).head?.any (isSeparator windows) = false ∧
      (windows = true → colon ∉ joined windows names) := by
    induction names using List.reverseRecOn with
    | nil => exact ⟨rfl, fun _ => List.not_mem_nil⟩
    | append_singleton front last inductionHypothesis =>
      have lastPlain := plain last (List.mem_append_right _ List.mem_cons_self)
      obtain ⟨head, driveless⟩ := inductionHypothesis fun name member =>
        plain name (List.mem_append_left _ member)
      have lastHead : last.head?.any (isSeparator windows) = false :=
        (Bool.or_eq_false_iff.mp lastPlain.not_rooted).1
      rw [joined_concat]
      unfold push
      rw [lastPlain.not_rooted, if_neg Bool.false_ne_true]
      cases text : joined windows front with
      | nil => exact ⟨lastHead, lastPlain.drive⟩
      | cons byte rest =>
        rw [text] at head driveless
        split
        · exact ⟨head, fun onWindows member => (List.mem_append.mp member).elim
            (driveless onWindows) (lastPlain.drive onWindows)⟩
        · refine ⟨head, fun onWindows member => (List.mem_append.mp member).elim
            (driveless onWindows) fun behind => ?_⟩
          rcases List.mem_cons.mp behind with separator | inside
          · subst onWindows
            cases separator
          · exact lastPlain.drive onWindows inside
  unfold isRooted
  rw [relative.1, Bool.false_or, Bool.and_eq_false_iff]
  by_cases onWindows : windows = true
  · exact .inr (decide_eq_false fun second => relative.2 onWindows (List.mem_of_getElem? second))
  · exact .inl (Bool.eq_false_iff.mpr onWindows)

/-- The path in front of a plain name. -/
theorem parent_push (plain : Plain windows name) (front : ∀ name ∈ names, Plain windows name) :
    parent windows (push windows (joined windows names) name) = joined windows names := by
  have drop : ∀ rest : Bytes, ((name.reverse ++ rest).dropWhile (isSeparator windows)).dropWhile
      (fun byte => !isSeparator windows byte) =
        rest.dropWhile (fun byte => !isSeparator windows byte) := by
    intro rest
    have first : (name.reverse ++ rest).dropWhile (isSeparator windows) = name.reverse ++ rest := by
      rcases List.eq_nil_or_concat name with none_ | ⟨front, last, rfl⟩
      · exact absurd none_ plain.some_
      · rw [List.concat_eq_append, List.reverse_append, List.reverse_singleton,
          List.singleton_append, List.cons_append]
        have member : last ∈ front.concat last := by
          rw [List.concat_eq_append]
          exact List.mem_append_right _ List.mem_cons_self
        exact List.dropWhile_cons_of_neg (ne_true_of_eq_false (plain.whole last member))
    rw [first]
    refine List.dropWhile_append_of_pos fun byte member => ?_
    rw [plain.whole byte (List.mem_reverse.mp member)]
    rfl
  unfold parent push
  rw [plain.not_rooted, if_neg Bool.false_ne_true]
  rcases joined_ends front with rfl | ends
  · have only := drop []
    rw [List.append_nil] at only
    rw [joined, List.foldl_nil, List.getLast?_nil, Option.all_none, if_pos rfl, List.nil_append,
      only]
    rfl
  · rw [ends, if_neg Bool.false_ne_true, List.reverse_append, List.reverse_cons, List.append_assoc,
      drop, List.singleton_append,
      List.dropWhile_cons_of_neg (by rw [isSeparator_main]; exact Bool.false_ne_true),
      List.dropWhile_cons_of_pos (isSeparator_main windows)]
    rcases List.eq_nil_or_concat (joined windows names) with none_ | ⟨text, last, same⟩
    · rw [none_]
      rfl
    · rw [same, List.concat_eq_append] at ends ⊢
      rw [List.getLast?_concat, Option.all_some] at ends
      rw [List.reverse_append, List.reverse_singleton, List.singleton_append,
        List.dropWhile_cons_of_neg (by rw [ends]; exact Bool.false_ne_true), List.reverse_cons,
        List.reverse_reverse]

/-- Replacing the last name replaces the last component. -/
theorem withFileName_joined (plain : Plain windows name)
    (front : ∀ name ∈ names, Plain windows name) :
    withFileName windows (joined windows (names ++ [name])) other =
      joined windows (names ++ [other]) := by
  have all : ∀ other ∈ names ++ [name], Plain windows other := fun other member =>
    (List.mem_append.mp member).elim (front other) fun last => List.mem_singleton.mp last ▸ plain
  have named : (fileName windows (joined windows (names ++ [name]))).isSome = true := by
    unfold fileName
    rw [components_joined all, List.getLast?_concat, Option.filter_some,
      if_pos (decide_eq_true plain.climbs)]
    rfl
  unfold withFileName
  rw [if_pos named, joined_concat, joined_concat, parent_push plain front]

/-- Names that do not climb lead onwards from where a path leads. -/
theorem lexical_append (first : List Bytes) (onwards : ∀ name ∈ names, name ≠ [dot, dot]) :
    lexical (first ++ names) = lexical first ++ names := by
  unfold lexical
  rw [List.foldl_append]
  generalize first.foldl _ [] = place
  induction names generalizing place with
  | nil => exact (List.append_nil place).symm
  | cons name names inductionHypothesis =>
    rw [List.foldl_cons, if_neg (onwards name List.mem_cons_self),
      inductionHypothesis fun name member => onwards name (List.mem_cons_of_mem _ member),
      List.append_assoc]
    rfl

end ZeroServer.Static

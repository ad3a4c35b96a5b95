/-
This file models which file below its root a static route serves for a request path, and proves that
it stays inside: the path is normalized, split and decoded once, and every name passes the policy.
-/

import ZeroServer.Lib.Utf8
import ZeroServer.Static.Paths
import ZeroServer.Uri.Normal

namespace ZeroServer.Static

open Http1 Lib Uri

/-! ### Settings -/

/-- How a path with a segment that begins with `.` is answered. -/
inductive Dotfiles where
  | ignore
  | deny
  | allow
  deriving DecidableEq

/-- How a root is served, as far as it decides what is served. -/
structure Options where
  index : Option (List Char)
  dotfiles : Dotfiles
  extensions : List (List Char)
  deriving DecidableEq

/-- Why a path names no file under the root: its segments, or no index for a directory. -/
inductive Refusal where
  | policy
  | directory
  deriving DecidableEq

/-- Why a path is not served before anything is opened. -/
inductive Unserved where
  | refused (refusal : Refusal)
  | forbidden
  deriving DecidableEq

/-- A request path resolved under the root. -/
structure Located where
  relative : Bytes
  directory : Bool
  deriving DecidableEq

/-! ### The policy -/

def tilde : UInt8 := 126

def isAsciiControl (byte : UInt8) : Bool := byte ≤ 0x1F ∨ byte = 0x7F

section Policy

variable (windows : Bool) (options : Options)

/-- Whether one decoded segment may name a path component. -/
def segmentAllowed (segment : Bytes) : Bool :=
  if segment = [] ∨ segment = [dot] ∨ segment = [dot, dot] then false
  else if segment.any fun byte =>
      byte = slash ∨ byte = backslash ∨ byte = 0 ∨ isAsciiControl byte then false
  else if windows then
    if segment.contains colon then false
    else !(segment.zip segment.tail).any fun pair => pair.1 = tilde ∧ isAsciiDigit pair.2
  else true

/-- How a segment that begins with `.` is refused. -/
def dotfileRefusal (segment : Bytes) : Option Unserved :=
  if segment.head? = some dot then
    match options.dotfiles with
    | .allow => none
    | .ignore => some (.refused .policy)
    | .deny => some .forbidden
  else none

/-- The loop over the segments of a normalized path. -/
def resolveSegments : List Bytes → Located → Except Unserved Located
  | [], located => .ok located
  | segment :: rest, located =>
    match percentDecode segment 0 with
    | .error _ => .error (.refused .policy)
    | .ok decoded =>
      if decoded = [] then resolveSegments rest { located with directory := true }
      else if !segmentAllowed windows decoded then .error (.refused .policy)
      else
        match dotfileRefusal options decoded with
        | some unserved => .error unserved
        | none =>
          match Utf8.decode decoded with
          | none => .error (.refused .policy)
          | some _ => resolveSegments rest ⟨push windows located.relative decoded, false⟩

/-- The file a request path names under the root. -/
def resolve (path : Bytes) : Except Unserved Located :=
  match normalizePath path with
  | .error _ => .error (.refused .policy)
  | .ok normalized =>
    match resolveSegments windows options (segmentsOf normalized) ⟨[], normalized.isEmpty⟩ with
    | .error unserved => .error unserved
    | .ok located =>
      if located.directory then
        match options.index with
        | some index =>
          .ok { located with relative := push windows located.relative (Utf8.encode index) }
        | none => .error (.refused .directory)
      else .ok located

def locate (path : Bytes) : Except Refusal Bytes :=
  match resolve windows options path with
  | .ok located => .ok located.relative
  | .error (.refused refusal) => .error refusal
  | .error .forbidden => .error .policy

/-- An extension without its leading `.`, if any. -/
def bareExtension (extension : List Char) : List Char :=
  match extension with
  | '.' :: bare => bare
  | _ => extension

/-- A name with an extension. -/
def extended (name : Bytes) (extension : List Char) : Bytes :=
  name ++ dot :: Utf8.encode (bareExtension extension)

variable {Store Entry : Type} (entry : Bytes → StateM Store (Option Entry))

/-- The first of some extensions that names a file. -/
def findExtension (relative name : Bytes) :
    List (List Char) → StateM Store (Option (Bytes × Entry))
  | [] => pure none
  | extension :: rest => do
    if !segmentAllowed windows (extended name extension) then findExtension relative name rest
    else
      let candidate := withFileName windows relative (extended name extension)
      match ← entry candidate with
      | some found => pure (some (candidate, found))
      | none => findExtension relative name rest

/-- What is tried for a path that names no file. -/
def findOther (located : Located) : StateM Store (Option (Bytes × Entry)) :=
  if located.directory then pure none
  else
    match fileName windows located.relative with
    | none => pure none
    | some name =>
      match Utf8.decode name with
      | none => pure none
      | some _ => findExtension windows entry located.relative name options.extensions

/-- The entry a located path serves: the file itself, or the first with an extension that is one. -/
def find (located : Located) : StateM Store (Option (Bytes × Entry)) := do
  match ← entry located.relative with
  | some found => pure (some (located.relative, found))
  | none => findOther windows options entry located

end Policy

/-! ### Safe names -/

/-- A name that is text and names nothing but an entry of the directory it is looked up in. -/
structure Safe (name : Bytes) : Prop where
  text : (Utf8.decode name).isSome = true
  dots : name ≠ [] ∧ name ≠ [dot] ∧ name ≠ [dot, dot]
  bytes : ∀ byte ∈ name, byte ≠ slash ∧ byte ≠ backslash ∧ 0x20 ≤ byte ∧ byte ≠ 0x7F

variable {windows : Bool} {options : Options} {segment name path relative : Bytes}

theorem segmentAllowed_safe (allowed : segmentAllowed windows segment = true)
    (text : (Utf8.decode segment).isSome = true) : Safe segment := by
  unfold segmentAllowed at allowed
  split at allowed
  · cases allowed
  · rename_i dots
    split at allowed
    · cases allowed
    · rename_i clean
      rw [List.any_eq_true, not_exists] at clean
      refine ⟨text, by simpa only [not_or] using dots, fun byte member => ?_⟩
      have fine : ¬ (byte = slash ∨ byte = backslash ∨ byte = 0 ∨ isAsciiControl byte = true) :=
        fun bad => clean byte ⟨member, decide_eq_true bad⟩
      simp only [not_or, isAsciiControl, decide_eq_true_eq] at fine
      obtain ⟨notSlash, notBackslash, -, notLow, notDelete⟩ := fine
      refine ⟨notSlash, notBackslash, ?_, notDelete⟩
      rw [UInt8.le_iff_toNat_le] at notLow ⊢
      exact Nat.lt_of_not_le notLow

theorem segmentAllowed_plain (allowed : segmentAllowed windows segment = true) :
    Plain windows segment := by
  unfold segmentAllowed at allowed
  split at allowed
  · cases allowed
  · rename_i dots
    obtain ⟨some_, here, climbs⟩ := not_or.mp dots |>.imp_right not_or.mp
    split at allowed
    · cases allowed
    · rename_i clean
      rw [List.any_eq_true, not_exists] at clean
      refine ⟨some_, here, climbs, fun byte member => ?_, fun onWindows held => ?_⟩
      · have fine := fun bad => clean byte ⟨member, decide_eq_true bad⟩
        refine decide_eq_false fun separator => fine ?_
        exact separator.imp_right fun both => .inl both.2
      · rw [if_pos onWindows, if_pos (List.contains_iff_mem.mpr held)] at allowed
        cases allowed

/-! ### The loop -/

variable {located : Located}

/-- What a segment is decoded to. -/
def DecodesTo (segment name : Bytes) : Prop := percentDecode segment 0 = .ok name

/-- A name the policy lets through. -/
structure Passes (windows : Bool) (options : Options) (name : Bytes) : Prop where
  allowed : segmentAllowed windows name = true
  text : (Utf8.decode name).isSome = true
  visible : name.head? = some dot → options.dotfiles = .allow

theorem percentDecode_nil {offset : Nat} :
    percentDecode segment offset = .ok [] ↔ segment = [] := by
  constructor
  · intro decoded
    cases segment with
    | nil => rfl
    | cons byte behind =>
      unfold percentDecode at decoded
      split at decoded
      · split at decoded
        · cases decoded
        · split at decoded
          · rename_i rest _
            cases inner : percentDecode rest (offset + 3) with
            | error => rw [inner] at decoded; cases decoded
            | ok => rw [inner] at decoded; cases decoded
          · cases decoded
      · cases inner : percentDecode behind (offset + 1) with
        | error => rw [inner] at decoded; cases decoded
        | ok => rw [inner] at decoded; cases decoded
  · rintro rfl
    rfl

theorem dotfileRefusal_none (kept : dotfileRefusal options name = none) :
    name.head? = some dot → options.dotfiles = .allow := by
  intro dotted
  unfold dotfileRefusal at kept
  rw [if_pos dotted] at kept
  cases mode : options.dotfiles with
  | allow => rfl
  | ignore | deny => rw [mode] at kept; cases kept

/-- The loop pushes what the segments that are not empty decode to; the last one says whether a
directory is meant. -/
theorem resolveSegments_ok {segments : List Bytes} {resolved : Located}
    (done : resolveSegments windows options segments located = .ok resolved) :
    ∃ names, List.Forall₂ DecodesTo (segments.filter (· ≠ [])) names ∧
      (∀ name ∈ names, Passes windows options name) ∧
      resolved.relative = names.foldl (push windows) located.relative ∧
      resolved.directory = (segments.getLast?.map (· == [])).getD located.directory := by
  induction segments generalizing located with
  | nil =>
    cases done
    exact ⟨[], .nil, nofun, rfl, rfl⟩
  | cons segment rest inductionHypothesis =>
    unfold resolveSegments at done
    split at done
    · cases done
    rename_i decoded decodes
    split at done
    · rename_i empty
      obtain rfl := percentDecode_nil.mp (empty ▸ decodes)
      obtain ⟨names, decoding, passes, same, ends⟩ := inductionHypothesis done
      refine ⟨names, decoding, passes, same, ends.trans ?_⟩
      cases rest <;> rfl
    rename_i more
    have some_ : segment ≠ [] := fun empty => more (by
      rw [percentDecode_nil.mpr empty] at decodes
      exact (Except.ok.inj decodes).symm)
    split at done
    · cases done
    rename_i allowed
    rw [Bool.not_eq_true, Bool.not_eq_false'] at allowed
    split at done
    · cases done
    rename_i visible
    split at done
    · cases done
    rename_i text known
    obtain ⟨names, decoding, passes, same, ends⟩ := inductionHypothesis done
    refine ⟨decoded :: names, ?_, ?_, same, ends.trans ?_⟩
    · rw [List.filter_cons, if_pos (decide_eq_true some_)]
      exact .cons decodes decoding
    · refine List.forall_mem_cons.mpr ⟨⟨allowed, ?_, dotfileRefusal_none visible⟩, passes⟩
      rw [known]
      rfl
    · cases rest with
      | nil => exact (beq_false_of_ne some_).symm
      | cons => rfl

/-! ### What is served -/

/-- The names below the root a path with these decoded segments may be answered with. -/
inductive Target (options : Options) (directory : Bool) (requested : List Bytes) :
    List Bytes → Prop where
  | file (named : directory = false) : Target options directory requested requested
  | index {index : List Char} (meant : directory = true) (configured : options.index = some index) :
    Target options directory requested (requested ++ [Utf8.encode index])
  | extension {front : List Bytes} {name : Bytes} {extension : List Char}
    (named : directory = false) (among : extension ∈ options.extensions)
    (last : requested = front ++ [name]) :
    Target options directory requested (front ++ [extended name extension])

/-- The names of a request path, and whether it means a directory. -/
structure Requests (path : Bytes) (directory : Bool) (requested : List Bytes) : Prop where
  decoding : ∃ normal, normalizePath path = .ok normal ∧
    List.Forall₂ DecodesTo ((segmentsOf normal).filter (· ≠ [])) requested ∧
    (directory = true ↔ (segmentsOf normal).getLast? = some [])

/-- A name that may stand in a served path. -/
def Allowed (windows : Bool) (name : Bytes) : Prop :=
  segmentAllowed windows name = true ∧ (Utf8.decode name).isSome = true

/-- A located path is the names of the request, behind them the index for a directory. -/
theorem resolve_ok (done : resolve windows options path = .ok located)
    (indexAllowed : ∀ index, options.index = some index →
      segmentAllowed windows (Utf8.encode index) = true) :
    ∃ requested names, Requests path located.directory requested ∧
      (∀ name ∈ requested, Passes windows options name) ∧
      Target options located.directory requested names ∧
      (located.directory = false → names = requested) ∧
      (∀ name ∈ names, Allowed windows name) ∧ located.relative = joined windows names := by
  unfold resolve at done
  split at done
  · cases done
  rename_i normal normalized
  split at done
  · cases done
  rename_i resolved looped
  obtain ⟨requested, decoding, passes, same, ends⟩ := resolveSegments_ok looped
  obtain ⟨last, ended⟩ : ∃ last, (segmentsOf normal).getLast? = some last :=
    ⟨_, List.getLast?_eq_some_getLast (List.splitOnP_ne_nil _ normal)⟩
  have meant : resolved.directory = true ↔ (segmentsOf normal).getLast? = some [] := by
    rw [ends, ended, Option.map_some, Option.getD_some, beq_iff_eq, Option.some.injEq]
  have requests : Requests path resolved.directory requested :=
    ⟨normal, normalized, decoding, meant⟩
  have allowed : ∀ name ∈ requested, Allowed windows name := fun name member =>
    ⟨(passes name member).allowed, (passes name member).text⟩
  split at done
  · rename_i directory
    split at done
    · rename_i index configured
      cases done
      have text : (Utf8.decode (Utf8.encode index)).isSome = true := by
        rw [Utf8.decode_encoded]
        rfl
      refine ⟨requested, _, requests, passes, .index directory configured,
        fun named => absurd directory (ne_true_of_eq_false named), fun name member => ?_, ?_⟩
      · rcases List.mem_append.mp member with known | last
        · exact allowed name known
        · rw [List.mem_singleton.mp last]
          exact ⟨indexAllowed index configured, text⟩
      · rw [joined_concat, same]
        rfl
    · cases done
  · rename_i named
    cases done
    exact ⟨requested, requested, requests, passes, .file (Bool.eq_false_iff.mpr named),
      fun _ => rfl, allowed, same⟩

section Search

variable {Store Entry : Type} {entry : Bytes → StateM Store (Option Entry)} {store : Store}
  {found : Bytes × Entry}

theorem findExtension_some {extensions : List (List Char)}
    (search : (findExtension windows entry path name extensions store).1 = some found) :
    ∃ extension ∈ extensions, segmentAllowed windows (extended name extension) = true ∧
      found.1 = withFileName windows path (extended name extension) := by
  induction extensions generalizing store with
  | nil => cases search
  | cons extension rest inductionHypothesis =>
    have later : ∀ store, (findExtension windows entry path name rest store).1 = some found →
        ∃ extension' ∈ extension :: rest, segmentAllowed windows (extended name extension') = true ∧
          found.1 = withFileName windows path (extended name extension') := fun store search => by
      obtain ⟨extension', among, fits⟩ := inductionHypothesis search
      exact ⟨extension', List.mem_cons_of_mem _ among, fits⟩
    unfold findExtension at search
    split at search
    · exact later store search
    · rename_i allowed
      rw [Bool.not_eq_true, Bool.not_eq_false'] at allowed
      change (StateT.bind (entry _) _ store).1 = some found at search
      unfold StateT.bind at search
      generalize entry (withFileName windows path (extended name extension)) store = answer
        at search
      obtain ⟨opened, after⟩ := answer
      cases opened with
      | some _ =>
        cases search
        exact ⟨extension, List.mem_cons_self, allowed, rfl⟩
      | none => exact later after search

theorem findOther_some (search : (findOther windows options entry located store).1 = some found) :
    located.directory = false ∧ ∃ name, fileName windows located.relative = some name ∧
      (Utf8.decode name).isSome = true ∧ ∃ extension ∈ options.extensions,
        segmentAllowed windows (extended name extension) = true ∧
        found.1 = withFileName windows located.relative (extended name extension) := by
  unfold findOther at search
  split at search
  · cases search
  · rename_i named
    cases last : fileName windows located.relative with
    | none =>
      rw [last] at search
      cases search
    | some name =>
      rw [last] at search
      dsimp only at search
      cases known : Utf8.decode name with
      | none =>
        rw [known] at search
        cases search
      | some text =>
        rw [known] at search
        exact ⟨Bool.eq_false_iff.mpr named, name, rfl, by rw [known]; rfl,
          findExtension_some search⟩

/-- What is found is the located path itself, or something else is tried. -/
theorem find_some (search : (find windows options entry located store).1 = some found) :
    found.1 = located.relative ∨
      ∃ after, (findOther windows options entry located after).1 = some found := by
  unfold find at search
  change (StateT.bind (entry located.relative) _ store).1 = some found at search
  unfold StateT.bind at search
  generalize entry located.relative store = answer at search
  obtain ⟨opened, after⟩ := answer
  cases opened with
  | some _ =>
    cases search
    exact .inl rfl
  | none => exact .inr ⟨after, search⟩

end Search

theorem extended_text {extension : List Char} (text : (Utf8.decode name).isSome = true) :
    (Utf8.decode (extended name extension)).isSome = true := by
  obtain ⟨chars, known⟩ := Option.isSome_iff_exists.mp text
  have whole : extended name extension =
      Utf8.encode (chars ++ '.' :: bareExtension extension) := by
    rw [Utf8.encode_append, Utf8.encode_cons, ← Utf8.encode_of_decode known]
    rfl
  rw [whole, Utf8.decode_encoded]
  rfl

/-! ### Static paths stay inside the root -/

/-- A path is located at, or an entry is found at, this relative path. -/
def Yields {Store Entry : Type} (windows : Bool) (options : Options)
    (entry : Bytes → StateM Store (Option Entry)) (path relative : Bytes) : Prop :=
  locate windows options path = .ok relative ∨
    ∃ located store found, resolve windows options path = .ok located ∧
      (find windows options entry located store).1 = some (relative, found)

theorem locate_ok (done : locate windows options path = .ok relative) :
    ∃ directory, resolve windows options path = .ok ⟨relative, directory⟩ := by
  unfold locate at done
  split at done
  · rename_i located resolved
    cases done
    exact ⟨located.directory, resolved⟩
  · cases done
  · cases done

/-- What is yielded are the names of a target of the request. -/
theorem yields_target {Store Entry : Type} {entry : Bytes → StateM Store (Option Entry)}
    (yields : Yields windows options entry path relative)
    (indexAllowed : ∀ index, options.index = some index →
      segmentAllowed windows (Utf8.encode index) = true) :
    ∃ directory requested names, Requests path directory requested ∧
      (∀ name ∈ requested, Passes windows options name) ∧
      Target options directory requested names ∧ (∀ name ∈ names, Allowed windows name) ∧
      relative = joined windows names := by
  rcases yields with located | ⟨located, store, found, resolved, search⟩
  · obtain ⟨directory, resolved⟩ := locate_ok located
    obtain ⟨requested, names, requests, passes, target, -, allowed, same⟩ :=
      resolve_ok resolved indexAllowed
    exact ⟨directory, requested, names, requests, passes, target, allowed, same⟩
  obtain ⟨requested, names, requests, passes, target, plainly, allowed, same⟩ :=
    resolve_ok resolved indexAllowed
  rcases find_some search with itself | ⟨after, other⟩
  · exact ⟨_, requested, names, requests, passes, target, allowed, itself.trans same⟩
  obtain ⟨named, last, isLast, text, extension, among, candidate, served⟩ := findOther_some other
  have plain : ∀ name ∈ names, Plain windows name := fun name member =>
    segmentAllowed_plain (allowed name member).1
  obtain rfl := plainly named
  unfold fileName at isLast
  rw [same, components_joined plain] at isLast
  obtain ⟨ended, -⟩ := Option.filter_eq_some_iff.mp isLast
  obtain ⟨front, rfl⟩ := List.getLast?_eq_some_iff.mp ended
  refine ⟨_, _, _, requests, passes, .extension named among rfl, fun name member => ?_, ?_⟩
  · rcases List.mem_append.mp member with known | new
    · exact allowed name (List.mem_append_left _ known)
    · rw [List.mem_singleton.mp new]
      exact ⟨candidate, extended_text text⟩
  · refine served.trans ?_
    rw [same]
    exact withFileName_joined (plain last (List.mem_append_right _ List.mem_cons_self))
      fun name member => plain name (List.mem_append_left _ member)

/-- Names of a target begin with `.` only where dotfiles are allowed, if the index does. -/
theorem Target.visible {directory : Bool} {requested names : List Bytes}
    (target : Target options directory requested names)
    (passes : ∀ name ∈ requested, Passes windows options name)
    (indexVisible : ∀ index, options.index = some index →
      (Utf8.encode index).head? = some dot → options.dotfiles = .allow) :
    ∀ name ∈ names, name.head? = some dot → options.dotfiles = .allow := by
  intro name member dotted
  cases target with
  | file => exact (passes name member).visible dotted
  | index _ configured =>
    rcases List.mem_append.mp member with known | last
    · exact (passes name known).visible dotted
    · exact indexVisible _ configured (List.mem_singleton.mp last ▸ dotted)
  | @extension front last _ _ _ split =>
    subst split
    rcases List.mem_append.mp member with known | new
    · exact (passes name (List.mem_append_left _ known)).visible dotted
    · have passed := passes last (List.mem_append_right _ List.mem_cons_self)
      rw [List.mem_singleton.mp new] at dotted
      unfold extended at dotted
      rw [List.head?_append_of_ne_nil _ (segmentAllowed_plain passed.allowed).some_] at dotted
      exact passed.visible dotted

/-- Whatever a path yields are the names its segments decode to, each of them a safe name of its
directory, with the index or an extension behind them. Below any root it leads to the same names
below the place of the root. What is yielded depends on the normal form of the path only. -/
theorem served_inside {Store Entry : Type} (windows : Bool) (options : Options)
    (entry : Bytes → StateM Store (Option Entry)) (path : Bytes)
    (indexAllowed : ∀ index, options.index = some index →
      segmentAllowed windows (Utf8.encode index) = true) :
    (∀ relative, Yields windows options entry path relative →
      ∃ directory requested names, Requests path directory requested ∧
        Target options directory requested names ∧ relative = joined windows names ∧
        components windows relative = names ∧ (∀ name ∈ names, Safe name) ∧
        (∀ name ∈ requested, name.head? = some dot → options.dotfiles = .allow) ∧
        ((∀ index, options.index = some index → (Utf8.encode index).head? = some dot →
            options.dotfiles = .allow) →
          ∀ name ∈ names, name.head? = some dot → options.dotfiles = .allow) ∧
        ∀ root, lexical (components windows (push windows root relative)) =
          lexical (components windows root) ++ names) ∧
    ∀ other normal, normalizePath path = .ok normal → normalizePath other = .ok normal →
      ∀ relative, Yields windows options entry path relative ↔
        Yields windows options entry other relative := by
  refine ⟨fun relative yields => ?_, fun other normal normalized normalizedOther relative => ?_⟩
  · obtain ⟨directory, requested, names, requests, passes, target, allowed, same⟩ :=
      yields_target yields indexAllowed
    have plain : ∀ name ∈ names, Plain windows name := fun name member =>
      segmentAllowed_plain (allowed name member).1
    refine ⟨directory, requested, names, requests, target, same, ?_, fun name member => ?_,
      fun name member => (passes name member).visible, target.visible passes, fun root => ?_⟩
    · rw [same, components_joined plain]
    · exact segmentAllowed_safe (allowed name member).1 (allowed name member).2
    · rw [same, components_push (joined_not_rooted plain), components_joined plain]
      exact lexical_append _ fun name member => (plain name member).climbs
  · have alike : resolve windows options path = resolve windows options other := by
      unfold resolve
      rw [normalized, normalizedOther]
    unfold Yields locate
    rw [alike]

theorem served_inside_index :
    lexical (components false (push false (ascii "/srv/..") (ascii "a./index.html"))) =
      lexical (components false (ascii "/srv/..")) ++ components false (ascii "a./index.html") := by
  have yields : Yields false ⟨some "index.html".toList, .ignore, []⟩
      (fun _ => pure none : Bytes → StateM Unit (Option Unit)) (ascii "/b/..//a%2e/")
      (ascii "a./index.html") := .inl (by decide +kernel)
  obtain ⟨_, _, names, _, _, _, parts, _, _, _, below⟩ :=
    (served_inside false ⟨some "index.html".toList, .ignore, []⟩ _ (ascii "/b/..//a%2e/")
      fun index configured => by cases configured; decide +kernel).1 _ yields
  rw [parts]
  exact below _

/-- The index that is configured is not held to the policy for dotfiles. -/
theorem dotfile_index_served :
    ¬ ∀ (windows : Bool) (options : Options) (path relative : Bytes),
      (∀ index, options.index = some index → segmentAllowed windows (Utf8.encode index) = true) →
      locate windows options path = .ok relative →
      ∀ name ∈ components windows relative, name.head? = some dot → options.dotfiles = .allow := by
  intro claimed
  have hidden := claimed false ⟨some ".profile".toList, .ignore, []⟩ (ascii "/") (ascii ".profile")
    (fun index configured => by cases configured; decide +kernel) (by decide +kernel)
    (ascii ".profile") (by decide +kernel) (by decide +kernel)
  cases hidden

end ZeroServer.Static

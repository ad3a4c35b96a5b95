/-
This file proves that a `Forwarded` field says what was written to it: elements whose parameters
stand in any order, under names in any case, as tokens or quoted strings, with whitespace around
every separator and empty members between them, are read back as the elements they were.
-/

import ZeroServer.Lib.Trim
import ZeroServer.Policy.Grammar

namespace ZeroServer.Policy

open Http1 Lib Splitting

/-- The elements of a field value, the first proxy's first; an element that is malformed or repeats
a parameter is left out. -/
def Forwarded.parse (value : Bytes) : List Element :=
  ((listMembers value).filter fun member => !member.isEmpty).filterMap element

/-! ### Whitespace -/

variable {bytes : Bytes} {byte : UInt8}

/-- Optional whitespace. -/
abbrev Ows := { bytes : Bytes // ∀ byte ∈ bytes, isOws byte = true }

theorem trim_blank (blank : ∀ byte ∈ bytes, isOws byte = true) : trim bytes = [] :=
  trimBoth_blank blank

theorem trim_before (before : Ows) (bytes : Bytes) : trim (before.val ++ bytes) = trim bytes := by
  unfold trim
  rw [List.dropWhile_append_of_pos before.property]

theorem trim_after (bytes : Bytes) (after : Ows) : trim (bytes ++ after.val) = trim bytes := by
  by_cases blank : ∀ byte ∈ bytes, isOws byte = true
  · rw [trim_blank blank, trim_blank]
    exact List.forall_mem_append.mpr ⟨blank, after.property⟩
  · have kept : bytes.dropWhile isOws ≠ [] := fun all => blank (List.dropWhile_eq_nil_iff.mp all)
    unfold trim
    rw [List.dropWhile_append, if_neg (by rwa [List.isEmpty_iff]), List.rdropWhile,
      List.reverse_append, List.dropWhile_append_of_pos fun byte member =>
        after.property byte (List.mem_reverse.mp member)]
    rfl

theorem trim_around (before : Ows) (bytes : Bytes) (after : Ows) :
    trim (before.val ++ bytes ++ after.val) = trim bytes := by
  rw [trim_after, trim_before]

theorem mem_trim (held : byte ∈ bytes) (dark : isOws byte = false) :
    byte ∈ trim bytes := mem_trimBoth held dark

theorem ows_plain (blank : isOws byte = true) :
    byte ≠ quote ∧ byte ≠ backslash ∧ byte ≠ comma ∧ byte ≠ semicolon ∧ byte ≠ equals := by
  have dark : ∀ mark ∈ [quote, backslash, comma, semicolon, equals], isOws mark = false := by
    decide +kernel
  have apart : ∀ mark ∈ [quote, backslash, comma, semicolon, equals], byte ≠ mark := by
    rintro mark member rfl
    rw [dark byte member] at blank
    cases blank
  exact ⟨apart _ (by decide), apart _ (by decide), apart _ (by decide), apart _ (by decide),
    apart _ (by decide)⟩

/-! ### Places between separators -/

variable {separator : UInt8}

variable {texts : List Bytes}

/-- A text that leaves a splitter where it was outside a quoted string: it is not split, and closes
the strings it opens. -/
def Closed (separator : UInt8) (text : Bytes) : Prop :=
  ∀ state : Splitting, state.quoted = false → state.escaped = false →
    state.run separator text = state.extend text

theorem Closed.append {first second : Bytes} (closed : Closed separator first)
    (closed' : Closed separator second) : Closed separator (first ++ second) := by
  intro state outside unescaped
  rw [run_append, closed state outside unescaped,
    closed' (state.extend first) outside unescaped, extend_extend]

theorem closed_plain {text : Bytes} (plain : ∀ byte ∈ text, byte ≠ quote ∧ byte ≠ separator) :
    Closed separator text :=
  fun _ outside unescaped => run_outside outside unescaped plain

theorem closed_ows (separates : Separates separator) (blank : Ows) :
    Closed separator blank.val := by
  refine closed_plain fun byte member => ?_
  obtain ⟨noQuote, -, noComma, noSemicolon, -⟩ := ows_plain (blank.property byte member)
  rcases separates with rfl | rfl
  · exact ⟨noQuote, noComma⟩
  · exact ⟨noQuote, noSemicolon⟩

theorem Separates.ne_quote (separates : Separates separator) : separator ≠ quote := by
  rcases separates with rfl | rfl <;> decide

/-- Closed texts with separators between them are split where they were joined. -/
theorem split_joined (separates : Separates separator) (some_ : texts ≠ [])
    (closed : ∀ text ∈ texts, Closed separator text) :
    splitUnquoted ([separator].intercalate texts) separator = texts.map trim := by
  suffices runs : ∀ (text : Bytes) (rest : List Bytes) (state : Splitting),
      (∀ other ∈ text :: rest, Closed separator other) → state.quoted = false →
      state.escaped = false →
      (state.run separator ([separator].intercalate (text :: rest))).parts ++
          [trim (state.run separator ([separator].intercalate (text :: rest))).part] =
        state.parts ++ trim (state.part ++ text) :: rest.map trim by
    obtain ⟨text, rest, rfl⟩ := List.exists_cons_of_ne_nil some_
    exact runs text rest start closed rfl rfl
  intro text rest
  induction rest generalizing text with
  | nil =>
    intro state closed outside unescaped
    rw [List.intercalate_singleton, closed text List.mem_cons_self state outside unescaped]
    rfl
  | cons next rest inductionHypothesis =>
    intro state closed outside unescaped
    rw [List.intercalate_cons_cons, List.append_assoc, run_append,
      closed text List.mem_cons_self state outside unescaped, List.singleton_append]
    have cut : (state.extend text).step separator separator = (state.extend text).cut :=
      step_cut (by exact outside) (by exact unescaped) separates.ne_quote
    change ((Splitting.step separator (state.extend text) separator).run _ _).parts ++
      [trim ((Splitting.step separator (state.extend text) separator).run _ _).part] = _
    rw [cut, inductionHypothesis next _ (fun other member =>
      closed other (List.mem_cons_of_mem _ member)) rfl rfl]
    unfold Splitting.cut extend
    simp only [List.append_assoc, List.nil_append, List.singleton_append, List.map_cons]

/-- Closed texts with closed marks between them are closed. -/
theorem closed_joined {mark : UInt8} (closed : Closed separator [mark])
    (each : ∀ text ∈ texts, Closed separator text) :
    Closed separator ([mark].intercalate texts) := by
  induction texts with
  | nil => exact closed_plain fun _ => nofun
  | cons text rest inductionHypothesis =>
    obtain ⟨here, later⟩ := List.forall_mem_cons.mp each
    cases rest with
    | nil =>
      rw [List.intercalate_singleton]
      exact here
    | cons next rest =>
      rw [List.intercalate_cons_cons]
      exact (here.append closed).append (inductionHypothesis later)

/-- A place between separators: an item with whitespace around it, or whitespace alone. -/
structure Place (Item : Type) where
  before : Ows
  item : Option Item
  after : Ows

section Places

variable {Item : Type} (write : Item → Bytes)

def Place.text (place : Place Item) : Bytes :=
  place.before.val ++ place.item.elim [] write ++ place.after.val

/-- The items of a row of places. -/
def items (places : List (Place Item)) : List Item := places.filterMap Place.item

/-- Places with separators between them. -/
def joinPlaces (separator : UInt8) (places : List (Place Item)) : Bytes :=
  [separator].intercalate (places.map (Place.text write))

variable {write}

theorem Place.closed (separates : Separates separator) {place : Place Item}
    (closed : ∀ item ∈ place.item, Closed separator (write item)) :
    Closed separator (place.text write) := by
  refine ((closed_ows separates place.before).append ?_).append (closed_ows separates place.after)
  cases held : place.item with
  | none => exact closed_plain fun _ => nofun
  | some item => exact closed item held

theorem Place.trim_text (place : Place Item) :
    trim (place.text write) = (place.item.map fun item => trim (write item)).getD [] := by
  unfold Place.text
  rw [trim_around]
  cases place.item <;> rfl

/-- The parts of joined places that are not empty are their items, where none of these is blank. -/
theorem split_places (separates : Separates separator) {places : List (Place Item)}
    (closed : ∀ item ∈ items places, Closed separator (write item))
    (filled : ∀ item ∈ items places, trim (write item) ≠ []) :
    (splitUnquoted (joinPlaces write separator places) separator).filter
        (fun part => !part.isEmpty) =
      (items places).map fun item => trim (write item) := by
  have parts : (splitUnquoted (joinPlaces write separator places) separator).filter
        (fun part => !part.isEmpty) =
      (places.map fun place => (place.item.map fun item => trim (write item)).getD []).filter
        fun part => !part.isEmpty := by
    by_cases some_ : places = []
    · subst some_
      rfl
    · unfold joinPlaces
      rw [split_joined separates (by simpa using some_), List.map_map]
      · congr 1
        exact List.map_congr_left fun place _ => place.trim_text
      · intro text member
        obtain ⟨place, held, rfl⟩ := List.mem_map.mp member
        refine place.closed separates fun item itsItem => closed item ?_
        exact List.mem_filterMap.mpr ⟨place, held, itsItem⟩
  rw [parts]
  clear parts closed
  induction places with
  | nil => rfl
  | cons place places inductionHypothesis =>
    have later := inductionHypothesis fun item member => filled item <| by
      obtain ⟨other, held, itsItem⟩ := List.mem_filterMap.mp member
      exact List.mem_filterMap.mpr ⟨other, List.mem_cons_of_mem _ held, itsItem⟩
    cases held : place.item with
    | none =>
      unfold items at later ⊢
      rw [List.map_cons, held, List.filterMap_cons_none held]
      exact later
    | some item =>
      have here : trim (write item) ≠ [] := filled item
        (List.mem_filterMap.mpr ⟨place, List.mem_cons_self, held⟩)
      unfold items at later ⊢
      rw [List.map_cons, held, List.filterMap_cons_some held, List.map_cons, ← later]
      exact List.filter_cons_of_pos (by
        rw [Option.map_some, Option.getD_some, List.isEmpty_eq_false_iff.mpr here]
        rfl)

end Places

/-! ### Splitting what was trimmed -/

theorem run_ows (separates : Separates separator) (state : Splitting) (blank : Ows) :
    (state.run separator blank.val).parts = state.parts ∧
      (state.run separator blank.val).part = state.part ++ blank.val := by
  obtain ⟨bytes, all⟩ := blank
  induction bytes generalizing state with
  | nil => exact ⟨rfl, (List.append_nil _).symm⟩
  | cons byte bytes inductionHypothesis =>
    obtain ⟨here, later⟩ := List.forall_mem_cons.mp all
    obtain ⟨noQuote, noBackslash, noComma, noSemicolon, -⟩ := ows_plain here
    have apart : byte ≠ separator := by
      rcases separates with rfl | rfl
      · exact noComma
      · exact noSemicolon
    have taken : (state.step separator byte).parts = state.parts ∧
        (state.step separator byte).part = state.part ++ [byte] := by
      unfold step take
      rw [if_neg noBackslash, if_neg noQuote, if_neg noQuote, if_neg apart]
      split
      · exact ⟨rfl, rfl⟩
      · split <;> exact ⟨rfl, rfl⟩
    obtain ⟨parts, part⟩ := inductionHypothesis (state.step separator byte) later
    refine ⟨parts.trans taken.1, part.trans ?_⟩
    rw [taken.2, List.append_assoc]
    rfl

/-- Whitespace in front of the part in progress makes no difference. -/
theorem run_behind_ows {separator : UInt8} (value : Bytes) (state : Splitting) (blank : Ows) :
    let state' : Splitting := ⟨state.parts, blank.val ++ state.part, state.quoted, state.escaped⟩
    (state'.run separator value).parts ++ [trim (state'.run separator value).part] =
      (state.run separator value).parts ++ [trim (state.run separator value).part] := by
  induction value generalizing state blank with
  | nil =>
    change state.parts ++ [trim (blank.val ++ state.part)] = _
    rw [trim_before]
    rfl
  | cons byte value inductionHypothesis =>
    have stepped : ∃ blank' : Ows,
        Splitting.step separator ⟨state.parts, blank.val ++ state.part, state.quoted,
          state.escaped⟩ byte =
        ⟨(state.step separator byte).parts, blank'.val ++ (state.step separator byte).part,
          (state.step separator byte).quoted, (state.step separator byte).escaped⟩ := by
      have taken : ∀ quoted escaped, Splitting.take
          ⟨state.parts, blank.val ++ state.part, state.quoted, state.escaped⟩ byte quoted escaped =
          ⟨(state.take byte quoted escaped).parts,
            blank.val ++ (state.take byte quoted escaped).part,
            (state.take byte quoted escaped).quoted,
            (state.take byte quoted escaped).escaped⟩ := by
        intro quoted escaped
        unfold take
        rw [List.append_assoc]
      unfold step
      dsimp only
      split
      · exact ⟨blank, taken _ _⟩
      · split
        · split
          · exact ⟨blank, taken _ _⟩
          · split
            · exact ⟨blank, taken _ _⟩
            · exact ⟨blank, taken _ _⟩
        · split
          · exact ⟨blank, taken _ _⟩
          · split
            · refine ⟨⟨[], fun _ => nofun⟩, ?_⟩
              unfold Splitting.cut
              rw [trim_before]
              rfl
            · exact ⟨blank, taken _ _⟩
    obtain ⟨blank', same⟩ := stepped
    have later := inductionHypothesis (state.step separator byte) blank'
    rw [← same] at later
    exact later

/-- A value is split the same without the whitespace around it. -/
theorem splitUnquoted_trim (separates : Separates separator) (value : Bytes) :
    splitUnquoted (trim value) separator = splitUnquoted value separator := by
  have front : ∀ (blank : Ows) (rest : Bytes),
      splitUnquoted (blank.val ++ rest) separator = splitUnquoted rest separator := by
    intro blank rest
    unfold splitUnquoted
    dsimp only
    rw [run_append, closed_ows separates blank start rfl rfl]
    have same := @run_behind_ows separator rest start blank
    rwa [show start.part = [] from rfl, List.append_nil] at same
  have back : ∀ (rest : Bytes) (blank : Ows),
      splitUnquoted (rest ++ blank.val) separator = splitUnquoted rest separator := by
    intro rest blank
    obtain ⟨parts, part⟩ := run_ows separates (start.run separator rest) blank
    unfold splitUnquoted
    dsimp only
    rw [run_append, parts, part, trim_after]
  have lead : value = value.takeWhile isOws ++ value.dropWhile isOws :=
    List.takeWhile_append_dropWhile.symm
  have tail : value.dropWhile isOws =
      trim value ++ ((value.dropWhile isOws).rtakeWhile isOws) := by
    unfold trim
    rw [List.rdropWhile, List.rtakeWhile, ← List.reverse_append, List.takeWhile_append_dropWhile,
      List.reverse_reverse]
  conv_rhs => rw [lead]
  rw [front ⟨_, fun byte member => List.mem_takeWhile_imp member⟩, tail,
    back _ ⟨_, fun byte member => List.mem_rtakeWhile_imp member⟩]

/-! ### Values -/

/-- The inside of a quoted-string: a backslash stands in front of every quote and backslash. -/
def escape (value : Bytes) : Bytes :=
  value.flatMap fun byte => if byte = quote ∨ byte = backslash then [backslash, byte] else [byte]

/-- A value as it sits in the field: as a token, or as a quoted-string. -/
inductive ValueText : Bytes → Bytes → Prop
  | token {value : Bytes} (isToken : IsToken value) : ValueText value value
  | quoted (value : Bytes) : ValueText ([quote] ++ escape value ++ [quote]) value

theorem escape_cons (byte : UInt8) (value : Bytes) : escape (byte :: value) =
    (if byte = quote ∨ byte = backslash then [backslash, byte] else [byte]) ++ escape value :=
  List.flatMap_cons

theorem escape_plain {value : Bytes} (plain : ∀ byte ∈ value, byte ≠ quote ∧ byte ≠ backslash) :
    escape value = value := by
  induction value with
  | nil => rfl
  | cons byte value inductionHypothesis =>
    obtain ⟨here, later⟩ := List.forall_mem_cons.mp plain
    rw [escape_cons, if_neg (not_or.mpr here), inductionHypothesis later]
    rfl

theorem unescape_escape (value : Bytes) : unescape false (escape value) = some value := by
  induction value with
  | nil => rfl
  | cons byte value inductionHypothesis =>
    rw [escape_cons]
    by_cases marked : byte = quote ∨ byte = backslash
    · rw [if_pos marked]
      change (unescape true (byte :: escape value)) = _
      rw [unescape, if_pos rfl, inductionHypothesis]
      rfl
    · obtain ⟨noQuote, noBackslash⟩ := not_or.mp marked
      rw [if_neg marked, List.singleton_append, unescape, if_neg Bool.false_ne_true,
        if_neg noBackslash, if_neg noQuote, inductionHypothesis]
      rfl

/-- Inside a quoted string, an escaped value joins the part. -/
theorem run_escape (value : Bytes) {state : Splitting} (inside : state.quoted = true)
    (unescaped : state.escaped = false) :
    state.run separator (escape value) = state.extend (escape value) := by
  induction value generalizing state with
  | nil => exact run_inside inside unescaped fun _ => nofun
  | cons byte value inductionHypothesis =>
    have here : state.run separator
        (if byte = quote ∨ byte = backslash then [backslash, byte] else [byte]) =
        state.extend (if byte = quote ∨ byte = backslash then [backslash, byte] else [byte]) := by
      split
      · have first : state.step separator backslash =
            ⟨state.parts, state.part ++ [backslash], true, true⟩ := by
          unfold step take
          rw [if_neg (by rw [unescaped]; exact Bool.false_ne_true), if_pos inside, if_pos rfl]
        change (state.step separator backslash).step separator byte = _
        rw [first]
        unfold step take extend
        rw [if_pos rfl, inside, unescaped, List.append_assoc]
        rfl
      · rename_i plain
        exact run_inside inside unescaped (List.forall_mem_singleton.mpr (not_or.mp plain))
    rw [escape_cons, run_append, here, inductionHypothesis (by exact inside) (by exact unescaped),
      extend_extend]

namespace ValueText

variable {raw value : Bytes}

theorem closed (spells : ValueText raw value) (separates : Separates separator) :
    Closed separator raw := by
  have dark : isTchar separator = false := by
    rcases separates with rfl | rfl
    · exact mark_isTchar _ (by decide)
    · exact mark_isTchar _ (by decide)
  cases spells with
  | token isToken =>
    exact closed_plain fun byte member =>
      ⟨ne_of_all isToken.2 (mark_isTchar _ (by decide)) byte member,
        ne_of_all isToken.2 dark byte member⟩
  | quoted value =>
    intro state outside unescaped
    have opened : state.run separator [quote] =
        ⟨state.parts, state.part ++ [quote], true, false⟩ := by
      change state.step separator quote = _
      unfold step take
      rw [if_neg (by rw [unescaped]; exact Bool.false_ne_true),
        if_neg (by rw [outside]; exact Bool.false_ne_true), if_pos rfl]
    rw [run_append, run_append, opened, run_escape value rfl rfl]
    unfold extend
    rw [outside, unescaped, ← List.append_assoc, ← List.append_assoc]
    rfl

theorem some_ (spells : ValueText raw value) : raw ≠ [] := by
  cases spells with
  | token isToken => exact isToken.1
  | quoted value => exact List.cons_ne_nil _ _

theorem last_dark (spells : ValueText raw value) :
    ∀ byte, raw.getLast? = some byte → isOws byte = false := by
  cases spells with
  | token isToken => exact fun byte last => token_dark isToken byte (List.mem_of_getLast? last)
  | quoted value =>
    intro byte last
    rw [List.getLast?_concat] at last
    cases last
    decide

theorem trim_eq (spells : ValueText raw value) : trim raw = raw := by
  refine trim_of_edges ?_ spells.last_dark
  cases spells with
  | token isToken => exact fun byte first => token_dark isToken byte (List.mem_of_head? first)
  | quoted value =>
    rintro byte ⟨⟩
    decide

theorem unquote_eq (spells : ValueText raw value) : unquote raw = some value := by
  cases spells with
  | token isToken => exact unquote_token isToken
  | quoted value =>
    have first : ([quote] ++ escape value ++ [quote]).head? = some quote := rfl
    unfold unquote
    rw [if_pos first]
    change (if (escape value ++ [quote]).getLast? = some quote then
      unescape false (escape value ++ [quote]).dropLast else none) = _
    rw [List.getLast?_concat, if_pos rfl, List.dropLast_concat, unescape_escape]

/-- Without quotes and backslashes, a value sits in the field as it is. -/
theorem innerOf_eq (spells : ValueText raw value)
    (plain : ∀ byte ∈ value, byte ≠ quote ∧ byte ≠ backslash) : innerOf raw = some value := by
  unfold innerOf
  cases spells with
  | token isToken =>
    rw [if_neg fun first => (plain quote (List.mem_of_head? first)).1 rfl]
  | quoted value =>
    have first : ([quote] ++ escape value ++ [quote]).head? = some quote := rfl
    rw [if_pos first]
    change (if (escape value ++ [quote]).getLast? = some quote then
      some (escape value ++ [quote]).dropLast else none) = _
    rw [List.getLast?_concat, if_pos rfl, List.dropLast_concat, escape_plain plain]

end ValueText

/-! ### Nodes as values -/

theorem NodeText.plain {text : Bytes} {node : Node} (spells : NodeText text node) :
    ∀ byte ∈ text, byte ≠ quote ∧ byte ≠ backslash := by
  have marks : ∀ mark ∈ [quote, backslash], isAsciiAlphanumeric mark = false ∧
      mark ∉ ascii "._-" ∧ isAddressByte mark = false ∧ isAsciiDigit mark = false := by
    decide +kernel
  have word : ∀ byte : UInt8, isAsciiAlphanumeric byte = true ∨ byte ∈ ascii "._-" →
      byte ≠ quote ∧ byte ≠ backslash := by
    have apart : ∀ mark ∈ [quote, backslash],
        ¬(isAsciiAlphanumeric mark = true ∨ mark ∈ ascii "._-") := by
      rintro mark member (alphanum | same)
      · rw [(marks mark member).1] at alphanum
        cases alphanum
      · exact (marks mark member).2.1 same
    intro byte known
    constructor
    · rintro rfl
      exact apart quote (by decide) known
    · rintro rfl
      exact apart backslash (by decide) known
  have name : ∀ {text : Bytes} {name : NodeName}, NameText text name →
      ∀ byte ∈ text, byte ≠ quote ∧ byte ≠ backslash := by
    intro text name spells
    cases spells with
    | plain spells => exact fun byte member => word byte (spells.bytes.2 byte member)
    | ipv6 spells =>
      have all := parseIpv6_bytes (parseIpv6_iff.mpr spells)
      rw [List.forall_mem_cons, List.forall_mem_append, List.forall_mem_singleton]
      exact ⟨by decide, fun byte member => ⟨ne_of_all all (marks _ (by decide)).2.2.1 byte member,
        ne_of_all all (marks _ (by decide)).2.2.1 byte member⟩, by decide⟩
  cases spells with
  | alone spells => exact name spells
  | ported spells spellsPort =>
    rw [List.forall_mem_append, List.forall_mem_cons]
    refine ⟨name spells, by decide, ?_⟩
    cases spellsPort with
    | number spells =>
      have all := (digits_ten.mp spells.digits).1
      exact fun byte member => ⟨ne_of_all all (marks _ (by decide)).2.2.2 byte member,
        ne_of_all all (marks _ (by decide)).2.2.2 byte member⟩
    | obfuscated isIdentifier => exact fun byte member => word byte (isIdentifier.each byte member)

theorem node_eq {raw value : Bytes} {read : Node} (spells : ValueText raw value)
    (spellsNode : NodeText value read) (fits : ∀ port ∈ read.port, port.Fits) :
    node raw value = some read := by
  unfold node
  rw [spells.innerOf_eq spellsNode.plain]
  change (if value = value then Node.parse value else _) = _
  rw [if_pos rfl, Node.parse_iff.mpr ⟨spellsNode, fits⟩]

/-! ### Parameters -/

inductive Parameter where
  | forNode (node : Node)
  | by_ (node : Node)
  | host (value : Bytes)
  | proto (value : Bytes)

variable {out : Element}

namespace Parameter

def name : Parameter → Bytes
  | .forNode _ => ascii "for"
  | .by_ _ => ascii "by"
  | .host _ => ascii "host"
  | .proto _ => ascii "proto"

/-- A text that spells the value of a parameter. -/
def Spells : Parameter → Bytes → Prop
  | .forNode node, text | .by_ node, text => NodeText text node ∧ ∀ port ∈ node.port, port.Fits
  | .host value, text | .proto value, text => text = value

/-- An element that does not have the parameter yet. -/
def Missing : Parameter → Element → Prop
  | .forNode _, out => out.forNode = none
  | .by_ _, out => out.by_ = none
  | .host _, out => out.host = none
  | .proto _, out => out.proto = none

/-- An element with the parameter. -/
def put (out : Element) : Parameter → Element
  | .forNode node => { out with forNode := some node }
  | .by_ node => { out with by_ := some node }
  | .host value => { out with host := some value }
  | .proto value => { out with proto := some (value.map toAsciiLowercase) }

theorem name_word (parameter : Parameter) :
    (parameter.name.map toAsciiLowercase).all isAsciiLowercase = true ∧ parameter.name ≠ [] := by
  have words : ∀ word ∈ [ascii "for", ascii "by", ascii "host", ascii "proto"],
      (word.map toAsciiLowercase).all isAsciiLowercase = true ∧ word ≠ [] := by
    simp only [List.forall_mem_cons]
    decide
  refine words _ ?_
  cases parameter <;> simp [name]

theorem Missing.put {parameter other : Parameter} (missing : parameter.Missing out)
    (apart : parameter.name ≠ other.name) : parameter.Missing (put out other) := by
  cases parameter <;> cases other <;> first | exact missing | exact absurd rfl apart

theorem put_put {first second : Parameter} (apart : first.name ≠ second.name) (out : Element) :
    put (put out first) second = put (put out second) first := by
  cases first <;> cases second <;> first | rfl | exact absurd rfl apart

end Parameter

/-- One parameter as it is written: its name in any case, its value as a token or a quoted-string,
and whitespace around the mark between them. -/
structure Pair where
  parameter : Parameter
  name : Bytes
  named : eqIgnoreAsciiCase name parameter.name = true
  value : Bytes
  spells : parameter.Spells value
  raw : Bytes
  quotes : ValueText raw value
  before : Ows
  after : Ows

namespace Pair

variable (pair : Pair)

def text : Bytes := pair.name ++ pair.before.val ++ equals :: (pair.after.val ++ pair.raw)

theorem letters : ∀ byte ∈ pair.name, isAsciiAlphanumeric byte = true :=
  letters_of_eqIgnoreAsciiCase pair.parameter.name_word.1 pair.named

theorem name_marks : ∀ mark ∈ [quote, comma, semicolon, equals, sp, htab], mark ∉ pair.name := by
  have dark : ∀ mark ∈ [quote, comma, semicolon, equals, sp, htab],
      isAsciiAlphanumeric mark = false := by decide +kernel
  intro mark member held
  have letter := pair.letters mark held
  rw [dark mark member] at letter
  cases letter

theorem name_some : pair.name ≠ [] := by
  intro none_
  have lowered := beq_iff_eq.mp pair.named
  rw [none_] at lowered
  exact pair.parameter.name_word.2 (List.map_eq_nil_iff.mp lowered.symm)

theorem name_dark : ∀ byte ∈ pair.name, isOws byte = false := by
  intro byte member
  rw [Bool.eq_false_iff]
  intro blank
  rcases (Bool.or_eq_true _ _).mp blank with same | same
  · exact pair.name_marks sp (by decide) (beq_iff_eq.mp same ▸ member)
  · exact pair.name_marks htab (by decide) (beq_iff_eq.mp same ▸ member)

theorem closed (separates : Separates separator) : Closed separator pair.text := by
  have name : Closed separator pair.name := by
    refine closed_plain fun byte member => ⟨?_, ?_⟩
    · rintro rfl
      exact pair.name_marks quote (by decide) member
    · rintro rfl
      rcases separates with rfl | rfl
      · exact pair.name_marks comma (by decide) member
      · exact pair.name_marks semicolon (by decide) member
  have mark : Closed separator [equals] := by
    refine closed_plain (List.forall_mem_singleton.mpr ?_)
    rcases separates with rfl | rfl <;> decide
  have value : Closed separator (pair.after.val ++ pair.raw) :=
    (closed_ows separates pair.after).append (pair.quotes.closed separates)
  have whole : pair.text = pair.name ++ pair.before.val ++ ([equals] ++
      (pair.after.val ++ pair.raw)) := rfl
  rw [whole]
  exact (name.append (closed_ows separates pair.before)).append (mark.append value)

theorem equals_mem : equals ∈ pair.text :=
  List.mem_append_right _ List.mem_cons_self

theorem trim_text : trim pair.text = pair.text := by
  refine trim_of_edges ?_ ?_
  · intro byte first
    unfold text at first
    rw [List.append_assoc, List.head?_append_of_ne_nil _ pair.name_some] at first
    exact pair.name_dark byte (List.mem_of_head? first)
  · intro byte last
    have whole : pair.text =
        (pair.name ++ pair.before.val ++ equals :: pair.after.val) ++ pair.raw := by
      unfold text
      rw [List.append_assoc, List.append_assoc, List.append_assoc]
      rfl
    rw [whole, List.getLast?_append_of_ne_nil _ pair.quotes.some_] at last
    exact pair.quotes.last_dark byte last

end Pair

/-- The state of an element read up to some pair, which its fields say. -/
def ElementState.of (out : Element) : ElementState :=
  ⟨out, out.forNode.isSome, out.by_.isSome⟩

/-- A parameter that is missing is taken. -/
theorem set_parameter (pair : Pair) (missing : pair.parameter.Missing out) :
    (ElementState.of out).set pair.name pair.raw pair.value =
      some (.of (Parameter.put out pair.parameter)) := by
  have names : ∀ word, eqIgnoreAsciiCase pair.name word =
      eqIgnoreAsciiCase pair.parameter.name word := by
    intro word
    unfold eqIgnoreAsciiCase
    rw [beq_iff_eq.mp pair.named]
  obtain ⟨parameter, name, named, value, spells, raw, quotes, before, after⟩ := pair
  have is : ∀ word, eqIgnoreAsciiCase parameter.name word = true →
      eqIgnoreAsciiCase name word = true := fun word same => (names word).trans same
  have isNot : ∀ word, eqIgnoreAsciiCase parameter.name word = false →
      ¬eqIgnoreAsciiCase name word = true := fun word apart same => by
    rw [(names word).trans apart] at same
    cases same
  unfold ElementState.set ElementState.of
  cases parameter with
  | forNode node =>
    rw [if_pos (is _ (by decide : eqIgnoreAsciiCase (ascii "for") (ascii "for") = true)),
      show out.forNode.isSome = false by rw [show out.forNode = none from missing]; rfl,
      if_neg Bool.false_ne_true, node_eq quotes spells.1 spells.2]
    rfl
  | by_ node =>
    rw [if_neg (isNot _ (by decide : eqIgnoreAsciiCase (ascii "by") (ascii "for") = false)),
      if_pos (is _ (by decide : eqIgnoreAsciiCase (ascii "by") (ascii "by") = true)),
      show out.by_.isSome = false by rw [show out.by_ = none from missing]; rfl,
      if_neg Bool.false_ne_true, node_eq quotes spells.1 spells.2]
    rfl
  | host given =>
    cases spells
    rw [if_neg (isNot _ (by decide : eqIgnoreAsciiCase (ascii "host") (ascii "for") = false)),
      if_neg (isNot _ (by decide : eqIgnoreAsciiCase (ascii "host") (ascii "by") = false)),
      if_pos (is _ (by decide : eqIgnoreAsciiCase (ascii "host") (ascii "host") = true)),
      show out.host.isSome = false by rw [show out.host = none from missing]; rfl,
      if_neg Bool.false_ne_true]
    rfl
  | proto given =>
    cases spells
    rw [if_neg (isNot _ (by decide : eqIgnoreAsciiCase (ascii "proto") (ascii "for") = false)),
      if_neg (isNot _ (by decide : eqIgnoreAsciiCase (ascii "proto") (ascii "by") = false)),
      if_neg (isNot _ (by decide : eqIgnoreAsciiCase (ascii "proto") (ascii "host") = false)),
      if_pos (is _ (by decide : eqIgnoreAsciiCase (ascii "proto") (ascii "proto") = true)),
      show out.proto.isSome = false by rw [show out.proto = none from missing]; rfl,
      if_neg Bool.false_ne_true]
    rfl

theorem pair_text (pair : Pair) (missing : pair.parameter.Missing out) :
    (ElementState.of out).pair pair.text = some (.of (Parameter.put out pair.parameter)) := by
  have plain : equals ∉ pair.name ++ pair.before.val := by
    rw [List.mem_append, not_or]
    refine ⟨pair.name_marks equals (by decide), fun held => ?_⟩
    exact (ows_plain (pair.before.property equals held)).2.2.2.2 rfl
  have name : trim (pair.name ++ pair.before.val) = pair.name := by
    rw [trim_after, trim_of_dark pair.name_dark]
  unfold Pair.text
  rw [pair_eq plain, trim_before, pair.quotes.trim_eq, pair.quotes.unquote_eq, name]
  exact set_parameter pair missing

/-! ### Elements -/

/-- The parameters of an element. -/
def Element.parameters (element : Element) : List Parameter :=
  element.forNode.toList.map .forNode ++ (element.by_.toList.map .by_ ++
    (element.host.toList.map .host ++ element.proto.toList.map .proto))

/-- An element with its scheme in lower case. -/
def Element.lowered (element : Element) : Element :=
  { element with proto := element.proto.map fun scheme => scheme.map toAsciiLowercase }

theorem Element.parameters_nodup (element : Element) :
    (element.parameters.map Parameter.name).Nodup := by
  obtain ⟨forNode, by_, host, proto⟩ := element
  cases forNode <;> cases by_ <;> cases host <;> cases proto <;>
    simp [Element.parameters, Parameter.name, ascii]

theorem Element.foldl_put (element : Element) :
    element.parameters.foldl Parameter.put {} = element.lowered := by
  obtain ⟨forNode, by_, host, proto⟩ := element
  cases forNode <;> cases by_ <;> cases host <;> cases proto <;> rfl

/-- The order of parameters of different names makes no difference. -/
theorem foldl_put_perm {first second : List Parameter} (perm : first.Perm second)
    (nodup : (first.map Parameter.name).Nodup) (out : Element) :
    first.foldl Parameter.put out = second.foldl Parameter.put out := by
  refine perm.foldl_eq' (fun left member right member' between => ?_) out
  by_cases same : left.name = right.name
  · rw [List.inj_on_of_nodup_map nodup member member' same]
  · exact Parameter.put_put same between

/-- Parameters of different names are taken one after another. -/
theorem pairs_texts (pairs : List Pair) (missing : ∀ pair ∈ pairs, pair.parameter.Missing out)
    (nodup : (pairs.map fun pair => pair.parameter.name).Nodup) :
    (ElementState.of out).pairs (pairs.map Pair.text) =
      some (.of ((pairs.map Pair.parameter).foldl Parameter.put out)) := by
  induction pairs generalizing out with
  | nil => rfl
  | cons pair pairs inductionHypothesis =>
    obtain ⟨here, later⟩ := List.forall_mem_cons.mp missing
    rw [List.map_cons, List.nodup_cons] at nodup
    unfold ElementState.pairs at inductionHypothesis ⊢
    rw [List.map_cons, List.foldlM_cons, pair_text pair here]
    refine inductionHypothesis (fun other member => (later other member).put fun same => ?_) nodup.2
    exact nodup.1 (List.mem_map.mpr ⟨other, member, same⟩)

/-- Empty pairs are passed. -/
theorem pairs_filled (state : ElementState) (parts : List Bytes) :
    state.pairs parts = state.pairs (parts.filter fun part => !part.isEmpty) := by
  induction parts generalizing state with
  | nil => rfl
  | cons part parts inductionHypothesis =>
    unfold ElementState.pairs at inductionHypothesis ⊢
    cases part with
    | nil => exact inductionHypothesis state
    | cons byte rest =>
      have kept : ((byte :: rest) :: parts).filter (fun part => !part.isEmpty) =
          (byte :: rest) :: parts.filter fun part => !part.isEmpty := rfl
      rw [kept, List.foldlM_cons, List.foldlM_cons]
      exact congrArg _ (funext inductionHypothesis)

/-- An element as it is written: its parameters in any order, and empty places between semicolons.
An element without parameters has a semicolon, so that its member is not empty. -/
structure WrittenElement where
  element : Element
  pairs : List (Place Pair)
  each : ((items pairs).map Pair.parameter).Perm element.parameters
  some_ : element.parameters ≠ [] ∨ 2 ≤ pairs.length

namespace WrittenElement

variable (written : WrittenElement)

def text : Bytes := joinPlaces Pair.text semicolon written.pairs

/-- The pairs of an element are split where they were joined. -/
theorem split_text : (splitUnquoted written.text semicolon).filter (fun part => !part.isEmpty) =
    (items written.pairs).map Pair.text := by
  have parts := split_places (.inr rfl) (fun pair (_ : pair ∈ items written.pairs) =>
    pair.closed (.inr rfl)) fun pair _ none_ => by
      rw [pair.trim_text] at none_
      have held := pair.equals_mem
      rw [none_] at held
      cases held
  unfold text
  rw [parts]
  exact List.map_congr_left fun pair _ => pair.trim_text

/-- A written element is read as what it is. -/
theorem element_text : Policy.element (trim written.text) = some written.element.lowered := by
  have names : ((items written.pairs).map fun pair => pair.parameter.name).Nodup := by
    have nodup := written.element.parameters_nodup
    rw [← (written.each.map Parameter.name).nodup_iff, List.map_map] at nodup
    exact nodup
  have parameters : (((items written.pairs).map Pair.parameter).map Parameter.name).Nodup := by
    rw [List.map_map]
    exact names
  have start : ElementState.start = .of {} := rfl
  unfold Policy.element
  rw [splitUnquoted_trim (.inr rfl), pairs_filled, written.split_text, start,
    pairs_texts (items written.pairs) (fun pair _ => by cases pair.parameter <;> rfl) names,
    foldl_put_perm written.each parameters, Element.foldl_put]
  rfl

/-- A written element has no comma that separates. -/
theorem closed : Closed comma written.text := by
  refine closed_joined (closed_plain (List.forall_mem_singleton.mpr (by decide))) ?_
  intro text member
  obtain ⟨place, -, rfl⟩ := List.mem_map.mp member
  exact place.closed (.inl rfl) fun pair _ => pair.closed (.inl rfl)

/-- The member of a written element is not empty. -/
theorem trim_ne_nil : trim written.text ≠ [] := by
  obtain ⟨mark, held, dark⟩ : ∃ mark, mark ∈ written.text ∧ isOws mark = false := by
    rcases written.some_ with some_ | many
    · have filled : (items written.pairs).map Pair.parameter ≠ [] := fun none_ =>
        some_ (List.nil_perm.mp (none_ ▸ written.each))
      obtain ⟨pair, rest, same⟩ := List.exists_cons_of_ne_nil (mt List.map_eq_nil_iff.mpr filled)
      have member : pair ∈ items written.pairs := same ▸ List.mem_cons_self
      obtain ⟨place, held, itsItem⟩ := List.mem_filterMap.mp member
      refine ⟨equals, mem_intercalate_of_mem (List.mem_map_of_mem held) ?_, by decide⟩
      unfold Place.text
      rw [itsItem]
      exact List.mem_append_left _ (List.mem_append_right _ pair.equals_mem)
    · refine ⟨semicolon, separator_mem_intercalate ?_, by decide⟩
      rwa [List.length_map]
  exact List.ne_nil_of_mem (mem_trim held dark)

end WrittenElement

/-- A field value is read as the elements written to it, with their schemes in lower case, and split
nowhere else; the texts that are nodes are those of the grammar whose port 16 bits hold. -/
theorem Forwarded.parse_written :
    (∀ places : List (Place WrittenElement),
      Forwarded.parse (joinPlaces WrittenElement.text comma places) =
          (items places).map (fun written => written.element.lowered) ∧
        filledMembers (joinPlaces WrittenElement.text comma places) =
          (items places).map (fun written => trim written.text) ∧
        ∀ written ∈ items places,
          (splitUnquoted (trim written.text) semicolon).filter (fun part => !part.isEmpty) =
            (items written.pairs).map Pair.text) ∧
      ∀ (text : Bytes) (node : Node), Node.parse text = some node ↔
        NodeText text node ∧ ∀ port ∈ node.port, port.Fits := by
  refine ⟨fun places => ?_, fun text node => Node.parse_iff⟩
  have members : filledMembers (joinPlaces WrittenElement.text comma places) =
      (items places).map fun written => trim written.text :=
    split_places (.inl rfl) (fun written _ => written.closed) fun written _ => written.trim_ne_nil
  refine ⟨?_, members, fun written _ => ?_⟩
  · change (filledMembers _).filterMap element = _
    rw [members, List.filterMap_map]
    refine (List.filterMap_congr fun written _ => written.element_text).trans ?_
    exact congrFun List.filterMap_eq_map' (items places)
  · rw [splitUnquoted_trim (.inr rfl), written.split_text]

/-- A port of the grammar that 16 bits do not hold is no port, and an element without parameters is
lost where nothing is written for it. -/
theorem written_lost :
    (¬∀ text, (Node.parse text).isSome = true ↔ ∃ node, NodeText text node) ∧
      ¬∀ (element : Element) (pairs : List (Place Pair)),
        ((items pairs).map Pair.parameter).Perm element.parameters →
        Forwarded.parse (joinPlaces Pair.text semicolon pairs) = [element.lowered] := by
  constructor
  · intro always
    have address : Ipv4Text (ascii "192.0.2.1") (BitVec.ofNat 32 0xC0000201) :=
      parseIpv4_iff.mp (by decide)
    have port : PortText (ascii "65536") (.number 65536) :=
      .number ⟨by decide, by decide, digits_ten.mpr ⟨by decide, by decide⟩⟩
    have parsed := (always (ascii "192.0.2.1" ++ colon :: ascii "65536")).mpr
      ⟨_, .ported (.plain (.ipv4 address)) port⟩
    exact absurd parsed (by decide)
  · intro always
    have lost := always {} [] List.Perm.nil
    cases lost

end ZeroServer.Policy

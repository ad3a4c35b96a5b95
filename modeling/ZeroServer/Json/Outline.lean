/-
This file says what a sequence of writer calls describes: a document is drawn up call by call, each
open container holding what is closed in it, and has a text of the grammar and a value.
-/

import ZeroServer.Json.RoundTrip

namespace ZeroServer.Json

open Http1 Lib

/-- A call to the writer. -/
inductive Call where
  | beginObject
  | endObject
  | beginArray
  | endArray
  | key (name : List Char)
  | string (text : List Char)
  | int (number : Int64)
  | uint (number : UInt64)
  | bool (flag : Bool)
  | null
  | float (number : Binary64)
  deriving DecidableEq

/-! ### Documents -/

/-- A value as calls describe it. -/
inductive Doc where
  | string (text : List Char)
  | int (number : Int64)
  | uint (number : UInt64)
  | bool (flag : Bool)
  | null
  | float (number : Binary64)
  | array (items : List Doc)
  | object (members : List (List Char × Doc))

namespace Doc

mutual

/-- The calls that describe a document. -/
def calls : Doc → List Call
  | .string text => [.string text]
  | .int number => [.int number]
  | .uint number => [.uint number]
  | .bool flag => [.bool flag]
  | .null => [.null]
  | .float number => [.float number]
  | .array items => .beginArray :: (itemsCalls items ++ [.endArray])
  | .object members => .beginObject :: (membersCalls members ++ [.endObject])

def itemsCalls : List Doc → List Call
  | [] => []
  | item :: rest => calls item ++ itemsCalls rest

def membersCalls : List (List Char × Doc) → List Call
  | [] => []
  | (name, member) :: rest => .key name :: (calls member ++ membersCalls rest)

end

/-- The number an unsigned integer is written as. -/
def unsignedNumber (number : UInt64) : Number := ⟨false, decimal number.toNat, none, none⟩

section Texts

variable (read : Binary64 → Number)

mutual

/-- The text of a document without white space, a float spelled by its number. -/
def text : Doc → Bytes
  | .string text => stringText text
  | .int number => (integerNumber number).text
  | .uint number => (unsignedNumber number).text
  | .bool flag => if flag then ascii "true" else ascii "false"
  | .null => ascii "null"
  | .float number => (read number).text
  | .array items => openBracket :: (itemsText items ++ [closeBracket])
  | .object members => openBrace :: (membersText members ++ [closeBrace])

/-- Items between commas. -/
def itemsText : List Doc → Bytes
  | [] => []
  | item :: rest => text item ++ (Writer.commaIf (!rest.isEmpty) ++ itemsText rest)

/-- Members between commas. -/
def membersText : List (List Char × Doc) → Bytes
  | [] => []
  | (name, member) :: rest =>
    stringText name ++
      colon :: (text member ++ (Writer.commaIf (!rest.isEmpty) ++ membersText rest))

end

mutual

/-- What a document is read as. -/
def value (bigIntegers : BigIntegers) : Doc → Value
  | .string text => .str text
  | .int number => (integerNumber number).value bigIntegers
  | .uint number => (unsignedNumber number).value bigIntegers
  | .bool flag => .bool flag
  | .null => .null
  | .float number => (read number).value bigIntegers
  | .array items => .array (itemsValue bigIntegers items)
  | .object members => .object (mergeRepeated (membersValue bigIntegers members))

def itemsValue (bigIntegers : BigIntegers) : List Doc → List Value
  | [] => []
  | item :: rest => value bigIntegers item :: itemsValue bigIntegers rest

def membersValue (bigIntegers : BigIntegers) : List (List Char × Doc) → List Member
  | [] => []
  | (name, member) :: rest => (name, value bigIntegers member) :: membersValue bigIntegers rest

end

end Texts

/-- A document that nests a number of containers at most, with finite floats. -/
inductive Within : Nat → Doc → Prop where
  | string {depth : Nat} (text : List Char) : Within depth (.string text)
  | int {depth : Nat} (number : Int64) : Within depth (.int number)
  | uint {depth : Nat} (number : UInt64) : Within depth (.uint number)
  | bool {depth : Nat} (flag : Bool) : Within depth (.bool flag)
  | null {depth : Nat} : Within depth .null
  | float {depth : Nat} {number : Binary64} (finite : number.isFinite = true) :
      Within depth (.float number)
  | array {depth : Nat} {items : List Doc} (each : ∀ item ∈ items, Within depth item) :
      Within (depth + 1) (.array items)
  | object {depth : Nat} {members : List (List Char × Doc)}
      (each : ∀ member ∈ members, Within depth member.2) : Within (depth + 1) (.object members)

theorem Within.deeper {depth deeper : Nat} {doc : Doc} (within : Within depth doc)
    (below : depth ≤ deeper) : Within deeper doc := by
  induction within generalizing deeper with
  | string text => exact .string text
  | int number => exact .int number
  | uint number => exact .uint number
  | bool flag => exact .bool flag
  | null => exact .null
  | float finite => exact .float finite
  | array each inductionHypothesis =>
    obtain ⟨deeper, rfl⟩ := Nat.exists_eq_succ_of_ne_zero (Nat.ne_of_gt (Nat.zero_lt_of_lt below))
    exact .array fun item among => inductionHypothesis item among (Nat.le_of_succ_le_succ below)
  | object each inductionHypothesis =>
    obtain ⟨deeper, rfl⟩ := Nat.exists_eq_succ_of_ne_zero (Nat.ne_of_gt (Nat.zero_lt_of_lt below))
    exact .object fun member among =>
      inductionHypothesis member among (Nat.le_of_succ_le_succ below)

/-! ### One more entry -/

theorem itemsCalls_snoc (items : List Doc) (doc : Doc) :
    itemsCalls (items ++ [doc]) = itemsCalls items ++ calls doc := by
  induction items with
  | nil => exact List.append_nil _
  | cons item items inductionHypothesis =>
    rw [List.cons_append, itemsCalls, itemsCalls, inductionHypothesis, List.append_assoc]

theorem membersCalls_snoc (members : List (List Char × Doc)) (name : List Char) (doc : Doc) :
    membersCalls (members ++ [(name, doc)]) = membersCalls members ++ .key name :: calls doc := by
  induction members with
  | nil => exact congrArg (Call.key name :: ·) (List.append_nil _)
  | cons member members inductionHypothesis =>
    rw [List.cons_append, membersCalls, membersCalls, inductionHypothesis, List.cons_append,
      List.append_assoc]

variable (read : Binary64 → Number)

theorem itemsText_snoc (items : List Doc) (doc : Doc) :
    itemsText read (items ++ [doc]) =
      itemsText read items ++ (Writer.commaIf (!items.isEmpty) ++ text read doc) := by
  induction items with
  | nil => exact List.append_nil _
  | cons item items inductionHypothesis =>
    rw [List.cons_append, itemsText, itemsText, inductionHypothesis]
    cases items with
    | nil => simp [Writer.commaIf, itemsText]
    | cons second items => simp [Writer.commaIf]

theorem membersText_snoc (members : List (List Char × Doc)) (name : List Char) (doc : Doc) :
    membersText read (members ++ [(name, doc)]) =
      membersText read members ++ (Writer.commaIf (!members.isEmpty) ++
        (stringText name ++ (colon :: text read doc))) := by
  induction members with
  | nil => simp [membersText, Writer.commaIf]
  | cons member members inductionHypothesis =>
    rw [List.cons_append, membersText, membersText, inductionHypothesis]
    cases members with
    | nil => simp [Writer.commaIf, membersText]
    | cons second members => simp [Writer.commaIf]

/-! ### The grammar -/

theorem unsignedNumber_wellFormed (number : UInt64) : (unsignedNumber number).WellFormed :=
  ⟨digits_decimal _, decimal_leading _, nofun, nofun⟩

theorem unsignedNumber_text (number : UInt64) :
    (unsignedNumber number).text = decimal number.toNat := by
  change [] ++ (decimal number.toNat ++ ([] ++ [])) = _
  rw [List.nil_append, List.append_nil, List.append_nil]

theorem word_le_overflow : 2 ^ 64 ≤ Binary64.overflow := by
  have least : ∀ exponent, 64 ≤ exponent → 2 ^ 64 ≤ 2 ^ exponent * (2 ^ 54 - 1) :=
    fun exponent large => Nat.le_trans (Nat.pow_le_pow_right Nat.zero_lt_two large)
      (Nat.le_mul_of_pos_right _ (by decide))
  exact least 970 (by decide)

theorem unsignedNumber_finite (number : UInt64) : (unsignedNumber number).Finite := by
  have small := Nat.lt_of_lt_of_le number.toNat_lt word_le_overflow
  have digits : (unsignedNumber number).digits = number.toNat := by
    unfold Number.digits unsignedNumber
    dsimp only [Option.getD_none]
    rw [List.append_nil, digitsValue_eq, numeral_decimal]
  unfold Number.Finite
  rw [digits]
  change number.toNat * 10 ^ 0 < 10 ^ 0 * Binary64.overflow
  rwa [Nat.pow_zero, Nat.mul_one, Nat.one_mul]

/-- Which numbers a text of the grammar may have, when it may have all that are written. -/
structure Allows (allowed : Number → Prop) : Prop where
  int : ∀ number, allowed (integerNumber number)
  uint : ∀ number, allowed (unsignedNumber number)
  float : ∀ number, number.isFinite = true → allowed (read number)

variable {read} {allowed : Number → Prop} {bigIntegers : BigIntegers} {depth : Nat}

/-- Items of the grammar are a sequence of it. -/
theorem items_sequence {IsItem : Bytes → Value → Prop} (first : Doc) (rest : List Doc)
    (each : ∀ item ∈ first :: rest, IsItem (text read item) (value read bigIntegers item)) :
    SequenceText IsItem (itemsText read (first :: rest))
      (itemsValue read bigIntegers (first :: rest)) := by
  induction rest generalizing first with
  | nil =>
    have one := each first List.mem_cons_self
    have single := @SequenceText.last _ IsItem [] _ [] _ nofun one nofun
    simpa [itemsText, itemsValue, Writer.commaIf] using single
  | cons second rest inductionHypothesis =>
    have later := inductionHypothesis second fun item among =>
      each item (List.mem_cons_of_mem first among)
    have one := each first List.mem_cons_self
    exact @SequenceText.more _ IsItem [] _ [] _ _ _ nofun one nofun later

theorem members_sequence {IsValue : Bytes → Value → Prop} (first : List Char × Doc)
    (rest : List (List Char × Doc)) (each : ∀ member ∈ first :: rest,
      IsValue (text read member.2) (value read bigIntegers member.2)) :
    SequenceText (MemberText IsValue) (membersText read (first :: rest))
      (membersValue read bigIntegers (first :: rest)) := by
  induction rest generalizing first with
  | nil =>
    have one := each first List.mem_cons_self
    have named := @MemberText.member IsValue _ [] [] _ _ _ (stringText_spells first.1) nofun
      nofun one
    have single := @SequenceText.last _ (MemberText IsValue) [] _ [] _ nofun named nofun
    simpa [membersText, membersValue, Writer.commaIf] using single
  | cons second rest inductionHypothesis =>
    have later := inductionHypothesis second fun member among =>
      each member (List.mem_cons_of_mem first among)
    have one := each first List.mem_cons_self
    have named := @MemberText.member IsValue _ [] [] _ _ _ (stringText_spells first.1) nofun
      nofun one
    have more := @SequenceText.more _ (MemberText IsValue) [] _ [] _ _ _ nofun named nofun later
    simpa [membersText, membersValue, Writer.commaIf] using more

/-- The text of a document is a text of the grammar that stands for its value. -/
theorem Within.spells {doc : Doc} (within : Within depth doc)
    (wellFormed : ∀ number, number.isFinite = true → (read number).WellFormed)
    (allows : Allows read allowed) :
    ValueText allowed bigIntegers depth (text read doc) (value read bigIntegers doc) := by
  induction within with
  | string text => exact ValueText.of_scalar (.string (stringText_spells text))
  | int number =>
    exact ValueText.of_scalar (.number (integerNumber_wellFormed number) (allows.int number))
  | uint number =>
    exact ValueText.of_scalar (.number (unsignedNumber_wellFormed number) (allows.uint number))
  | bool flag =>
    cases flag with
    | false => exact ValueText.of_scalar .false
    | true => exact ValueText.of_scalar .true
  | null => exact ValueText.of_scalar .null
  | float finite =>
    exact ValueText.of_scalar (.number (wellFormed _ finite) (allows.float _ finite))
  | @array _ items each inductionHypothesis =>
    refine .inr (.array ?_)
    cases items with
    | nil => exact @Enclosed.empty _ _ _ _ [] nofun
    | cons first rest => exact .filled (items_sequence first rest inductionHypothesis)
  | @object _ members each inductionHypothesis =>
    refine .inr (.object ?_)
    cases members with
    | nil => exact @Enclosed.empty _ _ _ _ [] nofun
    | cons first rest => exact .filled (members_sequence first rest inductionHypothesis)

end Doc

/-! ### Drawing up -/

/-- An open container: what is closed in it and, in an object, the name whose value is due. -/
inductive Level where
  | array (items : List Doc)
  | object (members : List (List Char × Doc)) (due : Option (List Char))

namespace Level

/-- The calls since it was opened. -/
def calls : Level → List Call
  | .array items => .beginArray :: Doc.itemsCalls items
  | .object members due =>
    .beginObject :: (Doc.membersCalls members ++ (due.map Call.key).toList)

/-- A name whose value is due. -/
def dueText (members : List (List Char × Doc)) : Option (List Char) → Bytes
  | none => []
  | some name => Writer.commaIf (!members.isEmpty) ++ (stringText name ++ [colon])

/-- The text of it so far. -/
def text (read : Binary64 → Number) : Level → Bytes
  | .array items => openBracket :: Doc.itemsText read items
  | .object members due =>
    openBrace :: (Doc.membersText read members ++ dueText members due)

/-- Whether the value of a name is due. -/
def due : Level → Bool
  | .array _ => false
  | .object _ due => due.isSome

def isObject : Level → Bool
  | .array _ => false
  | .object _ _ => true

/-- Whether a value may be put here. -/
def awaits (level : Level) : Bool := !level.isObject || level.due

def filled : Level → Bool
  | .array items => !items.isEmpty
  | .object members due => !members.isEmpty || due.isSome

/-- What separates the next value from what is in front of it. -/
def separator : Level → Bytes
  | .array items => Writer.commaIf (!items.isEmpty)
  | .object _ _ => []

def put (doc : Doc) : Level → Level
  | .array items => .array (items ++ [doc])
  | .object members due => .object (members ++ (due.map fun name => (name, doc)).toList) none

/-- What it is once it is closed. -/
def closed : Level → Doc
  | .array items => .array items
  | .object members _ => .object members

/-- What is closed in it. -/
def docs : Level → List Doc
  | .array items => items
  | .object members _ => members.map Prod.snd

end Level

/-- What calls described so far: the open containers, the innermost one in front, and the value
once it is complete. -/
structure Outline where
  levels : List Level
  root : Option Doc

namespace Outline

/-- Nothing is described. -/
def blank : Outline := ⟨[], none⟩

def awaits (outline : Outline) : Bool :=
  match outline.levels with
  | [] => outline.root.isNone
  | level :: _ => level.awaits

def put (doc : Doc) (outline : Outline) : Outline :=
  match outline.levels with
  | [] => { outline with root := some doc }
  | level :: outer => { outline with levels := level.put doc :: outer }

/-- Put a value where one may be. -/
def value (doc : Doc) (outline : Outline) : Except WriteError Outline :=
  if outline.awaits then .ok (outline.put doc) else .error .misplaced

/-- Open a container where a value may be. -/
def enter (level : Level) (outline : Outline) : Except WriteError Outline :=
  if Writer.maxDepth ≤ outline.levels.length then .error .tooDeep
  else if outline.awaits then .ok { outline with levels := level :: outline.levels }
  else .error .misplaced

/-- Close the innermost container, if it is of the kind and no value is due. -/
def leave (object : Bool) (outline : Outline) : Except WriteError Outline :=
  match outline.levels with
  | [] => .error .misplaced
  | level :: outer =>
    if level.due || level.isObject != object then .error .misplaced
    else .ok (put level.closed { outline with levels := outer })

/-- Name a member of the innermost object. -/
def key (name : List Char) (outline : Outline) : Except WriteError Outline :=
  match outline.levels with
  | .object members none :: outer =>
    .ok { outline with levels := .object members (some name) :: outer }
  | _ => .error .misplaced

/-- What a call makes of it. -/
def accept (outline : Outline) : Call → Except WriteError Outline
  | .beginObject => outline.enter (.object [] none)
  | .endObject => outline.leave true
  | .beginArray => outline.enter (.array [])
  | .endArray => outline.leave false
  | .key name => outline.key name
  | .string text => outline.value (.string text)
  | .int number => outline.value (.int number)
  | .uint number => outline.value (.uint number)
  | .bool flag => outline.value (.bool flag)
  | .null => outline.value .null
  | .float number =>
    if number.isFinite then outline.value (.float number) else .error .nonFinite

def levelsCalls : List Level → List Call
  | [] => []
  | level :: outer => levelsCalls outer ++ level.calls

/-- The calls that describe it. -/
def calls (outline : Outline) : List Call :=
  (outline.root.map Doc.calls).getD [] ++ levelsCalls outline.levels

def separatorOf : List Level → Bytes
  | [] => []
  | level :: _ => level.separator

def levelsText (read : Binary64 → Number) : List Level → Bytes
  | [] => []
  | level :: outer => levelsText read outer ++ (separatorOf outer ++ level.text read)

/-- Its text. -/
def text (read : Binary64 → Number) (outline : Outline) : Bytes :=
  (outline.root.map (Doc.text read)).getD [] ++ levelsText read outline.levels

/-- A level leaves room for the containers in it. -/
def Roomy : List Level → Prop
  | [] => True
  | level :: outer =>
    (∀ doc ∈ level.docs, doc.Within (Writer.maxDepth - (outer.length + 1))) ∧ Roomy outer

/-- What is drawn up call by call: containers around others await them, nothing is complete while
one is open, and no value nests too deep. -/
structure Drawn (outline : Outline) : Prop where
  outer : ∀ level ∈ outline.levels.tail, level.awaits = true
  root : outline.levels ≠ [] → outline.root = none
  shallow : outline.levels.length ≤ Writer.maxDepth
  roomy : Roomy outline.levels
  within : ∀ doc, outline.root = some doc → doc.Within Writer.maxDepth

theorem blank_drawn : blank.Drawn :=
  ⟨nofun, fun open_ => absurd rfl open_, Nat.zero_le _, trivial, nofun⟩

variable {outline next : Outline} {doc : Doc} {read : Binary64 → Number}

variable {level : Level}

theorem level_calls (awaits : level.awaits = true) :
    (level.put doc).calls = level.calls ++ doc.calls := by
  cases level with
  | array items => exact congrArg (Call.beginArray :: ·) (Doc.itemsCalls_snoc items doc)
  | object members due =>
    cases due with
    | none => cases awaits
    | some name =>
      change Call.beginObject :: (Doc.membersCalls (members ++ [(name, doc)]) ++ []) =
        Call.beginObject :: ((Doc.membersCalls members ++ [.key name]) ++ doc.calls)
      rw [Doc.membersCalls_snoc, List.append_nil, List.append_assoc]
      rfl

theorem level_text (awaits : level.awaits = true) :
    (level.put doc).text read = level.text read ++ (level.separator ++ doc.text read) := by
  cases level with
  | array items => exact congrArg (openBracket :: ·) (Doc.itemsText_snoc read items doc)
  | object members due =>
    cases due with
    | none => cases awaits
    | some name =>
      change openBrace :: (Doc.membersText read (members ++ [(name, doc)]) ++ []) =
        openBrace :: ((Doc.membersText read members ++ Level.dueText members (some name)) ++
          ([] ++ doc.text read))
      rw [Doc.membersText_snoc, Level.dueText]
      simp only [List.append_assoc, List.append_nil, List.nil_append, List.cons_append]

theorem put_calls (awaits : outline.awaits = true) :
    (outline.put doc).calls = outline.calls ++ doc.calls := by
  obtain ⟨levels, root⟩ := outline
  cases levels with
  | nil =>
    have empty : root = none := Option.isNone_iff_eq_none.mp awaits
    subst empty
    exact List.append_nil _
  | cons level outer =>
    change (root.map Doc.calls).getD [] ++ (levelsCalls outer ++ (level.put doc).calls) =
      ((root.map Doc.calls).getD [] ++ (levelsCalls outer ++ level.calls)) ++ doc.calls
    rw [level_calls awaits]
    simp only [List.append_assoc]

theorem put_text (awaits : outline.awaits = true) :
    (outline.put doc).text read =
      outline.text read ++ (separatorOf outline.levels ++ doc.text read) := by
  obtain ⟨levels, root⟩ := outline
  cases levels with
  | nil =>
    have empty : root = none := Option.isNone_iff_eq_none.mp awaits
    subst empty
    exact List.append_nil _
  | cons level outer =>
    change (root.map (Doc.text read)).getD [] ++
        (levelsText read outer ++ (separatorOf outer ++ (level.put doc).text read)) =
      ((root.map (Doc.text read)).getD [] ++
        (levelsText read outer ++ (separatorOf outer ++ level.text read))) ++
        (level.separator ++ doc.text read)
    rw [level_text awaits]
    simp only [List.append_assoc]

theorem docs_put {other : Doc} (among : other ∈ (level.put doc).docs) :
    other ∈ level.docs ∨ other = doc := by
  cases level with
  | array items => exact (List.mem_append.mp among).imp_right List.mem_singleton.mp
  | object members due =>
    cases due with
    | none =>
      change other ∈ (members ++ []).map Prod.snd at among
      rw [List.append_nil] at among
      exact .inl among
    | some name =>
      change other ∈ (members ++ [(name, doc)]).map Prod.snd at among
      rw [List.map_append] at among
      exact (List.mem_append.mp among).imp_right List.mem_singleton.mp

/-- A value with room where it is put is drawn up with the rest. -/
theorem Drawn.put (drawn : outline.Drawn)
    (within : doc.Within (Writer.maxDepth - outline.levels.length)) : (outline.put doc).Drawn := by
  obtain ⟨levels, root⟩ := outline
  cases levels with
  | nil =>
    refine ⟨nofun, fun open_ => absurd rfl open_, Nat.zero_le _, trivial, fun other same => ?_⟩
    rw [← Option.some_inj.mp same]
    exact within
  | cons level outer =>
    refine ⟨drawn.outer, fun _ => drawn.root (List.cons_ne_nil _ _), drawn.shallow,
      ⟨fun other among => ?_, drawn.roomy.2⟩, drawn.within⟩
    rcases docs_put among with known | rfl
    · exact drawn.roomy.1 other known
    · exact within

end Outline

end ZeroServer.Json

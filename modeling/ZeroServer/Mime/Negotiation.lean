/-
This file is about the ranges negotiation reads from a well-formed value, and about the type it then
chooses: one of the highest weight, where a type has the weight of the first of the most specific
ranges that cover it.
-/

import Mathlib.Data.List.Pairwise
import ZeroServer.Mime.Accept

namespace ZeroServer.Mime

open Http1 Lib

variable {kind subtype : Bytes}

/-! ### Parameters and separators -/

variable {text : Bytes} {slots : List Slot}

theorem eqIgnoreAsciiCase_comm (left right : Bytes) :
    eqIgnoreAsciiCase left right = eqIgnoreAsciiCase right left := by
  unfold eqIgnoreAsciiCase
  exact Bool.eq_iff_iff.mpr (by rw [beq_iff_eq, beq_iff_eq]; exact eq_comm)

theorem eqIgnoreAsciiCase_trans {left middle right : Bytes}
    (one : eqIgnoreAsciiCase left middle = true) (two : eqIgnoreAsciiCase right middle = true) :
    eqIgnoreAsciiCase left right = true := by
  unfold eqIgnoreAsciiCase at one two ⊢
  rw [beq_iff_eq] at one two ⊢
  exact one.trans two.symm

theorem tchar_plain {byte : UInt8} (word : isTchar byte = true) : byte ≠ comma ∧ byte ≠ sp := by
  have all : ∀ byte : Fin 256, isTchar ⟨⟨byte⟩⟩ = true →
      (⟨⟨byte⟩⟩ : UInt8) ≠ comma ∧ (⟨⟨byte⟩⟩ : UInt8) ≠ sp := by decide +kernel
  exact all byte.toBitVec.toFin word

/-- Neither a comma nor a semicolon is among the bytes. -/
def Unmarked (text : Bytes) : Prop := ∀ byte ∈ text, byte ≠ comma ∧ byte ≠ semicolon

theorem Unmarked.append {front behind : Bytes} (one : Unmarked front) (two : Unmarked behind) :
    Unmarked (front ++ behind) := fun byte member =>
  (List.mem_append.mp member).elim (one byte) (two byte)

theorem Unmarked.noSemicolon (plain : Unmarked text) : semicolon ∉ text :=
  fun member => (plain _ member).2 rfl

theorem Token.unmarked (token : Token) : Unmarked token.text := fun byte member =>
  ⟨(tchar_plain (token.word byte member)).1, (tchar_apart (token.word byte member)).2.2.1⟩

theorem Blank.unmarked (blank : Blank) : Unmarked blank.text := by
  intro byte member
  have fits := blank.blank byte member
  refine ⟨fun same => ?_, fun same => ?_⟩ <;> rw [same] at fits <;> exact absurd fits (by decide)

theorem Letter.unmarked {letter : Letter} (plain : letter.byte ≠ comma ∧ letter.byte ≠ semicolon) :
    Unmarked letter.text := by
  rcases letter with ⟨byte, fits⟩ | ⟨byte, fits⟩
  · exact List.forall_mem_singleton.mpr plain
  · exact List.forall_mem_cons.mpr ⟨by decide, List.forall_mem_singleton.mpr plain⟩

theorem unmarked_parameter {name : Token} {value : Value}
    (quoted : ∀ letters, value = .quoted letters →
      ∀ letter ∈ letters, letter.byte ≠ comma ∧ letter.byte ≠ semicolon) :
    Unmarked (parameterText (some (name, value))) := by
  refine name.unmarked.append (List.forall_mem_cons.mpr ⟨by decide, ?_⟩)
  rcases value with word | letters
  · exact word.unmarked
  · refine List.forall_mem_cons.mpr ⟨by decide, Unmarked.append ?_
      (List.forall_mem_singleton.mpr (by decide))⟩
    intro byte member
    obtain ⟨letter, inside, held⟩ := List.mem_flatMap.mp member
    exact Letter.unmarked (quoted letters rfl letter inside) byte held

/-- A slot whose parameter holds neither a comma nor a semicolon. -/
def Slot.Unmarked (slot : Slot) : Prop := Mime.Unmarked (parameterText slot.parameter)

theorem unmarked_nothing : Unmarked (parameterText none) := fun _ member =>
  absurd member List.not_mem_nil

theorem Plain.unmarked (plain : Plain slots) : ∀ slot ∈ slots, slot.Unmarked := by
  rintro ⟨before, after, - | ⟨name, value⟩⟩ member
  · exact unmarked_nothing
  · have held : (name, value) ∈ parametersOf slots :=
      List.mem_filterMap.mpr ⟨_, member, rfl⟩
    exact unmarked_parameter fun letters same => plain.quoted _ held letters same

theorem Quality.slot_unmarked (quality : Quality) : quality.slot.Unmarked :=
  unmarked_parameter nofun

theorem Member.slots_unmarked (member : Member) : ∀ slot ∈ member.slots, slot.Unmarked := by
  intro slot held
  rcases List.mem_append.mp held with early | late
  · rcases List.mem_append.mp early with front | quality
    · exact member.frontPlain.unmarked slot front
    · obtain ⟨weighed, -, rfl⟩ := List.mem_map.mp quality
      exact weighed.slot_unmarked
  · exact member.behindPlain.unmarked slot late

/-! ### What a parameter weighs -/

theorem pieceWeight_padded {piece before after : Bytes}
    (blank : ∀ byte ∈ before, isOws byte = true) (blank' : ∀ byte ∈ after, isOws byte = true) :
    pieceWeight (before ++ piece ++ after) = pieceWeight piece := by
  unfold pieceWeight trim
  rw [trimBoth_back blank', trimBoth_front blank]

theorem trim_token (token : Token) : trim token.text = token.text := by
  have plain := fun byte member => (tchar_apart (token.word byte member)).1
  have whole := @trimBoth_padded _ isOws _ [] [] nofun nofun
    token.some_ (fun byte first => plain byte (List.mem_of_head? first))
    (fun byte last => plain byte (List.mem_of_getLast? last))
  rwa [List.nil_append, List.append_nil] at whole

theorem Value.last_dark (value : Value) : ∀ byte ∈ value.text.getLast?, isOws byte = false := by
  intro byte last
  rcases value with word | letters
  · exact (tchar_apart (word.word byte (List.mem_of_getLast? last))).1
  · have closed : (Value.quoted letters).text.getLast? = some quote := List.getLast?_concat
    rw [closed] at last
    cases last
    decide

theorem Value.text_some (value : Value) : value.text ≠ [] := by
  rcases value with word | letters
  · exact word.some_
  · exact List.cons_ne_nil _ _

theorem trim_parameter (name : Token) (value : Value) :
    trim (parameterText (some (name, value))) = parameterText (some (name, value)) := by
  have whole := @trimBoth_padded _ isOws
    (parameterText (some (name, value))) [] [] nofun nofun
    (List.append_ne_nil_of_right_ne_nil _ (List.cons_ne_nil _ _)) ?_ ?_
  · rwa [List.nil_append, List.append_nil] at whole
  · obtain ⟨byte, rest, same, word⟩ := name.exists_cons
    intro first head
    rw [parameterText, same] at head
    cases head
    exact (tchar_apart word).1
  · intro byte last
    have some_ : value.text.getLast? = some (value.text.getLast value.text_some) :=
      List.getLast?_eq_some_getLast value.text_some
    rw [parameterText, List.getLast?_append, List.getLast?_cons, some_] at last
    exact value.last_dark byte (some_.trans last)

/-- A parameter weighs something exactly if it is named `q`. -/
theorem pieceWeight_parameter (name : Token) (value : Value) :
    pieceWeight (parameterText (some (name, value))) =
      if eqIgnoreAsciiCase name.text letterQ = false then none
      else some ((qvalue (trim value.text)).getD 1000) := by
  have found : (parameterText (some (name, value))).findIdx? (· == equals) =
      some name.text.length :=
    findIdx?_mark (fun held => (tchar_apart (name.word _ held)).2.2.2.2.1 rfl) _
  have named : (parameterText (some (name, value))).take name.text.length = name.text :=
    List.take_left
  have valued : (parameterText (some (name, value))).drop (name.text.length + 1) = value.text := by
    rw [parameterText, List.drop_append, List.drop_of_length_le (Nat.le_add_right _ _),
      Nat.add_sub_cancel_left]
    rfl
  simp only [pieceWeight, trim_parameter, found, Option.bind_some, named, valued, trim_token]

theorem pieceWeight_nothing : pieceWeight (parameterText none) = none := rfl

theorem Plain.weightless (plain : Plain slots) :
    slots.findSome? (fun slot => pieceWeight (parameterText slot.parameter)) = none := by
  refine List.findSome?_eq_none_iff.mpr ?_
  rintro ⟨before, after, - | ⟨name, value⟩⟩ member
  · exact pieceWeight_nothing
  · have held : (name, value) ∈ parametersOf slots :=
      List.mem_filterMap.mpr ⟨_, member, rfl⟩
    rw [pieceWeight_parameter, if_pos (plain.other _ held)]

theorem Quality.slot_weight (quality : Quality) :
    pieceWeight (parameterText quality.slot.parameter) = some quality.value.value := by
  rw [slot, pieceWeight_parameter, quality.token_isQ, if_neg (Ne.symm Bool.false_ne_true),
    Value.text, trim_token, Qvalue.token, quality.value.qvalue_text]
  rfl

theorem Member.slots_weight (member : Member) :
    (member.slots.findSome? fun slot => pieceWeight (parameterText slot.parameter)).getD 1000 =
      member.weight := by
  unfold slots weight
  rw [List.findSome?_append, List.findSome?_append, member.frontPlain.weightless,
    member.behindPlain.weightless, Option.none_or, Option.or_none]
  rcases member.quality with - | quality
  · rfl
  · rw [Option.toList_some, List.map_singleton, List.findSome?_singleton, quality.slot_weight]
    rfl

/-! ### The pieces between semicolons -/

/-- The weight in a text of parameters is that of the first piece or slot that weighs something. -/
theorem pieces_weight (plain : ∀ slot ∈ slots, slot.Unmarked) {piece : Bytes}
    (unmarked : semicolon ∉ piece) :
    ((piece ++ slots.flatMap Slot.text).splitOn semicolon).findSome? pieceWeight =
      (pieceWeight piece).or
        (slots.findSome? fun slot => pieceWeight (parameterText slot.parameter)) := by
  induction slots generalizing piece with
  | nil =>
    rw [List.flatMap_nil, List.append_nil, List.splitOn_eq_singleton unmarked,
      List.findSome?_singleton, List.findSome?_nil, Option.or_none]
  | cons slot slots inductionHypothesis =>
    obtain ⟨here, later⟩ := List.forall_mem_cons.mp plain
    have apart : piece ++ (slot :: slots).flatMap Slot.text =
        (piece ++ slot.before.text) ++ semicolon ::
          ((slot.after.text ++ parameterText slot.parameter) ++ slots.flatMap Slot.text) := by
      rw [List.flatMap_cons, Slot.text]
      simp only [List.append_assoc, List.cons_append]
    have front : semicolon ∉ piece ++ slot.before.text := fun held =>
      (List.mem_append.mp held).elim unmarked slot.before.unmarked.noSemicolon
    have behind : semicolon ∉ slot.after.text ++ parameterText slot.parameter :=
      (slot.after.unmarked.append here).noSemicolon
    have first : pieceWeight (piece ++ slot.before.text) = pieceWeight piece := by
      have padded := @pieceWeight_padded piece [] _ (List.forall_mem_nil _) slot.before.blank
      rwa [List.nil_append] at padded
    have second : pieceWeight (slot.after.text ++ parameterText slot.parameter) =
        pieceWeight (parameterText slot.parameter) := by
      have padded := @pieceWeight_padded (parameterText slot.parameter) _ []
        slot.after.blank (List.forall_mem_nil _)
      rwa [List.append_nil] at padded
    rw [apart, List.splitOn_append_cons_self, List.splitOn_eq_singleton front,
      List.findSome?_append, List.findSome?_singleton, first, inductionHypothesis later behind,
      second, List.findSome?_cons]
    rcases pieceWeight (parameterText slot.parameter) with - | weight <;> rfl

/-- Blanks at the end of the parameters change no weight. -/
theorem weight_blank_end {text blanks : Bytes} (blank : ∀ byte ∈ blanks, isOws byte = true) :
    ((text ++ blanks).splitOn semicolon).findSome? pieceWeight =
      (text.splitOn semicolon).findSome? pieceWeight := by
  induction size : text.length using Nat.strongRecOn generalizing text with
  | ind length inductionHypothesis =>
    have unmarked : semicolon ∉ blanks := (Blank.mk blanks blank).unmarked.noSemicolon
    by_cases held : semicolon ∈ text
    · obtain ⟨front, behind, rfl⟩ := List.append_of_mem held
      rw [List.length_append, List.length_cons] at size
      rw [List.append_assoc, List.cons_append, List.splitOn_append_cons_self,
        List.splitOn_append_cons_self, List.findSome?_append, List.findSome?_append,
        inductionHypothesis behind.length (by omega) rfl]
    · have padded := @pieceWeight_padded text [] _ nofun blank
      rw [List.nil_append] at padded
      rw [List.splitOn_eq_singleton held, List.splitOn_eq_singleton fun inside =>
          (List.mem_append.mp inside).elim held unmarked, List.findSome?_singleton,
        List.findSome?_singleton, padded]

/-! ### The ranges of a value -/

namespace Member

variable (member : Member)

theorem exists_cons : ∃ byte rest, member.essence = byte :: rest ∧ isOws byte = false := by
  obtain ⟨byte, rest, same, word⟩ := member.kind.exists_cons
  exact ⟨byte, rest ++ slash :: member.subtype.text, by rw [essence, same]; rfl,
    (tchar_apart word).1⟩

theorem essence_last : ∀ byte ∈ member.essence.getLast?, isOws byte = false := by
  intro byte last
  have some_ : member.subtype.text.getLast? = some (member.subtype.text.getLast _) :=
    List.getLast?_eq_some_getLast member.subtype.some_
  rw [essence, List.getLast?_append, List.getLast?_cons, some_] at last
  exact (tchar_apart (member.subtype.word byte
    (List.mem_of_getLast? (some_.trans last)))).1

theorem essence_unmarked : Unmarked member.essence :=
  member.kind.unmarked.append (List.forall_mem_cons.mpr ⟨by decide, member.subtype.unmarked⟩)

theorem trim_essence {before after : Bytes} (blank : ∀ byte ∈ before, isOws byte = true)
    (blank' : ∀ byte ∈ after, isOws byte = true) :
    trim (before ++ member.essence ++ after) = member.essence := by
  obtain ⟨first, rest, same, dark⟩ := member.exists_cons
  refine trimBoth_padded blank blank' (same ▸ List.cons_ne_nil _ _) ?_ member.essence_last
  intro byte head
  rw [same] at head
  cases head
  exact dark

theorem splitEssence_essence :
    splitEssence member.essence = some (member.kind.text, member.subtype.text) := by
  have found : member.essence.findIdx? (· == slash) = some member.kind.text.length :=
    findIdx?_mark (fun held => (tchar_apart (member.kind.word _ held)).2.2.2.1 rfl) _
  have second : member.essence.drop (member.kind.text.length + 1) = member.subtype.text := by
    rw [essence, List.drop_append, List.drop_of_length_le (Nat.le_add_right _ _),
      Nat.add_sub_cancel_left]
    rfl
  rw [splitEssence, found, Option.map_some, second, essence, List.take_left]

theorem text_unmarked_comma : comma ∉ member.text := by
  rw [text_eq]
  intro held
  rcases List.mem_append.mp held with inEssence | inSlots
  · exact (member.essence_unmarked _ inEssence).1 rfl
  · obtain ⟨slot, inside, here⟩ := List.mem_flatMap.mp inSlots
    rcases List.mem_append.mp here with front | parameter
    · rcases List.mem_append.mp front with before | behind
      · exact (slot.before.unmarked _ before).1 rfl
      · rcases List.mem_cons.mp behind with mark | after
        · exact absurd mark (by decide)
        · exact (slot.after.unmarked _ after).1 rfl
    · exact (member.slots_unmarked slot inside _ parameter).1 rfl

/-- Blanks around the text go, and blanks at its end with them. -/
theorem trim_text (before after : Blank) :
    trim (before.text ++ member.text ++ after.text) =
      member.essence ++ (member.slots.flatMap Slot.text).rdropWhile isOws := by
  obtain ⟨first, rest, same, dark⟩ := member.exists_cons
  unfold trim
  rw [trimBoth_back after.blank, trimBoth_front before.blank, text_eq]
  refine trimBoth_behind (same ▸ List.cons_ne_nil _ _) ?_ member.essence_last _
  intro byte head
  rw [same] at head
  cases head
  exact dark

/-- What is kept of the parameters begins with a semicolon behind blanks, if there are any. -/
theorem kept_slots :
    (member.slots = [] ∧ (member.slots.flatMap Slot.text).rdropWhile isOws = []) ∨
      ∃ blank rest, (member.slots.flatMap Slot.text).rdropWhile isOws =
          blank ++ semicolon :: rest ∧ (∀ byte ∈ blank, isOws byte = true) ∧
        (rest.splitOn semicolon).findSome? pieceWeight =
          member.slots.findSome? fun slot => pieceWeight (parameterText slot.parameter) := by
  have plain := member.slots_unmarked
  generalize member.slots = slots at plain ⊢
  rcases slots with - | ⟨slot, slots⟩
  · exact .inl ⟨rfl, rfl⟩
  · right
    obtain ⟨here, later⟩ := List.forall_mem_cons.mp plain
    have whole : (slot :: slots).flatMap Slot.text =
        slot.before.text ++ semicolon ::
          ((slot.after.text ++ parameterText slot.parameter) ++ slots.flatMap Slot.text) := by
      rw [List.flatMap_cons, Slot.text]
      simp only [List.append_assoc, List.cons_append]
    generalize behind : (slot.after.text ++ parameterText slot.parameter) ++
      slots.flatMap Slot.text = rest at whole
    have kept : ((slot :: slots).flatMap Slot.text).rdropWhile isOws =
        slot.before.text ++ semicolon :: rest.rdropWhile isOws := by
      rw [whole]
      exact rdropWhile_mark ows_semicolon _ _
    refine ⟨slot.before.text, rest.rdropWhile isOws, kept, slot.before.blank, ?_⟩
    have parts : rest.rdropWhile isOws ++ rest.rtakeWhile isOws = rest :=
      List.rdropWhile_append_rtakeWhile
    have same := @weight_blank_end (rest.rdropWhile isOws) (rest.rtakeWhile isOws)
      fun byte held => List.mem_rtakeWhile_imp held
    rw [parts] at same
    have unmarked : semicolon ∉ slot.after.text ++ parameterText slot.parameter :=
      (slot.after.unmarked.append here).noSemicolon
    have padded := @pieceWeight_padded (parameterText slot.parameter) _ []
      slot.after.blank (List.forall_mem_nil _)
    rw [List.append_nil] at padded
    rw [← same, ← behind, pieces_weight later unmarked, padded, List.findSome?_cons]
    rcases pieceWeight (parameterText slot.parameter) with - | weight <;> rfl

/-- The range of a member is read from it whatever blanks are around it. -/
theorem rangeOf_text (before after : Blank) :
    rangeOf (before.text ++ member.text ++ after.text) = some member.range := by
  obtain ⟨first, rest, same, dark⟩ := member.exists_cons
  have split : ∀ parameters : Bytes, Mime.weight parameters = member.weight →
      ((splitEssence member.essence).bind fun parts =>
        if parts.1 = [] ∨ parts.2 = [] ∨ (parts.1 ++ parts.2).any (· == sp) then none
        else some (⟨parts.1, parts.2, Mime.weight parameters⟩ : Range)) = some member.range := by
    intro parameters weighed
    rw [splitEssence_essence, Option.bind_some]
    have plain : ((member.kind.text ++ member.subtype.text).any (· == sp)) = false := by
      refine List.any_eq_false.mpr fun byte held => ?_
      rw [beq_iff_eq]
      rcases List.mem_append.mp held with one | two
      · exact (tchar_plain (member.kind.word byte one)).2
      · exact (tchar_plain (member.subtype.word byte two)).2
    dsimp only
    rw [if_neg, weighed]
    · rfl
    · rintro (none_ | none_ | space)
      · exact member.kind.some_ none_
      · exact member.subtype.some_ none_
      · exact Bool.false_ne_true (plain.symm.trans space)
  unfold rangeOf
  rw [trim_text]
  have some_ : member.essence ++ (member.slots.flatMap Slot.text).rdropWhile isOws ≠ [] := by
    rw [same]
    exact List.cons_ne_nil _ _
  rw [if_neg some_]
  rcases member.kept_slots with ⟨none_, kept⟩ | ⟨blank, parameters, kept, blanks, weights⟩
  · have unfound : (member.essence ++ []).findIdx? (· == semicolon) = none := by
      rw [List.append_nil]
      exact findIdx?_plain member.essence_unmarked.noSemicolon
    rw [kept, unfound, List.append_nil]
    refine split [] ?_
    have weighed := member.slots_weight
    rw [none_] at weighed
    exact weighed
  · have found : (member.essence ++ (blank ++ semicolon :: parameters)).findIdx? (· == semicolon) =
        some (member.essence ++ blank).length := by
      rw [← List.append_assoc]
      exact findIdx?_mark (member.essence_unmarked.append
        (Blank.mk blank blanks).unmarked).noSemicolon parameters
    have taken : (member.essence ++ (blank ++ semicolon :: parameters)).take
        (member.essence ++ blank).length = member.essence ++ blank := by
      rw [← List.append_assoc, List.take_left]
    have left : (member.essence ++ (blank ++ semicolon :: parameters)).drop
        (member.essence ++ blank).length = semicolon :: parameters := by
      rw [← List.append_assoc, List.drop_left]
    have trimmed : trim (member.essence ++ blank) = member.essence := by
      have whole := @Member.trim_essence member [] _ (List.forall_mem_nil _) blanks
      rwa [List.nil_append] at whole
    rw [kept, found]
    dsimp only
    rw [taken, left, trimmed]
    refine split (semicolon :: parameters) ?_
    have pieces : (semicolon :: parameters).splitOn semicolon =
        [] :: parameters.splitOn semicolon := by
      have cut := List.splitOn_append_cons_self (a := semicolon) [] parameters
      rwa [List.nil_append] at cut
    rw [← member.slots_weight, Mime.weight, pieces, List.findSome?_cons, ← weights]
    rfl

end Member

theorem rangeOf_blank (blank : ∀ byte ∈ text, isOws byte = true) :
    rangeOf text = none := if_pos (trimBoth_blank blank)

theorem Element.rangeOf_text (element : Element) :
    rangeOf element.text = element.member.map Member.range := by
  rcases element with ⟨before, after, - | member⟩
  · refine rangeOf_blank fun byte held => ?_
    rw [text, Option.elim_none, List.append_nil] at held
    exact (List.mem_append.mp held).elim (before.blank byte) (after.blank byte)
  · exact member.rangeOf_text before after

theorem Element.text_plain (element : Element) : comma ∉ element.text := by
  obtain ⟨before, after, member⟩ := element
  intro held
  rcases List.mem_append.mp held with early | late
  · rcases List.mem_append.mp early with front | inside
    · exact (before.unmarked _ front).1 rfl
    · rcases member with - | member
      · exact absurd inside List.not_mem_nil
      · exact member.text_unmarked_comma inside
  · exact (after.unmarked _ late).1 rfl

/-- The ranges of a value are those of its members. -/
theorem ranges_acceptText (elements : List Element) :
    ranges (acceptText elements) = (membersOf elements).map Member.range := by
  rcases elements with - | ⟨element, elements⟩
  · rfl
  · have plain : ∀ text ∈ (element :: elements).map Element.text, comma ∉ text := by
      intro text held
      obtain ⟨element, -, rfl⟩ := List.mem_map.mp held
      exact element.text_plain
    rw [ranges, acceptText, List.splitOn_intercalate comma plain (List.cons_ne_nil _ _), membersOf,
      List.filterMap_map, List.map_filterMap]
    exact List.filterMap_congr fun element _ => element.rangeOf_text

/-! ### The choice -/

/-- How specifically a range covers a type: every type, all of a kind, or one. -/
inductive Covers (member : Member) (kind subtype : Bytes) : Nat → Prop
  | every : member.kind.text = [star] → member.subtype.text = [star] → Covers member kind subtype 1
  | kind : member.kind.text ≠ [star] → eqIgnoreAsciiCase member.kind.text kind = true →
    member.subtype.text = [star] → Covers member kind subtype 2
  | one : member.kind.text ≠ [star] → eqIgnoreAsciiCase member.kind.text kind = true →
    member.subtype.text ≠ [star] → eqIgnoreAsciiCase member.subtype.text subtype = true →
    Covers member kind subtype 3

theorem covers_iff {member : Member} {level : Nat} :
    Covers member kind subtype level ↔
      0 < level ∧ member.range.specificity kind subtype = level := by
  have read : member.range.specificity kind subtype =
      if member.kind.text = [star] then if member.subtype.text = [star] then 1 else 0
      else if eqIgnoreAsciiCase member.kind.text kind = false then 0
      else if member.subtype.text = [star] then 2
      else if eqIgnoreAsciiCase member.subtype.text subtype then 3
      else 0 := rfl
  have apart : ∀ {test : Bool}, test = true → test ≠ false := fun same => same ▸ nofun
  rw [read]
  constructor
  · rintro (⟨every, all⟩ | ⟨some_, same, all⟩ | ⟨some_, same, some_', same'⟩)
    · exact ⟨Nat.one_pos, by rw [if_pos every, if_pos all]⟩
    · exact ⟨Nat.two_pos, by rw [if_neg some_, if_neg (apart same), if_pos all]⟩
    · exact ⟨Nat.succ_pos 2, by
        rw [if_neg some_, if_neg (apart same), if_neg some_', if_pos same']⟩
  · rintro ⟨positive, found⟩
    split at found
    · next every =>
      split at found
      · next all => exact found ▸ .every every all
      · exact absurd found (Nat.ne_of_lt positive)
    · next some_ =>
      split at found
      · exact absurd found (Nat.ne_of_lt positive)
      · next same =>
        split at found
        · next all => exact found ▸ .kind some_ (eq_true_of_ne_false same) all
        · next some_' =>
          split at found
          · next same' =>
            exact found ▸ .one some_ (eq_true_of_ne_false same) some_' same'
          · exact absurd found (Nat.ne_of_lt positive)

/-- The type and what is behind its first slash. -/
def Essence (mediaType kind subtype : Bytes) : Prop :=
  slash ∉ kind ∧ mediaType = kind ++ slash :: subtype

theorem essence_iff {mediaType : Bytes} :
    Essence mediaType kind subtype ↔ splitEssence mediaType = some (kind, subtype) := by
  constructor
  · rintro ⟨plain, rfl⟩
    rw [splitEssence, findIdx?_mark plain, Option.map_some, List.take_left, List.drop_append,
      List.drop_of_length_le (Nat.le_add_right _ _), Nat.add_sub_cancel_left]
    rfl
  · intro split
    obtain ⟨place, found, same⟩ := Option.map_eq_some_iff.mp split
    cases same
    exact findIdx?_split found

/-- The range whose weight a type has: the first of the most specific ones that cover it. -/
def Decides (members : List Member) (mediaType : Bytes) (member : Member) : Prop :=
  ∃ kind subtype level front behind, Essence mediaType kind subtype ∧
    members = front ++ member :: behind ∧ Covers member kind subtype level ∧
    (∀ other ∈ front, ∀ found, Covers other kind subtype found → found < level) ∧
    ∀ other ∈ behind, ∀ found, Covers other kind subtype found → found ≤ level

/-- A type is acceptable with a weight that is not zero. -/
def Acceptable (members : List Member) (mediaType : Bytes) (weight : Nat) : Prop :=
  0 < weight ∧ ∃ member, Decides members mediaType member ∧ member.weight = weight

/-- The place of the first of the types that are acceptable with the highest weight. -/
def Chosen (members : List Member) (available : List Bytes) (place : Nat) : Prop :=
  ∃ front mediaType behind weight, available = front ++ mediaType :: behind ∧
    place = front.length ∧ Acceptable members mediaType weight ∧
    (∀ other ∈ front, ∀ found, Acceptable members other found → found < weight) ∧
    ∀ other ∈ behind, ∀ found, Acceptable members other found → found ≤ weight

/-- Two ranges that are not the same up to letter case. -/
def Apart (one two : Member) : Prop :=
  ¬ (eqIgnoreAsciiCase one.kind.text two.kind.text = true ∧
    eqIgnoreAsciiCase one.subtype.text two.subtype.text = true)

variable {members : List Member} {mediaType : Bytes} {member : Member} {weight : Nat}

/-- How specific the range of a member is for a type. -/
def rankOf (kind subtype : Bytes) (member : Member) : Nat := member.range.specificity kind subtype

theorem decides_iff : Decides members mediaType member ↔
    ∃ kind subtype, splitEssence mediaType = some (kind, subtype) ∧
      Picked (rankOf kind subtype) members member := by
  constructor
  · rintro ⟨kind, subtype, level, front, behind, essence, split, covers, before, after⟩
    obtain ⟨positive, rfl⟩ := covers_iff.mp covers
    refine ⟨kind, subtype, essence_iff.mp essence, positive, front, behind, split, ?_, ?_⟩
    · intro other inside
      rcases Nat.eq_zero_or_pos (rankOf kind subtype other) with zero | some_
      · exact zero ▸ positive
      · exact before other inside _ (covers_iff.mpr ⟨some_, rfl⟩)
    · intro other inside
      rcases Nat.eq_zero_or_pos (rankOf kind subtype other) with zero | some_
      · exact zero ▸ Nat.zero_le _
      · exact after other inside _ (covers_iff.mpr ⟨some_, rfl⟩)
  · rintro ⟨kind, subtype, essence, positive, front, behind, split, before, after⟩
    refine ⟨kind, subtype, _, front, behind, essence_iff.mpr essence, split,
      covers_iff.mpr ⟨positive, rfl⟩, ?_, ?_⟩
    · intro other inside found covers
      exact (covers_iff.mp covers).2 ▸ before other inside
    · intro other inside found covers
      exact (covers_iff.mp covers).2 ▸ after other inside

/-- A type is acceptable with the weight it gets, unless that is zero. -/
theorem acceptable_iff : Acceptable members mediaType weight ↔
    0 < weight ∧ typeWeight (members.map Member.range) mediaType = weight := by
  refine and_congr_right fun positive => ?_
  unfold typeWeight
  constructor
  · rintro ⟨member, decides, rfl⟩
    obtain ⟨kind, subtype, essence, picked⟩ := decides_iff.mp decides
    have found : pick (fun member : Member => member.range.specificity kind subtype) members =
        some member := pick_iff.mpr picked
    rw [essence]
    dsimp only
    rw [pick_map, found]
    rfl
  · intro weighs
    rcases essence : splitEssence mediaType with - | ⟨kind, subtype⟩
    · rw [essence] at weighs
      exact absurd weighs (Nat.ne_of_lt positive)
    · rw [essence] at weighs
      dsimp only at weighs
      rw [pick_map] at weighs
      rcases picked : pick (rankOf kind subtype) members with - | member
      · exact absurd ((congrArg (fun held => (held.map Member.range).elim 0 Range.weight)
          picked).symm.trans weighs) (Nat.ne_of_lt positive)
      · refine ⟨member, decides_iff.mpr ⟨kind, subtype, essence, pick_iff.mp picked⟩, ?_⟩
        exact (congrArg (fun held => (held.map Member.range).elim 0 Range.weight)
          picked).symm.trans weighs

/-- What is picked of the types with their places. -/
theorem pick_places {rank : Bytes → Nat} {available : List Bytes} {place : Nat} :
    (pick (fun entry : Bytes × Nat => rank entry.1) available.zipIdx).map Prod.snd = some place ↔
      ∃ front mediaType behind, available = front ++ mediaType :: behind ∧
        place = front.length ∧ 0 < rank mediaType ∧
        (∀ other ∈ front, rank other < rank mediaType) ∧
        ∀ other ∈ behind, rank other ≤ rank mediaType := by
  rw [Option.map_eq_some_iff]
  constructor
  · rintro ⟨⟨mediaType, place⟩, picked, rfl⟩
    obtain ⟨positive, front, behind, split, before, after⟩ := pick_iff.mp picked
    have types : available = front.map Prod.fst ++ mediaType :: behind.map Prod.fst := by
      have all := congrArg (List.map Prod.fst) split
      rwa [List.zipIdx_map_fst, List.map_append, List.map_cons] at all
    have here : available.zipIdx[front.length]? = some (mediaType, place) := by
      rw [split, List.getElem?_append_right (Nat.le_refl _), Nat.sub_self]
      rfl
    refine ⟨_, mediaType, _, types, ?_, positive, ?_, ?_⟩
    · rw [List.getElem?_zipIdx, Nat.zero_add] at here
      obtain ⟨_, -, same⟩ := Option.map_eq_some_iff.mp here
      rw [List.length_map]
      exact (Prod.mk.inj same).2.symm
    · intro other inside
      obtain ⟨entry, held, rfl⟩ := List.mem_map.mp inside
      exact before entry held
    · intro other inside
      obtain ⟨entry, held, rfl⟩ := List.mem_map.mp inside
      exact after entry held
  · rintro ⟨front, mediaType, behind, rfl, rfl, positive, before, after⟩
    refine ⟨(mediaType, front.length), pick_iff.mpr ⟨positive, front.zipIdx,
      behind.zipIdx (front.length + 1), ?_, ?_, ?_⟩, rfl⟩
    · rw [List.zipIdx_append, List.zipIdx_cons, Nat.zero_add]
    · intro entry inside
      exact before entry.1 (List.fst_mem_of_mem_zipIdx inside)
    · intro entry inside
      exact after entry.1 (List.fst_mem_of_mem_zipIdx inside)

variable {elements others : List Element} {available : List Bytes} {place : Nat}

theorem chosen_iff :
    negotiate (some (acceptText elements)) available = some place ↔
      Chosen (membersOf elements) available place := by
  have ranked : ∀ {weight : Nat} {types : List Bytes} {test : Nat → Nat → Prop},
      (∀ found, 0 < weight → found = 0 → test found weight) → 0 < weight →
      ((∀ other ∈ types, test (typeWeight ((membersOf elements).map Member.range) other) weight) ↔
        ∀ other ∈ types, ∀ found, Acceptable (membersOf elements) other found →
          test found weight) := by
    intro weight types test low positive
    refine forall_congr' fun other => forall_congr' fun _ => ⟨fun ranks found fits => ?_, ?_⟩
    · exact (acceptable_iff.mp fits).2 ▸ ranks
    · intro fits
      rcases Nat.eq_zero_or_pos (typeWeight ((membersOf elements).map Member.range) other)
        with zero | some_
      · exact low _ positive zero
      · exact fits _ (acceptable_iff.mpr ⟨some_, rfl⟩)
  rw [negotiate_eq, ranges_acceptText, pick_places]
  constructor
  · rintro ⟨front, mediaType, behind, split, same, positive, before, after⟩
    refine ⟨front, mediaType, behind, _, split, same, acceptable_iff.mpr ⟨positive, rfl⟩, ?_, ?_⟩
    · exact (ranked (fun _ some_ zero => zero ▸ some_) positive).mp before
    · exact (ranked (fun _ _ zero => zero ▸ Nat.zero_le _) positive).mp after
  · rintro ⟨front, mediaType, behind, weight, split, same, fits, before, after⟩
    obtain ⟨positive, rfl⟩ := acceptable_iff.mp fits
    refine ⟨front, mediaType, behind, split, same, positive, ?_, ?_⟩
    · exact (ranked (fun _ some_ zero => zero ▸ some_) positive).mpr before
    · exact (ranked (fun _ _ zero => zero ▸ Nat.zero_le _) positive).mpr after

theorem unchosen_iff :
    negotiate (some (acceptText elements)) available = none ↔
      ∀ mediaType ∈ available, ∀ weight, ¬ Acceptable (membersOf elements) mediaType weight := by
  rw [negotiate_eq, ranges_acceptText, Option.map_eq_none_iff, pick_none_iff]
  constructor
  · intro low mediaType held weight fits
    obtain ⟨positive, rfl⟩ := acceptable_iff.mp fits
    obtain ⟨place, here⟩ := List.mem_iff_getElem?.mp held
    exact Nat.ne_of_gt positive (low (mediaType, place) (List.mk_mem_zipIdx_iff_getElem?.mpr here))
  · intro none_ entry inside
    refine Nat.eq_zero_of_not_pos fun positive => ?_
    exact none_ entry.1 (List.fst_mem_of_mem_zipIdx inside) _ (acceptable_iff.mpr ⟨positive, rfl⟩)

instance : Std.Symm Apart where
  symm one two differ both := by
    rw [eqIgnoreAsciiCase_comm, eqIgnoreAsciiCase_comm two.subtype.text] at both
    exact differ both

/-- Ranges that are apart are never equally specific for one type. -/
theorem rankOf_apart {one two : Member} (apart : Apart one two)
    (positive : 0 < rankOf kind subtype one) :
    rankOf kind subtype one ≠ rankOf kind subtype two := by
  intro same
  have first := covers_iff.mpr ⟨positive, rfl⟩
  have second := covers_iff.mpr ⟨same ▸ positive, same.symm⟩
  have equal : ∀ {left right : Bytes}, left = [star] → right = [star] →
      eqIgnoreAsciiCase left right = true := by
    rintro left right rfl rfl
    exact BEq.rfl
  generalize rankOf kind subtype one = level at first second
  rcases first with ⟨every, all⟩ | ⟨some_, fits, all⟩ | ⟨some_, fits, some_', fits'⟩
  · obtain ⟨every', all'⟩ := second
    exact apart ⟨equal every every', equal all all'⟩
  · obtain - | ⟨-, fits', all'⟩ := second
    exact apart ⟨eqIgnoreAsciiCase_trans fits fits', equal all all'⟩
  · obtain - | - | ⟨-, other, -, other'⟩ := second
    exact apart ⟨eqIgnoreAsciiCase_trans fits other, eqIgnoreAsciiCase_trans fits' other'⟩

theorem typeWeight_perm {members others : List Member} (perm : members.Perm others)
    (apart : members.Pairwise Apart) (mediaType : Bytes) :
    typeWeight (members.map Member.range) mediaType =
      typeWeight (others.map Member.range) mediaType := by
  unfold typeWeight
  rcases splitEssence mediaType with - | ⟨kind, subtype⟩
  · rfl
  · have picked : pick (rankOf kind subtype) members = pick (rankOf kind subtype) others := by
      refine pick_perm perm fun one held two held' positive same => ?_
      by_contra differ
      exact rankOf_apart (apart.forall held held' differ) positive same
    dsimp only
    rw [pick_map, pick_map]
    exact congrArg (fun found => (found.map Member.range).elim 0 Range.weight) picked

/-- On a well-formed value whose quoted strings hold no separator, negotiation chooses the first of
the types with the highest weight, none exactly if no type is acceptable, and the same one for any
order of ranges that are apart. -/
theorem negotiate_exact :
    (∀ (elements : List Element) (available : List Bytes) (place : Nat),
      negotiate (some (acceptText elements)) available = some place ↔
        Chosen (membersOf elements) available place) ∧
    (∀ (elements : List Element) (available : List Bytes),
      negotiate (some (acceptText elements)) available = none ↔
        ∀ mediaType ∈ available, ∀ weight,
          ¬ Acceptable (membersOf elements) mediaType weight) ∧
    ∀ (elements others : List Element) (available : List Bytes),
      (membersOf elements).Perm (membersOf others) → (membersOf elements).Pairwise Apart →
        negotiate (some (acceptText elements)) available =
          negotiate (some (acceptText others)) available := by
  refine ⟨fun _ _ _ => chosen_iff, fun _ _ => unchosen_iff, ?_⟩
  intro elements others available perm apart
  rw [negotiate_eq, negotiate_eq, ranges_acceptText, ranges_acceptText]
  congr 2
  funext entry
  exact typeWeight_perm perm apart entry.1

/-! ### The parameters of a range -/

/-- Whether a range matches a type when its parameters take part. -/
def Fits (member : Member) (media : MediaText) : Prop :=
  (∃ level, Covers member media.kind.text media.subtype.text level) ∧
    ∀ parameter ∈ parametersOf (member.front ++ member.behind), ∃ held ∈ media.parameters,
      eqIgnoreAsciiCase parameter.1.text held.1.text = true ∧ parameter.2.meant = held.2.meant

def wordText : Token := ⟨ascii "text", by decide, List.all_eq_true.mp (by rfl)⟩
def wordHtml : Token := ⟨ascii "html", by decide, List.all_eq_true.mp (by rfl)⟩
def wordLevel : Token := ⟨ascii "level", by decide, List.all_eq_true.mp (by rfl)⟩
def wordOne : Token := ⟨ascii "1", by decide, List.all_eq_true.mp (by rfl)⟩
def noBlank : Blank := ⟨[], List.forall_mem_nil _⟩

def html : MediaText := ⟨wordText, wordHtml, []⟩

/-- The range `text/html;level=1`. -/
def htmlLevel : Member where
  kind := wordText
  subtype := wordHtml
  front := [⟨noBlank, noBlank, some (wordLevel, .token wordOne)⟩]
  quality := none
  behind := []
  frontPlain := ⟨List.forall_mem_singleton.mpr (by decide), by
    rintro parameter held letters quoted
    rw [List.mem_singleton.mp held] at quoted
    cases quoted⟩
  behindPlain := ⟨nofun, nofun⟩

/-- A range with a parameter chooses a type that has none. -/
theorem level_ignored :
    ¬ ∀ (elements : List Element) (available : List MediaText) (place : Nat),
      negotiate (some (acceptText elements)) (available.map MediaText.text) = some place →
        ∃ media, available[place]? = some media ∧
          ∃ member ∈ membersOf elements, Fits member media := by
  intro matching
  have chosen : negotiate (some (acceptText [⟨noBlank, noBlank, some htmlLevel⟩]))
      ([html].map MediaText.text) = some 0 := by decide
  obtain ⟨media, here, member, held, -, fits⟩ := matching _ _ _ chosen
  cases here
  rw [List.mem_singleton.mp held] at fits
  obtain ⟨parameter, inside, -⟩ := fits _ (List.mem_singleton_self _)
  exact absurd inside List.not_mem_nil

end ZeroServer.Mime

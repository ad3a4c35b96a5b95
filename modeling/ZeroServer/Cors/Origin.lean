/-
This file models which values of an `Origin` field are serialized origins: a scheme, a host that is
a domain, an address with dots or one in brackets, and a port, each by hand and from the front. The
values that are taken are those of the grammar, which have one scheme, one host and one port each.
-/

import ZeroServer.Http1.Response
import ZeroServer.Lib.Joined

namespace ZeroServer.Cors

open Http1 Lib

/-! ### Schemes and domains -/

def dot : UInt8 := 46
def hyphen : UInt8 := 45
def openBracket : UInt8 := 91
def closeBracket : UInt8 := 93

def isLowerAlphanum (byte : UInt8) : Bool := isAsciiLowercase byte || isAsciiDigit byte

def isSerializedScheme (scheme : Bytes) : Bool :=
  scheme.head?.any isAsciiLowercase &&
    scheme.all fun byte => isLowerAlphanum byte || (ascii "+-.").contains byte

def isLabel (label : Bytes) : Bool :=
  label.head?.any isLowerAlphanum && label.getLast?.any isLowerAlphanum &&
    label.all fun byte => isLowerAlphanum byte || byte = hyphen

/-- Whether a domain is dot-separated labels. -/
def isSerializedDomain (domain : Bytes) : Bool := (domain.splitOn dot).all isLabel

/-! ### Numbers at the end of a domain -/

def isOctalDigit (byte : UInt8) : Bool := 48 ≤ byte ∧ byte ≤ 55

/-- Whether a text is an IPv4 number: a decimal one, an octal one behind `0` or a hexadecimal one
behind `0x` or `0X`. -/
def isIpv4Number (input : Bytes) : Bool :=
  match input with
  | [] => false
  | first :: rest =>
    if first = 48 ∧ (rest.head? = some 120 ∨ rest.head? = some 88) then
      rest.tail.all isAsciiHexdigit
    else if first = 48 ∧ rest ≠ [] then rest.all isOctalDigit
    else (first :: rest).all isAsciiDigit

/-- Whether the last part of a text is a number, one empty part at the end left out. -/
def endsInANumber (input : Bytes) : Bool :=
  let parts := if input.getLast? = some dot then input.dropLast else input
  let last := (parts.splitOn dot).getLast?.getD []
  if last ≠ [] ∧ last.all isAsciiDigit then true else isIpv4Number last

/-- Whether a suffix entry without its leading `.` is a domain that does not end in a number. -/
def isSuffixDomain (domain : Bytes) : Bool := isSerializedDomain domain && !endsInANumber domain

/-! ### Addresses in brackets -/

/-- A group of an address: `0`, or up to four hexadecimal digits in lower case without a leading
zero. -/
def isH16 (group : Bytes) : Bool :=
  group = ascii "0" ||
    group.length ≤ 4 &&
      group.head?.any (fun byte => (49 ≤ byte ∧ byte ≤ 57) ∨ (97 ≤ byte ∧ byte ≤ 102)) &&
      group.all fun byte => (48 ≤ byte ∧ byte ≤ 57) ∨ (97 ≤ byte ∧ byte ≤ 102)

/-- How many groups a part of an address has. -/
def groupCount (part : Bytes) : Option Nat :=
  if part = [] then some 0
  else if (part.splitOn colon).all isH16 then some (part.splitOn colon).length
  else none

def isSerializedIpv6 (address : Bytes) : Bool :=
  match pairAt colon colon address with
  | none => groupCount address = some 8
  | some place =>
    match groupCount (address.take place), groupCount (address.drop (place + 2)) with
    | some before, some after => before + after ≤ 6
    | _, _ => false

/-! ### Origins -/

/-- What stands behind a host, if there is one. -/
def behindHost (rest : Bytes) : Option Bytes :=
  if rest.head? = some openBracket then
    match rest.tail.findIdx? (· == closeBracket) with
    | none => none
    | some close =>
      if isSerializedIpv6 (rest.tail.take close) then some (rest.tail.drop (close + 1)) else none
  else
    let stop := (rest.findIdx? (· == colon)).getD rest.length
    if isSerializedDomain (rest.take stop) then some (rest.drop stop) else none

def isPortTail (tail : Bytes) : Bool :=
  if tail.head? = some colon then
    1 ≤ tail.tail.length ∧ tail.tail.length ≤ 5 ∧ tail.tail.all isAsciiDigit
  else tail.isEmpty

/-- Whether a value is a serialized origin. -/
def isSerializedOrigin (origin : Bytes) : Bool :=
  match origin.findIdx? (· == colon) with
  | none => false
  | some place =>
    if !(ascii "://").isPrefixOf (origin.drop place) then false
    else if !isSerializedScheme (origin.take place) then false
    else
      match behindHost (origin.drop (place + 3)) with
      | none => false
      | some tail => isPortTail tail

/-! ### The grammar -/

inductive IsScheme : Bytes → Prop
  | intro {first : UInt8} {rest : Bytes} (letter : isAsciiLowercase first = true)
    (inside : ∀ byte ∈ rest, isLowerAlphanum byte = true ∨ byte ∈ ascii "+-.") :
    IsScheme (first :: rest)

/-- A label: letters and digits, with hyphens between them. -/
inductive IsLabel : Bytes → Prop
  | single {byte : UInt8} (edge : isLowerAlphanum byte = true) : IsLabel [byte]
  | between {first last : UInt8} {inside : Bytes} (edge : isLowerAlphanum first = true)
    (edge' : isLowerAlphanum last = true)
    (within : ∀ byte ∈ inside, isLowerAlphanum byte = true ∨ byte = hyphen) :
    IsLabel (first :: inside ++ [last])

def IsDomain (domain : Bytes) : Prop := Joined dot IsLabel domain

/-- An octet in decimal, without a leading zero. -/
def IsOctet (text : Bytes) : Prop := ∃ octet ≤ 255, text = decimal octet

def IsIpv4 (address : Bytes) : Prop :=
  ∃ octets : List Bytes, octets.length = 4 ∧ (∀ octet ∈ octets, IsOctet octet) ∧
    [dot].intercalate octets = address

def isLowerHexdigit (byte : UInt8) : Bool := isAsciiDigit byte || (97 ≤ byte && byte ≤ 102)

inductive IsGroup : Bytes → Prop
  | zero : IsGroup (ascii "0")
  | number {first : UInt8} {rest : Bytes} (lead : isLowerHexdigit first = true) (some_ : first ≠ 48)
    (digits : ∀ byte ∈ rest, isLowerHexdigit byte = true) (few : rest.length ≤ 3) :
    IsGroup (first :: rest)

/-- An address of eight groups, or of at most six around two colons. -/
inductive IsIpv6 : Bytes → Prop
  | full {groups : List Bytes} (eight : groups.length = 8)
    (each : ∀ group ∈ groups, IsGroup group) :
    IsIpv6 ([colon].intercalate groups)
  | short {before after : List Bytes} (few : before.length + after.length ≤ 6)
    (each : ∀ group ∈ before, IsGroup group) (each' : ∀ group ∈ after, IsGroup group) :
    IsIpv6 ([colon].intercalate before ++ colon :: colon :: [colon].intercalate after)

inductive IsHost : Bytes → Prop
  | domain {host : Bytes} (isDomain : IsDomain host) : IsHost host
  | ipv4 {host : Bytes} (isIpv4 : IsIpv4 host) : IsHost host
  | ipv6 {address : Bytes} (isIpv6 : IsIpv6 address) :
    IsHost (openBracket :: address ++ [closeBracket])

structure IsPort (port : Bytes) : Prop where
  some_ : port ≠ []
  few : port.length ≤ 5
  digits : ∀ byte ∈ port, isAsciiDigit byte = true

/-- The text of a port, if there is one. -/
def portText (port : Option Bytes) : Bytes := port.elim [] (colon :: ·)

/-- A serialized origin with its scheme, its host and its port. -/
structure IsOrigin (origin scheme host : Bytes) (port : Option Bytes) : Prop where
  isScheme : IsScheme scheme
  isHost : IsHost host
  isPort : ∀ digits ∈ port, IsPort digits
  text : origin = scheme ++ ascii "://" ++ host ++ portText port

/-! ### The parts are those of the grammar -/

variable {scheme address : Bytes}

variable {label domain group : Bytes}

theorem isLowerAlphanum_marks : isLowerAlphanum colon = false ∧ isLowerAlphanum dot = false ∧
    isLowerAlphanum openBracket = false ∧ isLowerAlphanum closeBracket = false := by decide

theorem isSerializedScheme_iff : isSerializedScheme scheme = true ↔ IsScheme scheme := by
  have letters : ∀ byte, isAsciiLowercase byte = true → isLowerAlphanum byte = true := by
    intro byte letter
    unfold isLowerAlphanum
    rw [letter, Bool.true_or]
  cases scheme with
  | nil => exact ⟨nofun, nofun⟩
  | cons first rest =>
    unfold isSerializedScheme
    rw [Bool.and_eq_true, List.all_cons, Bool.and_eq_true, List.all_eq_true]
    simp only [Bool.or_eq_true, List.contains_iff_mem]
    refine ⟨fun ⟨lead, _, inside⟩ => .intro lead inside, ?_⟩
    rintro ⟨lead, inside⟩
    exact ⟨lead, .inl (letters first lead), inside⟩

theorem isLabel_iff : isLabel label = true ↔ IsLabel label := by
  unfold isLabel
  rw [Bool.and_eq_true, Bool.and_eq_true, List.all_eq_true]
  simp only [Bool.or_eq_true, decide_eq_true_eq]
  constructor
  · rintro ⟨⟨first, last⟩, inside⟩
    obtain ⟨lead, leads, edge⟩ := Option.any_eq_true _ _ |>.mp first
    obtain ⟨final, ends, edge'⟩ := Option.any_eq_true _ _ |>.mp last
    obtain ⟨rest, rfl⟩ := List.head?_eq_some_iff.mp leads
    rcases List.eq_nil_or_concat rest with rfl | ⟨middle, tail, rfl⟩
    · exact .single edge
    · rw [List.concat_eq_append, ← List.cons_append, List.getLast?_concat] at ends
      rw [List.concat_eq_append] at inside ⊢
      cases ends
      refine .between edge edge' fun byte member => inside byte ?_
      exact List.mem_cons_of_mem _ (List.mem_append_left _ member)
  · rintro (edge | ⟨edge, edge', within⟩)
    · exact ⟨⟨edge, edge⟩, List.forall_mem_singleton.mpr (.inl edge)⟩
    · refine ⟨⟨edge, ?_⟩, ?_⟩
      · rw [List.getLast?_concat]
        exact edge'
      · intro byte member
        rcases List.mem_append.mp member with front | last
        · rcases List.mem_cons.mp front with rfl | inside
          · exact .inl edge
          · exact within byte inside
        · rw [List.mem_singleton.mp last]
          exact .inl edge'

theorem IsLabel.bytes (isLabel : IsLabel label) :
    ∀ byte ∈ label, isLowerAlphanum byte = true ∨ byte = hyphen := by
  have checked := isLabel_iff.mpr isLabel
  unfold Cors.isLabel at checked
  rw [Bool.and_eq_true, List.all_eq_true] at checked
  intro byte member
  simpa only [Bool.or_eq_true, decide_eq_true_eq] using checked.2 byte member

theorem IsLabel.plain {label : Bytes} (isLabel : IsLabel label) : dot ∉ label := by
  intro held
  rcases isLabel.bytes dot held with alphanum | hyphen_
  · rw [isLowerAlphanum_marks.2.1] at alphanum
    cases alphanum
  · exact absurd hyphen_ (by decide)

theorem isSerializedDomain_iff : isSerializedDomain domain = true ↔ IsDomain domain := by
  unfold IsDomain isSerializedDomain
  rw [joined_iff fun label isLabel => isLabel.plain, List.all_eq_true]
  exact forall₂_congr fun label _ => isLabel_iff

theorem isH16_iff : isH16 group = true ↔ IsGroup group := by
  have lead : ∀ byte : UInt8, ((49 ≤ byte ∧ byte ≤ 57) ∨ (97 ≤ byte ∧ byte ≤ 102)) ↔
      isLowerHexdigit byte = true ∧ byte ≠ 48 := by
    intro byte
    unfold isLowerHexdigit isAsciiDigit
    simp only [Bool.or_eq_true, Bool.and_eq_true, decide_eq_true_eq, UInt8.le_iff_toNat_le, ne_eq,
      ← UInt8.toNat_inj]
    show (49 ≤ byte.toNat ∧ byte.toNat ≤ 57) ∨ (97 ≤ byte.toNat ∧ byte.toNat ≤ 102) ↔
      ((48 ≤ byte.toNat ∧ byte.toNat ≤ 57) ∨ (97 ≤ byte.toNat ∧ byte.toNat ≤ 102)) ∧
        ¬ byte.toNat = 48
    omega
  have digit : ∀ byte : UInt8, ((48 ≤ byte ∧ byte ≤ 57) ∨ (97 ≤ byte ∧ byte ≤ 102)) ↔
      isLowerHexdigit byte = true := by
    intro byte
    unfold isLowerHexdigit isAsciiDigit
    simp only [Bool.or_eq_true, Bool.and_eq_true, decide_eq_true_eq]
  unfold isH16
  rw [Bool.or_eq_true, Bool.and_eq_true, Bool.and_eq_true, List.all_eq_true]
  simp only [decide_eq_true_eq, digit]
  constructor
  · rintro (rfl | ⟨⟨few, first⟩, inside⟩)
    · exact .zero
    · cases group with
      | nil => cases first
      | cons first_ rest =>
        obtain ⟨hex, some_⟩ := (lead first_).mp (of_decide_eq_true first)
        exact .number hex some_ (fun byte member => inside byte (List.mem_cons_of_mem _ member))
          (Nat.le_of_succ_le_succ few)
  · rintro (_ | ⟨hex, some_, digits, few⟩)
    · exact .inl rfl
    · refine .inr ⟨⟨Nat.succ_le_succ few, ?_⟩, List.forall_mem_cons.mpr ⟨hex, digits⟩⟩
      exact decide_eq_true ((lead _).mpr ⟨hex, some_⟩)

theorem IsGroup.bytes (isGroup : IsGroup group) :
    group ≠ [] ∧ ∀ byte ∈ group, isLowerHexdigit byte = true := by
  cases isGroup with
  | zero => exact ⟨by decide, List.forall_mem_singleton.mpr (by decide)⟩
  | number hex some_ digits few =>
    exact ⟨List.cons_ne_nil _ _, List.forall_mem_cons.mpr ⟨hex, digits⟩⟩

theorem IsGroup.plain {group : Bytes} (isGroup : IsGroup group) : colon ∉ group ∧ group ≠ [] := by
  refine ⟨fun held => ?_, isGroup.bytes.1⟩
  exact absurd (isGroup.bytes.2 colon held) (by decide)

/-- A part of an address has so many groups. -/
theorem groupCount_iff {part : Bytes} {count : Nat} : groupCount part = some count ↔
    ∃ groups : List Bytes, groups.length = count ∧ (∀ group ∈ groups, IsGroup group) ∧
      [colon].intercalate groups = part := by
  unfold groupCount
  by_cases empty : part = []
  · rw [if_pos empty]
    constructor
    · rintro ⟨⟩
      exact ⟨[], rfl, nofun, empty.symm⟩
    · rintro ⟨groups, rfl, all, joined⟩
      cases groups with
      | nil => rfl
      | cons group groups =>
        have back := List.splitOn_intercalate colon (fun group member => (all group member).plain.1)
          (List.cons_ne_nil group groups)
        rw [joined, empty] at back
        exact absurd (List.cons.inj back).1.symm (all group List.mem_cons_self).plain.2
  · rw [if_neg empty]
    constructor
    · intro counted
      split at counted
      · rename_i all
        cases counted
        exact ⟨_, rfl, fun group member => isH16_iff.mp (List.all_eq_true.mp all group member),
          List.intercalate_splitOn colon⟩
      · cases counted
    · rintro ⟨groups, rfl, all, rfl⟩
      have some_ : groups ≠ [] := by
        rintro rfl
        exact empty rfl
      rw [List.splitOn_intercalate colon (fun group member => (all group member).plain.1) some_,
        if_pos (List.all_eq_true.mpr fun group member => isH16_iff.mpr (all group member))]

theorem isSerializedIpv6_iff : isSerializedIpv6 address = true ↔ IsIpv6 address := by
  have behind : ∀ {front : Bytes} (rest : Bytes),
      (front ++ colon :: colon :: rest).drop (front.length + 2) = rest := by
    intro front rest
    rw [List.drop_append]
    simp
  unfold isSerializedIpv6
  constructor
  · intro accepted
    split at accepted
    · obtain ⟨groups, eight, each, rfl⟩ := groupCount_iff.mp (of_decide_eq_true accepted)
      exact .full eight each
    · rename_i place found
      split at accepted
      · rename_i before after counted counted'
        obtain ⟨groups, rfl, each, joined⟩ := groupCount_iff.mp counted
        obtain ⟨groups', rfl, each', joined'⟩ := groupCount_iff.mp counted'
        rw [pairAt_split found, ← joined, ← joined']
        exact .short (of_decide_eq_true accepted) each each'
      · cases accepted
  · rintro (⟨eight, each⟩ | ⟨few, each, each'⟩)
    · rename_i groups
      have some_ : groups ≠ [] := by
        rintro rfl
        cases eight
      rw [(pairAt_joined some_ fun group member => (each group member).plain).1]
      exact decide_eq_true (groupCount_iff.mpr ⟨groups, eight, each, rfl⟩)
    · rename_i before after
      have found : pairAt colon colon ([colon].intercalate before ++
          colon :: colon :: [colon].intercalate after) =
            some ([colon].intercalate before).length := by
        by_cases some_ : before = []
        · rw [some_]
          exact pairAt_behind rfl (by decide) _
        · obtain ⟨none_, -, last⟩ :=
            pairAt_joined some_ fun group member => (each group member).plain
          exact pairAt_behind none_ last _
      rw [found]
      dsimp only
      rw [List.take_left, behind, groupCount_iff.mpr ⟨before, rfl, each, rfl⟩,
        groupCount_iff.mpr ⟨after, rfl, each', rfl⟩]
      exact decide_eq_true few

/-! ### Hosts -/

variable {host origin : Bytes} {port : Option Bytes}

variable {tail : Bytes}

theorem IsDomain.bytes (isDomain : IsDomain domain) :
    domain ≠ [] ∧ ∀ byte ∈ domain, isLowerAlphanum byte = true ∨ byte = hyphen ∨ byte = dot := by
  obtain ⟨labels, some_, all, rfl⟩ := isDomain
  constructor
  · obtain ⟨label, rest, rfl⟩ := List.exists_cons_of_ne_nil some_
    have filled : label ≠ [] := by
      cases all label List.mem_cons_self <;> exact List.cons_ne_nil _ _
    cases rest with
    | nil => rwa [List.intercalate_singleton]
    | cons next rest =>
      rw [List.intercalate_cons_cons, List.append_assoc]
      exact List.append_ne_nil_of_left_ne_nil filled _
  · intro byte held
    rcases mem_intercalate held with mark | ⟨label, member, within⟩
    · exact .inr (.inr mark)
    · exact ((all label member).bytes byte within).imp_right .inl

theorem IsDomain.plain {domain : Bytes} (isDomain : IsDomain domain) : colon ∉ domain := by
  intro held
  rcases isDomain.bytes.2 colon held with alphanum | hyphen_ | dot_
  · rw [isLowerAlphanum_marks.1] at alphanum
    cases alphanum
  · exact absurd hyphen_ (by decide)
  · exact absurd dot_ (by decide)

/-- An address with dots is a domain of the grammar, too. -/
theorem IsIpv4.isDomain (isIpv4 : IsIpv4 address) : IsDomain address := by
  obtain ⟨octets, four, each, rfl⟩ := isIpv4
  have some_ : octets ≠ [] := by
    rintro rfl
    cases four
  refine ⟨octets, some_, fun octet member => ?_, rfl⟩
  obtain ⟨number, -, rfl⟩ := each octet member
  have digit : ∀ digit < 10, isLowerAlphanum (UInt8.ofNat (48 + digit)) = true := by decide
  have digits : ∀ byte ∈ decimal number, isLowerAlphanum byte = true := by
    intro byte held
    obtain ⟨value, known, rfl⟩ := List.mem_map.mp held
    exact digit value (lowDigits_lt (by decide) number value (List.mem_reverse.mp known))
  have filled : decimal number ≠ [] := by
    unfold decimal
    intro empty
    exact lowDigits_ne_nil (by decide) number
      (List.reverse_eq_nil_iff.mp (List.map_eq_nil_iff.mp empty))
  refine isLabel_iff.mp ?_
  unfold isLabel
  rw [Bool.and_eq_true, Bool.and_eq_true, List.all_eq_true]
  refine ⟨⟨?_, ?_⟩, fun byte held => ?_⟩
  · rw [List.head?_eq_some_head filled]
    exact digits _ (List.head_mem filled)
  · rw [List.getLast?_eq_some_getLast filled]
    exact digits _ (List.getLast_mem filled)
  · rw [digits byte held, Bool.true_or]

theorem IsIpv6.bytes (isIpv6 : IsIpv6 address) :
    colon ∈ address ∧ ∀ byte ∈ address, isLowerHexdigit byte = true ∨ byte = colon := by
  have joined : ∀ {groups : List Bytes}, (∀ group ∈ groups, IsGroup group) →
      ∀ byte ∈ [colon].intercalate groups, isLowerHexdigit byte = true ∨ byte = colon := by
    intro groups each byte held
    rcases mem_intercalate held with mark | ⟨group, member, within⟩
    · exact .inr mark
    · exact .inl ((each group member).bytes.2 byte within)
  cases isIpv6 with
  | full eight each =>
    rename_i groups
    refine ⟨?_, joined each⟩
    match groups, eight with
    | first :: second :: rest, _ =>
      rw [List.intercalate_cons_cons]
      exact List.mem_append_left _ (List.mem_append_right _ List.mem_cons_self)
  | short few each each' =>
    refine ⟨List.mem_append_right _ List.mem_cons_self, ?_⟩
    rw [List.forall_mem_append, List.forall_mem_cons, List.forall_mem_cons]
    exact ⟨joined each, .inr rfl, .inr rfl, joined each'⟩

theorem IsIpv6.closed (isIpv6 : IsIpv6 address) : closeBracket ∉ address :=
  fun held => (isIpv6.bytes.2 closeBracket held).elim (absurd · (by decide)) (absurd · (by decide))

theorem isPortTail_iff : isPortTail tail = true ↔
    ∃ port, (∀ digits ∈ port, IsPort digits) ∧ tail = portText port := by
  unfold isPortTail
  constructor
  · intro accepted
    split at accepted
    · rename_i lead
      obtain ⟨digits, rfl⟩ := List.head?_eq_some_iff.mp lead
      obtain ⟨some_, few, all⟩ := of_decide_eq_true accepted
      refine ⟨some digits, ?_, rfl⟩
      rintro other ⟨⟩
      exact ⟨List.length_pos_iff.mp some_, few, List.all_eq_true.mp all⟩
    · exact ⟨none, nofun, List.isEmpty_iff.mp accepted⟩
  · rintro ⟨port, valid, rfl⟩
    cases port with
    | none => rfl
    | some digits =>
      obtain ⟨some_, few, all⟩ := valid digits rfl
      rw [if_pos (show (portText (some digits)).head? = some colon from rfl)]
      exact decide_eq_true ⟨List.length_pos_iff.mpr some_, few, List.all_eq_true.mpr all⟩

theorem behindHost_ok {rest : Bytes} (found : behindHost rest = some tail) :
    ∃ host, IsHost host ∧ rest = host ++ tail := by
  unfold behindHost at found
  split at found
  · rename_i lead
    obtain ⟨inner, rfl⟩ := List.head?_eq_some_iff.mp lead
    rw [List.tail_cons] at found
    split at found
    · cases found
    · rename_i close place
      split at found
      · rename_i accepted
        cases found
        refine ⟨_, .ipv6 (isSerializedIpv6_iff.mp accepted), ?_⟩
        simp only [List.cons_append, List.append_assoc, List.nil_append]
        exact congrArg (openBracket :: ·) (findIdx?_split place).2
      · cases found
  · dsimp only at found
    split at found
    · rename_i accepted
      cases found
      exact ⟨_, .domain (isSerializedDomain_iff.mp accepted), (List.take_append_drop _ _).symm⟩
    · cases found

theorem behindHost_domain (isDomain : IsDomain host) (ends : tail = [] ∨ tail.head? = some colon) :
    behindHost (host ++ tail) = some tail := by
  obtain ⟨some_, known⟩ := isDomain.bytes
  have lead : (host ++ tail).head? ≠ some openBracket := by
    rw [List.head?_append_of_ne_nil _ some_]
    intro first
    rcases known _ (List.mem_of_head? first) with alphanum | hyphen_ | dot_
    · rw [isLowerAlphanum_marks.2.2.1] at alphanum
      cases alphanum
    · exact absurd hyphen_ (by decide)
    · exact absurd dot_ (by decide)
  have stop : ((host ++ tail).findIdx? (· == colon)).getD (host ++ tail).length = host.length := by
    rcases ends with rfl | mark
    · rw [List.append_nil, findIdx?_plain isDomain.plain]
      rfl
    · obtain ⟨more, rfl⟩ := List.head?_eq_some_iff.mp mark
      rw [findIdx?_mark isDomain.plain]
      rfl
  unfold behindHost
  rw [if_neg lead]
  dsimp only
  rw [stop, List.take_left, List.drop_left, if_pos (isSerializedDomain_iff.mpr isDomain)]

/-- What stands behind a host of the grammar is found. -/
theorem behindHost_host (isHost : IsHost host) (ends : tail = [] ∨ tail.head? = some colon) :
    behindHost (host ++ tail) = some tail := by
  cases isHost with
  | domain isDomain => exact behindHost_domain isDomain ends
  | ipv4 isIpv4 => exact behindHost_domain isIpv4.isDomain ends
  | ipv6 isIpv6 =>
    rename_i address
    have whole : openBracket :: address ++ [closeBracket] ++ tail =
        openBracket :: (address ++ closeBracket :: tail) := by
      simp only [List.cons_append, List.append_assoc, List.nil_append]
    have behind : (address ++ closeBracket :: tail).drop (address.length + 1) = tail := by
      rw [List.drop_append]
      simp
    unfold behindHost
    rw [whole, if_pos (show (openBracket :: _).head? = some openBracket from rfl),
      List.tail_cons, findIdx?_mark isIpv6.closed]
    dsimp only
    rw [List.take_left, if_pos (isSerializedIpv6_iff.mpr isIpv6), behind]

theorem IsScheme.plain {scheme : Bytes} (isScheme : IsScheme scheme) : colon ∉ scheme := by
  have dark : isAsciiLowercase colon = false ∧ colon ∉ ascii "+-." := by decide
  cases isScheme with
  | intro letter inside =>
    intro held
    rcases List.mem_cons.mp held with rfl | later
    · rw [dark.1] at letter
      cases letter
    · rcases inside colon later with alphanum | mark
      · rw [isLowerAlphanum_marks.1] at alphanum
        cases alphanum
      · exact dark.2 mark

theorem portText_ends (port : Option Bytes) :
    portText port = [] ∨ (portText port).head? = some colon := by
  cases port with
  | none => exact .inl rfl
  | some digits => exact .inr rfl

theorem IsOrigin.text_eq (isOrigin : IsOrigin origin scheme host port) :
    origin = scheme ++ colon :: (ascii "//" ++ (host ++ portText port)) := by
  rw [isOrigin.text]
  simp only [List.append_assoc]
  rfl

/-- Behind the scheme and its mark stand the host and the port. -/
theorem IsOrigin.behind (isOrigin : IsOrigin origin scheme host port) :
    origin.findIdx? (· == colon) = some scheme.length ∧
      origin.drop scheme.length = ascii "://" ++ (host ++ portText port) ∧
      origin.drop (scheme.length + 3) = host ++ portText port := by
  rw [isOrigin.text_eq]
  refine ⟨findIdx?_mark isOrigin.isScheme.plain _, List.drop_left, ?_⟩
  rw [← List.drop_drop, List.drop_left]
  rfl

/-- The values taken are the serialized origins. -/
theorem isSerializedOrigin_iff : isSerializedOrigin origin = true ↔
    ∃ scheme host port, IsOrigin origin scheme host port := by
  constructor
  · intro accepted
    unfold isSerializedOrigin at accepted
    split at accepted
    · cases accepted
    · rename_i place found
      split at accepted
      · cases accepted
      · rename_i marked
        split at accepted
        · cases accepted
        · rename_i scheme
          split at accepted
          · cases accepted
          · rename_i tail behind
            obtain ⟨host, isHost, rest⟩ := behindHost_ok behind
            obtain ⟨port, isPort, rfl⟩ := isPortTail_iff.mp accepted
            rw [Bool.not_eq_true, Bool.not_eq_false'] at marked scheme
            obtain ⟨more, same⟩ := List.isPrefixOf_iff_prefix.mp marked
            refine ⟨_, host, port, isSerializedScheme_iff.mp scheme, isHost, isPort, ?_⟩
            have third : origin.drop (place + 3) = more := by
              rw [← List.drop_drop, ← same]
              rfl
            rw [List.append_assoc, ← rest, third, List.append_assoc, same, List.take_append_drop]
  · rintro ⟨scheme, host, port, isOrigin⟩
    obtain ⟨found, marked, behind⟩ := isOrigin.behind
    have front : origin.take scheme.length = scheme := by
      rw [isOrigin.text_eq, List.take_left]
    unfold isSerializedOrigin
    rw [found]
    dsimp only
    rw [marked, List.isPrefixOf_iff_prefix.mpr (List.prefix_append _ _), Bool.not_true,
      if_neg Bool.false_ne_true, front, isSerializedScheme_iff.mpr isOrigin.isScheme,
      Bool.not_true, if_neg Bool.false_ne_true, behind,
      behindHost_host isOrigin.isHost (portText_ends port)]
    exact isPortTail_iff.mpr ⟨port, isOrigin.isPort, rfl⟩

/-! ### The bytes of an origin -/

theorem isFieldVchar_of_isLowerAlphanum {byte : UInt8} (alphanum : isLowerAlphanum byte = true) :
    isFieldVchar byte = true := by
  unfold isLowerAlphanum isAsciiLowercase isAsciiDigit at alphanum
  unfold isFieldVchar
  simp only [Bool.or_eq_true, Bool.and_eq_true, decide_eq_true_eq,
    UInt8.le_iff_toNat_le] at alphanum ⊢
  rcases alphanum with ⟨low, high⟩ | ⟨low, high⟩
  · exact .inl ⟨Nat.le_trans (by decide) low, Nat.le_trans high (by decide)⟩
  · exact .inl ⟨Nat.le_trans (by decide) low, Nat.le_trans high (by decide)⟩

theorem isLowerAlphanum_of_isLowerHexdigit {byte : UInt8} (digit : isLowerHexdigit byte = true) :
    isLowerAlphanum byte = true := by
  unfold isLowerHexdigit at digit
  unfold isLowerAlphanum isAsciiLowercase
  simp only [Bool.or_eq_true, Bool.and_eq_true, decide_eq_true_eq] at digit ⊢
  rcases digit with decimal_ | ⟨low, high⟩
  · exact .inr decimal_
  · exact .inl ⟨low, UInt8.le_trans high (by decide)⟩

theorem IsHost.vchars (isHost : IsHost host) : ∀ byte ∈ host, isFieldVchar byte = true := by
  have domain : ∀ {host : Bytes}, IsDomain host → ∀ byte ∈ host, isFieldVchar byte = true := by
    intro host isDomain byte held
    rcases isDomain.bytes.2 byte held with alphanum | rfl | rfl
    · exact isFieldVchar_of_isLowerAlphanum alphanum
    · decide
    · decide
  cases isHost with
  | domain isDomain => exact domain isDomain
  | ipv4 isIpv4 => exact domain isIpv4.isDomain
  | ipv6 isIpv6 =>
    rw [List.forall_mem_append, List.forall_mem_cons, List.forall_mem_singleton]
    refine ⟨⟨by decide, fun byte held => ?_⟩, by decide⟩
    rcases isIpv6.bytes.2 byte held with digit | rfl
    · exact isFieldVchar_of_isLowerAlphanum (isLowerAlphanum_of_isLowerHexdigit digit)
    · decide

/-- An origin is a text of visible characters. -/
theorem IsOrigin.vchars (isOrigin : IsOrigin origin scheme host port) :
    ∀ byte ∈ origin, isFieldVchar byte = true := by
  rw [isOrigin.text]
  simp only [List.forall_mem_append]
  refine ⟨⟨⟨?_, ?_⟩, isOrigin.isHost.vchars⟩, ?_⟩
  · cases isOrigin.isScheme with
    | intro letter inside =>
      rw [List.forall_mem_cons]
      have marks : (ascii "+-.").all isFieldVchar = true := by decide
      refine ⟨isFieldVchar_of_isLowerAlphanum ((Bool.or_eq_true _ _).mpr (.inl letter)), ?_⟩
      intro byte held
      rcases inside byte held with alphanum | mark
      · exact isFieldVchar_of_isLowerAlphanum alphanum
      · exact List.all_eq_true.mp marks byte mark
  · exact List.all_eq_true.mp (show (ascii "://").all isFieldVchar = true by decide)
  · cases port with
    | none => exact fun _ => nofun
    | some digits =>
      refine List.forall_mem_cons.mpr ⟨by decide, fun byte held => ?_⟩
      exact isFieldVchar_of_isLowerAlphanum
        ((Bool.or_eq_true _ _).mpr (.inr ((isOrigin.isPort digits rfl).digits byte held)))

end ZeroServer.Cors

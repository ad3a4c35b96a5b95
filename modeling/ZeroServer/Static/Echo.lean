/-
This file proves that the validators a file is sent with mean what they say when they come back: as
long as the file is the same they are current, and once its time or its length changed no request
with the old tag is told that nothing was modified, or let at a range.
-/

import ZeroServer.Static.Answer

namespace ZeroServer.Static

open Http1 Http Lib Date

/-! ### Values the response takes -/

theorem isFieldVchar_of_isEtagc {byte : UInt8} (etagc : isEtagc byte = true) :
    isFieldVchar byte = true := by
  unfold isEtagc at etagc
  unfold isFieldVchar
  simp only [decide_eq_true_eq, Bool.or_eq_true, Bool.and_eq_true, UInt8.le_iff_toNat_le] at etagc ⊢
  rcases etagc with rfl | ⟨low, high⟩ | high
  · exact .inl ⟨by decide, by decide⟩
  · exact .inl ⟨Nat.le_trans (by decide) low, high⟩
  · exact .inr high

/-! ### The tag of a file -/

/-- What a file's validators are made of. -/
structure FileState where
  modified : Modified
  length : UInt64
  deriving DecidableEq

namespace FileState

variable (state : FileState)

def tag : Bytes := etagOf state.modified state.length

/-- The tag between its quotes. -/
def characters : Bytes :=
  pushHex state.modified.seconds ++ [hyphen] ++ pushHex state.modified.nanos.toUInt64 ++ [hyphen] ++
    pushHex state.length

/-- The tag is a strong one. -/
def entityTag : EntityTag := ⟨false, state.characters⟩

theorem tag_eq : state.tag = state.entityTag.text := by
  unfold tag etagOf EntityTag.text entityTag characters
  simp only [List.append_assoc, List.nil_append, Bool.false_eq_true, if_false]

theorem mem_characters {byte : UInt8} (member : byte ∈ state.characters) :
    byte = hyphen ∨ ∃ nibble < 16, byte = hexDigit nibble := by
  have digits := fun value => pushHex_digits value byte
  unfold characters at member
  simp only [List.mem_append, List.mem_singleton] at member
  rcases member with (((inside | rfl) | inside) | rfl) | inside
  · exact .inr (digits _ inside)
  · exact .inl rfl
  · exact .inr (digits _ inside)
  · exact .inl rfl
  · exact .inr (digits _ inside)

theorem characters_etagc : ∀ byte ∈ state.characters, isEtagc byte = true ∧ byte ≠ comma := by
  have digits : ∀ nibble < 16, isEtagc (hexDigit nibble) = true ∧ hexDigit nibble ≠ comma := by
    decide
  intro byte member
  rcases state.mem_characters member with rfl | ⟨nibble, small, rfl⟩
  · decide
  · exact digits nibble small

theorem entityTag_valid : state.entityTag.Valid :=
  List.all_eq_true.mpr fun byte member => (state.characters_etagc byte member).1

theorem parse_tag : EntityTag.parse state.tag = some state.entityTag := by
  rw [tag_eq]
  exact EntityTag.parse_text state.entityTag_valid

theorem tag_value : validateFieldValue state.tag = true := by
  rw [tag_eq]
  refine validateFieldValue_vchars fun byte member => ?_
  rw [EntityTag.text_eq] at member
  rcases List.mem_cons.mp member with rfl | inside
  · decide
  rcases List.mem_append.mp inside with held | quoted
  · exact isFieldVchar_of_isEtagc (state.characters_etagc byte held).1
  · rw [List.mem_singleton.mp quoted]
    decide

/-- Two states of a file with one tag are the same. -/
theorem tag_injective : Function.Injective tag := by
  rintro ⟨modified, length⟩ ⟨modified', length'⟩ same
  obtain ⟨rfl, rfl⟩ := etagOf_injective same
  rfl

/-- The tag alone, sent as a list, is compared with the current tag. -/
theorem listMatches_tag (current : FileState) {compare : EntityTag → EntityTag → Bool}
    (sharp : Sharp compare) : listMatches state.tag (EntityTag.parse current.tag) compare =
      compare state.entityTag current.entityTag := by
  have isSet : IsTagSet state.tag (.list [state.entityTag]) := by
    let place : ListPlace := ⟨[], some state.entityTag, [], List.forall_mem_nil _, by
      rintro held ⟨⟩
      exact state.entityTag_valid⟩
    have alone : IsTagSet (listText [place]) (.list [state.entityTag]) := IsTagSet.list [place]
    have text : listText [place] = state.tag := by
      rw [tag_eq]
      simp only [place, listText, ListPlace.text, List.nil_append, List.append_nil,
        Option.map_some, Option.getD_some]
    exact text ▸ alone
  have splits : (TagSet.list [state.entityTag]).Splits compare (some current.entityTag) := by
    intro tag member held _ _ inside
    obtain rfl := List.mem_singleton.mp member
    exact (state.characters_etagc comma inside).2 rfl
  rw [parse_tag, (listMatches_has sharp isSet).mpr splits]
  show (compare _ _ || false) = _
  rw [Bool.or_false]

theorem strongEq_entityTag (other : FileState) :
    state.entityTag.strongEq other.entityTag = decide (state = other) := by
  have same : state.characters = other.characters ↔ state = other := by
    refine ⟨fun equal => tag_injective ?_, congrArg characters⟩
    rw [tag_eq, tag_eq]
    exact congrArg (fun characters => EntityTag.text ⟨false, characters⟩) equal
  unfold EntityTag.strongEq entityTag
  rw [Bool.not_false, Bool.true_and, Bool.true_and]
  exact decide_eq_decide.mpr same

theorem weakEq_entityTag (other : FileState) :
    state.entityTag.weakEq other.entityTag = decide (state = other) := state.strongEq_entityTag other

end FileState

/-! ### The date of a file -/

variable {text : Bytes}

theorem names_plain : (dayNames ++ monthNames).all (fun name =>
    !name.contains comma && name.all fun byte => isFieldVchar byte && byte != quote) = true := by
  decide

theorem dayNames_ends : dayNames.all (fun name =>
    name.head?.any (fun byte => !isOws byte && byte != quote) && name.take 2 != ascii "W/") = true := by
  decide

/-- What a formatted date holds. -/
structure DateText (text : Bytes) : Prop where
  one : text.count comma = 1
  some_ : text ≠ []
  first : ∀ byte ∈ text.head?, isOws byte = false
  last : ∀ byte ∈ text.getLast?, isOws byte = false
  plain : ∀ byte ∈ text, isFieldVchar byte = true ∨ isOws byte = true
  untagged : ¬ ([quote] <+: text ∨ ascii "W/" <+: text)

theorem digit_plain (value : Nat) : digit value ≠ comma ∧ isFieldVchar (digit value) = true := by
  have digits : ∀ low < 10, UInt8.ofNat (48 + low) ≠ comma ∧
      isFieldVchar (UInt8.ofNat (48 + low)) = true := by decide
  exact digits (value % 10) (Nat.mod_lt _ (by decide))

theorem twoDigits_plain (value : Nat) : (twoDigits value).count comma = 0 ∧
    ∀ byte ∈ twoDigits value, isFieldVchar byte = true := by
  have both : ∀ byte ∈ twoDigits value, byte ≠ comma ∧ isFieldVchar byte = true :=
    List.forall_mem_cons.mpr ⟨digit_plain _, List.forall_mem_singleton.mpr (digit_plain _)⟩
  exact ⟨List.count_eq_zero.mpr fun held => (both comma held).1 rfl,
    fun byte member => (both byte member).2⟩

theorem fourDigits_plain (value : Nat) : (fourDigits value).count comma = 0 ∧
    ∀ byte ∈ fourDigits value, isFieldVchar byte = true := by
  have both : ∀ byte ∈ fourDigits value, byte ≠ comma ∧ isFieldVchar byte = true :=
    List.forall_mem_cons.mpr ⟨digit_plain _, List.forall_mem_cons.mpr ⟨digit_plain _,
      List.forall_mem_cons.mpr ⟨digit_plain _, List.forall_mem_singleton.mpr (digit_plain _)⟩⟩⟩
  exact ⟨List.count_eq_zero.mpr fun held => (both comma held).1 rfl,
    fun byte member => (both byte member).2⟩

theorem imfText_dateText {weekday month : Bytes} {day year hour minute second : Nat}
    (letters : weekday.length = 3) (isDay : weekday ∈ dayNames) (isMonth : month ∈ monthNames) :
    DateText (imfText weekday month day year hour minute second) := by
  have plain : ∀ name ∈ dayNames ++ monthNames, comma ∉ name ∧
      ∀ byte ∈ name, isFieldVchar byte = true := by
    intro name member
    have checked := List.all_eq_true.mp names_plain name member
    rw [Bool.and_eq_true, Bool.not_eq_true', List.all_eq_true] at checked
    refine ⟨fun held => ?_, fun byte held => ((Bool.and_eq_true _ _).mp (checked.2 byte held)).1⟩
    rw [List.contains_iff_mem.mpr held] at checked
    cases checked.1
  obtain ⟨weekdayComma, weekdayPlain⟩ := plain weekday (List.mem_append_left _ isDay)
  obtain ⟨monthComma, monthPlain⟩ := plain month (List.mem_append_right _ isMonth)
  have ends := List.all_eq_true.mp dayNames_ends weekday isDay
  rw [Bool.and_eq_true, Option.any_eq_true] at ends
  obtain ⟨⟨lead, leads, dark⟩, short⟩ := ends
  rw [Bool.and_eq_true, Bool.not_eq_true', bne_iff_ne] at dark
  rw [bne_iff_ne] at short
  have front : ∃ rest, imfText weekday month day year hour minute second = weekday ++ rest ∧
      rest.getLast? = some 84 := by
    refine ⟨ascii ", " ++ (twoDigits day ++ (ascii " " ++ (month ++ (ascii " " ++ (fourDigits year ++
      (ascii " " ++ (twoDigits hour ++ (ascii ":" ++ (twoDigits minute ++ (ascii ":" ++
        (twoDigits second ++ ascii " GMT"))))))))))), ?_, ?_⟩
    · unfold imfText
      simp only [List.append_assoc]
    · simp only [List.getLast?_append, show (ascii " GMT").getLast? = some 84 by decide,
        Option.some_or]
  obtain ⟨rest, whole, final⟩ := front
  have leading : (imfText weekday month day year hour minute second).head? = some lead := by
    rw [whole, List.head?_append, leads]
    rfl
  refine ⟨?_, ?_, ?_, ?_, ?_, ?_⟩
  · unfold imfText
    simp only [List.count_append, List.count_eq_zero.mpr weekdayComma,
      List.count_eq_zero.mpr monthComma, (twoDigits_plain _).1, (fourDigits_plain _).1]
    decide
  · intro empty
    rw [empty] at leading
    cases leading
  · rw [leading]
    rintro byte ⟨⟩
    exact dark.1
  · rw [whole, List.getLast?_append, final]
    rintro byte ⟨⟩
    decide
  · unfold imfText
    simp only [List.forall_mem_append]
    have printed : ∀ {bytes : Bytes}, (∀ byte ∈ bytes, isFieldVchar byte = true) →
        ∀ byte ∈ bytes, isFieldVchar byte = true ∨ isOws byte = true :=
      fun all byte member => .inl (all byte member)
    have literal : ∀ {bytes : Bytes},
        bytes.all (fun byte => isFieldVchar byte || isOws byte) = true →
        ∀ byte ∈ bytes, isFieldVchar byte = true ∨ isOws byte = true :=
      fun all byte member => (Bool.or_eq_true _ _).mp (List.all_eq_true.mp all byte member)
    have pair := fun value => printed (twoDigits_plain value).2
    exact ⟨⟨⟨⟨⟨⟨⟨⟨⟨⟨⟨⟨⟨printed weekdayPlain, literal rfl⟩, pair _⟩, literal rfl⟩, printed monthPlain⟩,
      literal rfl⟩, printed (fourDigits_plain _).2⟩, literal rfl⟩, pair _⟩, literal rfl⟩, pair _⟩,
      literal rfl⟩, pair _⟩, literal rfl⟩
  · rintro (⟨more, same⟩ | ⟨more, same⟩)
    · rw [← same] at leading
      exact dark.2 (Option.some.inj leading).symm
    · rw [whole] at same
      have two : ascii "W/" = (weekday ++ rest).take 2 := congrArg (List.take 2) same
      rw [List.take_append_of_le_length (by rw [letters]; decide)] at two
      exact short two.symm

theorem DateText.value (dateText : DateText text) : validateFieldValue text = true :=
  validateFieldValue_of dateText.first dateText.last dateText.plain

theorem DateText.trim (dateText : DateText text) : trimOws text = text := by
  have padded : trimBoth isOws ([] ++ text ++ []) = text :=
    trimBoth_padded nofun nofun dateText.some_ dateText.first dateText.last
  rw [List.nil_append, List.append_nil] at padded
  exact padded

theorem DateText.oneDate (dateText : DateText text) (now : Nat) :
    oneDate text now = parseHttpDate text now := by
  unfold Static.oneDate
  rw [if_neg, dateText.trim]
  rintro ⟨-, many⟩
  rw [← List.countP_eq_length_filter] at many
  exact absurd (dateText.one ▸ many : 1 < 1) (Nat.lt_irrefl 1)

/-- A time with a four-digit year is written as a date that is read back. -/
theorem exists_date {unixSeconds : Nat} (small : unixSeconds ≤ maxUnixSeconds) :
    ∃ text, imfFixdate unixSeconds = some text ∧ DateText text ∧
      ∀ now, parseHttpDate text now = some unixSeconds := by
  obtain ⟨date, weekday, month, index, inWeek, parts, named, monthNamed, formatted⟩ :=
    imfFixdate_text small
  obtain ⟨other, known, letters⟩ := dayNames_get inWeek
  obtain rfl := Option.some.inj (named.symm.trans known)
  refine ⟨_, formatted, imfText_dateText letters (List.mem_of_getElem? named)
    (List.mem_of_getElem? monthNamed), fun now => ?_⟩
  obtain ⟨text, written, read⟩ := parseHttpDate_imfFixdate small now
  rw [formatted] at written
  rw [Option.some.inj written]
  exact read

/-! ### What is written -/

/-- A value the response takes, or none. -/
def Fits (out : Bytes) : Prop := out = [] ∨ validateFieldValue out = true

theorem validateFieldValue_append {front behind : Bytes} (some_ : front ≠ []) (more : behind ≠ [])
    (first : validateFieldValue front = true) (second : validateFieldValue behind = true) :
    validateFieldValue (front ++ ascii ", " ++ behind) = true := by
  have parts : ∀ {value : Bytes}, validateFieldValue value = true →
      (∀ byte ∈ value.head?, isOws byte = false) ∧ (∀ byte ∈ value.getLast?, isOws byte = false) ∧
        ∀ byte ∈ value, isFieldVchar byte = true ∨ isOws byte = true := by
    intro value valid
    unfold validateFieldValue at valid
    rw [Bool.and_eq_true, Bool.not_eq_true', Bool.or_eq_false_iff, List.all_eq_true] at valid
    obtain ⟨⟨head, last⟩, inside⟩ := valid
    refine ⟨fun byte held => ?_, fun byte held => ?_, fun byte member =>
      (Bool.or_eq_true _ _).mp (inside byte member)⟩
    · rw [held] at head
      exact head
    · rw [held] at last
      exact last
  obtain ⟨lead, -, inside⟩ := parts first
  obtain ⟨-, last, inside'⟩ := parts second
  refine validateFieldValue_of ?_ ?_ ?_
  · rw [List.append_assoc, List.head?_append_of_ne_nil _ some_]
    exact lead
  · rw [List.getLast?_append_of_ne_nil _ more]
    exact last
  · simp only [List.forall_mem_append]
    refine ⟨⟨inside, fun byte member => ?_⟩, inside'⟩
    have literal : ∀ byte ∈ ascii ", ", isFieldVchar byte = true ∨ isOws byte = true :=
      List.forall_mem_cons.mpr ⟨by decide, List.forall_mem_singleton.mpr (by decide)⟩
    exact literal byte member

theorem Fits.directive {out directive : Bytes} (fits : Fits out) (some_ : directive ≠ [])
    (valid : validateFieldValue directive = true) : Fits (separate out ++ directive) := by
  unfold separate
  split
  · rename_i empty
    rw [empty]
    exact .inr valid
  · rename_i more
    exact .inr (validateFieldValue_append more some_ (fits.resolve_left more) valid)

theorem Fits.writeDirective {out directive : Bytes} (fits : Fits out) (set : Bool)
    (some_ : directive ≠ []) (valid : validateFieldValue directive = true) :
    Fits (writeDirective set directive out) := by
  unfold Static.writeDirective
  split
  · exact fits.directive some_ valid
  · exact fits

theorem maxAge_value (seconds : Nat) :
    validateFieldValue (ascii "max-age=" ++ decimal seconds) = true := by
  have digits : ∀ digit < 10, isFieldVchar (UInt8.ofNat (48 + digit)) = true := by decide
  have name : ∀ byte ∈ ascii "max-age=", isFieldVchar byte = true :=
    List.all_eq_true.mp (by decide)
  refine validateFieldValue_vchars fun byte member => ?_
  rcases List.mem_append.mp member with literal | held
  · exact name byte literal
  · obtain ⟨digit, known, rfl⟩ := List.mem_map.mp held
    exact digits digit (lowDigits_lt (by decide) seconds digit (List.mem_reverse.mp known))

/-- The directives make a value the response takes. -/
theorem CachePolicy.fits (policy : CachePolicy) : Fits (policy.write []) := by
  unfold CachePolicy.write
  dsimp only
  have none_ : Fits [] := .inl rfl
  have first := none_.writeDirective policy.noStore (by decide)
    (by decide : validateFieldValue (ascii "no-store") = true)
  have second := first.writeDirective policy.private (by decide)
    (by decide : validateFieldValue (ascii "private") = true)
  have third := second.writeDirective policy.public (by decide)
    (by decide : validateFieldValue (ascii "public") = true)
  refine Fits.writeDirective ?_ policy.immutable (by decide) (by decide)
  split
  · exact third.directive (by simp [ascii]) (maxAge_value _)
  · exact third

/-- The shared fields are written whatever the policy, the tag first. -/
theorem writeShared_perform {settings : Settings} {entry : Entry} {state : FileState}
    (tagged : entry.etag = state.tag) (response : Response) :
    ∃ shared after, (writeShared settings entry).perform response = (.ok (), after) ∧
      after.fields = response.fields ++ fieldText (ascii "ETag") state.tag ++ shared := by
  have first := @Draft.perform_headerId response .eTag (by decide) entry.etag
  rw [tagged, if_pos state.tag_value] at first
  unfold writeShared
  rw [tagged, Draft.perform_ok first]
  show ∃ shared after, (Draft.provided (settings.cache.write [] ≠ []) _).perform _ = _ ∧ _
  unfold Draft.provided
  by_cases empty : settings.cache.write [] = []
  · rw [if_neg (by simpa using empty), Draft.perform_pure]
    exact ⟨[], _, rfl, (List.append_nil _).symm⟩
  · rw [if_pos (decide_eq_true empty), Draft.perform_headerId (by decide),
      if_pos (settings.cache.fits.resolve_left empty)]
    exact ⟨_, _, rfl, rfl⟩

/-- The answer with a file, whole or in part, carries its tag and its time, behind the fields that
were there, whatever else is written. -/
theorem writeFile_validators {windows : Bool} {settings : Settings} {request : Request}
    {evaluated : Evaluated} {now : Nat} {relative : Bytes} {entry : Entry} {range : Option Bytes}
    {state : FileState} {response : Response} (some_ : evaluated ≠ .neither)
    (tagged : entry.etag = state.tag)
    (dated : imfFixdate (lastModifiedFor entry.modified.seconds.toNat now) = some text)
    (dateText : DateText text) (proceeds : evaluate request.method
      (preconditionsOf request (settings.ranges && evaluated = .all)) (validatorsOf entry now) now =
        .proceed range) :
    ∃ shared, response.fields ++ fieldText (ascii "ETag") state.tag ++ shared ++
        fieldText (ascii "Last-Modified") text <+:
      ((writeFile windows settings request evaluated now relative entry).perform response).2.fields := by
  obtain ⟨shared, after, written, fields⟩ := @writeShared_perform settings entry state tagged response
  refine ⟨shared, ?_⟩
  unfold writeFile
  rw [if_neg some_]
  dsimp only
  rw [Draft.perform_ok written, proceeds]
  unfold writeOutcome writeLastModified
  rw [dated]
  dsimp only
  have line := @Draft.perform_headerId after .lastModified (by decide) text
  rw [if_pos dateText.value, fields] at line
  rw [Draft.perform_ok line]
  have rest := ((Draft.appends_headerId .acceptRanges (ascii "bytes")).provided
    (settings.ranges && evaluated = .all)).bind fun _ =>
      (@appends_disposition windows settings relative).bind fun _ => @appends_writeContent entry range
  exact rest { after with
    fields := response.fields ++ fieldText (ascii "ETag") state.tag ++ shared ++
      fieldText (ascii "Last-Modified") text
    touched := true }

/-! ### Validators that come back -/

/-- A request that sends back nothing but validators of a file, a date with `If-Range` only after
the second it names. -/
structure Echoes (state : FileState) (date : Bytes) (now : Nat) (request : Preconditions) :
    Prop where
  ifMatch : ∀ value ∈ request.ifMatch, value = state.tag
  ifUnmodifiedSince : ∀ value ∈ request.ifUnmodifiedSince, value = date
  ifNoneMatch : ∀ value ∈ request.ifNoneMatch, value = state.tag
  ifModifiedSince : ∀ value ∈ request.ifModifiedSince, value = date
  ifRange : ∀ value ∈ request.ifRange,
    value = state.tag ∨ value = date ∧ state.modified.seconds.toNat < now

/-- What such a request comes to as long as the file is the same. -/
def echoed (method : Option Method) (request : Preconditions) : Outcome :=
  let getOrHead : Bool := method = some .get ∨ method = some .head
  if request.ifNoneMatch.isSome then if getOrHead then .notModified else .preconditionFailed
  else if getOrHead && request.ifModifiedSince.isSome then .notModified
  else .proceed (if method = some .get then request.range else none)

/-- An entry made of a file in a state. -/
structure Entry.Of (entry : Entry) (state : FileState) : Prop where
  modified : entry.modified = state.modified
  tagged : entry.etag = state.tag

theorem Entry.of_fresh (fromPath : Bytes → Option Bytes) (key bytes : Bytes) (metadata : Metadata) :
    (Entry.fresh fromPath key bytes metadata).Of ⟨Modified.of metadata, metadata.len⟩ := ⟨rfl, rfl⟩

section Echo

variable {state : FileState} {entry : Entry} {date : Bytes} {now : Nat} {request : Preconditions}

theorem Entry.Of.validators (held : entry.Of state) (past : state.modified.seconds.toNat ≤ now) :
    validatorsOf entry now = ⟨some state.entityTag, some state.modified.seconds.toNat⟩ := by
  unfold validatorsOf
  rw [held.tagged, held.modified, state.parse_tag, lastModifiedFor_past past]

theorem tag_edges (state : FileState) : trimOws state.tag = state.tag := by
  obtain ⟨some_, first, last⟩ := state.entityTag.text_edges
  rw [← state.tag_eq] at some_ first last
  have padded : trimBoth isOws ([] ++ state.tag ++ []) = state.tag :=
    trimBoth_padded nofun nofun some_ first last
  rw [List.nil_append, List.append_nil] at padded
  exact padded

/-- The range is let through under an echoed `If-Range`. -/
theorem ifRangeMatches_echo {value : Bytes} (dateText : DateText date)
    (read : parseHttpDate date now = some state.modified.seconds.toNat)
    (echoes : value = state.tag ∨ value = date ∧ state.modified.seconds.toNat < now) :
    ifRangeMatches (trimOws value)
      ⟨some state.entityTag, some state.modified.seconds.toNat⟩ now = true := by
  rcases echoes with rfl | ⟨rfl, later⟩
  · rw [tag_edges]
    unfold ifRangeMatches
    have quoted : [quote] <+: state.tag := by
      unfold FileState.tag etagOf
      simp only [List.append_assoc]
      exact List.prefix_append _ _
    rw [if_pos (.inl quoted), state.parse_tag]
    exact (state.strongEq_entityTag state).trans (decide_eq_true rfl)
  · rw [dateText.trim]
    unfold ifRangeMatches
    rw [if_neg dateText.untagged, read]
    exact decide_eq_true ⟨rfl, (Nat.min_le_left _ _).trans later⟩

/-- The current tag, sent as a list, matches. -/
theorem listMatches_echo (state : FileState) :
    listMatches state.tag (some state.entityTag) EntityTag.strongEq = true ∧
      listMatches state.tag (some state.entityTag) EntityTag.weakEq = true := by
  have strong := state.listMatches_tag state sharp_strongEq
  have weak := state.listMatches_tag state sharp_weakEq
  rw [state.parse_tag] at strong weak
  rw [strong, weak, state.strongEq_entityTag, state.weakEq_entityTag]
  exact ⟨decide_eq_true rfl, decide_eq_true rfl⟩

theorem evaluateRange_echo (dateText : DateText date)
    (read : parseHttpDate date now = some state.modified.seconds.toNat)
    (echoes : Echoes state date now request) (method : Option Method) :
    evaluateRange method request ⟨some state.entityTag, some state.modified.seconds.toNat⟩ now =
      .proceed (if method = some .get then request.range else none) := by
  unfold evaluateRange
  by_cases get : method = some .get
  · rw [if_neg (not_not_intro get), if_pos get]
    cases range : request.range with
    | none => rfl
    | some range =>
      dsimp only
      cases condition : request.ifRange with
      | none => rfl
      | some value =>
        dsimp only
        rw [if_pos (ifRangeMatches_echo dateText read (echoes.ifRange value condition))]
  · rw [if_pos get, if_neg get]

/-- What is sent back of an unchanged file passes every condition it is put to. -/
theorem evaluate_echo (held : entry.Of state) (past : state.modified.seconds.toNat ≤ now)
    (dateText : DateText date) (read : parseHttpDate date now = some state.modified.seconds.toNat)
    (echoes : Echoes state date now request) (method : Option Method) :
    evaluate method request (validatorsOf entry now) now = echoed method request := by
  have range := evaluateRange_echo dateText read echoes method
  have cached : evaluateCached method request
      ⟨some state.entityTag, some state.modified.seconds.toNat⟩ now = echoed method request := by
    unfold evaluateCached echoed
    cases tags : request.ifNoneMatch with
    | some list =>
      dsimp only
      rw [echoes.ifNoneMatch list tags, (listMatches_echo state).2]
      rfl
    | none =>
      by_cases getOrHead : method = some .get ∨ method = some .head
      · simp only [getOrHead, decide_true, if_true, Bool.true_and, Option.isSome_none,
          Bool.false_eq_true, if_false]
        cases since : request.ifModifiedSince with
        | none => exact range
        | some value =>
          dsimp only
          rw [echoes.ifModifiedSince value since, dateText.oneDate, read]
          exact if_pos (Nat.le_refl _)
      · simp only [getOrHead, decide_false, Bool.false_eq_true, if_false, Bool.false_and,
          Option.isSome_none]
        exact range
  rw [held.validators past]
  unfold evaluate
  cases tags : request.ifMatch with
  | some list =>
    dsimp only
    rw [echoes.ifMatch list tags, if_pos (listMatches_echo state).1, cached]
  | none =>
    dsimp only
    cases since : request.ifUnmodifiedSince with
    | none => exact cached
    | some value =>
      dsimp only
      rw [echoes.ifUnmodifiedSince value since, dateText.oneDate, read]
      dsimp only
      rw [if_neg (Nat.lt_irrefl _), cached]

/-! ### Validators of another state -/

variable {other : FileState} {method : Option Method} {current : Validators}

/-- The first two steps let a request through or fail it. -/
theorem evaluate_cases : evaluate method request current now = .preconditionFailed ∨
    evaluate method request current now = evaluateCached method request current now := by
  unfold evaluate
  split
  · split
    · exact .inr rfl
    · exact .inl rfl
  · split
    · exact .inr rfl
    · split
      · split
        · exact .inl rfl
        · exact .inr rfl
      · exact .inr rfl

theorem evaluateCached_cases : evaluateCached method request current now = .notModified ∨
    evaluateCached method request current now = .preconditionFailed ∨
      evaluateCached method request current now = evaluateRange method request current now := by
  unfold evaluateCached
  dsimp only
  split
  · split
    · split
      · exact .inl rfl
      · exact .inr (.inl rfl)
    · exact .inr (.inr rfl)
  · split
    · exact .inr (.inr rfl)
    · split
      · split
        · exact .inl rfl
        · exact .inr (.inr rfl)
      · exact .inr (.inr rfl)

theorem evaluateRange_proceeds : ∃ range, evaluateRange method request current now = .proceed range := by
  unfold evaluateRange
  split
  · exact ⟨_, rfl⟩
  · split
    · exact ⟨_, rfl⟩
    · split
      · exact ⟨_, rfl⟩
      · exact ⟨_, rfl⟩

/-- No request with the tag of another state is told that nothing was modified. -/
theorem evaluate_ifNoneMatch_other (held : entry.Of other) (changed : other ≠ state)
    (sent : request.ifNoneMatch = some state.tag) :
    evaluate method request (validatorsOf entry now) now ≠ .notModified := by
  intro same
  rcases @evaluate_cases now request method (validatorsOf entry now) with failed | cached
  · rw [failed] at same
    cases same
  · have apart : listMatches state.tag (validatorsOf entry now).etag EntityTag.weakEq = false := by
      show listMatches state.tag (EntityTag.parse entry.etag) EntityTag.weakEq = false
      rw [held.tagged, state.listMatches_tag other sharp_weakEq, state.weakEq_entityTag]
      exact decide_eq_false changed.symm
    obtain ⟨range, proceeds⟩ := @evaluateRange_proceeds now request method (validatorsOf entry now)
    rw [cached] at same
    unfold evaluateCached at same
    rw [sent] at same
    dsimp only at same
    rw [apart, if_neg Bool.false_ne_true, proceeds] at same
    cases same

/-- No range is let through for the tag of another state. -/
theorem evaluate_ifRange_other (held : entry.Of other) (changed : other ≠ state)
    (sent : request.ifRange = some state.tag) (range : Bytes) :
    evaluate method request (validatorsOf entry now) now ≠ .proceed (some range) := by
  have refused : ifRangeMatches (trimOws state.tag) (validatorsOf entry now) now = false := by
    have quoted : [quote] <+: state.tag := by
      unfold FileState.tag etagOf
      simp only [List.append_assoc]
      exact List.prefix_append _ _
    rw [tag_edges]
    unfold ifRangeMatches
    rw [if_pos (.inl quoted), state.parse_tag]
    have tagged : (validatorsOf entry now).etag = some other.entityTag := by
      show EntityTag.parse entry.etag = _
      rw [held.tagged, other.parse_tag]
    rw [tagged]
    exact (state.strongEq_entityTag other).trans (decide_eq_false changed.symm)
  intro same
  rcases @evaluate_cases now request method (validatorsOf entry now) with failed | cached
  · rw [failed] at same
    cases same
  rw [cached] at same
  rcases @evaluateCached_cases now request method (validatorsOf entry now) with
    modified | failed | ranged
  · rw [modified] at same
    cases same
  · rw [failed] at same
    cases same
  · rw [ranged] at same
    unfold evaluateRange at same
    split at same
    · cases same
    · split at same
      · cases same
      · rw [sent] at same
        dsimp only at same
        rw [refused, if_neg Bool.false_ne_true] at same
        cases same

end Echo

end ZeroServer.Static

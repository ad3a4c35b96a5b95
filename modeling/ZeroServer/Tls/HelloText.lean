/-
This file is about the client hello as its records and its fields are written. How the bytes arrive
and how the message is cut into records does not change what the walk reports or what is
reassembled, and a well-formed body offers what its extensions say.
-/

import ZeroServer.Tls.Hello

namespace ZeroServer.Tls

open Http1 Ws Reader

/-! ### Records -/

/-- A handshake record. -/
structure Record where
  version : Bytes
  carried : Bytes
  two : version.length = 2
  fits : carried.length < 2 ^ 16

namespace Record

def text (record : Record) : Bytes :=
  handshake :: (record.version ++ (beBytes 2 record.carried.length ++ record.carried))

theorem text_append (record : Record) (rest : Bytes) :
    record.text ++ rest = handshake ::
      (record.version ++ (beBytes 2 record.carried.length ++ (record.carried ++ rest))) := by
  simp only [text, List.cons_append, List.append_assoc]

theorem length_text (record : Record) : record.text.length = 5 + record.carried.length := by
  rw [text, List.length_cons, List.length_append, List.length_append, record.two, length_beBytes]
  omega

theorem fragment_text (record : Record) (rest : Bytes) :
    fragment (record.version ++ (beBytes 2 record.carried.length ++ (record.carried ++ rest))) =
      some (record.carried, rest) :=
  fragment_eq_some.mpr ⟨record.fits, record.version, record.two, rfl⟩

end Record

/-- What handshake records carry together. -/
def carriedBy (records : List Record) : Bytes := records.flatMap Record.carried

/-- The first message is there as a whole. -/
def Whole (message : Bytes) : Prop :=
  4 ≤ message.length ∧ beValue ((message.drop 1).take 3) + 4 ≤ message.length

instance (message : Bytes) : Decidable (Whole message) := inferInstanceAs (Decidable (_ ∧ _))

variable {message : Bytes}

theorem Whole.append (whole : Whole message) (more : Bytes) : Whole (message ++ more) := by
  obtain ⟨four, enough⟩ := whole
  refine ⟨by rw [List.length_append]; omega, ?_⟩
  rw [List.drop_append_of_le_length (by omega), List.take_append_of_le_length
    (by rw [List.length_drop]; omega), List.length_append]
  omega

/-- The first four octets of a message, filled up with zeros. -/
def headerOf (message : Bytes) : Bytes :=
  message.take 4 ++ List.replicate (4 - message.length) 0

theorem length_headerOf (message : Bytes) : (headerOf message).length = 4 := by
  rw [headerOf, List.length_append, List.length_take, List.length_replicate]
  omega

theorem fill_headerOf (message carried : Bytes) :
    Records.fill (headerOf message) message.length carried = headerOf (message ++ carried) := by
  unfold Records.fill
  rw [length_headerOf]
  unfold headerOf
  rcases Nat.lt_or_ge message.length 4 with short | long
  · rw [List.take_of_length_le (Nat.le_of_lt short), List.take_left, List.take_append,
      List.take_of_length_le (Nat.le_of_lt short), List.drop_append, List.drop_replicate,
      List.drop_of_length_le (Nat.le_add_right _ _), List.nil_append, List.length_append,
      List.append_assoc]
    have count : 4 - message.length - (message.length + carried.length - message.length) =
        4 - (message.length + carried.length) := by omega
    rw [count, List.append_assoc]
  · have full : (message.take 4).length = 4 := by rw [List.length_take, Nat.min_eq_left long]
    rw [List.length_append, Nat.sub_eq_zero_of_le long, Nat.sub_eq_zero_of_le (by omega),
      List.replicate_zero, List.append_nil, List.append_nil, List.take_zero, List.append_nil,
      List.take_of_length_le (by omega), List.drop_of_length_le (by omega), List.append_nil,
      List.take_append_of_le_length long]

/-- The length in a header is that of a message whose first octets it holds. -/
theorem header_length {header : Bytes} (four : header.length = 4)
    (starts : 4 ≤ message.length → header = message.take 4) :
    ((u8 header).bind fun (_, header) => u24 header).elim false
      (fun (length, _) => length + 4 ≤ message.length) = decide (Whole message) := by
  obtain ⟨kind, length, rfl⟩ := List.exists_cons_of_ne_nil
    (List.ne_nil_of_length_pos (by omega) : header ≠ [])
  have three : length.length = 3 := Nat.succ.inj four
  have read : u24 length = some (beValue length, []) := by
    have taken := take_append length []
    rw [List.append_nil, three] at taken
    exact congrArg (Option.map _) taken
  rw [u8_cons, Option.bind_some]
  dsimp only
  rw [read]
  refine decide_eq_decide.mpr ⟨fun enough => ?_, fun whole => ?_⟩
  · have long : 4 ≤ message.length := Nat.le_trans (Nat.le_add_left _ _) enough
    refine ⟨long, ?_⟩
    have same : (message.drop 1).take 3 = length := by
      rw [List.take_drop, ← starts long]
      rfl
    rw [same]
    exact enough
  · have same : (message.drop 1).take 3 = length := by
      rw [List.take_drop, ← starts whole.1]
      rfl
    rw [← same]
    exact whole.2

/-- The state behind records that do not make the message whole. -/
def behind (records : List Record) : Records where
  next := (records.flatMap Record.text).length
  header := headerOf (carriedBy records)
  carried := (carriedBy records).length
  ended := false

theorem carriedBy_concat (records : List Record) (record : Record) :
    carriedBy (records ++ [record]) = carriedBy records ++ record.carried := by
  rw [carriedBy, List.flatMap_append, List.flatMap_singleton]
  rfl

/-! ### One turn -/

variable {bytes rest : Bytes}

variable {carried : Bytes}

section Turns

variable {records : List Record} {tail : Bytes} {kind : UInt8}

/-- A turn looks at what is behind the records that were read. -/
theorem turn_behind (records : List Record) (tail : Bytes) :
    (behind records).turn (records.flatMap Record.text ++ tail) =
      (u8 tail).bind fun (kind, record) =>
        if kind = handshake then
          (fragment record).map fun (carried, _) =>
            .inr {
              next := (records.flatMap Record.text).length + 5 + carried.length
              header := headerOf (carriedBy records ++ carried)
              carried := (carriedBy records ++ carried).length
              ended := decide (Whole (carriedBy records ++ carried)) }
        else if kind = alert then some (.inr { behind records with ended := true })
        else some (.inl kind) := by
  unfold Records.turn
  rw [if_neg (by rw [List.length_append]; exact Nat.not_lt_of_le (Nat.le_add_right _ _)),
    show (records.flatMap Record.text ++ tail).drop (behind records).next = tail from List.drop_left]
  congr 1
  funext ⟨kind, record⟩
  dsimp only
  split
  · congr 1
    funext ⟨carried, rest⟩
    have filled : Records.fill (behind records).header (behind records).carried carried =
        headerOf (carriedBy records ++ carried) := fill_headerOf _ _
    have total : (behind records).carried + carried.length =
        (carriedBy records ++ carried).length := by rw [List.length_append]; rfl
    have whole := header_length (length_headerOf (carriedBy records ++ carried)) fun long => by
      rw [headerOf, Nat.sub_eq_zero_of_le long, List.replicate_zero, List.append_nil]
    dsimp only
    rw [filled, total]
    exact congrArg (fun ended => Sum.inr (Records.mk _ _ _ ended)) whole
  · rfl

theorem turn_record (records : List Record) (record : Record) (rest : Bytes) :
    (behind records).turn (records.flatMap Record.text ++ (record.text ++ rest)) =
      some (.inr { behind (records ++ [record]) with
        ended := decide (Whole (carriedBy (records ++ [record]))) }) := by
  have next : (records.flatMap Record.text).length + 5 + record.carried.length =
      ((records ++ [record]).flatMap Record.text).length := by
    rw [List.flatMap_append, List.flatMap_singleton, List.length_append, record.length_text,
      Nat.add_assoc]
  rw [turn_behind, record.text_append, u8_cons, Option.bind_some]
  dsimp only
  rw [if_pos rfl, record.fragment_text, Option.map_some, ← carriedBy_concat, next]
  rfl

/-- What a tail that starts with a handshake record looks like. -/
theorem record_of_fragment (parsed : fragment bytes = some (carried, rest)) :
    ∃ record : Record, handshake :: bytes = record.text ++ rest := by
  obtain ⟨fits, version, two, rfl⟩ := fragment_eq_some.mp parsed
  exact ⟨⟨version, carried, two, fits⟩,
    (Record.text_append ⟨version, carried, two, fits⟩ rest).symm⟩

/-- A tail that is no whole record, or begins another one, does not begin with a record. -/
theorem text_append_ne {record : Record} (none_ : fragment bytes = none) :
    record.text ++ rest ≠ handshake :: bytes := by
  intro same
  rw [record.text_append] at same
  rw [← (List.cons.inj same).2, record.fragment_text] at none_
  cases none_

theorem text_append_inj {one two : Record} {rest' : Bytes}
    (same : one.text ++ rest = two.text ++ rest') : one = two ∧ rest = rest' := by
  rw [one.text_append, two.text_append] at same
  obtain ⟨versions, same⟩ := List.append_inj (List.cons.inj same).2 (one.two.trans two.two.symm)
  have first := one.fragment_text rest
  rw [versions, same, two.fragment_text] at first
  obtain ⟨carried, rests⟩ := Prod.mk.inj (Option.some.inj first)
  rcases one with ⟨version, carried', _, _⟩
  rcases two with ⟨version', carried'', _, _⟩
  cases versions
  cases carried
  exact ⟨rfl, rests.symm⟩

/-! ### What is reported -/

/-- Behind records that do not make the hello whole, and further ones that do not, a record of
another kind starts. -/
def Intrudes (records : List Record) (tail : Bytes) (kind : UInt8) : Prop :=
  ∃ more rest, tail = more.flatMap Record.text ++ kind :: rest ∧
    ¬ Whole (carriedBy (records ++ more)) ∧ kind ≠ handshake ∧ kind ≠ alert

theorem unexpected_behind (partial_ : ¬ Whole (carriedBy records)) :
    ((behind records).unexpected (records.flatMap Record.text ++ tail)).1 = some kind ↔
      Intrudes records tail kind := by
  induction size : tail.length using Nat.strongRecOn generalizing records tail with
  | ind length inductionHypothesis =>
    have first : ∀ {more : List Record} {rest : Bytes} {byte : UInt8} {bytes : Bytes},
        byte :: bytes = more.flatMap Record.text ++ kind :: rest →
          (more = [] ∧ byte = kind) ∨ ∃ record others, more = record :: others ∧
            byte = handshake ∧
            byte :: bytes = record.text ++ (others.flatMap Record.text ++ kind :: rest) := by
      intro more rest byte bytes same
      rcases more with - | ⟨record, others⟩
      · exact .inl ⟨rfl, (List.cons.inj same).1⟩
      · rw [List.flatMap_cons, List.append_assoc] at same
        refine .inr ⟨record, others, rfl, ?_, same⟩
        rw [record.text_append] at same
        exact (List.cons.inj same).1
    rw [Records.unexpected_running rfl]
    rcases tail with - | ⟨byte, bytes⟩
    · rw [turn_behind, u8_nil]
      refine ⟨nofun, ?_⟩
      rintro ⟨more, rest, same, -⟩
      exact absurd same.symm (List.append_ne_nil_of_right_ne_nil _ (List.cons_ne_nil _ _))
    · by_cases isHandshake : byte = handshake
      · subst isHandshake
        rcases parsed : fragment bytes with - | ⟨carried, rest⟩
        · rw [turn_behind, u8_cons, Option.bind_some]
          dsimp only
          rw [if_pos rfl, parsed]
          refine ⟨nofun, ?_⟩
          rintro ⟨more, rest, same, -, other, -⟩
          rcases first same with ⟨-, rfl⟩ | ⟨record, others, -, -, whole⟩
          · exact absurd rfl other
          · exact absurd whole.symm (text_append_ne parsed)
        · obtain ⟨record, whole⟩ := record_of_fragment parsed
          rw [whole, turn_record]
          dsimp only
          by_cases complete : Whole (carriedBy (records ++ [record]))
          · rw [Records.unexpected_ended (decide_eq_true complete)]
            refine ⟨nofun, ?_⟩
            rintro ⟨more, behind, same, incomplete, other, -⟩
            rw [← whole] at same
            rcases first same with ⟨-, rfl⟩ | ⟨record', others, rfl, -, whole'⟩
            · exact absurd rfl other
            · obtain ⟨rfl, -⟩ := text_append_inj (whole.symm.trans whole')
              refine absurd ?_ incomplete
              rw [← List.singleton_append, ← List.append_assoc, carriedBy, List.flatMap_append]
              exact complete.append _
          · have next := inductionHypothesis rest.length (by
              have lengths := congrArg List.length whole
              rw [List.length_append, record.length_text] at lengths
              omega) complete rfl
            rw [List.flatMap_append, List.flatMap_singleton, List.append_assoc] at next
            rw [decide_eq_false complete]
            refine Iff.trans next ⟨?_, ?_⟩
            · rintro ⟨more, behind, rfl, incomplete, others⟩
              refine ⟨record :: more, behind, ?_, ?_, others⟩
              · rw [List.flatMap_cons, List.append_assoc]
              · rwa [List.append_cons]
            · rintro ⟨more, behind, same, incomplete, others⟩
              rw [← whole] at same
              rcases first same with ⟨-, rfl⟩ | ⟨record', more, rfl, -, whole'⟩
              · exact absurd rfl others.1
              · obtain ⟨rfl, rfl⟩ := text_append_inj (whole.symm.trans whole')
                exact ⟨more, behind, rfl, by rwa [List.append_cons] at incomplete, others⟩
      · rw [turn_behind, u8_cons, Option.bind_some]
        dsimp only
        rw [if_neg isHandshake]
        by_cases isAlert : byte = alert
        · rw [if_pos isAlert]
          dsimp only
          rw [Records.unexpected_ended rfl]
          refine ⟨nofun, ?_⟩
          rintro ⟨more, rest, same, -, -, other⟩
          rcases first same with ⟨-, rfl⟩ | ⟨-, -, -, wrong, -⟩
          · exact absurd isAlert other
          · exact absurd wrong isHandshake
        · rw [if_neg isAlert]
          constructor
          · intro same
            cases same
            refine ⟨[], bytes, rfl, ?_, isHandshake, isAlert⟩
            rwa [List.append_nil]
          · rintro ⟨more, rest, same, -⟩
            rcases first same with ⟨-, rfl⟩ | ⟨-, -, -, wrong, -⟩
            · rfl
            · exact absurd wrong isHandshake

end Turns

/-! ### Segments -/

theorem u8_stable {byte : UInt8} (read : u8 bytes = some (byte, rest)) (more : Bytes) :
    u8 (bytes ++ more) = some (byte, rest ++ more) := by
  rcases bytes with - | ⟨first, bytes⟩
  · cases read
  · cases read
    rfl

theorem fragment_stable (read : fragment bytes = some (carried, rest)) (more : Bytes) :
    fragment (bytes ++ more) = some (carried, rest ++ more) := by
  obtain ⟨fits, version, two, rfl⟩ := fragment_eq_some.mp read
  exact fragment_eq_some.mpr ⟨fits, version, two, by simp only [List.append_assoc]⟩

/-- What a turn did with some bytes it does with more. -/
theorem turn_stable {records : Records} {did : UInt8 ⊕ Records}
    (turned : records.turn bytes = some did) (more : Bytes) :
    records.turn (bytes ++ more) = some did := by
  unfold Records.turn at turned ⊢
  split at turned
  · cases turned
  · next inside =>
    obtain ⟨⟨kind, record⟩, read, turned⟩ := Option.bind_eq_some_iff.mp turned
    rw [if_neg (by rw [List.length_append]; omega),
      List.drop_append_of_le_length (Nat.le_of_not_lt inside), u8_stable read more,
      Option.bind_some]
    dsimp only at turned ⊢
    split at turned
    · next isHandshake =>
      obtain ⟨⟨carried, rest⟩, parsed, rfl⟩ := Option.map_eq_some_iff.mp turned
      rw [if_pos isHandshake, fragment_stable parsed more]
      rfl
    · next other => rwa [if_neg other]

/-- A call on some bytes and one on more report what one call on more reports. -/
theorem unexpected_more (records : Records) (bytes more : Bytes) :
    (records.unexpected (bytes ++ more)).1 =
      match records.unexpected bytes with
      | (some kind, _) => some kind
      | (none, kept) => (kept.unexpected (bytes ++ more)).1 := by
  induction size : records.left bytes using Nat.strongRecOn generalizing records with
  | ind count inductionHypothesis =>
    rcases running : records.ended with - | -
    · rcases turned : records.turn bytes with - | kind | next
      · rw [@Records.unexpected_running _ bytes running, turned]
      · rw [@Records.unexpected_running _ bytes running,
          @Records.unexpected_running _ (bytes ++ more) running, turned,
          turn_stable turned more]
      · rw [@Records.unexpected_running _ bytes running,
          @Records.unexpected_running _ (bytes ++ more) running, turned,
          turn_stable turned more]
        exact inductionHypothesis _ (size ▸ Records.turn_left running turned) next rfl
    · rw [@Records.unexpected_ended _ bytes running]

/-- The first report of a series of calls. -/
def firstReport (records : Records) : List Bytes → Option UInt8
  | [] => none
  | bytes :: later =>
    match records.unexpected bytes with
    | (some kind, _) => some kind
    | (none, kept) => firstReport kept later

/-- A series of calls on growing parts of some bytes reports what one call on all of them does. -/
theorem firstReport_eq {whole : Bytes} {parts : List Bytes} (records : Records)
    (grow : parts.Pairwise fun part later => part <+: later)
    (inside : ∀ part ∈ parts, part <+: whole) :
    firstReport records (parts ++ [whole]) = (records.unexpected whole).1 := by
  induction parts generalizing records with
  | nil =>
    rw [List.nil_append, firstReport]
    rcases records.unexpected whole with ⟨- | kind, kept⟩ <;> rfl
  | cons part parts inductionHypothesis =>
    obtain ⟨-, later⟩ := List.pairwise_cons.mp grow
    obtain ⟨here, others⟩ := List.forall_mem_cons.mp inside
    obtain ⟨more, rfl⟩ := here
    rw [unexpected_more, List.cons_append, firstReport]
    rcases records.unexpected part with ⟨- | kind, kept⟩
    · exact inductionHypothesis kept later others
    · rfl

/-! ### The first message -/

variable {body : Bytes}

/-- The handshake message of a body. -/
def messageOf (body : Bytes) : Bytes := clientHello :: (beBytes 3 body.length ++ body)

theorem length_messageOf (body : Bytes) : (messageOf body).length = 4 + body.length := by
  rw [messageOf, List.length_cons, List.length_append, length_beBytes]
  omega

/-- A part of the message comes to nothing, all of it to the body. -/
theorem wholeMessage_part (fits : body.length < 2 ^ 24) (part : message ++ rest = messageOf body) :
    wholeMessage message = if rest = [] then some (some body) else none := by
  have lengths := congrArg List.length part
  rw [length_messageOf, List.length_append] at lengths
  have short : message.length < 4 + body.length → rest ≠ [] := fun few empty => by
    rw [empty, List.length_nil] at lengths
    omega
  rcases message with - | ⟨kind, message⟩
  · rw [if_neg (short (by rw [List.length_nil]; omega))]
    rfl
  · obtain ⟨rfl, behind⟩ := List.cons.inj part
    rw [List.length_cons] at lengths short
    unfold wholeMessage
    rw [u8_cons, Option.bind_some]
    dsimp only
    rcases Nat.lt_or_ge message.length 3 with few | enough
    · have none_ : u24 message = none := by
        rw [u24, take_eq_none.mpr few]
        rfl
      rw [none_, if_neg (short (by omega))]
      rfl
    · obtain ⟨body', rfl, rfl⟩ : ∃ body', message = beBytes 3 body.length ++ body' ∧
          body' ++ rest = body := by
        rcases List.append_eq_append_iff.mp behind with ⟨gap, whole, same⟩ | ⟨gap, same, whole⟩
        · have none_ : gap = [] := by
            refine List.eq_nil_of_length_eq_zero ?_
            have := congrArg List.length whole
            rw [length_beBytes, List.length_append] at this
            omega
          subst none_
          rw [List.append_nil] at whole
          exact ⟨[], by rw [List.append_nil, whole], same⟩
        · exact ⟨gap, same, whole.symm⟩
      rw [u24_eq_some.mpr ⟨fits, rfl⟩, Option.map_some, Option.bind_some]
      dsimp only
      rw [if_neg (not_not.mpr rfl)]
      by_cases last : rest = []
      · subst last
        have taken := take_append body' []
        rw [if_pos rfl, List.append_nil]
        rw [List.append_nil] at taken
        rw [taken]
        rfl
      · have some_ := List.length_pos_of_ne_nil last
        rw [if_neg last, take_eq_none.mpr (by rw [List.length_append]; omega)]
        rfl

/-- However the message is cut into records, its body is reassembled. -/
theorem firstMessageFrom_records (fits : body.length < 2 ^ 24) {records : List Record}
    (rest : Bytes) (cut : message ++ carriedBy records = messageOf body)
    (part : carriedBy records ≠ []) :
    firstMessageFrom (records.flatMap Record.text ++ rest) message = some body := by
  induction records generalizing message with
  | nil => exact absurd rfl part
  | cons record records inductionHypothesis =>
    have read : nextMessage ((record :: records).flatMap Record.text ++ rest) message =
        some (message ++ record.carried, records.flatMap Record.text ++ rest) := by
      rw [List.flatMap_cons, List.append_assoc, record.text_append, nextMessage, u8_cons,
        Option.bind_some]
      dsimp only
      rw [if_neg (not_not.mpr rfl), record.fragment_text]
      rfl
    have cut' : (message ++ record.carried) ++ carriedBy records = messageOf body := by
      rw [List.append_assoc]
      exact cut
    rw [firstMessageFrom_eq, read]
    dsimp only
    rw [wholeMessage_part fits cut']
    by_cases last : carriedBy records = []
    · rw [if_pos last]
    · rw [if_neg last]
      exact inductionHypothesis cut' last

/-! ### The offer -/

/-- An extension: the list of versions, or another type with any data. -/
inductive Extension where
  | versions (list : List Nat) (fit : ∀ version ∈ list, version < 2 ^ 16) (short : list.length ≤ 127)
  | other (kind : Nat) (data : Bytes) (kindFits : kind < 2 ^ 16) (other_ : kind ≠ supportedVersions)
      (dataFits : data.length < 2 ^ 16)

namespace Extension

def kind : Extension → Nat
  | versions _ _ _ => supportedVersions
  | other kind _ _ _ _ => kind

def data : Extension → Bytes
  | versions list _ _ => UInt8.ofNat (2 * list.length) :: list.flatMap (beBytes 2)
  | other _ data _ _ _ => data

def text (extension : Extension) : Bytes :=
  beBytes 2 extension.kind ++ (beBytes 2 extension.data.length ++ extension.data)

/-- The versions an extension offers, if it is the one that does. -/
def offered : Extension → Option (List Nat)
  | versions list _ _ => some list
  | other _ _ _ _ _ => none

end Extension

/-- A well-formed body in its fields. -/
structure HelloText where
  legacy : Nat
  random : Bytes
  session : Bytes
  suites : Bytes
  compression : Bytes
  extensions : Option (List Extension)
  legacyFits : legacy < 2 ^ 16
  randomLength : random.length = 32
  sessionFits : session.length < 2 ^ 8
  suitesFit : suites.length < 2 ^ 16
  compressionFits : compression.length < 2 ^ 8
  extensionsFit : ∀ list ∈ extensions, (list.flatMap Extension.text).length < 2 ^ 16

namespace HelloText

variable (hello : HelloText)

def extensionsText : Bytes :=
  hello.extensions.elim [] fun list =>
    beBytes 2 (list.flatMap Extension.text).length ++ list.flatMap Extension.text

def text : Bytes :=
  beBytes 2 hello.legacy ++ (hello.random ++
    (UInt8.ofNat hello.session.length :: (hello.session ++
      (beBytes 2 hello.suites.length ++ (hello.suites ++
        (UInt8.ofNat hello.compression.length :: (hello.compression ++ hello.extensionsText)))))))

def extensionList : List Extension := hello.extensions.getD []

/-- Whether there is an extension of a type. -/
def has (kind : Nat) : Bool := hello.extensionList.any fun extension => extension.kind == kind

/-- The versions of the last list of versions. -/
def versions : Option (List Nat) := (hello.extensionList.filterMap Extension.offered).getLast?

/-- What the fields offer. -/
def offer : Offer where
  legacy := hello.legacy
  tls13 := hello.versions.elim false fun list => list.contains version13
  tls12 := hello.versions.elim (decide (version12 ≤ hello.legacy)) fun list =>
    list.contains version12
  conforms := (hello.has preSharedKey ||
    (hello.has signatureAlgorithms && hello.has supportedGroups)) &&
      hello.has supportedGroups == hello.has keyShare

end HelloText

theorem versionList_text {list : List Nat} (fit : ∀ version ∈ list, version < 2 ^ 16) :
    versionList (list.flatMap (beBytes 2)) = some list := by
  induction list with
  | nil => rfl
  | cons version list inductionHypothesis =>
    obtain ⟨here, later⟩ := List.forall_mem_cons.mp fit
    have value := @beValue_beBytes 2 _ here
    obtain ⟨first, second, pair⟩ : ∃ first second, beBytes 2 version = [first, second] :=
      ⟨_, _, rfl⟩
    rw [pair] at value
    rw [List.flatMap_cons, pair, List.cons_append, List.cons_append, List.nil_append, versionList,
      inductionHypothesis later, value]
    rfl

/-- What is seen behind extensions. -/
def Seen.behind (seen : Seen) (list : List Extension) : Seen where
  versions := (list.filterMap Extension.offered).getLast?.or seen.versions
  signatures := seen.signatures || list.any fun extension => extension.kind == signatureAlgorithms
  groups := seen.groups || list.any fun extension => extension.kind == supportedGroups
  shares := seen.shares || list.any fun extension => extension.kind == keyShare
  psk := seen.psk || list.any fun extension => extension.kind == preSharedKey

theorem length_versions (list : List Nat) :
    (list.flatMap (beBytes 2)).length = 2 * list.length := by
  induction list with
  | nil => rfl
  | cons version list inductionHypothesis =>
    rw [List.flatMap_cons, List.length_append, length_beBytes, inductionHypothesis,
      List.length_cons]
    omega

theorem Extension.data_fits (extension : Extension) : extension.data.length < 2 ^ 16 := by
  rcases extension with ⟨list, fit, short⟩ | ⟨kind, data, kindFits, other, dataFits⟩
  · rw [data, List.length_cons, length_versions]
    omega
  · exact dataFits

theorem Extension.kind_fits (extension : Extension) : extension.kind < 2 ^ 16 := by
  rcases extension with ⟨list, fit, short⟩ | ⟨kind, data, kindFits, other, dataFits⟩
  · exact (by decide : supportedVersions < 2 ^ 16)
  · exact kindFits

theorem nextExtension_text (extension : Extension) (rest : Bytes) :
    nextExtension (extension.text ++ rest) = some (extension.kind, extension.data, rest) := by
  refine nextExtension_eq_some.mpr ⟨extension.kind_fits, extension.data_fits, ?_⟩
  rw [Extension.text, List.append_assoc, List.append_assoc]

/-- An extension is noted as what it is. -/
theorem note_extension (seen : Seen) (extension : Extension) :
    seen.note extension.kind extension.data = some (seen.behind [extension]) := by
  rcases extension with ⟨list, fit, short⟩ | ⟨kind, data, kindFits, other, dataFits⟩
  · have count : (UInt8.ofNat (2 * list.length)).toNat = (list.flatMap (beBytes 2)).length := by
      rw [length_versions]
      exact UInt8.toNat_ofNat_of_lt' (by show 2 * list.length < 256; omega)
    have taken := take_append (list.flatMap (beBytes 2)) []
    rw [List.append_nil] at taken
    rw [Seen.note, Extension.kind, if_pos rfl, Extension.data, u8_cons, Option.bind_some]
    dsimp only
    rw [count, taken, Option.bind_some]
    dsimp only
    rw [versionList_text fit]
    simp [Seen.behind, Extension.offered, Extension.kind, supportedVersions, signatureAlgorithms,
      supportedGroups, keyShare, preSharedKey]
  · rw [Seen.note, Extension.kind, if_neg other]
    simp only [Seen.behind, List.filterMap_cons, Extension.offered, List.filterMap_nil,
      List.getLast?_nil, Option.none_or, List.any_cons, List.any_nil, Bool.or_false, Extension.kind]
    split
    · next same => simp [same, signatureAlgorithms, supportedGroups, keyShare, preSharedKey]
    · next notSignatures =>
      split
      · next same => simp [same, signatureAlgorithms, supportedGroups, keyShare, preSharedKey]
      · next notGroups =>
        split
        · next same => simp [same, signatureAlgorithms, supportedGroups, keyShare, preSharedKey]
        · next notShares =>
          split
          · next same => simp [same, signatureAlgorithms, supportedGroups, keyShare, preSharedKey]
          · next notPsk =>
            rw [beq_false_of_ne notSignatures, beq_false_of_ne notGroups,
              beq_false_of_ne notShares, beq_false_of_ne notPsk]
            simp only [Bool.or_false]

theorem behind_cons (seen : Seen) (extension : Extension) (list : List Extension) :
    (seen.behind [extension]).behind list = seen.behind (extension :: list) := by
  have versions : (list.filterMap Extension.offered).getLast?.or
      (([extension].filterMap Extension.offered).getLast?.or seen.versions) =
        ((extension :: list).filterMap Extension.offered).getLast?.or seen.versions := by
    rcases offered : extension.offered with - | first
    · rw [List.filterMap_cons_none offered, List.filterMap_cons_none offered]
      rfl
    · have one : ([extension].filterMap Extension.offered).getLast? = some first := by
        rw [List.filterMap_cons_some offered]
        rfl
      rw [one, List.filterMap_cons_some offered, List.getLast?_cons]
      rcases (list.filterMap Extension.offered).getLast? with - | last <;> rfl
  unfold Seen.behind
  rw [versions]
  simp only [List.any_cons, List.any_nil, Bool.or_false, Bool.or_assoc]

theorem behind_none (seen : Seen) : seen.behind [] = seen := by
  simp only [Seen.behind, List.filterMap_nil, List.getLast?_nil, Option.none_or, List.any_nil,
    Bool.or_false]

/-- The loop notes one extension after the other. -/
theorem extensionLoop_text (list : List Extension) (seen : Seen) :
    extensionLoop (list.flatMap Extension.text) seen = some (seen.behind list) := by
  induction list generalizing seen with
  | nil => rw [List.flatMap_nil, extensionLoop, if_pos rfl, behind_none]
  | cons extension list inductionHypothesis =>
    have some_ : extension.text ++ list.flatMap Extension.text ≠ [] := by
      intro none_
      have := congrArg List.length none_
      rw [List.length_append, Extension.text, List.length_append, length_beBytes,
        List.length_nil] at this
      omega
    rw [List.flatMap_cons, extensionLoop, if_neg some_]
    split
    · next read => cases read.symm.trans (nextExtension_text extension _)
    · next read =>
      cases read.symm.trans (nextExtension_text extension _)
      rw [note_extension, Option.bind_some, inductionHypothesis, behind_cons]

/-- A well-formed body offers what its fields say. -/
theorem offer_text (hello : HelloText) : offer hello.text = some hello.offer := by
  have count : ∀ {bytes : Bytes}, bytes.length < 2 ^ 8 →
      (UInt8.ofNat bytes.length).toNat = bytes.length := fun fits =>
    UInt8.toNat_ofNat_of_lt' fits
  have taken32 : ∀ rest, take 32 (hello.random ++ rest) = some (hello.random, rest) := fun rest =>
    take_eq_some.mpr ⟨rfl, hello.randomLength⟩
  have word : ∀ {value : Nat} (rest : Bytes), value < 2 ^ 16 →
      u16 (beBytes 2 value ++ rest) = some (value, rest) := fun rest fits =>
    u16_eq_some.mpr ⟨fits, rfl⟩
  have seen : extensionsSeen hello.extensionsText = some (Seen.behind {} hello.extensionList) := by
    unfold extensionsSeen HelloText.extensionsText HelloText.extensionList
    rcases same : hello.extensions with - | list
    · rw [Option.elim_none, if_pos rfl, Option.getD_none, behind_none]
    · have fits := hello.extensionsFit list same
      have some_ : beBytes 2 (list.flatMap Extension.text).length ++
          list.flatMap Extension.text ≠ [] := by
        intro none_
        have := congrArg List.length none_
        rw [List.length_append, length_beBytes, List.length_nil] at this
        omega
      have taken := take_append (list.flatMap Extension.text) []
      rw [List.append_nil] at taken
      rw [Option.elim_some, if_neg some_, word _ fits, Option.bind_some]
      dsimp only
      rw [taken, Option.bind_some, Option.getD_some]
      exact extensionLoop_text list {}
  unfold offer HelloText.text
  simp only [Option.bind_eq_bind, word _ hello.legacyFits, Option.bind_some, taken32, u8_cons,
    count hello.sessionFits, take_append, word _ hello.suitesFit, count hello.compressionFits, seen]
  have versions : (Seen.behind {} hello.extensionList).versions = hello.versions := Option.or_none
  have flags : ∀ kind, (false || hello.extensionList.any fun extension => extension.kind == kind) =
      hello.has kind := fun kind => Bool.false_or _
  unfold offerOf HelloText.offer
  rw [versions]
  simp only [Seen.behind, flags]
  rcases hello.versions with - | list <;> rfl

theorem u8_eq_some {byte : UInt8} : u8 bytes = some (byte, rest) ↔ bytes = byte :: rest := by
  rcases bytes with - | ⟨first, bytes⟩
  · exact ⟨nofun, nofun⟩
  · rw [u8_cons, Option.some_inj, Prod.mk.injEq, List.cons.injEq]

/-- A body that offers something consists of the fields that were read and what the extensions are
read from. -/
theorem offer_shape {found : Offer} (offers : offer body = some found) :
    ∃ (legacy suites : Nat) (session compression : UInt8) (random id ciphers methods rest : Bytes)
      (seen : Seen),
      body = beBytes 2 legacy ++ (random ++ (session :: (id ++ (beBytes 2 suites ++
        (ciphers ++ (compression :: (methods ++ rest))))))) ∧
      random.length = 32 ∧ id.length = session.toNat ∧ ciphers.length = suites ∧
      methods.length = compression.toNat ∧ extensionsSeen rest = some seen ∧
      found = offerOf legacy seen := by
  unfold offer at offers
  simp only [Option.bind_eq_bind, Option.bind_eq_some_iff, Prod.exists, u16_eq_some, take_eq_some,
    u8_eq_some, Option.some_inj] at offers
  obtain ⟨legacy, _, ⟨-, rfl⟩, random, _, ⟨rfl, length⟩, session, _, rfl, id, _, ⟨rfl, idLength⟩,
    suites, _, ⟨-, rfl⟩, ciphers, _, ⟨rfl, ciphersLength⟩, compression, _, rfl, methods, rest,
    ⟨rfl, methodsLength⟩, seen, read, rfl⟩ := offers
  exact ⟨legacy, suites, session, compression, random, id, ciphers, methods, rest, seen, rfl, length,
    idLength, ciphersLength, methodsLength, read, rfl⟩

/-- The walk over the records reports the same however the bytes arrive, and exactly a record of
another kind in front of the whole hello; a message is reassembled however it is cut into records;
and a well-formed body offers what its fields say, where no read goes outside what is held. -/
theorem inspection_exact :
    (∀ (whole : Bytes) (parts : List Bytes), parts.Pairwise (fun part later => part <+: later) →
      (∀ part ∈ parts, part <+: whole) →
      firstReport .new (parts ++ [whole]) = (Records.new.unexpected whole).1) ∧
    (∀ (whole : Bytes) (kind : UInt8), (Records.new.unexpected whole).1 = some kind ↔
      ∃ records rest, whole = records.flatMap Record.text ++ kind :: rest ∧
        ¬ Whole (carriedBy records) ∧ kind ≠ handshake ∧ kind ≠ alert) ∧
    (∀ (body : Bytes) (records : List Record) (rest : Bytes), body.length < 2 ^ 24 →
      carriedBy records = messageOf body →
      firstMessage (records.flatMap Record.text ++ rest) = some body) ∧
    (∀ hello : HelloText, offer hello.text = some hello.offer) ∧
    (∀ (body : Bytes) (found : Offer), offer body = some found →
      ∃ (legacy suites : Nat) (session compression : UInt8) (random id ciphers methods rest : Bytes)
        (seen : Seen),
        body = beBytes 2 legacy ++ (random ++ (session :: (id ++ (beBytes 2 suites ++
          (ciphers ++ (compression :: (methods ++ rest))))))) ∧
        random.length = 32 ∧ id.length = session.toNat ∧ ciphers.length = suites ∧
        methods.length = compression.toNat ∧ extensionsSeen rest = some seen ∧
        found = offerOf legacy seen) ∧
    ∀ (count : Nat) (bytes : Bytes),
      (take count bytes = none ↔ bytes.length < count) ∧
      ∀ taken rest, take count bytes = some (taken, rest) ↔
        taken ++ rest = bytes ∧ taken.length = count := by
  refine ⟨fun whole parts => firstReport_eq .new, fun whole kind => ?_, ?_, offer_text,
    fun _ _ => offer_shape, fun _ _ => ⟨take_eq_none, fun _ _ => take_eq_some⟩⟩
  · have empty : ¬ Whole (carriedBy []) := fun both => absurd both.1 (by decide)
    exact @unexpected_behind [] _ _ empty
  · intro body records rest fits cut
    refine firstMessageFrom_records fits rest cut ?_
    rw [cut]
    exact List.cons_ne_nil _ _

end ZeroServer.Tls

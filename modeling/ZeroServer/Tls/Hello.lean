/-
This file models the inspection of a client hello before any session exists: the walk over the
record headers as they arrive, the reassembly of the first handshake message, and what the hello
offers.
-/

import ZeroServer.Ws.Frame

namespace ZeroServer.Tls

open Http1 Ws

def alert : UInt8 := 21
def handshake : UInt8 := 22
def clientHello : UInt8 := 1

def supportedGroups : Nat := 10
def signatureAlgorithms : Nat := 13
def preSharedKey : Nat := 41
def supportedVersions : Nat := 43
def keyShare : Nat := 51

def version12 : Nat := 0x0303
def version13 : Nat := 0x0304

theorem beValue_lt (bytes : Bytes) : beValue bytes < 256 ^ bytes.length := by
  induction bytes using List.reverseRecOn with
  | nil => exact Nat.one_pos
  | append_singleton bytes byte inductionHypothesis =>
    rw [beValue_append, List.length_append, List.length_singleton, Nat.pow_succ]
    have := byte.toNat_lt
    omega

theorem beBytes_beValue (bytes : Bytes) : beBytes bytes.length (beValue bytes) = bytes := by
  induction bytes using List.reverseRecOn with
  | nil => rfl
  | append_singleton bytes byte inductionHypothesis =>
    have small := byte.toNat_lt
    have quotient : (256 * beValue bytes + byte.toNat) / 256 = beValue bytes := by omega
    have remainder : (256 * beValue bytes + byte.toNat) % 256 = byte.toNat := by omega
    rw [beValue_append, List.length_append, List.length_singleton, beBytes, quotient, remainder,
      inductionHypothesis, UInt8.ofNat_toNat]

/-! ### The reader -/

namespace Reader

/-- The next octets and what is left behind them. -/
def take (count : Nat) (bytes : Bytes) : Option (Bytes × Bytes) :=
  if count ≤ bytes.length then some (bytes.take count, bytes.drop count) else none

def u8 (bytes : Bytes) : Option (UInt8 × Bytes) :=
  (take 1 bytes).bind fun (taken, rest) => taken.head?.map fun byte => (byte, rest)

def u16 (bytes : Bytes) : Option (Nat × Bytes) :=
  (take 2 bytes).map fun (taken, rest) => (beValue taken, rest)

def u24 (bytes : Bytes) : Option (Nat × Bytes) :=
  (take 3 bytes).map fun (taken, rest) => (beValue taken, rest)

variable {bytes taken rest : Bytes} {count value : Nat} {byte : UInt8}

/-- A read splits what the reader holds. -/
theorem take_eq_some :
    take count bytes = some (taken, rest) ↔ taken ++ rest = bytes ∧ taken.length = count := by
  unfold take
  constructor
  · intro read
    split at read
    · next inside =>
      cases read
      exact ⟨List.take_append_drop _ _, by rw [List.length_take, Nat.min_eq_left inside]⟩
    · cases read
  · rintro ⟨rfl, rfl⟩
    rw [if_pos (by rw [List.length_append]; exact Nat.le_add_right _ _), List.take_left,
      List.drop_left]

theorem take_append (taken rest : Bytes) : take taken.length (taken ++ rest) = some (taken, rest) :=
  take_eq_some.mpr ⟨rfl, rfl⟩

theorem take_eq_none : take count bytes = none ↔ bytes.length < count := by
  unfold take
  split
  · next inside => exact ⟨nofun, fun short => absurd inside (Nat.not_le_of_lt short)⟩
  · next outside => exact ⟨fun _ => Nat.lt_of_not_le outside, fun _ => rfl⟩

@[simp] theorem u8_nil : u8 [] = none := rfl

@[simp] theorem u8_cons (byte : UInt8) (rest : Bytes) : u8 (byte :: rest) = some (byte, rest) := rfl

/-- A number is read as it is written. -/
theorem number_eq_some (count : Nat) :
    (take count bytes).map (fun (taken, rest) => (beValue taken, rest)) = some (value, rest) ↔
      value < 256 ^ count ∧ bytes = beBytes count value ++ rest := by
  rw [Option.map_eq_some_iff]
  constructor
  · rintro ⟨⟨taken, behind⟩, read, same⟩
    cases same
    obtain ⟨rfl, rfl⟩ := take_eq_some.mp read
    exact ⟨beValue_lt taken, by rw [beBytes_beValue]⟩
  · rintro ⟨fits, rfl⟩
    exact ⟨(beBytes count value, rest), take_eq_some.mpr ⟨rfl, length_beBytes count value⟩,
      congrArg (fun value => (value, rest)) (beValue_beBytes fits)⟩

theorem u16_eq_some :
    u16 bytes = some (value, rest) ↔ value < 2 ^ 16 ∧ bytes = beBytes 2 value ++ rest :=
  number_eq_some 2

theorem u24_eq_some :
    u24 bytes = some (value, rest) ↔ value < 2 ^ 24 ∧ bytes = beBytes 3 value ++ rest :=
  number_eq_some 3

end Reader

open Reader

/-! ### The record layer -/

/-- What a record carries, behind its type: the version and the length are read over. -/
def fragment (record : Bytes) : Option (Bytes × Bytes) :=
  (take 2 record).bind fun (_, record) => (u16 record).bind fun (length, record) =>
    take length record

/-- The record layer in front of the hello, as far as it was read. -/
structure Records where
  next : Nat
  header : Bytes
  carried : Nat
  ended : Bool

namespace Records

def new : Records := ⟨0, [0, 0, 0, 0], 0, false⟩

/-- The header with the octets of a fragment in the slots behind those that were carried. -/
def fill (header : Bytes) (carried : Nat) (fragment : Bytes) : Bytes :=
  header.take carried ++ fragment.take (header.length - carried) ++
    header.drop (carried + fragment.length)

/-- One turn of the loop: nothing where a read fails, a content type to report, or the state behind
one record. -/
def turn (records : Records) (bytes : Bytes) : Option (UInt8 ⊕ Records) :=
  if bytes.length < records.next then none
  else
    (u8 (bytes.drop records.next)).bind fun (kind, record) =>
      if kind = handshake then
        (fragment record).map fun (fragment, _) =>
          let header := fill records.header records.carried fragment
          let carried := records.carried + fragment.length
          .inr { next := records.next + 5 + fragment.length, header, carried
                 ended := ((u8 header).bind fun (_, header) => u24 header).elim records.ended
                   fun (length, _) => length + 4 ≤ carried }
      else if kind = alert then some (.inr { records with ended := true })
      else some (.inl kind)

end Records

/-- What a fragment is read from. -/
theorem fragment_eq_some {record carried rest : Bytes} :
    fragment record = some (carried, rest) ↔ carried.length < 2 ^ 16 ∧ ∃ version,
      version.length = 2 ∧ record = version ++ (beBytes 2 carried.length ++ (carried ++ rest)) := by
  unfold fragment
  simp only [Option.bind_eq_some_iff, Prod.exists, take_eq_some, u16_eq_some]
  constructor
  · rintro ⟨version, behind, ⟨rfl, two⟩, length, left, ⟨fits, rfl⟩, rfl, rfl⟩
    exact ⟨fits, version, two, rfl⟩
  · rintro ⟨fits, version, two, rfl⟩
    exact ⟨version, _, ⟨rfl, two⟩, _, _, ⟨fits, rfl⟩, rfl, rfl⟩

namespace Records

variable {records next : Records} {bytes : Bytes} {kind : UInt8}

/-- What the loop has left to do. -/
def left (records : Records) (bytes : Bytes) : Nat :=
  2 * (bytes.length - records.next) + if records.ended then 0 else 1

theorem turn_left (running : records.ended = false)
    (turned : records.turn bytes = some (.inr next)) : next.left bytes < records.left bytes := by
  unfold turn at turned
  split at turned
  · cases turned
  · next inside =>
    obtain ⟨⟨kind, record⟩, read, turned⟩ := Option.bind_eq_some_iff.mp turned
    have length : record.length + 1 = bytes.length - records.next := by
      obtain ⟨⟨taken, behind⟩, took, same⟩ := Option.bind_eq_some_iff.mp read
      obtain ⟨whole, one⟩ := take_eq_some.mp took
      obtain ⟨byte, -, same⟩ := Option.map_eq_some_iff.mp same
      cases same
      have lengths := congrArg List.length whole
      rw [List.length_append, List.length_drop] at lengths
      omega
    dsimp only at turned
    split at turned
    · obtain ⟨⟨carried, behind⟩, parsed, same⟩ := Option.map_eq_some_iff.mp turned
      cases same
      obtain ⟨-, version, two, rfl⟩ := fragment_eq_some.mp parsed
      simp only [List.length_append, length_beBytes] at length
      unfold left
      rw [running, if_neg Bool.false_ne_true]
      dsimp only
      split <;> omega
    · split at turned
      · cases turned
        unfold left
        rw [running, if_neg Bool.false_ne_true, if_pos rfl]
        dsimp only
        omega
      · cases turned

/-- Read the record headers that arrived since the last call: the content type of the first record
that is neither a handshake nor an alert record, and the state that is kept. -/
def unexpected (records : Records) (bytes : Bytes) : Option UInt8 × Records :=
  match _running : records.ended with
  | true => (none, records)
  | false =>
    match _turned : records.turn bytes with
    | none => (none, records)
    | some (.inl kind) => (some kind, records)
    | some (.inr next) => unexpected next bytes
termination_by records.left bytes
decreasing_by exact turn_left _running _turned

theorem unexpected_ended (ended : records.ended = true) :
    records.unexpected bytes = (none, records) := by
  rw [unexpected]
  split
  · rfl
  · next running => cases ended.symm.trans running

theorem unexpected_running (running : records.ended = false) :
    records.unexpected bytes =
      match records.turn bytes with
      | none => (none, records)
      | some (.inl kind) => (some kind, records)
      | some (.inr next) => next.unexpected bytes := by
  rw [unexpected]
  split
  · next ended => cases running.symm.trans ended
  · split <;> next turned => rw [turned]

end Records

/-! ### The first message -/

/-- What a message that has a header comes to: nothing yet, a refusal, or its body. -/
def wholeMessage (message : Bytes) : Option (Option Bytes) :=
  ((u8 message).bind fun (kind, header) => (u24 header).map fun (length, header) =>
    (kind, length, header)).bind fun (kind, length, header) =>
      if kind ≠ clientHello then some none
      else (take length header).map fun (body, _) => some body

/-- One turn of the loop: the message with what the next record carries. -/
def nextMessage (records message : Bytes) : Option (Bytes × Bytes) :=
  (u8 records).bind fun (kind, records) =>
    if kind ≠ handshake then none
    else (fragment records).map fun (carried, rest) => (message ++ carried, rest)

theorem nextMessage_length {records message longer rest : Bytes}
    (read : nextMessage records message = some (longer, rest)) : rest.length < records.length := by
  obtain ⟨⟨kind, behind⟩, first, read⟩ := Option.bind_eq_some_iff.mp read
  rcases records with - | ⟨byte, records⟩
  · cases first
  · cases first
    dsimp only at read
    split at read
    · cases read
    · obtain ⟨⟨carried, left⟩, parsed, same⟩ := Option.map_eq_some_iff.mp read
      cases same
      obtain ⟨-, version, -, rfl⟩ := fragment_eq_some.mp parsed
      simp only [List.length_append, List.length_cons]
      omega

def firstMessageFrom (records message : Bytes) : Option Bytes :=
  match _read : nextMessage records message with
  | none => none
  | some (message, rest) =>
    match wholeMessage message with
    | some answer => answer
    | none => firstMessageFrom rest message
termination_by records.length
decreasing_by exact nextMessage_length _read

/-- The body of the client hello the handshake records at the start of the bytes carry. -/
def firstMessage (bytes : Bytes) : Option Bytes := firstMessageFrom bytes []

theorem firstMessageFrom_eq (records message : Bytes) :
    firstMessageFrom records message =
      match nextMessage records message with
      | none => none
      | some (message, rest) =>
        match wholeMessage message with
        | some answer => answer
        | none => firstMessageFrom rest message := by
  rw [firstMessageFrom]
  split <;> next read => rw [read]

/-! ### The offer -/

/-- What a hello offers. -/
structure Offer where
  legacy : Nat
  tls13 : Bool
  tls12 : Bool
  conforms : Bool
  deriving DecidableEq

/-- What the extensions read so far say. -/
structure Seen where
  versions : Option (List Nat) := none
  signatures : Bool := false
  groups : Bool := false
  shares : Bool := false
  psk : Bool := false

/-- The numbers of a list. -/
def versionList : Bytes → Option (List Nat)
  | [] => some []
  | [_] => none
  | first :: second :: rest => (versionList rest).map (beValue [first, second] :: ·)

/-- Note an extension. -/
def Seen.note (seen : Seen) (kind : Nat) (data : Bytes) : Option Seen :=
  if kind = supportedVersions then
    (u8 data).bind fun (count, data) => (take count.toNat data).bind fun (list, _) =>
      (versionList list).map fun offered => { seen with versions := some offered }
  else if kind = signatureAlgorithms then some { seen with signatures := true }
  else if kind = supportedGroups then some { seen with groups := true }
  else if kind = keyShare then some { seen with shares := true }
  else if kind = preSharedKey then some { seen with psk := true }
  else some seen

/-- The type and the data of the next extension. -/
def nextExtension (extensions : Bytes) : Option (Nat × Bytes × Bytes) :=
  (u16 extensions).bind fun (kind, extensions) => (u16 extensions).bind fun (length, extensions) =>
    (take length extensions).map fun (data, rest) => (kind, data, rest)

theorem nextExtension_eq_some {extensions data rest : Bytes} {kind : Nat} :
    nextExtension extensions = some (kind, data, rest) ↔
      kind < 2 ^ 16 ∧ data.length < 2 ^ 16 ∧
        extensions = beBytes 2 kind ++ (beBytes 2 data.length ++ (data ++ rest)) := by
  unfold nextExtension
  simp only [Option.bind_eq_some_iff, Option.map_eq_some_iff, Prod.exists, take_eq_some,
    u16_eq_some]
  constructor
  · rintro ⟨read, behind, ⟨fits, rfl⟩, length, left, ⟨fits', rfl⟩, taken, after, ⟨rfl, rfl⟩, same⟩
    cases same
    exact ⟨fits, fits', rfl⟩
  · rintro ⟨fits, fits', rfl⟩
    exact ⟨kind, _, ⟨fits, rfl⟩, _, _, ⟨fits', rfl⟩, data, rest, ⟨rfl, rfl⟩, rfl⟩

def extensionLoop (extensions : Bytes) (seen : Seen) : Option Seen :=
  if extensions = [] then some seen
  else
    match _read : nextExtension extensions with
    | none => none
    | some (kind, data, rest) => (seen.note kind data).bind (extensionLoop rest)
termination_by extensions.length
decreasing_by
  obtain ⟨-, -, rfl⟩ := nextExtension_eq_some.mp _read
  simp only [List.length_append, length_beBytes]
  omega

/-- What the extensions at the end of a body say; there need not be any. -/
def extensionsSeen (hello : Bytes) : Option Seen :=
  if hello = [] then some {}
  else
    (u16 hello).bind fun (length, hello) => (take length hello).bind fun (extensions, _) =>
      extensionLoop extensions {}

def offerOf (legacy : Nat) (seen : Seen) : Offer :=
  let (tls13, tls12) :=
    match seen.versions with
    | some offered => (offered.contains version13, offered.contains version12)
    | none => (false, decide (version12 ≤ legacy))
  { legacy, tls13, tls12
    conforms := (seen.psk || (seen.signatures && seen.groups)) && seen.groups == seen.shares }

/-- What a body offers; none when it is malformed. -/
def offer (body : Bytes) : Option Offer := do
  let (legacy, hello) ← u16 body
  let (_, hello) ← take 32 hello
  let (session, hello) ← u8 hello
  let (_, hello) ← take session.toNat hello
  let (suites, hello) ← u16 hello
  let (_, hello) ← take suites hello
  let (compression, hello) ← u8 hello
  let (_, hello) ← take compression.toNat hello
  let seen ← extensionsSeen hello
  some (offerOf legacy seen)

end ZeroServer.Tls

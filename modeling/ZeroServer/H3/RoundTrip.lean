/-
This file proves that HTTP/3 frames round-trip: what the encoders write is read back frame by frame,
whole, on every stream the frames are legal on, and an encoder that cannot write a frame leaves its
buffer as it was.
-/

import ZeroServer.H3.Settings
import ZeroServer.H3.Sequences

namespace ZeroServer.H3

open Http1 Lib FrameDecoder

/-! ### Settings -/

variable {bytes : Bytes} {settings : Settings} {extra : Option Reserved}

namespace Settings

variable {pairs : List (Nat × Nat)}

theorem spells_of_spell (spelled : spell pairs = some bytes) : Spells pairs bytes := by
  induction pairs generalizing bytes with
  | nil =>
    cases spelled
    exact .nil
  | cons pair rest inductionHypothesis =>
    obtain ⟨id, value⟩ := pair
    rw [spell] at spelled
    obtain ⟨first, paired, later⟩ := Option.bind_eq_some_iff.mp spelled
    obtain ⟨others, rested, rfl⟩ := Option.map_eq_some_iff.mp later
    unfold pairWire at paired
    obtain ⟨idOctets, isId, behind⟩ := Option.bind_eq_some_iff.mp paired
    obtain ⟨valueOctets, isValue, rfl⟩ := Option.map_eq_some_iff.mp behind
    rw [List.append_assoc]
    exact .cons (Varint.shortest_encodes isId) (Varint.shortest_encodes isValue)
      (inductionHypothesis rested)

theorem spell_none :
    spell pairs = none ↔ ∃ pair ∈ pairs, Varint.max < pair.1 ∨ Varint.max < pair.2 := by
  induction pairs with
  | nil => exact iff_of_false nofun fun ⟨_, member, _⟩ => nomatch member
  | cons pair rest inductionHypothesis =>
    obtain ⟨id, value⟩ := pair
    rw [List.exists_mem_cons_iff, ← inductionHypothesis, ← Varint.shortest_none,
      ← Varint.shortest_none, spell, pairWire]
    rcases Varint.shortest id with _ | first
    · simp
    rcases Varint.shortest value with _ | second
    · simp
    · simp

/-- The identifiers of the settings that are sent. -/
theorem present_ids (settings : Settings) :
    ((present settings.pairs).map Prod.fst).Sublist [0x01, 0x06, 0x07, 0x08, 0x33] := by
  have all : ∀ pairs : List (Nat × Option Nat),
      ((present pairs).map Prod.fst).Sublist (pairs.map Prod.fst) := by
    intro pairs
    induction pairs with
    | nil => exact List.Sublist.slnil
    | cons pair rest inductionHypothesis =>
      obtain ⟨id, _ | value⟩ := pair
      · exact .cons _ inductionHypothesis
      · exact .cons_cons _ inductionHypothesis
  exact all settings.pairs

theorem set_present (settings : Settings) : setAll {} (present settings.pairs) = .ok settings := by
  obtain ⟨capacity, size, blocked, connect, datagram⟩ := settings
  rcases capacity with _ | capacity <;> rcases size with _ | size <;>
    rcases blocked with _ | blocked <;> rcases connect with _ | _ | _ <;>
    rcases datagram with _ | _ | _ <;> rfl

/-- A reserved identifier is none that is known. -/
theorem reserved_apart {n id : Nat} (reserved_ : reserved n = some id) :
    id ∉ [0x01, 0x06, 0x07, 0x08, 0x33] ∧ isReservedHttp2 id = false ∧ id ≤ Varint.max := by
  unfold reserved maxN at reserved_
  obtain ⟨bound, same⟩ := Option.ite_none_left_eq_some.mp reserved_
  obtain rfl := Option.some.inj same
  refine ⟨?_, ?_, ?_⟩
  · simp only [List.mem_cons, List.not_mem_nil, or_false]
    omega
  · simp only [isReservedHttp2, List.contains_eq_mem, List.mem_cons, List.not_mem_nil, or_false,
      decide_eq_false_iff_not]
    omega
  · unfold Varint.max
    omega

theorem set_other {id : Nat} (other : id ∉ [0x01, 0x06, 0x07, 0x08, 0x33]) (settings : Settings)
    (value : Nat) : settings.set id value = .ok settings := by
  unfold set
  split <;> first
    | rfl
    | exact absurd (by decide) other

/-- The payload that is written parses to the settings. -/
theorem parse_payload {payload : Bytes} (written : settings.payload extra = some payload) :
    parse payload = .ok settings := by
  unfold Settings.payload at written
  obtain ⟨pairs, carried, spelled⟩ := Option.bind_eq_some_iff.mp written
  have ids := present_ids settings
  have distinct := ids.nodup (by decide)
  have known : ∀ pair ∈ present settings.pairs, isReservedHttp2 pair.1 = false := by
    intro pair member
    have inside := ids.subset (List.mem_map_of_mem member)
    revert inside
    generalize pair.1 = id
    intro inside
    simp only [List.mem_cons, List.not_mem_nil, or_false] at inside
    rcases inside with rfl | rfl | rfl | rfl | rfl <;> rfl
  refine parse_iff.mpr ⟨pairs, spells_of_spell spelled, ?_⟩
  unfold sent at carried
  rcases extra with _ | ⟨n, value⟩
  · obtain rfl := Option.some.inj carried
    exact ⟨known, distinct, set_present settings⟩
  · obtain ⟨id, reserved_, rfl⟩ := Option.map_eq_some_iff.mp carried
    obtain ⟨apart, free, -⟩ := reserved_apart reserved_
    refine ⟨?_, ?_, ?_⟩
    · intro pair member
      rcases List.mem_append.mp member with before | last
      · exact known pair before
      · rw [List.mem_singleton.mp last]
        exact free
    · rw [List.map_append, List.nodup_append]
      refine ⟨distinct, List.nodup_singleton _, ?_⟩
      intro first inside second last same
      rw [List.map_singleton, List.mem_singleton] at last
      have equal : first = id := same.trans last
      exact apart (equal ▸ ids.subset inside)
    · rw [setAll_append, set_present]
      dsimp only
      rw [setAll, set_other apart]
      rfl

end Settings

/-! ### Frames to send -/

/-- What an endpoint sends on a stream. -/
inductive Outgoing where
  | frame (frame : Frame)
  | data (payload : Bytes)
  | reserved (n : Nat) (payload : Bytes)
  deriving DecidableEq

namespace Outgoing

/-- Append what is sent, the payload of DATA behind its header. -/
def encode (outgoing : Outgoing) (out : Bytes) : Option Unit × Bytes :=
  match outgoing with
  | .frame whole => whole.encode out
  | .data payload =>
    match encodeDataHeader payload.length out with
    | (none, left) => (none, left)
    | (some (), left) => (some (), left ++ payload)
  | .reserved n payload => encodeReserved n payload out

/-- Append one after the other. -/
def encodeAll : List Outgoing → Bytes → Option Unit × Bytes
  | [], out => (some (), out)
  | outgoing :: rest, out =>
    match outgoing.encode out with
    | (none, left) => (none, left)
    | (some (), left) => encodeAll rest left

def frameType : Outgoing → FrameType
  | .frame whole => whole.frameType
  | .data _ => FrameType.data
  | .reserved n _ => n * 0x1F + 0x21

def payload : Outgoing → Option Bytes
  | .frame whole => whole.payload
  | .data payload => some payload
  | .reserved n payload => if maxN < n then none else some payload

/-- What a receiver makes of it. -/
def event (outgoing : Outgoing) : Event :=
  match outgoing with
  | .frame whole => .frame whole
  | .data payload => .data payload true
  | .reserved n payload => .skipped (n * 0x1F + 0x21) payload.length payload true

/-- The payloads that are held whole are within the limits. -/
def Within (limits : FrameLimits) (outgoing : Outgoing) : Prop :=
  match outgoing with
  | .frame (.headers fieldSection) => fieldSection.length ≤ limits.fieldSection
  | .frame (.pushPromise pushId fieldSection) =>
    ∀ id, Varint.shortest pushId = some id →
      id.length + fieldSection.length ≤ limits.fieldSection + 8
  | .frame (.settings settings) =>
    ∀ payload, settings.payload none = some payload → payload.length ≤ limits.settings
  | _ => True

end Outgoing

/-- The integers of a frame, its type and length apart. -/
def Frame.integers : Frame → List Nat
  | .headers _ => []
  | .settings carried => (Settings.present carried.pairs).map Prod.snd
  | .pushPromise pushId _ => [pushId]
  | .cancelPush value | .goaway value | .maxPushId value => [value]

/-- Every integer is one that can be written, the index of a reserved type and the length of the
payload among them. -/
def Outgoing.Fits (outgoing : Outgoing) : Prop :=
  (match outgoing with
    | .frame whole => ∀ value ∈ whole.integers, value ≤ Varint.max
    | .data _ => True
    | .reserved n _ => n ≤ maxN) ∧
    ∀ payload, outgoing.payload = some payload → payload.length ≤ Varint.max

/-- The frames a stream takes, with the calls made behind them. -/
def Legal (kind : StreamKind) (role : Role) (word : List Token) : Prop :=
  match kind with
  | .control => controlLanguage role .awaitSettings word
  | .request | .push =>
    Stream word
      (fun word => messageLanguage role true .start (significant kind role word))
      (fun word => messageLanguage role true .start (significant kind role word))

theorem legal_iff (kind : StreamKind) (role : Role) (word : List Token) :
    (∃ sequence, follow (nextSequence kind role) (initialSequence kind) word = some sequence) ↔
      Legal kind role word := by
  have message : kind ≠ .control →
      ((∃ sequence, follow (nextSequence kind role) .start word = some sequence) ↔
        Stream word
          (fun word => messageLanguage role true .start (significant kind role word))
          (fun word => messageLanguage role true .start (significant kind role word))) := by
    intro message
    rw [← follow_stream message word true fun _ => rfl]
    simp
  cases kind with
  | control => exact follow_control role word
  | request => exact message nofun
  | push => exact message nofun

/-! ### What is written -/

theorem parse_header {frameType : FrameType} {len : Nat} {head : Bytes}
    (written : FrameHeader.wire frameType len = some head) :
    FrameHeader.parse head = some ⟨frameType, len, head.length⟩ := by
  unfold FrameHeader.wire at written
  obtain ⟨first, isType, rest⟩ := Option.bind_eq_some_iff.mp written
  obtain ⟨second, isLen, rfl⟩ := Option.map_eq_some_iff.mp rest
  have typed := Varint.decode_append (Varint.encodes_iff.mp (Varint.shortest_encodes isType)) second
  have sized := Varint.encodes_iff.mp (Varint.shortest_encodes isLen)
  unfold FrameHeader.parse
  rw [typed]
  dsimp only
  rw [List.drop_left, sized, List.length_append]

/-- The payload of a frame is read back as the frame. -/
theorem payloadFrame_payload {frame : Frame} {payload : Bytes}
    (written : frame.payload = some payload) :
    payloadFrame frame.frameType payload = .ok frame := by
  have integer : ∀ {value : Nat}, Varint.shortest value = some payload →
      Varint.decode payload = some (value, payload.length) := fun shortest =>
    Varint.encodes_iff.mp (Varint.shortest_encodes shortest)
  cases frame with
  | headers fieldSection =>
    obtain rfl := Option.some.inj written
    rfl
  | settings carried =>
    change (Settings.parse payload).map Frame.settings = _
    rw [Settings.parse_payload written]
    rfl
  | pushPromise pushId fieldSection =>
    obtain ⟨id, shortest, rfl⟩ := Option.map_eq_some_iff.mp written
    have read := Varint.decode_append
      (Varint.encodes_iff.mp (Varint.shortest_encodes shortest)) fieldSection
    unfold payloadFrame Frame.frameType
    dsimp only
    rw [read]
    dsimp only
    rw [List.drop_left]
    rfl
  | cancelPush value | goaway value | maxPushId value =>
    unfold payloadFrame Frame.frameType
    dsimp only
    rw [integer written]
    dsimp only
    rw [if_neg (Nat.lt_irrefl _)]
    rfl

/-- A reserved type is none that is known, and none that is held whole. -/
theorem reserved_type (limits : FrameLimits) (n : Nat) :
    FrameType.isKnown (n * 0x1F + 0x21) = false ∧ n * 0x1F + 0x21 ≠ FrameType.data ∧
      n * 0x1F + 0x21 ≠ FrameType.settings ∧ holdLimit limits (n * 0x1F + 0x21) = none := by
  refine ⟨?_, ?_, ?_, ?_⟩
  · unfold FrameType.isKnown
    split <;> first
      | omega
      | rfl
  · unfold FrameType.data
    omega
  · unfold FrameType.settings
    omega
  · unfold holdLimit
    split <;> first
      | omega
      | rfl

variable {limits : FrameLimits} {outgoing : Outgoing}

namespace Outgoing

theorem encode_writes (outgoing : Outgoing) :
    Writes outgoing.encode (outgoing.payload.bind (frameWire outgoing.frameType)) := by
  cases outgoing with
  | frame whole => exact whole.encode_writes
  | data payload =>
    intro out
    unfold encode encodeDataHeader
    dsimp only
    rw [FrameHeader.encode_writes, show (data payload).payload.bind
      (frameWire (data payload).frameType) = frameWire FrameType.data payload from rfl]
    unfold frameWire
    rcases FrameHeader.wire FrameType.data payload.length with _ | head
    · rfl
    · dsimp only [Option.map_some]
      rw [List.append_assoc]
  | reserved n payload =>
    have writes := encodeReserved_writes n payload
    have same : (reserved n payload).payload.bind
        (frameWire (reserved n payload).frameType) =
          (H3.reserved n).bind (frameWire · payload) := by
      unfold Outgoing.payload Outgoing.frameType H3.reserved
      dsimp only
      split <;> rfl
    rw [same]
    exact writes

/-- What the decoder shows of a frame that is held whole and within the limits. -/
theorem shown_frame {whole : Frame} {payload : Bytes} (within : Within limits (frame whole))
    (written : whole.payload = some payload) {sent : Sent} (type : sent.frameType = whole.frameType)
    (carries : sent.payload = payload) {event : Event} (shown : sent.Shown limits event) :
    event = .frame whole := by
  have read := payloadFrame_payload written
  have known : FrameType.isKnown whole.frameType = true := by cases whole <;> rfl
  have other : whole.frameType ≠ FrameType.data := by cases whole <;> exact nofun
  cases shown with
  | data same => exact absurd (type ▸ same) other
  | skipped unknown =>
    rw [type, known] at unknown
    cases unknown
  | @oversized limit bounded long =>
    rw [type] at bounded
    rw [carries] at long
    cases whole with
    | headers fieldSection =>
      cases bounded
      cases written
      exact absurd within (Nat.not_le_of_lt long)
    | pushPromise pushId fieldSection =>
      cases bounded
      obtain ⟨id, shortest, rfl⟩ := Option.map_eq_some_iff.mp written
      rw [List.length_append] at long
      exact absurd (within id shortest) (Nat.not_le_of_lt long)
    | _ => cases bounded
  | @frame found known_ other_ fits found_read =>
    rw [type, carries, read] at found_read
    cases found_read
    rfl

/-- What was written of one frame is a valid frame, and the decoder shows it as it was. -/
theorem sent_of_encode {wire : Bytes} (within : outgoing.Within limits)
    (written : outgoing.payload.bind (frameWire outgoing.frameType) = some wire)
    (calls : List Call) :
    ∃ sent : Sent, sent.wire = wire ∧ sent.frameType = outgoing.frameType ∧ sent.calls = calls ∧
      sent.Valid limits ∧ ∀ event, sent.Shown limits event → event = outgoing.event := by
  obtain ⟨payload, carried, framed⟩ := Option.bind_eq_some_iff.mp written
  obtain ⟨head, headed, rfl⟩ := Option.map_eq_some_iff.mp framed
  have parsed := parse_header headed
  refine ⟨⟨outgoing.frameType, head, payload, calls⟩, rfl, rfl, rfl, ⟨parsed, ?_, ?_⟩, ?_⟩
  · intro known other
    cases outgoing with
    | frame whole => exact ⟨whole, payloadFrame_payload carried⟩
    | data _ => exact absurd rfl other
    | reserved n _ =>
      rw [show (reserved n _).frameType = n * 0x1F + 0x21 from rfl,
        (reserved_type limits n).1] at known
      cases known
  · intro type
    cases outgoing with
    | frame whole =>
      cases whole with
      | settings settings => exact within payload carried
      | _ => cases type
    | data _ => cases type
    | reserved n _ => exact absurd type (reserved_type limits n).2.2.1
  · intro event shown
    cases outgoing with
    | frame whole => exact shown_frame within carried rfl rfl shown
    | data body =>
      cases carried
      cases shown with
      | data _ => rfl
      | skipped unknown => cases unknown
      | oversized bounded _ => cases bounded
      | frame _ other _ _ => exact absurd rfl other
    | reserved n body =>
      obtain ⟨unknown, apart, -, unbounded⟩ := reserved_type limits n
      obtain ⟨-, same⟩ := Option.ite_none_left_eq_some.mp carried
      cases same
      cases shown with
      | data type => exact absurd type apart
      | skipped _ => rfl
      | oversized bounded _ =>
        rw [show (reserved n payload).frameType = n * 0x1F + 0x21 from rfl, unbounded] at bounded
        cases bounded
      | frame known _ _ _ =>
        rw [show (reserved n payload).frameType = n * 0x1F + 0x21 from rfl, unknown] at known
        cases known

end Outgoing

/-! ### Round trips -/

/-- The frames of a stream with the calls made behind them, as what happens on it. -/
def outgoingTokens (frames : List (Outgoing × List Call)) : List Token :=
  (frames.map fun frame => .frame frame.1.frameType :: frame.2.map Token.call).flatten

/-- The calls behind the frames. -/
def outgoingCalls (frames : List (Outgoing × List Call)) : Caller := fun number moment =>
  match moment with
  | .header => []
  | .whole => (frames[number]?.map Prod.snd).getD []

/-- What was written of a list of frames is a stream of valid frames. -/
theorem sent_of_encodeAll (frames : List (Outgoing × List Call))
    (within : ∀ frame ∈ frames, frame.1.Within limits) {out : Bytes}
    (encoded : Outgoing.encodeAll (frames.map Prod.fst) out = (some (), bytes)) :
    ∃ sents : List Sent, bytes = out ++ wire sents ∧ (∀ sent ∈ sents, sent.Valid limits) ∧
      tokens sents = outgoingTokens frames ∧ sents.map Sent.calls = frames.map Prod.snd ∧
      ∀ events, List.Forall₂ (Sent.Shown limits) sents events →
        events = frames.map fun frame => frame.1.event := by
  induction frames generalizing out with
  | nil =>
    cases encoded
    refine ⟨[], (List.append_nil _).symm, nofun, rfl, rfl, fun events shown => ?_⟩
    cases shown
    rfl
  | cons frame rest inductionHypothesis =>
    obtain ⟨outgoing, calls⟩ := frame
    rw [List.map_cons, Outgoing.encodeAll, outgoing.encode_writes] at encoded
    rcases written : outgoing.payload.bind (frameWire outgoing.frameType) with _ | octets
    · rw [written] at encoded
      cases encoded
    · rw [written] at encoded
      obtain ⟨sent, rfl, type, called, valid, shows⟩ :=
        Outgoing.sent_of_encode (within _ List.mem_cons_self) written calls
      obtain ⟨sents, rfl, allValid, happens, allCalls, allShow⟩ :=
        inductionHypothesis (fun other member => within other (List.mem_cons_of_mem _ member))
          encoded
      refine ⟨sent :: sents, ?_, List.forall_mem_cons.mpr ⟨valid, allValid⟩, ?_, ?_, ?_⟩
      · exact List.append_assoc _ _ _
      · rw [show tokens (sent :: sents) = sent.tokens ++ tokens sents from rfl, happens]
        unfold Sent.tokens outgoingTokens
        rw [type, called]
        rfl
      · rw [List.map_cons, List.map_cons, called, allCalls]
      · intro events shown
        cases shown with
        | cons first later => rw [List.map_cons, shows _ first, allShow _ later]

/-- What is written is read back whole. -/
theorem read_encodeAll {kind : StreamKind} {role : Role} {frames : List (Outgoing × List Call)}
    (within : ∀ frame ∈ frames, frame.1.Within limits)
    (legal : Legal kind role (outgoingTokens frames))
    (encoded : Outgoing.encodeAll (frames.map Prod.fst) [] = (some (), bytes)) :
    let halt := (Reader.machine (outgoingCalls frames)).run (.new kind role limits) bytes
    halt.state.events = (frames.map fun frame => frame.1.event) ∧ halt.rest = some [] ∧
      halt.state.failure = none ∧ halt.state.decoder.state = .header := by
  obtain ⟨sents, rfl, valid, happens, called, shows⟩ := sent_of_encodeAll frames within encoded
  have calls : outgoingCalls frames = callsBehind sents := by
    funext number moment
    cases moment with
    | header => rfl
    | whole =>
      unfold outgoingCalls callsBehind
      dsimp only
      rw [← List.getElem?_map, ← List.getElem?_map, called]
  have spec := @readAll_spec kind role limits sents valid
  obtain ⟨sequence, followed⟩ := (legal_iff kind role _).mpr legal
  rw [happens, followed] at spec
  obtain ⟨rest, failure, decoder, shown⟩ := spec
  dsimp only
  rw [List.nil_append, calls]
  refine ⟨shows _ shown, rest, failure, ?_⟩
  change (readAll kind role limits sents).state.decoder.state = _
  rw [decoder]
  rfl

theorem headerWire_spec (frameType len : Nat) :
    ((∃ head, FrameHeader.wire frameType len = some head) ↔
      frameType ≤ Varint.max ∧ len ≤ Varint.max) ∧
    (FrameHeader.wire frameType len = none ↔ Varint.max < frameType ∨ Varint.max < len) := by
  unfold FrameHeader.wire
  rw [← Varint.shortest_none, ← Varint.shortest_none, ← Nat.not_lt, ← Nat.not_lt,
    ← Varint.shortest_none, ← Varint.shortest_none]
  rcases Varint.shortest frameType with _ | first
  · simp
  rcases Varint.shortest len with _ | second
  · simp
  · simp

/-- Frames of integers that can be written are written. -/
theorem Outgoing.encode_fits (fits : outgoing.Fits) (out : Bytes) :
    ∃ bytes, outgoing.encode out = (some (), out ++ bytes) := by
  obtain ⟨integers, short⟩ := fits
  have type : outgoing.frameType ≤ Varint.max := by
    cases outgoing with
    | frame whole => cases whole <;> exact of_decide_eq_true rfl
    | data _ => exact Nat.zero_le _
    | reserved n _ =>
      change n * 0x1F + 0x21 ≤ _
      unfold Varint.max
      unfold maxN at integers
      dsimp only at integers
      omega
  have carried : ∃ payload, outgoing.payload = some payload := by
    cases outgoing with
    | frame whole =>
      cases whole with
      | headers fieldSection => exact ⟨_, rfl⟩
      | settings carried =>
        change ∃ payload, Settings.spell (Settings.present carried.pairs) = some payload
        rw [← Option.ne_none_iff_exists', Ne, Settings.spell_none]
        rintro ⟨pair, member, id | value⟩
        · have inside := (Settings.present_ids carried).subset (List.mem_map_of_mem member)
          simp only [List.mem_cons, List.not_mem_nil, or_false] at inside
          unfold Varint.max at id
          omega
        · exact absurd (integers _ (List.mem_map_of_mem member)) (Nat.not_le_of_lt value)
      | pushPromise pushId fieldSection =>
        obtain ⟨id, shortest, -⟩ :=
          (Varint.shortest_spec pushId).1 (integers _ List.mem_cons_self)
        exact ⟨id ++ fieldSection, by
          rw [Outgoing.payload, Frame.payload, shortest]
          rfl⟩
      | cancelPush value | goaway value | maxPushId value =>
        obtain ⟨octets, shortest, -⟩ :=
          (Varint.shortest_spec value).1 (integers _ List.mem_cons_self)
        exact ⟨octets, shortest⟩
    | data payload => exact ⟨payload, rfl⟩
    | reserved n payload => exact ⟨payload, if_neg (Nat.not_lt_of_le integers)⟩
  obtain ⟨payload, carried⟩ := carried
  obtain ⟨head, headed⟩ := (headerWire_spec outgoing.frameType payload.length).1.mpr
    ⟨type, short payload carried⟩
  refine ⟨head ++ payload, ?_⟩
  rw [outgoing.encode_writes, carried, Option.bind_some, frameWire, headed]
  rfl

theorem Outgoing.encodeAll_fits {frames : List Outgoing} (fits : ∀ frame ∈ frames, frame.Fits)
    (out : Bytes) : ∃ bytes, encodeAll frames out = (some (), out ++ bytes) := by
  induction frames generalizing out with
  | nil => exact ⟨[], congrArg _ (List.append_nil out).symm⟩
  | cons frame rest inductionHypothesis =>
    obtain ⟨first, written⟩ := encode_fits (fits frame List.mem_cons_self) out
    obtain ⟨later, others⟩ := inductionHypothesis
      (fun other member => fits other (List.mem_cons_of_mem _ member)) (out ++ first)
    refine ⟨first ++ later, ?_⟩
    rw [encodeAll, written]
    dsimp only
    rw [others, List.append_assoc]

/-- An encoder that cannot write a frame leaves its buffer as it was. -/
theorem encode_refuses (out : Bytes) :
    (∀ value, Varint.max < value →
      Varint.push value out = (none, out) ∧ Varint.encode value out = (none, out) ∧
        ∀ len, Varint.encodeWithLen value len out = (none, out)) ∧
    (∀ frameType len, Varint.max < frameType ∨ Varint.max < len →
      FrameHeader.encode frameType len out = (none, out)) ∧
    (∀ frame : Frame, (∃ value ∈ frame.integers, Varint.max < value) →
      frame.encode out = (none, out)) ∧
    (∀ len, Varint.max < len → encodeDataHeader len out = (none, out)) ∧
    (∀ n payload, maxN < n → encodeReserved n payload out = (none, out)) ∧
    ∀ (settings : Settings) (extra : Option Reserved),
      ((∃ value ∈ (Frame.settings settings).integers, Varint.max < value) ∨
        ∃ one, extra = some one ∧ (maxN < one.n ∨ Varint.max < one.value)) →
      settings.encode extra out = (none, out) ∧
        settings.encodeControlPreface extra out = (none, out) := by
  have nothing : ∀ {encoder : Bytes → Option Unit × Bytes} {wire : Option Bytes},
      Writes encoder wire → wire = none → encoder out = (none, out) := by
    rintro encoder _ writes rfl
    exact writes out
  have header : ∀ {frameType len}, Varint.max < frameType ∨ Varint.max < len →
      FrameHeader.encode frameType len out = (none, out) := fun large =>
    nothing (FrameHeader.encode_writes _ _) ((headerWire_spec _ _).2.mpr large)
  have unspelled : ∀ (settings : Settings),
      (∃ value ∈ (Frame.settings settings).integers, Varint.max < value) →
        Settings.spell (Settings.present settings.pairs) = none := by
    rintro settings ⟨value, member, large⟩
    obtain ⟨pair, inside, rfl⟩ := List.mem_map.mp member
    exact Settings.spell_none.mpr ⟨pair, inside, .inr large⟩
  refine ⟨fun value large => ⟨?_, ?_, fun len => ?_⟩, fun _ _ => header, ?_, fun len large => ?_,
    fun n payload large => ?_, ?_⟩
  · exact nothing (Varint.push_writes value) (Varint.shortest_none.mpr large)
  · rw [Varint.encode, Varint.encodedLen_none.mpr large]
  · unfold Varint.encodeWithLen
    rcases octets : Varint.octets value len with _ | bytes
    · rfl
    · obtain ⟨tag, known, rfl⟩ := Varint.octets_len octets
      rw [Varint.octets_eq known] at octets
      obtain ⟨small, -⟩ := Option.ite_none_right_eq_some.mp octets
      have widest : Varint.room tag ≤ Varint.max + 1 := by
        rcases (by omega : tag = 0 ∨ tag = 1 ∨ tag = 2 ∨ tag = 3) with rfl | rfl | rfl | rfl <;>
          decide
      omega
  · rintro frame large
    refine nothing frame.encode_writes ?_
    have carried : frame.payload = none := by
      obtain ⟨value, member, above⟩ := large
      cases frame with
      | headers _ => cases member
      | settings settings => exact unspelled settings ⟨value, member, above⟩
      | pushPromise pushId fieldSection =>
        obtain rfl := List.mem_singleton.mp member
        rw [Frame.payload, Varint.shortest_none.mpr above]
        rfl
      | cancelPush _ | goaway _ | maxPushId _ =>
        obtain rfl := List.mem_singleton.mp member
        exact Varint.shortest_none.mpr above
    rw [carried]
    rfl
  · exact header (.inr large)
  · unfold encodeReserved reserved
    rw [if_pos large]
  · intro settings extra either
    have carried : settings.payload extra = none := by
      unfold Settings.payload Settings.sent
      rcases either with large | ⟨one, rfl, large⟩
      · rcases extra with _ | ⟨n, value⟩
        · exact unspelled settings large
        · dsimp only
          rcases reserved n with _ | id
          · rfl
          · rw [Option.map_some, Option.bind_some, Settings.spell_append, unspelled settings large]
            rfl
      · dsimp only
        rcases reserved_ : reserved one.n with _ | id
        · rfl
        · rw [Option.map_some, Option.bind_some, Settings.spell_none]
          refine ⟨(id, one.value), List.mem_append_right _ List.mem_cons_self, .inr ?_⟩
          refine large.resolve_left fun far => ?_
          rw [reserved, if_pos far] at reserved_
          cases reserved_
    exact ⟨nothing (settings.encode_writes extra) (by rw [carried]; rfl),
      nothing (settings.encodeControlPreface_writes extra) (by rw [carried]; rfl)⟩

/-- What a settings frame carries parses to the settings, whatever reserved setting it has. -/
theorem parse_encode {out left : Bytes} (encoded : settings.encode extra out = (some (), left)) :
    ∃ head payload, left = out ++ head ++ payload ∧
      FrameHeader.parse head = some ⟨FrameType.settings, payload.length, head.length⟩ ∧
      Settings.parse payload = .ok settings := by
  rw [settings.encode_writes] at encoded
  rcases written : (settings.payload extra).bind (frameWire FrameType.settings) with _ | octets
  · rw [written] at encoded
    cases encoded
  · rw [written] at encoded
    obtain ⟨payload, carried, framed⟩ := Option.bind_eq_some_iff.mp written
    obtain ⟨head, headed, rfl⟩ := Option.map_eq_some_iff.mp framed
    cases encoded
    exact ⟨head, payload, (List.append_assoc _ _ _).symm, parse_header headed,
      Settings.parse_payload carried⟩

/-- HTTP/3 frames round-trip. Frames that are legal on a stream and within its limits are read back
as they were, in order and to the last octet, and every frame whose integers can be written is
written. Settings are read back whatever reserved setting is sent with them. An encoder given a
value that cannot be written leaves its buffer as it was. A settings payload is accepted exactly if
it is pairs of integers in any encoding, as the rules of their identifiers allow. -/
theorem frames_round_trip :
    (∀ (kind : StreamKind) (role : Role) (limits : FrameLimits)
        (frames : List (Outgoing × List Call)),
      (∀ frame ∈ frames, frame.1.Within limits) → Legal kind role (outgoingTokens frames) →
      ((∀ frame ∈ frames, frame.1.Fits) →
        ∃ bytes, Outgoing.encodeAll (frames.map Prod.fst) [] = (some (), bytes)) ∧
      ∀ bytes, Outgoing.encodeAll (frames.map Prod.fst) [] = (some (), bytes) →
        let halt := (Reader.machine (outgoingCalls frames)).run (.new kind role limits) bytes
        halt.state.events = (frames.map fun frame => frame.1.event) ∧ halt.rest = some [] ∧
          halt.state.failure = none ∧ halt.state.decoder.state = .header) ∧
    (∀ (settings : Settings) (extra : Option Reserved) (out left : Bytes),
      settings.encode extra out = (some (), left) →
      ∃ head payload, left = out ++ head ++ payload ∧
        FrameHeader.parse head = some ⟨FrameType.settings, payload.length, head.length⟩ ∧
        Settings.parse payload = .ok settings) ∧
    (∀ out : Bytes,
      (∀ value, Varint.max < value →
        Varint.push value out = (none, out) ∧ Varint.encode value out = (none, out) ∧
          ∀ len, Varint.encodeWithLen value len out = (none, out)) ∧
      (∀ frameType len, Varint.max < frameType ∨ Varint.max < len →
        FrameHeader.encode frameType len out = (none, out)) ∧
      (∀ frame : Frame, (∃ value ∈ frame.integers, Varint.max < value) →
        frame.encode out = (none, out)) ∧
      (∀ len, Varint.max < len → encodeDataHeader len out = (none, out)) ∧
      (∀ n payload, maxN < n → encodeReserved n payload out = (none, out)) ∧
      ∀ (settings : Settings) (extra : Option Reserved),
        ((∃ value ∈ (Frame.settings settings).integers, Varint.max < value) ∨
          ∃ one, extra = some one ∧ (maxN < one.n ∨ Varint.max < one.value)) →
        settings.encode extra out = (none, out) ∧
          settings.encodeControlPreface extra out = (none, out)) ∧
    ∀ payload : Bytes,
      (∃ settings, Settings.parse payload = .ok settings) ↔ ∃ pairs,
        Settings.Spells pairs payload ∧ (pairs.map Prod.fst).Nodup ∧
        (∀ pair ∈ pairs, pair.1 < 0x02 ∨ 0x05 < pair.1) ∧
        ∀ pair ∈ pairs, Settings.Switch pair.1 → pair.2 ≤ 1 := by
  refine ⟨fun kind role limits frames within legal => ⟨fun fits => ?_, fun bytes encoded =>
    read_encodeAll within legal encoded⟩, fun settings extra out left => parse_encode,
    encode_refuses, Settings.parse_accepts⟩
  have all : ∀ outgoing ∈ frames.map Prod.fst, outgoing.Fits := by
    intro outgoing member
    obtain ⟨frame, inside, rfl⟩ := List.mem_map.mp member
    exact fits frame inside
  obtain ⟨bytes, written⟩ := Outgoing.encodeAll_fits all []
  exact ⟨[] ++ bytes, written⟩

end ZeroServer.H3

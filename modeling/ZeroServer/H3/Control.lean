/-
This file models the rules that need state across the frames of a control stream and proves that
the ends of a connection agree on its shutdown: on the identifier of the last GOAWAY.
-/

import ZeroServer.H3.RoundTrip

namespace ZeroServer.H3

open Http1

/-! ### What is received -/

/-- The errors of frames that break a rule across frames. -/
inductive ControlError where
  | goawayStreamType (id : Nat)
  | goawayIncreased (id previous : Nat)
  | maxPushIdDecreased (pushId previous : Nat)
  | pushIdAboveMaximum (pushId : Nat)
  | pushIdNotPromised (pushId : Nat)
  deriving DecidableEq

/-- The state of the peer's control stream. -/
structure PeerControl where
  role : Role
  settings : Option Settings := none
  goaway : Option Nat := none
  maxPushId : Option Nat := none
  localMaxPushId : Option Nat := none
  deriving DecidableEq

namespace PeerControl

/-- Apply one frame; a failed call leaves the state as it was. -/
def receive (control : PeerControl) (frame : Frame) : Except ControlError PeerControl :=
  match frame with
  | .settings settings => .ok { control with settings := some settings }
  | .goaway id =>
    if control.role = .client ∧ id &&& 0x03 ≠ 0 then .error (.goawayStreamType id)
    else
      match control.goaway.filter (· < id) with
      | some previous => .error (.goawayIncreased id previous)
      | none => .ok { control with goaway := some id }
  | .maxPushId pushId =>
    match control.maxPushId.filter (pushId < ·) with
    | some previous => .error (.maxPushIdDecreased pushId previous)
    | none => .ok { control with maxPushId := some pushId }
  | .cancelPush pushId =>
    let maximum :=
      match control.role with
      | .server => control.maxPushId
      | .client => control.localMaxPushId
    if maximum.all (· < pushId) then .error (.pushIdAboveMaximum pushId)
    else if control.role = .server then .error (.pushIdNotPromised pushId)
    else .ok control
  | .headers _ | .pushPromise _ _ => .ok control

def sentMaxPushId (control : PeerControl) (pushId : Nat) : PeerControl :=
  { control with localMaxPushId := some pushId }

/-- Apply the frames among the events of a stream. -/
def receiveAll (control : PeerControl) : List Event → Except ControlError PeerControl
  | [] => .ok control
  | .frame frame :: events =>
    match control.receive frame with
    | .error refused => .error refused
    | .ok next => next.receiveAll events
  | _ :: events => control.receiveAll events

end PeerControl

/-! ### What is sent -/

/-- The GOAWAY identifiers an endpoint sends. -/
structure GoawaySender where
  role : Role
  last : Option Nat := none
  deriving DecidableEq

namespace GoawaySender

/-- Accept an identifier for a GOAWAY and record it. -/
def send (sender : GoawaySender) (id : Nat) : Option Nat × GoawaySender :=
  if Varint.max < id ∨ sender.role = .server ∧ id &&& 0x03 ≠ 0 then (none, sender)
  else if sender.last.any (· < id) then (none, sender)
  else (some id, { sender with last := some id })

/-- The identifiers that go out of those an endpoint would announce. -/
def announce (sender : GoawaySender) : List Nat → List Nat × GoawaySender
  | [] => ([], sender)
  | id :: ids =>
    match sender.send id with
    | (none, next) => next.announce ids
    | (some sent, next) => (sent :: (next.announce ids).1, (next.announce ids).2)

end GoawaySender

def Role.peer : Role → Role
  | .client => .server
  | .server => .client

/-! ### Agreement -/

variable {sender : GoawaySender} {control : PeerControl}

/-- What an end has sent is what its peer has received. -/
structure Agree (sender : GoawaySender) (control : PeerControl) : Prop where
  role : control.role = sender.role.peer
  goaway : control.goaway = sender.last

/-- An identifier goes out if it can be written and the peer takes it. -/
theorem Agree.send (agree : Agree sender control) (id : Nat) :
    (sender.send id = (none, sender) ∧
      (Varint.max < id ∨ ∃ refused, control.receive (.goaway id) = .error refused)) ∨
    (sender.send id = (some id, { sender with last := some id }) ∧ id ≤ Varint.max ∧
      control.receive (.goaway id) = .ok { control with goaway := some id }) := by
  obtain ⟨side, last⟩ := sender
  obtain ⟨role, _, goaway⟩ := control
  obtain ⟨rfl : role = side.peer, rfl : goaway = last⟩ := agree
  have turned : side.peer = .client ↔ side = .server := by cases side <;> decide
  simp only [PeerControl.receive, GoawaySender.send, turned]
  by_cases large : Varint.max < id
  · exact .inl ⟨if_pos (.inl large), .inl large⟩
  by_cases type : side = .server ∧ id &&& 0x03 ≠ 0
  · exact .inl ⟨if_pos (.inr type), .inr ⟨_, if_pos type⟩⟩
  rw [if_neg (not_or.mpr ⟨large, type⟩), if_neg type]
  rcases goaway with _ | last
  · exact .inr ⟨rfl, Nat.not_lt.mp large, rfl⟩
  rw [Option.filter_some]
  by_cases grows : last < id
  · exact .inl ⟨if_pos (decide_eq_true grows), .inr ⟨_, by rw [if_pos (decide_eq_true grows)]⟩⟩
  · have less : ¬ decide (last < id) = true := fun same => grows (of_decide_eq_true same)
    exact .inr ⟨if_neg less, Nat.not_lt.mp large, by rw [if_neg less]⟩

/-- Everything that goes out is taken, and leaves the ends in agreement. -/
theorem Agree.announce (agree : Agree sender control) (ids : List Nat) :
    (∀ id ∈ (sender.announce ids).1, id ≤ Varint.max) ∧
    ∃ after, control.receiveAll ((sender.announce ids).1.map fun id => .frame (.goaway id)) =
        .ok after ∧
      Agree (sender.announce ids).2 after ∧ after.settings = control.settings := by
  induction ids generalizing sender control with
  | nil => exact ⟨nofun, control, rfl, agree, rfl⟩
  | cons id ids inductionHypothesis =>
    rw [GoawaySender.announce]
    rcases agree.send id with ⟨sent, -⟩ | ⟨sent, small, taken⟩
    · rw [sent]
      exact inductionHypothesis agree
    · rw [sent]
      have next : Agree { sender with last := some id } { control with goaway := some id } :=
        ⟨agree.role, rfl⟩
      obtain ⟨rest, after, received, agreed, same⟩ := inductionHypothesis next
      refine ⟨List.forall_mem_cons.mpr ⟨small, rest⟩, after, ?_, agreed, same⟩
      rw [List.map_cons, PeerControl.receiveAll, taken]
      exact received

/-! ### A control stream -/

/-- What an end sends on its control stream: its settings, then the GOAWAY frames that go out. -/
def controlStream (side : Role) (settings : Settings) (ids : List Nat) :
    List (Outgoing × List Call) :=
  (.frame (.settings settings), []) ::
    (GoawaySender.announce ⟨side, none⟩ ids).1.map fun id => (.frame (.goaway id), [])

theorem legal_controlStream (side role : Role) (settings : Settings) (ids : List Nat) :
    Legal .control role (outgoingTokens (controlStream side settings ids)) := by
  refine .inr ⟨_, rfl, fun type member => ?_⟩
  obtain ⟨token, inside, same⟩ := List.mem_filterMap.mp member
  obtain ⟨word, among, here⟩ := List.mem_flatten.mp inside
  rw [List.map_map] at among
  obtain ⟨id, -, rfl⟩ := List.mem_map.mp among
  rw [List.mem_singleton.mp here] at same
  cases same
  exact .inr (.inr (.inl rfl))

/-- The ends of a connection agree on its shutdown. Whatever identifiers one end tries to announce
behind its settings, its control stream can be written, and however the stream is cut into reads
the other end takes every frame of it and is left with the identifier that was sent last. From
there an identifier is held back exactly if no octets carry it or the other end would refuse it. -/
theorem goaways_agree (side : Role) (limits : FrameLimits) (settings : Settings) (ids : List Nat)
    (fits : (Outgoing.frame (.settings settings)).Fits)
    (within : (Outgoing.frame (.settings settings)).Within limits) :
    let sender := (GoawaySender.announce ⟨side, none⟩ ids).2
    let frames := controlStream side settings ids
    ∃ bytes, Outgoing.encodeAll (frames.map Prod.fst) [] = (some (), bytes) ∧
      ∀ reads : List Bytes, reads.flatten = bytes →
        let reader := ((Reader.machine (outgoingCalls frames)).runReads
          (.new .control side.peer limits) [] reads).state
        reader.failure = none ∧ ∃ control,
          PeerControl.receiveAll { role := side.peer } reader.events = .ok control ∧
          control.settings = some settings ∧ control.goaway = sender.last ∧
          ∀ id, (sender.send id).1 = none ↔
            Varint.max < id ∨ ∃ refused, control.receive (.goaway id) = .error refused := by
  intro sender frames
  have start : Agree ⟨side, none⟩ { role := side.peer, settings := some settings } := ⟨rfl, rfl⟩
  obtain ⟨small, control, received, agree, carried⟩ := start.announce ids
  have goes : ∀ frame ∈ frames, frame.1.Fits ∧ frame.1.Within limits := by
    refine List.forall_mem_cons.mpr ⟨⟨fits, within⟩, List.forall_mem_map.mpr fun id inside => ?_⟩
    obtain ⟨octets, shortest, -, short⟩ := (Varint.shortest_spec id).1 (small id inside)
    refine ⟨⟨List.forall_mem_singleton.mpr (small id inside), fun payload same => ?_⟩, trivial⟩
    cases same.symm.trans shortest
    exact Nat.le_trans short (by decide)
  obtain ⟨bytes, written⟩ := Outgoing.encodeAll_fits
    (List.forall_mem_map.mpr fun frame member => (goes frame member).1) []
  refine ⟨_, written, fun reads cut => ?_⟩
  obtain ⟨events, -, failure, -⟩ := read_encodeAll (fun frame member => (goes frame member).2)
    (legal_controlStream ..) written
  have quiet : (Reader.machine (outgoingCalls frames)).step
    (.new .control side.peer limits) [] = .wait := rfl
  obtain ⟨state, -⟩ := (Reader.segmentable _).runReads_flatten trivial quiet reads
  rw [List.nil_append, cut] at state
  dsimp only
  rw [← state]
  refine ⟨failure, control, ?_, carried, agree.goaway, fun id => ?_⟩
  · rw [events, ← received]
    simp only [frames, controlStream, List.map_cons, List.map_map]
    rfl
  · rcases agree.send id with ⟨sent, refused⟩ | ⟨sent, small, taken⟩
    · exact iff_of_true (congrArg Prod.fst sent) refused
    · rw [sent, taken]
      exact iff_of_false nofun (not_or.mpr ⟨Nat.not_lt.mpr small, nofun⟩)

theorem goaways_agree_graceful : ∃ control : PeerControl, control.goaway = some 8 ∧
    ∃ refused, control.receive (.goaway 12) = .error refused := by
  obtain ⟨bytes, -, agreed⟩ := goaways_agree .server ⟨16, 16⟩ {} [2 ^ 62 - 4, 5, 8]
    ⟨nofun, fun payload same => by cases same; decide⟩ fun payload same => by cases same; decide
  obtain ⟨-, control, -, -, last, held⟩ := agreed [bytes] (List.append_nil _)
  exact ⟨control, last, ((held 12).mp rfl).resolve_left (by decide)⟩

end ZeroServer.H3

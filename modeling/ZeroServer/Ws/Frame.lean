/-
This file models the base framing of the WebSocket protocol as a server receives and sends it: frame
headers with their three length forms and masking keys, and the bodies of Close frames.
-/

import ZeroServer.Http1.Grammar
import ZeroServer.Lib.Utf8

namespace ZeroServer.Ws

open Http1 Lib

/-! ### Masking -/

/-- A masking key. -/
structure Key where
  k0 : UInt8
  k1 : UInt8
  k2 : UInt8
  k3 : UInt8
  deriving DecidableEq

/-- The byte of a key that masks the byte at an index. -/
def Key.get (key : Key) (index : Nat) : UInt8 :=
  match index % 4 with
  | 0 => key.k0
  | 1 => key.k1
  | 2 => key.k2
  | _ => key.k3

/-- Unmask, or mask, a payload. -/
def unmask (payload : Bytes) (key : Key) : Bytes :=
  payload.mapIdx fun index byte => byte ^^^ key.get index

/-- The key as it applies from an offset of a payload. -/
def rotateKey (key : Key) (offset : Nat) : Key :=
  match offset % 4 with
  | 0 => key
  | 1 => ⟨key.k1, key.k2, key.k3, key.k0⟩
  | 2 => ⟨key.k2, key.k3, key.k0, key.k1⟩
  | _ => ⟨key.k3, key.k0, key.k1, key.k2⟩

theorem get_rotateKey (key : Key) (offset index : Nat) :
    (rotateKey key offset).get index = key.get (offset + index) := by
  have places : ∀ number : Nat,
      number % 4 = 0 ∨ number % 4 = 1 ∨ number % 4 = 2 ∨ number % 4 = 3 := by omega
  unfold rotateKey Key.get
  rcases places offset with first | first | first | first <;>
    rcases places index with second | second | second | second <;>
    simp only [Nat.add_mod offset index, first, second]

theorem Key.ext_get {left right : Key} (same : ∀ index, left.get index = right.get index) :
    left = right := by
  obtain ⟨l0, l1, l2, l3⟩ := left
  obtain ⟨r0, r1, r2, r3⟩ := right
  obtain rfl : l0 = r0 := same 0
  obtain rfl : l1 = r1 := same 1
  obtain rfl : l2 = r2 := same 2
  obtain rfl : l3 = r3 := same 3
  rfl

/-- A key is rotated further from an offset that wrapped around. -/
theorem rotateKey_rotateKey (key : Key) (first second : Nat) :
    rotateKey (rotateKey key first) second = rotateKey key ((first + second) % 2 ^ 64) := by
  refine Key.ext_get fun index => ?_
  have wrapped : ((first + second) % 2 ^ 64 + index) % 4 = (first + (second + index)) % 4 := by
    omega
  rw [get_rotateKey, get_rotateKey, get_rotateKey, Key.get, Key.get, wrapped]

/-- A fragment is unmasked on its own with the key rotated to where it begins. -/
theorem unmask_append (first second : Bytes) (key : Key) :
    unmask (first ++ second) key =
      unmask first key ++ unmask second (rotateKey key first.length) := by
  unfold unmask
  rw [List.mapIdx_append]
  refine congrArg (List.mapIdx _ first ++ List.mapIdx · second) ?_
  funext index byte
  rw [get_rotateKey, Nat.add_comm]

/-! ### Status codes -/

/-- A close status code. -/
structure CloseCode where
  code : Nat
  deriving DecidableEq

namespace CloseCode

def goingAway : CloseCode := ⟨1001⟩
def protocolError : CloseCode := ⟨1002⟩
def noStatus : CloseCode := ⟨1005⟩
def invalidPayload : CloseCode := ⟨1007⟩
def policyViolation : CloseCode := ⟨1008⟩
def messageTooBig : CloseCode := ⟨1009⟩
def internalError : CloseCode := ⟨1011⟩

/-- Whether the code may stand in a Close frame, sent or received. -/
def isValid (close : CloseCode) : Bool :=
  1000 ≤ close.code && close.code ≤ 1003 || 1007 ≤ close.code && close.code ≤ 1014 ||
    3000 ≤ close.code && close.code ≤ 4999

/-- Whether a server may start a closing handshake with the code. -/
def isSendable (close : CloseCode) : Bool :=
  1000 ≤ close.code && close.code ≤ 1003 || 1007 ≤ close.code && close.code ≤ 1009 ||
    1011 ≤ close.code && close.code ≤ 1014 || 3000 ≤ close.code && close.code ≤ 4999

def bytes (close : CloseCode) : Bytes :=
  [UInt8.ofNat (close.code / 256), UInt8.ofNat (close.code % 256)]

end CloseCode

/-! ### Frames -/

def maxControlPayload : Nat := 125

def maxReason : Nat := 123

inductive Opcode where
  | continuation
  | text
  | binary
  | close
  | ping
  | pong
  deriving DecidableEq

namespace Opcode

/-- The opcode for four bits, or none for a reserved value. -/
def fromBits (bits : UInt8) : Option Opcode :=
  if bits = 0 then some .continuation
  else if bits = 1 then some .text
  else if bits = 2 then some .binary
  else if bits = 8 then some .close
  else if bits = 9 then some .ping
  else if bits = 10 then some .pong
  else none

def bits : Opcode → UInt8
  | .continuation => 0
  | .text => 1
  | .binary => 2
  | .close => 8
  | .ping => 9
  | .pong => 10

def isControl (opcode : Opcode) : Bool := opcode.bits &&& 8 ≠ 0

end Opcode

/-- A received frame header. -/
structure Header where
  fin : Bool
  rsv : UInt8
  opcode : Opcode
  mask : Key
  len : Nat
  headerLen : Nat
  deriving DecidableEq

/-- The number bytes stand for, the first the highest. -/
def beValue (bytes : Bytes) : Nat := bytes.foldl (fun value byte => 256 * value + byte.toNat) 0

/-- The header once its length and its extended bytes are known. -/
def keyed (fin : Bool) (rsv : UInt8) (opcode : Opcode) (len extended : Nat) (rest : Bytes) :
    Option Header :=
  match rest.drop extended with
  | k0 :: k1 :: k2 :: k3 :: _ => some ⟨fin, rsv, opcode, ⟨k0, k1, k2, k3⟩, len, 6 + extended⟩
  | _ => none

variable {rest : Bytes} {header : Header}

variable {rsv : UInt8} {opcode : Opcode}

theorem keyed_eq_some {fin : Bool} {len extended : Nat}
    (found : keyed fin rsv opcode len extended rest = some header) :
    extended + 4 ≤ rest.length ∧ ∃ mask, header = ⟨fin, rsv, opcode, mask, len, 6 + extended⟩ := by
  unfold keyed at found
  split at found
  · rename_i k0 k1 k2 k3 more behind
    have length := congrArg List.length behind
    simp only [List.length_drop, List.length_cons] at length
    exact ⟨by omega, _, (Option.some.inj found).symm⟩
  · cases found

/-- The payload length a short length stands for, and how many bytes of the rest extend it. -/
def extendedLength (short : UInt8) (rest : Bytes) : Except CloseCode (Option (Nat × Nat)) :=
  if short = 126 then
    if rest.length < 2 then .ok none
    else
      let len := beValue (rest.take 2)
      if len < 126 then .error .protocolError else .ok (some (len, 2))
  else if short = 127 then
    if rest.length < 8 then .ok none
    else
      let len := beValue (rest.take 8)
      if 2 ^ 63 ≤ len ∨ len ≤ 0xFFFF then .error .protocolError else .ok (some (len, 8))
  else .ok (some (short.toNat, 0))

/-- Decode a header a server received; nothing while it is not all there. -/
def decode (input : Bytes) (allowedRsv : UInt8) : Except CloseCode (Option Header) :=
  match input with
  | first :: second :: rest =>
    let fin : Bool := first &&& 0x80 ≠ 0
    let rsv := (first >>> 4) &&& 0x07
    if rsv &&& ~~~allowedRsv ≠ 0 then .error .protocolError
    else
      match Opcode.fromBits (first &&& 0x0F) with
      | none => .error .protocolError
      | some opcode =>
        let short := second &&& 0x7F
        if opcode.isControl && (!fin || maxControlPayload < short.toNat) then .error .protocolError
        else if second &&& 0x80 = 0 then .error .protocolError
        else
          match extendedLength short rest with
          | .error code => .error code
          | .ok none => .ok none
          | .ok (some (len, extended)) => .ok (keyed fin rsv opcode len extended rest)
  | _ => .ok none

variable {short : UInt8}

theorem extendedLength_short (small : short.toNat ≤ maxControlPayload) (rest : Bytes) :
    extendedLength short rest = .ok (some (short.toNat, 0)) := by
  have apart : ∀ {byte : UInt8}, maxControlPayload < byte.toNat → short ≠ byte := by
    rintro byte large rfl
    exact Nat.not_lt_of_le small large
  unfold extendedLength
  rw [if_neg (apart (by decide)), if_neg (apart (by decide))]

variable {input : Bytes} {allowedRsv : UInt8}

/-- What a decoded header says of itself: it is all there, and a control frame is whole and
short. -/
theorem decode_some (decoded : decode input allowedRsv = .ok (some header)) :
    6 ≤ header.headerLen ∧ header.headerLen ≤ input.length ∧
      (header.opcode.isControl = true → header.fin = true ∧ header.len ≤ maxControlPayload) := by
  unfold decode at decoded
  split at decoded
  · rename_i first second rest
    dsimp only at decoded
    split at decoded
    · cases decoded
    split at decoded
    · cases decoded
    rename_i opcode isOpcode
    split at decoded
    · cases decoded
    rename_i whole
    split at decoded
    · cases decoded
    split at decoded
    · cases decoded
    · cases decoded
    rename_i len extended length
    obtain ⟨inside, mask, rfl⟩ := keyed_eq_some (Except.ok.inj decoded)
    refine ⟨Nat.le_add_right 6 extended, ?_, fun isControl => ?_⟩
    · simp only [List.length_cons]
      omega
    · rw [isControl, Bool.true_and, Bool.or_eq_true, not_or] at whole
      have small : (second &&& 0x7F).toNat ≤ maxControlPayload :=
        Nat.le_of_not_lt fun large => whole.2 (decide_eq_true large)
      rw [extendedLength_short small] at length
      cases length
      exact ⟨by simpa using whole.1, small⟩
  · cases decoded

/-- More input does not change a length that is there. -/
theorem extendedLength_append (more : Bytes) (known : extendedLength short rest ≠ .ok none) :
    extendedLength short (rest ++ more) = extendedLength short rest := by
  unfold extendedLength at known ⊢
  split
  · rename_i two
    rw [if_pos two] at known
    have enough : ¬ rest.length < 2 := fun short => known (if_pos short)
    rw [if_neg enough, if_neg (by rw [List.length_append]; omega),
      List.take_append_of_le_length (Nat.le_of_not_lt enough)]
  · rename_i notTwo
    rw [if_neg notTwo] at known
    split
    · rename_i eight
      rw [if_pos eight] at known
      have enough : ¬ rest.length < 8 := fun short => known (if_pos short)
      rw [if_neg enough, if_neg (by rw [List.length_append]; omega),
        List.take_append_of_le_length (Nat.le_of_not_lt enough)]
    · rfl

theorem keyed_append {fin : Bool} {len extended : Nat} (more : Bytes)
    (found : keyed fin rsv opcode len extended rest = some header) :
    keyed fin rsv opcode len extended (rest ++ more) = some header := by
  have inside := (keyed_eq_some found).1
  unfold keyed at found ⊢
  rw [List.drop_append_of_le_length (by omega)]
  split at found
  · rename_i behind
    rw [behind]
    exact found
  · cases found

/-- More input does not change a header that is there, or one that is refused. -/
theorem decode_append (known : decode input allowedRsv ≠ .ok none) (more : Bytes) :
    decode (input ++ more) allowedRsv = decode input allowedRsv := by
  rcases input with _ | ⟨first, _ | ⟨second, rest⟩⟩
  · exact absurd rfl known
  · exact absurd rfl known
  · unfold decode at known ⊢
    dsimp only [List.cons_append] at known ⊢
    split
    · rfl
    · rename_i defined
      rw [if_neg defined] at known
      split
      · rfl
      · rename_i opcode isOpcode
        rw [isOpcode] at known
        dsimp only at known
        split
        · rfl
        · rename_i whole
          rw [if_neg whole] at known
          split
          · rfl
          · rename_i masked
            rw [if_neg masked] at known
            have length : extendedLength (second &&& 0x7F) rest ≠ .ok none := by
              intro missing
              rw [missing] at known
              exact known rfl
            rw [extendedLength_append more length]
            rcases found : extendedLength (second &&& 0x7F) rest with code | _ | ⟨len, extended⟩
            · rfl
            · exact absurd found length
            · rw [found] at known
              dsimp only at known ⊢
              cases isKeyed : keyed (decide (first &&& 0x80 ≠ 0)) (first >>> 4 &&& 0x07) opcode len
                  extended rest with
              | none => exact absurd (congrArg Except.ok isKeyed) known
              | some header => rw [keyed_append more isKeyed]

/-- The bytes of a number, the highest first. -/
def beBytes : Nat → Nat → Bytes
  | 0, _ => []
  | count + 1, value => beBytes count (value / 256) ++ [UInt8.ofNat (value % 256)]

theorem beValue_append (bytes : Bytes) (byte : UInt8) :
    beValue (bytes ++ [byte]) = 256 * beValue bytes + byte.toNat := by
  unfold beValue
  rw [List.foldl_append]
  rfl

theorem length_beBytes (count value : Nat) : (beBytes count value).length = count := by
  induction count generalizing value with
  | zero => rfl
  | succ count inductionHypothesis =>
    rw [beBytes, List.length_append, inductionHypothesis]
    rfl

theorem beValue_beBytes {count value : Nat} (fits : value < 256 ^ count) :
    beValue (beBytes count value) = value := by
  induction count generalizing value with
  | zero =>
    rw [Nat.pow_zero, Nat.lt_one_iff] at fits
    rw [fits]
    rfl
  | succ count inductionHypothesis =>
    have higher : value / 256 < 256 ^ count := Nat.div_lt_of_lt_mul (by rwa [← Nat.pow_succ'])
    have byte : (UInt8.ofNat (value % 256)).toNat = value % 256 :=
      UInt8.toNat_ofNat_of_lt' (Nat.mod_lt _ (by decide))
    rw [beBytes, beValue_append, inductionHypothesis higher, byte]
    exact Nat.div_add_mod value 256

/-- Encode the header of a frame the server sends. -/
def encode (fin : Bool) (opcode : Opcode) (len : Nat) : Bytes :=
  let first := (if fin then 0x80 else 0x00) ||| opcode.bits
  if len ≤ 125 then [first, UInt8.ofNat len]
  else if len ≤ 0xFFFF then first :: 126 :: beBytes 2 len
  else first :: 127 :: beBytes 8 len

/-- One whole, final, unmasked frame. -/
def frame (opcode : Opcode) (payload : Bytes) : Bytes :=
  encode true opcode payload.length ++ payload

/-! ### Close bodies -/

/-- What a received Close frame carried. -/
structure Close where
  code : CloseCode
  reason : List Char
  deriving DecidableEq

/-- Read a received Close body. -/
def Close.parse (payload : Bytes) : Except CloseCode Close :=
  match payload with
  | [] => .ok ⟨.noStatus, []⟩
  | [_] => .error .protocolError
  | high :: low :: reason =>
    let code : CloseCode := ⟨beValue [high, low]⟩
    if code.isValid then
      match Utf8.decode reason with
      | none => .error .invalidPayload
      | some text => .ok ⟨code, text⟩
    else .error .protocolError

/-- Build a Close body. -/
def Close.body (code : CloseCode) (reason : List Char) : Except CloseCode Bytes :=
  if code = .noStatus then .ok []
  else if ¬ code.isValid ∨ maxReason < (Utf8.encode reason).length then .error .internalError
  else .ok (code.bytes ++ Utf8.encode reason)

/-! ### Refused calls -/

/-- Why a call of the application is refused. -/
inductive Error where
  | closed
  | protocol
  | limit
  deriving DecidableEq

/-- Build the body of a Close the server starts. -/
def Close.startBody (code : CloseCode) (reason : List Char) : Except Error Bytes :=
  if code = .noStatus then .ok []
  else if ¬ code.isSendable then .error .protocol
  else if maxReason < (Utf8.encode reason).length then .error .limit
  else
    match Close.body code reason with
    | .ok body => .ok body
    | .error _ => .error .protocol

/-- A message frame, after checking it. -/
def writeMessage (opcode : Opcode) (payload : Bytes) : Except Error Bytes :=
  match opcode with
  | .text => if (Utf8.decode payload).isNone then .error .protocol else .ok (frame opcode payload)
  | .binary => .ok (frame opcode payload)
  | _ => .error .protocol

/-- A ping, after checking that its payload fits a control frame. -/
def writePing (payload : Bytes) : Except Error Bytes :=
  if maxControlPayload < payload.length then .error .limit else .ok (frame .ping payload)

end ZeroServer.Ws

/-
This file models IP addresses as the forwarding fields spell them: the readers that accept exactly
the textual forms of an IPv4 and of an IPv6 address.
-/

import ZeroServer.Http1.Grammar

namespace ZeroServer.Policy

open Http1

/-! ### Addresses -/

inductive IpAddr where
  | v4 (address : BitVec 32)
  | v6 (address : BitVec 128)
  deriving DecidableEq

def toIpv4Mapped (address : BitVec 128) : Option (BitVec 32) :=
  if address.extractLsb' 32 96 = 0xFFFF#96 then some (address.extractLsb' 0 32) else none

/-! ### Readers -/

/-- A reader takes a value from the front of a text, or leaves it. -/
abbrev Reader (Value : Type) := Bytes → Option (Value × Bytes)

def hexDigit (byte : UInt8) : Option Nat :=
  if isAsciiDigit byte then some (byte.toNat - 48)
  else if 97 ≤ byte && byte ≤ 102 then some (byte.toNat - 87)
  else if 65 ≤ byte && byte ≤ 70 then some (byte.toNat - 55)
  else none

/-- The digit a byte is in a radix of at most 16. -/
def toDigit (radix : Nat) (byte : UInt8) : Option Nat := (hexDigit byte).filter (· < radix)

/-- The digits at the front: their value and their number, unless there are too many. -/
def readDigits (radix maxDigits : Nat) : Nat → Nat → Bytes → Option (Nat × Nat × Bytes)
  | value, count, [] => some (value, count, [])
  | value, count, byte :: rest =>
    match toDigit radix byte with
    | none => some (value, count, byte :: rest)
    | some digit =>
      if maxDigits < count + 1 then none
      else readDigits radix maxDigits (value * radix + digit) (count + 1) rest

def readNumber (radix maxDigits bound : Nat) (allowZeroPrefix : Bool) : Reader Nat := fun input =>
  match readDigits radix maxDigits 0 0 input with
  | none => none
  | some (value, count, rest) =>
    if count = 0 then none
    else if !allowZeroPrefix && input.head? == some 48 && 1 < count then none
    else if value < bound then some (value, rest)
    else none

/-- Read a value behind a separator, except at the front. -/
def readSeparator {Value : Type} (separator : UInt8) (index : Nat) (inner : Reader Value) :
    Reader Value := fun input =>
  if index = 0 then inner input
  else
    match input with
    | [] => none
    | byte :: rest => if byte = separator then inner rest else none

def readOctet (index : Nat) : Reader Nat := readSeparator 46 index (readNumber 10 3 256 false)

def readIpv4 : Reader (BitVec 32) := fun input => do
  let (first, rest) ← readOctet 0 input
  let (second, rest) ← readOctet 1 rest
  let (third, rest) ← readOctet 2 rest
  let (fourth, rest) ← readOctet 3 rest
  return (BitVec.ofNat 32 (((first * 256 + second) * 256 + third) * 256 + fourth), rest)

/-- Read groups of an IPv6 address: the groups read, and whether an embedded IPv4 address ended
them. -/
def readGroups : Nat → Nat → Bytes → List Nat × Bool × Bytes
  | 0, _, input => ([], false, input)
  | left + 1, index, input =>
    match if left = 0 then none else readSeparator colon index readIpv4 input with
    | some (address, rest) => ([address.toNat / 65536, address.toNat % 65536], true, rest)
    | none =>
      match readSeparator colon index (readNumber 16 4 65536 true) input with
      | some (group, rest) =>
        let (groups, embedded, rest) := readGroups left (index + 1) rest
        (group :: groups, embedded, rest)
      | none => ([], false, input)

def ofGroups (groups : List Nat) : BitVec 128 :=
  BitVec.ofNat 128 (groups.foldl (fun value group => value * 65536 + group) 0)

def readIpv6 : Reader (BitVec 128) := fun input =>
  let (head, headIpv4, rest) := readGroups 8 0 input
  if head.length = 8 then some (ofGroups head, rest)
  else if headIpv4 then none
  else
    match rest with
    | first :: second :: rest =>
      if first = colon ∧ second = colon then
        let (tail, _, rest) := readGroups (8 - (head.length + 1)) 0 rest
        some (ofGroups (head ++ List.replicate (8 - tail.length - head.length) 0 ++ tail), rest)
      else none
    | _ => none

/-- A text that is a value from its first byte to its last. -/
def parseWith {Value : Type} (reader : Reader Value) (text : Bytes) : Option Value :=
  match reader text with
  | some (value, []) => some value
  | _ => none

def parseIpv4 (text : Bytes) : Option (BitVec 32) :=
  if 15 < text.length then none else parseWith readIpv4 text

def parseIpv6 (text : Bytes) : Option (BitVec 128) := parseWith readIpv6 text

def parseIpAddr (text : Bytes) : Option IpAddr :=
  parseWith (fun input => ((readIpv4 input).map fun read => (IpAddr.v4 read.1, read.2)).or
    ((readIpv6 input).map fun read => (IpAddr.v6 read.1, read.2))) text

/-! ### What the readers accept -/

/-- A byte an IPv4 address may be spelled with. -/
def isIpv4Byte (byte : UInt8) : Bool := isAsciiDigit byte || byte == 46

/-- A byte an address may be spelled with. -/
def isAddressByte (byte : UInt8) : Bool := isAsciiHexdigit byte || byte == colon || byte == 46

/-- A reader takes bytes of one kind from the front, at least one of them. -/
def Takes {Value : Type} (kind : UInt8 → Bool) (reader : Reader Value) : Prop :=
  ∀ input value rest, reader input = some (value, rest) →
    ∃ taken, taken ≠ [] ∧ input = taken ++ rest ∧ taken.all kind = true

theorem isAsciiHexdigit_of_toDigit {radix digit : Nat} {byte : UInt8}
    (known : toDigit radix byte = some digit) : isAsciiHexdigit byte = true := by
  obtain ⟨hex, -⟩ := Option.filter_eq_some_iff.mp known
  unfold hexDigit at hex
  unfold isAsciiHexdigit
  split at hex
  · rename_i decimal
    rw [decimal]
    rfl
  · split at hex
    · rename_i lower
      rw [lower, Bool.or_true]
      rfl
    · split at hex
      · rename_i upper
        rw [upper, Bool.or_true]
      · cases hex

theorem isAsciiDigit_of_toDigit {digit : Nat} {byte : UInt8}
    (known : toDigit 10 byte = some digit) : isAsciiDigit byte = true := by
  obtain ⟨hex, small⟩ := Option.filter_eq_some_iff.mp known
  have less : digit < 10 := of_decide_eq_true small
  unfold hexDigit at hex
  split at hex
  · assumption
  · split at hex
    · rename_i lower
      have low := UInt8.le_iff_toNat_le.mp (of_decide_eq_true (Bool.and_eq_true_iff.mp lower).1)
      have same := Option.some.inj hex
      change 97 ≤ byte.toNat at low
      omega
    · split at hex
      · rename_i upper
        have low := UInt8.le_iff_toNat_le.mp (of_decide_eq_true (Bool.and_eq_true_iff.mp upper).1)
        have same := Option.some.inj hex
        change 65 ≤ byte.toNat at low
        omega
      · cases hex

variable {input rest : Bytes}

section Numbers

variable {radix : Nat} {kind : UInt8 → Bool}
  (digits : ∀ byte digit, toDigit radix byte = some digit → kind byte = true)
include digits

theorem readDigits_takes {maxDigits value count value' count' : Nat}
    (read : readDigits radix maxDigits value count input = some (value', count', rest)) :
    ∃ taken, count' = count + taken.length ∧ input = taken ++ rest ∧ taken.all kind = true := by
  induction input generalizing value count with
  | nil =>
    cases read
    exact ⟨[], rfl, rfl, rfl⟩
  | cons byte input inductionHypothesis =>
    rw [readDigits] at read
    split at read
    · cases read
      exact ⟨[], rfl, rfl, rfl⟩
    · rename_i digit known
      split at read
      · cases read
      · obtain ⟨taken, counted, same, all⟩ := inductionHypothesis read
        refine ⟨byte :: taken, ?_, by rw [same, List.cons_append], ?_⟩
        · rw [counted, List.length_cons, Nat.add_right_comm, Nat.add_assoc]
        · rw [List.all_cons, all, digits byte digit known]
          rfl

theorem readNumber_takes (maxDigits bound : Nat) (allowZeroPrefix : Bool) :
    Takes kind (readNumber radix maxDigits bound allowZeroPrefix) := by
  intro input value rest read
  unfold readNumber at read
  split at read
  · cases read
  · rename_i total count behind known
    obtain ⟨taken, counted, same, all⟩ := readDigits_takes digits known
    split at read
    · cases read
    · rename_i some_
      split at read
      · cases read
      · split at read
        · cases read
          refine ⟨taken, ?_, same, all⟩
          rintro rfl
          exact some_ (by rw [counted]; rfl)
        · cases read

end Numbers

variable {kind : UInt8 → Bool}

theorem Takes.mono {Value : Type} {wider : UInt8 → Bool} {reader : Reader Value}
    (takes : Takes kind reader) (wide : ∀ byte, kind byte = true → wider byte = true) :
    Takes wider reader := by
  intro input value rest read
  obtain ⟨taken, some_, same, all⟩ := takes input value rest read
  refine ⟨taken, some_, same, List.all_eq_true.mpr fun byte member => ?_⟩
  exact wide byte (List.all_eq_true.mp all byte member)

theorem readSeparator_takes {Value : Type} {inner : Reader Value} (takes : Takes kind inner)
    {separator : UInt8} (separates : kind separator = true) (index : Nat) :
    Takes kind (readSeparator separator index inner) := by
  intro input value rest read
  unfold readSeparator at read
  split at read
  · exact takes input value rest read
  · split at read
    · cases read
    · rename_i byte behind
      split at read
      · rename_i same
        obtain ⟨taken, -, rfl, all⟩ := takes behind value rest read
        refine ⟨byte :: taken, List.cons_ne_nil _ _, rfl, ?_⟩
        rw [List.all_cons, all, same, separates]
        rfl
      · cases read

/-- Two readers one behind the other take what they take together. -/
theorem Takes.bind {First Second : Type} {kind : UInt8 → Bool} {first : Reader First}
    {second : First → Reader Second} (takes : Takes kind first)
    (then_ : ∀ value, Takes kind (second value)) :
    Takes kind fun input => first input >>= fun read => second read.1 read.2 := by
  intro input value rest read
  obtain ⟨⟨known, middle⟩, front, behind⟩ := Option.bind_eq_some_iff.mp read
  obtain ⟨taken, some_, rfl, all⟩ := takes input known middle front
  obtain ⟨more, -, rfl, allMore⟩ := then_ known middle value rest behind
  refine ⟨taken ++ more, by simp [some_], (List.append_assoc _ _ _).symm, ?_⟩
  rw [List.all_append, all, allMore]
  rfl

theorem isAddressByte_of_ipv4 (byte : UInt8) (four : isIpv4Byte byte = true) :
    isAddressByte byte = true := by
  unfold isIpv4Byte at four
  unfold isAddressByte isAsciiHexdigit
  rcases Bool.or_eq_true_iff.mp four with digit | dot
  · rw [digit]
    rfl
  · rw [dot, Bool.or_true]

theorem readIpv4_takes : Takes isIpv4Byte readIpv4 := by
  have octet : ∀ index, Takes isIpv4Byte (readOctet index) := fun index =>
    readSeparator_takes (readNumber_takes (fun byte digit known => by
      unfold isIpv4Byte
      rw [isAsciiDigit_of_toDigit known]
      rfl) 3 256 false) (by decide) index
  have last : ∀ value : Nat → BitVec 32, Takes isIpv4Byte fun input =>
      readOctet 3 input >>= fun read => some (value read.1, read.2) := by
    intro value input result rest read
    obtain ⟨⟨known, middle⟩, front, behind⟩ := Option.bind_eq_some_iff.mp read
    cases behind
    exact octet 3 input known _ front
  exact (octet 0).bind fun first => (octet 1).bind fun second => (octet 2).bind fun third =>
    last fun fourth => BitVec.ofNat 32 (((first * 256 + second) * 256 + third) * 256 + fourth)

theorem readGroup_takes (index : Nat) :
    Takes isAddressByte (readSeparator colon index (readNumber 16 4 65536 true)) := by
  have hex : ∀ byte digit, toDigit 16 byte = some digit → isAddressByte byte = true := by
    intro byte digit known
    unfold isAddressByte
    rw [isAsciiHexdigit_of_toDigit known]
    rfl
  exact readSeparator_takes (readNumber_takes hex 4 65536 true) (by decide) index

theorem readGroups_takes {left index : Nat} {groups : List Nat} {embedded : Bool}
    (read : readGroups left index input = (groups, embedded, rest)) :
    ∃ taken, input = taken ++ rest ∧ taken.all isAddressByte = true := by
  induction left generalizing index input groups embedded rest with
  | zero =>
    cases read
    exact ⟨[], rfl, rfl⟩
  | succ left inductionHypothesis =>
    rw [readGroups] at read
    split at read
    · rename_i address behind known
      cases read
      split at known
      · cases known
      · obtain ⟨taken, -, same, all⟩ :=
          readSeparator_takes (readIpv4_takes.mono isAddressByte_of_ipv4) (by decide) index
            _ _ _ known
        exact ⟨taken, same, all⟩
    · split at read
      · rename_i group behind known
        obtain ⟨taken, -, rfl, all⟩ := readGroup_takes index _ _ _ known
        rcases more : readGroups left (index + 1) behind with ⟨later, ended, last⟩
        rw [more] at read
        cases read
        obtain ⟨taken', rfl, all'⟩ := inductionHypothesis more
        refine ⟨taken ++ taken', (List.append_assoc _ _ _).symm, ?_⟩
        rw [List.all_append, all, all']
        rfl
      · cases read
        exact ⟨[], rfl, rfl⟩

theorem readIpv6_bytes {value : BitVec 128} (read : readIpv6 input = some (value, rest)) :
    ∃ taken, input = taken ++ rest ∧ taken.all isAddressByte = true := by
  unfold readIpv6 at read
  rcases front : readGroups 8 0 input with ⟨head, embedded, middle⟩
  rw [front] at read
  obtain ⟨taken, rfl, all⟩ := readGroups_takes front
  dsimp only at read
  split at read
  · cases read
    exact ⟨taken, rfl, all⟩
  · split at read
    · cases read
    · split at read
      · rename_i first second behind
        split at read
        · rename_i colons
          rcases back : readGroups (8 - (head.length + 1)) 0 behind with ⟨tail, ended, last⟩
          rw [back] at read
          cases read
          obtain ⟨taken', rfl, all'⟩ := readGroups_takes back
          refine ⟨taken ++ first :: second :: taken', by simp, ?_⟩
          rw [List.all_append, all, List.all_cons, List.all_cons, all', colons.1, colons.2]
          rfl
        · cases read
      · cases read

variable {text : Bytes}

theorem parseWith_bytes {Value : Type} {reader : Reader Value}
    (bytes : ∀ input value rest, reader input = some (value, rest) →
      ∃ taken, input = taken ++ rest ∧ taken.all kind = true) {value : Value}
    (parsed : parseWith reader text = some value) : text.all kind = true := by
  unfold parseWith at parsed
  split at parsed
  · rename_i known whole
    obtain ⟨taken, rfl, all⟩ := bytes text known [] whole
    rw [List.append_nil]
    exact all
  · cases parsed

/-- An IPv4 address is spelled with digits and dots only. -/
theorem parseIpv4_bytes {address : BitVec 32} (parsed : parseIpv4 text = some address) :
    text ≠ [] ∧ text.all isIpv4Byte = true := by
  unfold parseIpv4 at parsed
  split at parsed
  · cases parsed
  · unfold parseWith at parsed
    split at parsed
    · rename_i known whole
      obtain ⟨taken, some_, rfl, all⟩ := readIpv4_takes text known [] whole
      rw [List.append_nil]
      exact ⟨some_, all⟩
    · cases parsed

theorem parseIpv6_bytes {address : BitVec 128} (parsed : parseIpv6 text = some address) :
    text.all isAddressByte = true :=
  parseWith_bytes (fun _ _ _ read => readIpv6_bytes read) parsed

end ZeroServer.Policy

/-
This file models the identities of a listener and the requests their connections serve: the hosts an
identity is loaded with, the table that a client's server name or address picks it from, and the
check of a request's authority against them. A host is served exactly when it denotes a host that
the identity was configured with.
-/

import ZeroServer.Policy.Display

namespace ZeroServer.Tls

open Http1 Policy

/-! ### Hosts -/

def fullStop : UInt8 := 46
def openBracket : UInt8 := 91
def closeBracket : UInt8 := 93

def lowercase (text : Bytes) : Bytes := text.map toAsciiLowercase

def trimStart (mark : UInt8) (text : Bytes) : Bytes := text.dropWhile (· == mark)

def trimEnd (mark : UInt8) (text : Bytes) : Bytes := text.rdropWhile (· == mark)

/-- An address as it is told apart from others: an IPv4 one also where IPv6 stands for it. -/
def toCanonical : IpAddr → IpAddr
  | .v4 address => .v4 address
  | .v6 address =>
    match toIpv4Mapped address with
    | some mapped => .v4 mapped
    | none => .v6 address

/-- An address as the host names hold it. -/
def hostText : IpAddr → Bytes
  | .v4 address => showIpv4 address
  | .v6 address => openBracket :: (showIpv6 address ++ [closeBracket])

/-! ### Identities -/

inductive ServerName where
  | ipAddress (address : IpAddr)
  | dnsName (name : Bytes)

/-- What the TLS library decides: the texts that are DNS names, and the names that the certificate
covers. -/
structure Certificate where
  isDnsName : Bytes → Bool
  covers : ServerName → Bool

structure Identity where
  names : List Bytes
  addresses : List IpAddr

namespace Identity

/-- Check a host and take it in. -/
def check (certificate : Certificate) (identity : Identity) (name : Bytes) : Option Identity :=
  let bare := trimEnd fullStop (lowercase name)
  let literal := trimEnd closeBracket (trimStart openBracket bare)
  match parseIpAddr literal with
  | some address =>
    let address := toCanonical address
    if certificate.covers (.ipAddress address) then
      some ⟨identity.names ++ [hostText address], identity.addresses ++ [address]⟩
    else none
  | none =>
    if certificate.isDnsName bare && certificate.covers (.dnsName bare) then
      some ⟨identity.names ++ [bare], identity.addresses⟩
    else none

/-- The identity of a certificate for some hosts. -/
def fromPem (certificate : Certificate) (names : List Bytes) : Option Identity :=
  names.foldlM (check certificate) ⟨[], []⟩

end Identity

/-- One generation of the table. The entry of a key is the first one. -/
structure Table where
  byName : List (Bytes × Identity)
  byAddress : List (IpAddr × Identity)
  default : Option Identity

/-- Put an identity in under some keys, over what was there. -/
def insertAll {Key : Type} (table : List (Key × Identity)) (keys : List Key) (identity : Identity) :
    List (Key × Identity) :=
  keys.foldl (fun table key => (key, identity) :: table) table

/-- Put an identity in under the keys that are free. -/
def insertMissing {Key : Type} [BEq Key] (table : List (Key × Identity)) (keys : List Key)
    (identity : Identity) : List (Key × Identity) :=
  keys.foldl
    (fun table key => if (table.lookup key).isSome then table else (key, identity) :: table) table

/-- What the table decided for one hello. -/
inductive Choice where
  | serve (identity : Identity)
  | unrecognized
  | missing

namespace Table

def of (identities : List Identity) (default : Option Identity) : Table :=
  let byName := identities.foldl (fun table identity => insertAll table identity.names identity) []
  let byAddress := identities.foldl
    (fun table identity => insertAll table identity.addresses identity) []
  match default with
  | none => ⟨byName, byAddress, none⟩
  | some identity => ⟨insertMissing byName identity.names identity,
      insertMissing byAddress identity.addresses identity, some identity⟩

/-- Decide for one hello, by the server name it carries or the address the client connected to. -/
def choose (table : Table) (serverName : Option Bytes) (local_ : Option IpAddr) : Choice :=
  match serverName with
  | some name =>
    match table.byName.lookup (trimEnd fullStop (lowercase name)) with
    | some identity => .serve identity
    | none => .unrecognized
  | none =>
    match (local_.bind fun address => table.byAddress.lookup (toCanonical address)).or
      table.default with
    | some identity => .serve identity
    | none => .missing

end Table

/-! ### The check of a request -/

namespace Conn

/-- The scheme of an `https` target. -/
def https : Bytes := ascii "https://"

def rposition (mark : UInt8) (bytes : Bytes) : Option Nat :=
  (bytes.reverse.findIdx? (· == mark)).map fun behind => bytes.length - 1 - behind

/-- The host of an authority, without its port and one trailing dot. -/
def hostOf (authority : Bytes) : Bytes :=
  let host :=
    if authority.head? = some openBracket then
      authority.take
        ((authority.findIdx? (· == closeBracket)).elim authority.length fun place => place + 1)
    else
      match rposition colon authority with
      | some place =>
        if (authority.drop (place + 1)).all isAsciiDigit then authority.take place else authority
      | none => authority
  if host.getLast? = some fullStop then host.dropLast else host

/-- What stands between brackets. -/
def unbracket : Bytes → Option Bytes
  | [] => none
  | first :: rest =>
    if first = openBracket ∧ rest.getLast? = some closeBracket then some rest.dropLast else none

/-- A host that is an address, as the host names hold it. -/
def ipLiteral (host : Bytes) : Option Bytes :=
  (match unbracket host with
    | some inner => (parseIpv6 inner).map IpAddr.v6
    | none => (parseIpv4 host).map IpAddr.v4).map fun address => hostText (toCanonical address)

/-- Whether a connection serves the target of a request. -/
def serves (secure : Bool) (authorities : Option (List Bytes)) (bytes : Bytes) (head : Head) :
    Bool :=
  let target := head.target.of bytes
  if head.form = .absolute ∧ secure = false ∧ https.length ≤ target.length ∧
      eqIgnoreAsciiCase (target.take https.length) https = true then false
  else
    match authorities with
    | none => true
    | some names =>
      match head.authority with
      | none => true
      | some authority =>
        let host := hostOf (authority.of bytes)
        match ipLiteral host with
        | some address => names.any fun name => name == address
        | none => names.any fun name => eqIgnoreAsciiCase name host

end Conn

/-! ### What a host denotes -/

/-- A server, however its host is spelled. -/
inductive Server where
  | address (address : IpAddr)
  | name (name : Bytes)

/-- The host names hold one text of a server. -/
def Server.text : Server → Bytes
  | .address held => hostText held
  | .name held => held

/-- A host as a request spells it: an address with dots, one with colons in brackets, or a name in
letters of either case. -/
inductive HostText : Bytes → Server → Prop
  | v4 {host : Bytes} {address : BitVec 32} (spells : Ipv4Text host address) :
    HostText host (.address (.v4 address))
  | v6 {inner : Bytes} {address : BitVec 128} (spells : Ipv6Text inner address) :
    HostText (openBracket :: (inner ++ [closeBracket])) (.address (toCanonical (.v6 address)))
  | name {host : Bytes} (noV4 : ∀ address, ¬Ipv4Text host address)
    (noV6 : ∀ inner address, host = openBracket :: (inner ++ [closeBracket]) →
      ¬Ipv6Text inner address) : HostText host (.name (lowercase host))

/-- What is left of a configured host without the dots and the brackets around it. -/
def literalOf (name : Bytes) : Bytes :=
  trimEnd closeBracket (trimStart openBracket (trimEnd fullStop name))

/-- A host as an identity is configured with it: an address, in brackets or not, or a name. -/
inductive Configured : Bytes → Server → Prop
  | address {name : Bytes} {address : IpAddr} (spells : AddressText (literalOf name) address) :
    Configured name (.address (toCanonical address))
  | name {name : Bytes} (plain : ∀ address, ¬AddressText (literalOf name) address) :
    Configured name (.name (lowercase (trimEnd fullStop name)))

/-- A port behind a host, if any. -/
def PortBehind (text : Bytes) : Prop :=
  text = [] ∨ ∃ digits, text = colon :: digits ∧ digits.all isAsciiDigit = true

/-- An authority with a host, with or without a trailing dot and with or without a port. -/
inductive AuthorityText : Bytes → Bytes → Prop
  | plain {host dots port : Bytes} (noColon : colon ∉ host)
    (noBracket : host.head? ≠ some openBracket) (noDot : host.getLast? ≠ some fullStop)
    (isDots : dots = [] ∨ dots = [fullStop]) (isPort : PortBehind port) :
    AuthorityText (host ++ dots ++ port) host
  | bracketed {inner port : Bytes} (noClose : closeBracket ∉ inner) (isPort : PortBehind port) :
    AuthorityText (openBracket :: (inner ++ [closeBracket]) ++ port)
      (openBracket :: (inner ++ [closeBracket]))

/-! ### Letters of either case -/

variable {mark : UInt8} {text : Bytes} {address : BitVec 128}

variable {inner : Bytes}

theorem lowercase_mark_iff {byte : UInt8} (dark : mark < 65 ∨ 90 < mark ∧ mark < 97 ∨ 122 < mark) :
    (toAsciiLowercase byte == mark) = (byte == mark) := by
  rw [Bool.eq_iff_iff, beq_iff_eq, beq_iff_eq]
  exact lowercase_mark dark

theorem trimStart_lowercase (dark : mark < 65 ∨ 90 < mark ∧ mark < 97 ∨ 122 < mark) (text : Bytes) :
    trimStart mark (lowercase text) = lowercase (trimStart mark text) := by
  unfold trimStart lowercase
  rw [List.dropWhile_map]
  congr 2
  funext byte
  exact lowercase_mark_iff dark

theorem trimEnd_lowercase (dark : mark < 65 ∨ 90 < mark ∧ mark < 97 ∨ 122 < mark) (text : Bytes) :
    trimEnd mark (lowercase text) = lowercase (trimEnd mark text) := by
  have turned := trimStart_lowercase dark text.reverse
  unfold trimStart lowercase at turned
  unfold trimEnd lowercase List.rdropWhile
  rw [← List.map_reverse, turned, List.map_reverse]

theorem lowercase_lowercase (text : Bytes) : lowercase (lowercase text) = lowercase text := by
  have table : ∀ byte, toAsciiLowercase (toAsciiLowercase byte) = toAsciiLowercase byte := by
    intro byte
    have small := byte.toNat_lt
    rw [toAsciiLowercase, if_neg]
    unfold toAsciiLowercase
    split
    · next upper =>
      simp only [UInt8.le_iff_toNat_le, UInt8.toNat_add, UInt8.reduceToNat] at upper ⊢
      omega
    · next other => exact other
  unfold lowercase
  rw [List.map_map]
  exact List.map_congr_left fun byte _ => table byte

theorem literalOf_lowercase (name : Bytes) : literalOf (lowercase name) = lowercase (literalOf name) := by
  unfold literalOf
  rw [trimEnd_lowercase (by decide), trimStart_lowercase (by decide), trimEnd_lowercase (by decide)]

theorem ipv4Text_lowercase {address : BitVec 32} :
    Ipv4Text (lowercase text) address ↔ Ipv4Text text address := by
  rw [← parseIpv4_iff, ← parseIpv4_iff, lowercase, parseIpv4_lowercase]

theorem ipv6Text_lowercase : Ipv6Text (lowercase text) address ↔ Ipv6Text text address := by
  rw [← parseIpv6_iff, ← parseIpv6_iff, lowercase, parseIpv6_lowercase]

theorem lowercase_brackets :
    lowercase text = openBracket :: (inner ++ [closeBracket]) ↔
      ∃ own, text = openBracket :: (own ++ [closeBracket]) ∧ lowercase own = inner := by
  constructor
  · intro same
    obtain ⟨first, rest, rfl, firstSame, restSame⟩ := List.map_eq_cons_iff.mp same
    obtain ⟨own, last, rfl, ownSame, lastSame⟩ := List.map_eq_append_iff.mp restSame
    obtain ⟨close, none_, rfl, closeSame, noneSame⟩ := List.map_eq_cons_iff.mp lastSame
    rw [List.map_eq_nil_iff.mp noneSame, (lowercase_mark (by decide)).mp firstSame,
      (lowercase_mark (by decide)).mp closeSame]
    exact ⟨own, rfl, ownSame⟩
  · rintro ⟨own, rfl, rfl⟩
    show openBracket :: (own ++ [closeBracket]).map toAsciiLowercase = _
    rw [List.map_append]
    rfl

theorem lowercase_hostText (address : IpAddr) : lowercase (hostText address) = hostText address := by
  cases address with
  | v4 address => exact lowercase_showIpv4 address
  | v6 address => exact lowercase_brackets.mpr ⟨_, rfl, lowercase_showIpv6 address⟩

/-! ### Texts of a server -/

variable {host : Bytes} {server : Server}

variable {name : Bytes}

theorem toCanonical_mapped {mapped : BitVec 32} (known : toIpv4Mapped address = some mapped) :
    toCanonical (.v6 address) = .v4 mapped := by
  simp only [toCanonical, known]

theorem toCanonical_own (known : toIpv4Mapped address = none) :
    toCanonical (.v6 address) = .v6 address := by
  simp only [toCanonical, known]

/-- A canonical address is denoted by the text that the host names hold. -/
theorem hostText_denotes (address : IpAddr) :
    HostText (hostText (toCanonical address)) (.address (toCanonical address)) := by
  cases address with
  | v4 address => exact .v4 (ipv4Text_show address)
  | v6 address =>
    rcases known : toIpv4Mapped address with - | mapped
    · have spells := HostText.v6 (ipv6Text_show known)
      rw [toCanonical_own known] at spells ⊢
      exact spells
    · rw [toCanonical_mapped known]
      exact .v4 (ipv4Text_show mapped)

theorem ipv4Text_ne_brackets {address : BitVec 32} :
    ¬Ipv4Text (openBracket :: (inner ++ [closeBracket])) address := fun spells => by
  have all := (parseIpv4_bytes (parseIpv4_iff.mpr spells)).2
  rw [List.all_cons] at all
  exact absurd (Bool.and_eq_true_iff.mp all).1 (by decide)

/-- A text denotes one server. -/
theorem HostText.unique {one two : Server} (first : HostText host one)
    (second : HostText host two) : one = two := by
  cases first with
  | v4 spells =>
    cases second with
    | v4 spells' => rw [Option.some.inj ((parseIpv4_iff.mpr spells).symm.trans
        (parseIpv4_iff.mpr spells'))]
    | v6 spells' => exact absurd spells ipv4Text_ne_brackets
    | name noV4 noV6 => exact absurd spells (noV4 _)
  | v6 spells =>
    generalize whole : openBracket :: (_ ++ [closeBracket]) = host at second
    cases second with
    | v4 spells' =>
      subst whole
      exact absurd spells' ipv4Text_ne_brackets
    | v6 spells' =>
      rw [List.append_cancel_right (List.cons.inj whole).2] at spells
      rw [Option.some.inj ((parseIpv6_iff.mpr spells).symm.trans (parseIpv6_iff.mpr spells'))]
    | name noV4 noV6 => exact absurd spells (noV6 _ _ whole.symm)
  | name noV4 noV6 =>
    cases second with
    | v4 spells' => exact absurd spells' (noV4 _)
    | v6 spells' => exact absurd spells' (noV6 _ _ rfl)
    | name noV4 noV6 => rfl

theorem HostText.lowercase_name (noV4 : ∀ address, ¬Ipv4Text host address)
    (noV6 : ∀ inner address, host = openBracket :: (inner ++ [closeBracket]) →
      ¬Ipv6Text inner address) : HostText (lowercase host) (.name (lowercase host)) := by
  have plain := @HostText.name (lowercase host) (fun address => mt ipv4Text_lowercase.mp (noV4 address))
    fun inner address same => by
      obtain ⟨own, whole, rfl⟩ := lowercase_brackets.mp same
      exact mt ipv6Text_lowercase.mp (noV6 own address whole)
  rwa [lowercase_lowercase] at plain

/-- The text of a server that some host denotes denotes it. -/
theorem HostText.self (denotes : HostText host server) : HostText server.text server := by
  cases denotes with
  | @v4 _ address spells => exact hostText_denotes (.v4 address)
  | @v6 _ address spells => exact hostText_denotes (.v6 address)
  | name noV4 noV6 => exact .lowercase_name noV4 noV6

theorem head_of_ipv6 (spells : Ipv6Text inner address) :
    openBracket ∉ inner ∧ closeBracket ∉ inner := by
  have all := parseIpv6_bytes (parseIpv6_iff.mpr spells)
  exact ⟨fun held => ne_of_all all (by decide) _ held rfl,
    fun held => ne_of_all all (by decide) _ held rfl⟩

theorem trimStart_of_notMem (notMem : mark ∉ text) : trimStart mark text = text :=
  List.dropWhile_eq_self_iff.mpr fun some_ same =>
    notMem (beq_iff_eq.mp same ▸ List.getElem_mem some_)

theorem trimEnd_of_getLast? (last : text.getLast? ≠ some mark) : trimEnd mark text = text :=
  List.rdropWhile_eq_self_iff.mpr fun some_ same =>
    last (by rw [List.getLast?_eq_some_getLast some_, beq_iff_eq.mp same])

theorem trimEnd_concat (mark : UInt8) (text : Bytes) :
    trimEnd mark (text ++ [mark]) = trimEnd mark text :=
  List.rdropWhile_concat_pos _ _ _ (beq_self_eq_true mark)

theorem trimEnd_of_notMem (notMem : mark ∉ text) : trimEnd mark text = text :=
  trimEnd_of_getLast? fun last => notMem (List.mem_of_getLast? last)

/-- What an identity is configured with denotes the server it is configured for. -/
theorem Configured.self (configured : Configured name server) : HostText server.text server := by
  cases configured with
  | address spells => exact hostText_denotes _
  | name plain =>
    refine .lowercase_name (fun address spells => ?_) fun inner address whole spells => ?_
    · have all := parseIpv4_bytes (parseIpv4_iff.mpr spells)
      have same : literalOf name = trimEnd fullStop name := by
        unfold literalOf
        rw [trimStart_of_notMem fun held => ne_of_all all.2 (by decide) _ held rfl,
          trimEnd_of_notMem fun held => ne_of_all all.2 (by decide) _ held rfl]
      exact plain (.v4 address) (same ▸ .v4 spells)
    · have same : literalOf name = inner := by
        unfold literalOf
        rw [whole]
        have opened : trimStart openBracket (openBracket :: (inner ++ [closeBracket])) =
            inner ++ [closeBracket] := by
          unfold trimStart
          rw [List.dropWhile_cons_of_pos (by exact beq_self_eq_true _)]
          refine trimStart_of_notMem fun held => ?_
          rcases List.mem_append.mp held with held | held
          · exact (head_of_ipv6 spells).1 held
          · exact absurd (List.mem_singleton.mp held) (by decide)
        rw [opened, trimEnd_concat, trimEnd_of_notMem (head_of_ipv6 spells).2]
      exact plain (.v6 address) (same ▸ .v6 spells)

/-- Servers of one text are one server. -/
theorem server_eq {one two : Server} (first : HostText one.text one)
    (second : HostText two.text two) : one.text = two.text ↔ one = two := by
  constructor
  · intro same
    rw [same] at first
    exact first.unique second
  · rintro rfl
    rfl

/-! ### What the code makes of a host -/

variable {identity : Identity}

variable {names : List Bytes}

/-- What a host is compared by. -/
def hostKey (host : Bytes) : Bytes := (Conn.ipLiteral host).getD (lowercase host)

theorem unbracket_cons (first : UInt8) (rest : Bytes) : Conn.unbracket (first :: rest) =
    if first = openBracket ∧ rest.getLast? = some closeBracket then some rest.dropLast else none :=
  rfl

theorem unbracket_iff :
    Conn.unbracket text = some inner ↔ text = openBracket :: (inner ++ [closeBracket]) := by
  constructor
  · intro known
    obtain _ | ⟨first, rest⟩ := text
    · cases known
    · rw [unbracket_cons] at known
      split at known
      · next marks =>
        cases known
        rw [marks.1, List.dropLast_append_getLast? _ marks.2]
      · cases known
  · rintro rfl
    rw [unbracket_cons, if_pos ⟨rfl, List.getLast?_concat⟩, List.dropLast_concat]

/-- A host is compared by the text of the server it denotes. -/
theorem hostKey_eq (denotes : HostText host server) : hostKey host = server.text := by
  unfold hostKey Conn.ipLiteral
  cases denotes with
  | @v4 _ address spells =>
    rcases known : Conn.unbracket host with - | inner
    · dsimp only
      rw [parseIpv4_iff.mpr spells]
      rfl
    · rw [unbracket_iff.mp known] at spells
      exact absurd spells ipv4Text_ne_brackets
  | v6 spells =>
    rw [unbracket_iff.mpr rfl]
    dsimp only
    rw [parseIpv6_iff.mpr spells]
    rfl
  | name noV4 noV6 =>
    rcases known : Conn.unbracket host with - | inner
    · dsimp only
      rw [Option.eq_none_iff_forall_ne_some.mpr fun address parsed =>
        noV4 address (parseIpv4_iff.mp parsed)]
      rfl
    · dsimp only
      rw [Option.eq_none_iff_forall_ne_some.mpr fun address parsed =>
        noV6 inner address (unbracket_iff.mp known) (parseIpv6_iff.mp parsed)]
      rfl

theorem hostKey_lowercase (host : Bytes) : hostKey (lowercase host) = hostKey host := by
  have bracketed : Conn.unbracket (lowercase host) = (Conn.unbracket host).map lowercase := by
    rcases known : Conn.unbracket host with - | inner
    · refine Option.eq_none_iff_forall_ne_some.mpr fun inner found => ?_
      obtain ⟨own, whole, -⟩ := lowercase_brackets.mp (unbracket_iff.mp found)
      rw [unbracket_iff.mpr whole] at known
      cases known
    · exact unbracket_iff.mpr (lowercase_brackets.mpr ⟨inner, unbracket_iff.mp known, rfl⟩)
  unfold hostKey Conn.ipLiteral
  rw [bracketed, lowercase_lowercase]
  rcases Conn.unbracket host with - | inner
  · dsimp only [Option.map_none]
    rw [lowercase, parseIpv4_lowercase]
  · dsimp only [Option.map_some]
    rw [lowercase, parseIpv6_lowercase]

/-- The host name that a configured host is held as. -/
def storedName (name : Bytes) : Bytes :=
  match parseIpAddr (literalOf (lowercase name)) with
  | some address => hostText (toCanonical address)
  | none => trimEnd fullStop (lowercase name)

theorem configured_stored (name : Bytes) :
    ∃ server, Configured name server ∧ storedName name = server.text := by
  unfold storedName
  rw [literalOf_lowercase, lowercase, parseIpAddr_lowercase]
  rcases known : parseIpAddr (literalOf name) with - | address
  · refine ⟨_, .name fun address spells => ?_, trimEnd_lowercase (by decide) name⟩
    rw [parseIpAddr_iff.mpr spells] at known
    cases known
  · exact ⟨_, .address (parseIpAddr_iff.mp known), rfl⟩

theorem Configured.unique {one two : Server} (first : Configured name one)
    (second : Configured name two) : one = two := by
  cases first with
  | address spells =>
    cases second with
    | address spells' => rw [Option.some.inj ((parseIpAddr_iff.mpr spells).symm.trans
        (parseIpAddr_iff.mpr spells'))]
    | name plain => exact absurd spells (plain _)
  | name plain =>
    cases second with
    | address spells => exact absurd spells (plain _)
    | name plain => rfl

/-- A configured host is held as the text of a server exactly when it is configured for it. -/
theorem storedName_eq_iff {name : Bytes} {server : Server} (self : HostText server.text server) :
    storedName name = server.text ↔ Configured name server := by
  obtain ⟨own, configured, same⟩ := configured_stored name
  rw [same, server_eq configured.self self]
  constructor
  · rintro rfl
    exact configured
  · exact configured.unique

theorem lowercase_storedName (name : Bytes) : lowercase (storedName name) = storedName name := by
  obtain ⟨server, configured, same⟩ := configured_stored name
  rw [same]
  cases configured with
  | address spells => exact lowercase_hostText _
  | name plain => exact lowercase_lowercase _

theorem hostKey_storedName (name : Bytes) : hostKey (storedName name) = storedName name := by
  obtain ⟨server, configured, same⟩ := configured_stored name
  rw [same]
  exact hostKey_eq configured.self

theorem fromPem_names {certificate : Certificate}
    (loaded : Identity.fromPem certificate names = some identity) :
    identity.names = names.map storedName := by
  have run : ∀ (names : List Bytes) (start : Identity),
      names.foldlM (Identity.check certificate) start = some identity →
        identity.names = start.names ++ names.map storedName := by
    intro names
    induction names with
    | nil =>
      intro start same
      cases same
      exact (List.append_nil _).symm
    | cons name names inductionHypothesis =>
      intro start ran
      obtain ⟨next, checked, rest⟩ := Option.bind_eq_some_iff.mp ran
      have taken : next.names = start.names ++ [storedName name] := by
        unfold Identity.check at checked
        unfold storedName literalOf
        dsimp only at checked
        split at checked
        · next address parsed =>
          split at checked
          · cases checked
            rfl
          · cases checked
        · next parsed =>
          split at checked
          · cases checked
            rfl
          · cases checked
      rw [inductionHypothesis next rest, taken, List.map_cons, List.append_assoc]
      rfl
  exact run names ⟨[], []⟩ loaded

/-! ### The host of an authority -/

variable {bytes authority : Bytes}

theorem findIdx?_of_notMem (notMem : mark ∉ bytes) : bytes.findIdx? (· == mark) = none :=
  List.findIdx?_eq_none_iff.mpr fun byte member => beq_eq_false_iff_ne.mpr fun same =>
    notMem (by rwa [same] at member)

theorem rposition_of_notMem (notMem : mark ∉ bytes) : Conn.rposition mark bytes = none := by
  unfold Conn.rposition
  rw [findIdx?_of_notMem (mt List.mem_reverse.mp notMem)]
  rfl

theorem rposition_split {front behind : Bytes} (notMem : mark ∉ behind) :
    Conn.rposition mark (front ++ mark :: behind) = some front.length := by
  unfold Conn.rposition
  rw [List.reverse_append, List.reverse_cons, List.append_assoc, List.findIdx?_append,
    findIdx?_of_notMem (mt List.mem_reverse.mp notMem), List.singleton_append,
    List.findIdx?_cons, if_pos (beq_self_eq_true mark), List.length_reverse, List.length_append,
    List.length_cons]
  show some _ = _
  congr 1
  dsimp only
  omega

theorem strip_dots {dots : Bytes} (noDot : host.getLast? ≠ some fullStop)
    (isDots : dots = [] ∨ dots = [fullStop]) :
    (if (host ++ dots).getLast? = some fullStop then (host ++ dots).dropLast else host ++ dots) =
      host := by
  rcases isDots with rfl | rfl
  · rw [List.append_nil, if_neg noDot]
  · rw [if_pos List.getLast?_concat, List.dropLast_concat]

/-- The host of an authority is found. -/
theorem hostOf_authority (text : AuthorityText authority host) : Conn.hostOf authority = host := by
  unfold Conn.hostOf
  cases text with
  | @plain host dots port noColon noBracket noDot isDots isPort =>
    have unopened : (host ++ dots ++ port).head? ≠ some openBracket := by
      obtain _ | ⟨first, host⟩ := host
      · rcases isDots with rfl | rfl
        · rcases isPort with rfl | ⟨digits, rfl, -⟩
          · exact nofun
          · exact fun same => absurd (Option.some.inj same) (by decide)
        · exact fun same => absurd (Option.some.inj same) (by decide)
      · exact noBracket
    have dotted : colon ∉ host ++ dots := by
      rw [List.mem_append]
      rintro (held | held)
      · exact noColon held
      · rcases isDots with rfl | rfl
        · cases held
        · exact absurd (List.mem_singleton.mp held) (by decide)
    rw [if_neg unopened]
    rcases isPort with rfl | ⟨digits, rfl, all⟩
    · rw [List.append_nil, rposition_of_notMem dotted]
      exact strip_dots noDot isDots
    · rw [rposition_split fun held => by
        have digit := List.all_eq_true.mp all colon held
        exact absurd digit (by decide)]
      dsimp only
      rw [← List.drop_drop, List.drop_left, List.drop_one, List.tail_cons, if_pos all,
        List.take_left]
      exact strip_dots noDot isDots
  | @bracketed inner port noClose isPort =>
    have place : (openBracket :: (inner ++ [closeBracket]) ++ port).findIdx? (· == closeBracket) =
        some (inner.length + 1) := by
      rw [List.cons_append, List.findIdx?_cons, if_neg (by decide), List.append_assoc,
        List.findIdx?_append, findIdx?_of_notMem noClose, List.singleton_append,
        List.findIdx?_cons, if_pos (beq_self_eq_true _)]
      show some (0 + inner.length + 1) = _
      rw [Nat.zero_add]
    have opened : (openBracket :: (inner ++ [closeBracket]) ++ port).head? = some openBracket := rfl
    rw [if_pos opened, place]
    have whole : (openBracket :: (inner ++ [closeBracket])).length = inner.length + 1 + 1 := by
      rw [List.length_cons, List.length_append]
      rfl
    dsimp only [Option.elim]
    rw [← whole, List.take_left]
    refine if_neg fun last => ?_
    rw [← List.cons_append, List.getLast?_concat] at last
    exact absurd (Option.some.inj last) (by decide)

theorem AuthorityText.noDot (text : AuthorityText authority host) :
    host.getLast? ≠ some fullStop := by
  cases text with
  | plain noColon noBracket noDot isDots isPort => exact noDot
  | bracketed noClose isPort =>
    intro last
    rw [← List.cons_append, List.getLast?_concat] at last
    exact absurd (Option.some.inj last) (by decide)

/-! ### The table -/

theorem mem_insertAll {Key : Type} {table : List (Key × Identity)} {keys : List Key}
    {entry : Key × Identity} :
    entry ∈ insertAll table keys identity ↔
      entry ∈ table ∨ entry.1 ∈ keys ∧ entry.2 = identity := by
  unfold insertAll
  induction keys generalizing table with
  | nil => simp
  | cons key keys inductionHypothesis =>
    rw [List.foldl_cons, inductionHypothesis, List.mem_cons, List.mem_cons, Prod.ext_iff]
    tauto

variable {identities : List Identity}

section Keys

variable {Key : Type} (keysOf : Identity → List Key)

theorem mem_inserted {entry : Key × Identity} :
    entry ∈ identities.foldl (fun table identity => insertAll table (keysOf identity) identity) [] ↔
      entry.2 ∈ identities ∧ entry.1 ∈ keysOf entry.2 := by
  have run : ∀ table : List (Key × Identity), entry ∈ identities.foldl
          (fun table identity => insertAll table (keysOf identity) identity) table ↔
        entry ∈ table ∨ entry.2 ∈ identities ∧ entry.1 ∈ keysOf entry.2 := by
    induction identities with
    | nil => simp
    | cons identity identities inductionHypothesis =>
      intro table
      rw [List.foldl_cons, inductionHypothesis, mem_insertAll, List.mem_cons]
      constructor
      · rintro ((held | ⟨member, same⟩) | ⟨member, named⟩)
        · exact .inl held
        · exact .inr ⟨.inl same, same ▸ member⟩
        · exact .inr ⟨.inr member, named⟩
      · rintro (held | ⟨same | member, named⟩)
        · exact .inl (.inl held)
        · exact .inl (.inr ⟨same ▸ named, same⟩)
        · exact .inr ⟨member, named⟩
  rw [run, or_iff_right List.not_mem_nil]

variable [BEq Key] [LawfulBEq Key]

variable {table : List (Key × Identity)}

theorem mem_of_lookup {key : Key} (found : table.lookup key = some identity) :
    (key, identity) ∈ table := by
  obtain ⟨front, behind, rfl, -⟩ := List.lookup_eq_some_iff.mp found
  exact List.mem_append_right _ List.mem_cons_self

theorem lookup_isSome {key : Key} :
    (table.lookup key).isSome = true ↔ ∃ identity, (key, identity) ∈ table := by
  constructor
  · intro some_
    obtain ⟨identity, found⟩ := Option.isSome_iff_exists.mp some_
    exact ⟨identity, mem_of_lookup found⟩
  · rintro ⟨identity, member⟩
    by_contra none_
    have apart := List.lookup_eq_none_iff.mp (Option.not_isSome_iff_eq_none.mp none_) _ member
    exact absurd rfl (bne_iff_ne.mp apart)

/-- The entries that join a table, and the keys that are in it then. -/
theorem insertMissing_spec (table : List (Key × Identity)) (keys : List Key) (identity : Identity) :
    (∀ entry ∈ insertMissing table keys identity,
      entry ∈ table ∨ entry.1 ∈ keys ∧ entry.2 = identity) ∧
      ∀ key, (∃ one, (key, one) ∈ insertMissing table keys identity) ↔
        (∃ one, (key, one) ∈ table) ∨ key ∈ keys := by
  unfold insertMissing
  induction keys generalizing table with
  | nil => exact ⟨fun entry member => .inl member, fun key => by simp⟩
  | cons key keys inductionHypothesis =>
    rw [List.foldl_cons]
    by_cases taken : (table.lookup key).isSome = true
    · rw [if_pos taken]
      obtain ⟨entries, held⟩ := inductionHypothesis table
      refine ⟨fun entry member => (entries entry member).imp_right fun both =>
        ⟨List.mem_cons_of_mem _ both.1, both.2⟩, fun other => ?_⟩
      rw [held, List.mem_cons]
      constructor
      · exact Or.imp_right .inr
      · rintro (here | rfl | later)
        · exact .inl here
        · exact .inl (lookup_isSome.mp taken)
        · exact .inr later
    · rw [if_neg taken]
      obtain ⟨entries, held⟩ := inductionHypothesis ((key, identity) :: table)
      refine ⟨fun entry member => ?_, fun other => ?_⟩
      · rcases entries entry member with here | ⟨later, same⟩
        · rcases List.mem_cons.mp here with rfl | here
          · exact .inr ⟨List.mem_cons_self, rfl⟩
          · exact .inl here
        · exact .inr ⟨List.mem_cons_of_mem _ later, same⟩
      · rw [held]
        simp only [List.mem_cons, Prod.mk.injEq, exists_or, exists_and_left, exists_eq, and_true]
        tauto

/-- What is found in a table of identities, and when nothing is. -/
theorem inserted_spec (identities : List Identity) (default : Option Identity) :
    let base := identities.foldl (fun table identity => insertAll table (keysOf identity) identity) []
    let table := default.elim base fun identity => insertMissing base (keysOf identity) identity
    (∀ key identity, table.lookup key = some identity →
      identity ∈ identities ++ default.toList ∧ key ∈ keysOf identity) ∧
      ∀ key, table.lookup key = none ↔
        ∀ identity ∈ identities ++ default.toList, key ∉ keysOf identity := by
  intro base table
  have entries : (∀ entry ∈ table, entry.2 ∈ identities ++ default.toList ∧
      entry.1 ∈ keysOf entry.2) ∧
      ∀ key, (∃ one, (key, one) ∈ table) ↔
        ∃ identity ∈ identities ++ default.toList, key ∈ keysOf identity := by
    cases default with
    | none =>
      rw [Option.toList_none, List.append_nil]
      exact ⟨fun entry member => (mem_inserted keysOf).mp member,
        fun key => exists_congr fun one => mem_inserted keysOf⟩
    | some default =>
      obtain ⟨members, keys⟩ := insertMissing_spec base (keysOf default) default
      rw [Option.toList_some]
      refine ⟨fun entry member => ?_, fun key => (keys key).trans ?_⟩
      · rcases members entry member with held | ⟨named, same⟩
        · obtain ⟨listed, named⟩ := (mem_inserted keysOf).mp held
          exact ⟨List.mem_append_left _ listed, named⟩
        · exact ⟨List.mem_append_right _ (List.mem_singleton.mpr same), same ▸ named⟩
      · simp only [base, mem_inserted keysOf, List.mem_append, List.mem_singleton, or_and_right,
          exists_or, exists_eq_left]
  refine ⟨fun key identity found => entries.1 _ (mem_of_lookup found), fun key => ?_⟩
  rw [← Option.not_isSome_iff_eq_none, lookup_isSome, entries.2]
  exact ⟨fun none_ identity member named => none_ ⟨identity, member, named⟩,
    fun none_ ⟨identity, member, named⟩ => none_ identity member named⟩

end Keys

theorem byName_spec (identities : List Identity) (default : Option Identity) :
    (∀ key identity, (Table.of identities default).byName.lookup key = some identity →
      identity ∈ identities ++ default.toList ∧ key ∈ identity.names) ∧
      ∀ key, (Table.of identities default).byName.lookup key = none ↔
        ∀ identity ∈ identities ++ default.toList, key ∉ identity.names := by
  have spec := inserted_spec Identity.names identities default
  cases default <;> exact spec

variable {local_ : Option IpAddr}

/-- The identity a client is answered with is a listed one or the default one. -/
theorem chosen_listed {default : Option Identity} {serverName : Option Bytes}
    (chosen : (Table.of identities default).choose serverName local_ = .serve identity) :
    identity ∈ identities ++ default.toList := by
  unfold Table.choose at chosen
  cases serverName with
  | some name =>
    dsimp only at chosen
    split at chosen
    · next found =>
      cases chosen
      exact ((byName_spec identities default).1 _ identity found).1
    · cases chosen
  | none =>
    dsimp only at chosen
    split at chosen
    · next found =>
      cases chosen
      rcases Option.or_eq_some_iff.mp found with held | ⟨-, held⟩
      · obtain ⟨address, -, held⟩ := Option.bind_eq_some_iff.mp held
        have spec := inserted_spec Identity.addresses identities default
        cases default <;> exact (spec.1 _ identity held).1
      · cases default with
        | none => cases held
        | some fallback =>
          cases held
          exact List.mem_append_right _ (List.mem_singleton_self _)
    · cases chosen

/-! ### What is served -/

variable {given : List Bytes} {head : Head}

/-- An identity was loaded for some hosts. -/
def Loaded (identity : Identity) (names : List Bytes) : Prop :=
  ∃ certificate, Identity.fromPem certificate names = some identity

/-- A request carries an authority. -/
def Carries (bytes : Bytes) (head : Head) (authority : Bytes) : Prop :=
  head.authority.map (fun span => span.of bytes) = some authority

theorem serves_iff_key (stored : names = given.map storedName)
    (carries : Carries bytes head authority) (text : AuthorityText authority host) :
    Conn.serves true (some names) bytes head = true ↔ hostKey host ∈ names := by
  obtain ⟨span, held, rfl⟩ := Option.map_eq_some_iff.mp carries
  unfold Conn.serves hostKey
  dsimp only
  rw [if_neg fun https => absurd https.2.1 (by decide), held]
  dsimp only
  rw [hostOf_authority text]
  rcases Conn.ipLiteral host with - | address
  · dsimp only [Option.getD_none]
    rw [List.any_eq_true]
    have same : ∀ name ∈ names, eqIgnoreAsciiCase name host = true ↔ name = lowercase host := by
      intro name member
      obtain ⟨own, -, rfl⟩ := List.mem_map.mp (stored ▸ member)
      unfold eqIgnoreAsciiCase
      rw [beq_iff_eq]
      change lowercase (storedName own) = _ ↔ _
      rw [lowercase_storedName]
      rfl
    constructor
    · rintro ⟨name, member, equal⟩
      exact (same name member).mp equal ▸ member
    · exact fun member => ⟨_, member, (same _ member).mpr rfl⟩
  · dsimp only [Option.getD_some]
    rw [List.any_eq_true]
    constructor
    · rintro ⟨name, member, equal⟩
      exact beq_iff_eq.mp equal ▸ member
    · exact fun member => ⟨_, member, beq_self_eq_true _⟩

/-- A connection serves the hosts that denote what its identity was configured with. -/
theorem serves_iff (loaded : Loaded identity given) (carries : Carries bytes head authority)
    (text : AuthorityText authority host) (denotes : HostText host server) :
    Conn.serves true (some identity.names) bytes head = true ↔
      ∃ name ∈ given, Configured name server := by
  obtain ⟨certificate, loaded⟩ := loaded
  rw [serves_iff_key (fromPem_names loaded) carries text, hostKey_eq denotes, fromPem_names loaded,
    List.mem_map]
  exact exists_congr fun name => and_congr_right fun _ => storedName_eq_iff denotes.self

theorem trimmed_serverName {serverName : Bytes} (noDot : host.getLast? ≠ some fullStop)
    (named : serverName = host ∨ serverName = host ++ [fullStop]) :
    trimEnd fullStop (lowercase serverName) = lowercase host := by
  rw [trimEnd_lowercase (by decide)]
  rcases named with rfl | rfl
  · rw [trimEnd_of_getLast? noDot]
  · rw [trimEnd_concat, trimEnd_of_getLast? noDot]

theorem choose_name {table : Table} (chosen : table.choose (some name) local_ = .serve identity) :
    table.byName.lookup (trimEnd fullStop (lowercase name)) = some identity := by
  unfold Table.choose at chosen
  dsimp only at chosen
  split at chosen
  · next found =>
    cases chosen
    exact found
  · cases chosen

/-- A host that is held is compared by its small letters. -/
theorem hostKey_of_held (held : lowercase host ∈ given.map storedName) :
    hostKey host = lowercase host := by
  obtain ⟨name, -, same⟩ := List.mem_map.mp held
  rw [← hostKey_lowercase, ← same, hostKey_storedName]

/-- **A connection serves the hosts of its identity.** The identity a client is answered with is one
of the listed ones or the default one; a request on its connection is served exactly when its host
denotes a host that identity was configured with, whatever its spelling; the server name the client
was recognised by is served; a name is recognised exactly when some identity is configured with it;
and in the clear no `https` target is served. -/
theorem connections_serve_identities :
    (∀ (identities : List Identity) (default : Option Identity),
      (∀ identity ∈ identities ++ default.toList, ∃ given, Loaded identity given) →
      (∀ serverName local_ identity,
        (Table.of identities default).choose serverName local_ = .serve identity →
        (∃ given, Loaded identity given) ∧ ∀ given, Loaded identity given →
          ∀ bytes head authority host server, Carries bytes head authority →
            AuthorityText authority host → HostText host server →
            (Conn.serves true (some identity.names) bytes head = true ↔
              ∃ name ∈ given, Configured name server)) ∧
      (∀ serverName local_ identity,
        (Table.of identities default).choose (some serverName) local_ = .serve identity →
        ∀ bytes head authority host, Carries bytes head authority → AuthorityText authority host →
          serverName = host ∨ serverName = host ++ [fullStop] →
          Conn.serves true (some identity.names) bytes head = true) ∧
      ∀ serverName host name local_, serverName = host ∨ serverName = host ++ [fullStop] →
        host.getLast? ≠ some fullStop → HostText host (.name name) →
        ((Table.of identities default).choose (some serverName) local_ = .unrecognized ↔
          ∀ identity ∈ identities ++ default.toList, ∀ given, Loaded identity given →
            ∀ own ∈ given, ¬Configured own (.name name))) ∧
    ∀ authorities bytes (head : Head), head.form = .absolute →
      Conn.https.length ≤ (head.target.of bytes).length →
      eqIgnoreAsciiCase ((head.target.of bytes).take Conn.https.length) Conn.https = true →
      Conn.serves false authorities bytes head = false := by
  refine ⟨fun identities default loaded => ?_, fun authorities bytes head form long https => ?_⟩
  · obtain ⟨found, missed⟩ := byName_spec identities default
    refine ⟨fun serverName local_ identity chosen => ⟨loaded identity (chosen_listed chosen),
      fun given own bytes head authority host server carries text denotes =>
        serves_iff own carries text denotes⟩, ?_, ?_⟩
    · intro serverName local_ identity chosen bytes head authority host carries text named
      obtain ⟨member, key⟩ := found _ identity (choose_name chosen)
      obtain ⟨given, certificate, own⟩ := loaded identity member
      rw [trimmed_serverName text.noDot named, fromPem_names own] at key
      rw [serves_iff_key (fromPem_names own) carries text, fromPem_names own, hostKey_of_held key]
      exact key
    · intro serverName host name local_ named noDot denotes
      have key : trimEnd fullStop (lowercase serverName) = name := by
        rw [trimmed_serverName noDot named]
        cases denotes with
        | name noV4 noV6 => rfl
      have unrecognized : (Table.of identities default).choose (some serverName) local_ =
          .unrecognized ↔ (Table.of identities default).byName.lookup name = none := by
        unfold Table.choose
        dsimp only
        rw [key]
        rcases (Table.of identities default).byName.lookup name with - | identity
        · exact iff_of_true rfl rfl
        · exact iff_of_false nofun nofun
      rw [unrecognized, missed]
      refine forall₂_congr fun identity member => ?_
      constructor
      · rintro absent given ⟨certificate, own⟩ configured held same
        refine absent ?_
        rw [fromPem_names own]
        exact List.mem_map.mpr ⟨configured, held, (storedName_eq_iff denotes.self).mpr same⟩
      · intro none_ held
        obtain ⟨given, certificate, own⟩ := loaded identity member
        rw [fromPem_names own] at held
        obtain ⟨configured, given_, same⟩ := List.mem_map.mp held
        exact none_ given ⟨certificate, own⟩ configured given_
          ((@storedName_eq_iff _ (.name name) denotes.self).mp same)
  · unfold Conn.serves
    dsimp only
    rw [if_pos ⟨form, rfl, long, https⟩]

end ZeroServer.Tls

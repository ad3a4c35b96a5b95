/-
This file models the rules by which responses are shared with other origins: the origins a rule
allows, exactly or by a domain they end with, and what a rule decides for a request. Sharing never
widens: a response is shared with the origins the rule means and with no others, whatever bytes the
entries of the rule and the fields of the request hold.
-/

import ZeroServer.Cors.Origin
import ZeroServer.Policy.Fields

namespace ZeroServer.Cors

open Http1 Lib

/-! ### Entries -/

/-- Whether a suffix entry such as `.example.com` allows a serialized origin. -/
def suffixAllows (entry origin : Bytes) : Bool :=
  if !(entry.head? = some dot && isSuffixDomain entry.tail) then false
  else
    let host := ((origin.findIdx? (· == colon)).map fun place => origin.drop (place + 3)).getD []
    !host.contains colon && host.length > entry.length && entry.isSuffixOf host

/-- Which origins a rule allows. -/
inductive AllowOrigin where
  | any
  | list (entries : List Bytes)
  deriving DecidableEq

/-- Whether an entry can allow an origin. -/
def AllowOrigin.isValidEntry (entry : Bytes) : Bool :=
  if entry.head? = some dot then isSuffixDomain entry.tail else isSerializedOrigin entry

/-! ### Rules -/

/-- Which origins may share responses, and what they may then ask and read. -/
structure Rule where
  allowOrigin : AllowOrigin := .any
  credentials : Bool := false
  allowMethods : List Bytes := [ascii "GET", ascii "HEAD", ascii "POST"]
  allowHeaders : List Bytes := []
  exposeHeaders : List Bytes := []
  maxAge : Option UInt32 := none
  deriving DecidableEq

/-- A field line a rule adds to a response. -/
abbrev Field := Bytes × Bytes

inductive Decision where
  | notCors
  | refused (preflight : Bool)
  | preflight (fields : List Field)
  | allowed (fields : List Field)
  deriving DecidableEq

/-- The fields a decision adds to the response. -/
def Decision.fields : Decision → List Field
  | .notCors | .refused _ => []
  | .preflight fields | .allowed fields => fields

def allowOriginName : Bytes := ascii "Access-Control-Allow-Origin"
def allowCredentialsName : Bytes := ascii "Access-Control-Allow-Credentials"
def exposeHeadersName : Bytes := ascii "Access-Control-Expose-Headers"
def allowMethodsName : Bytes := ascii "Access-Control-Allow-Methods"
def allowHeadersName : Bytes := ascii "Access-Control-Allow-Headers"
def maxAgeName : Bytes := ascii "Access-Control-Max-Age"
def varyName : Bytes := ascii "Vary"
def star : Bytes := ascii "*"

/-- The items of a list behind one another, with a comma between them. -/
def join (list : List Bytes) : Bytes :=
  list.foldl (fun out item => (if out = [] then out else out ++ ascii ", ") ++ item) []

namespace Rule

def allows (rule : Rule) (origin : Bytes) : Bool :=
  if !isSerializedOrigin origin then false
  else
    match rule.allowOrigin with
    | .any => true
    | .list entries => entries.any fun allowed =>
      if allowed.head? = some dot then suffixAllows allowed origin else allowed == origin

/-- Whether `*` may stand for the methods or the headers of a rule. -/
def wildcardAllowed (rule : Rule) : Bool := !rule.credentials

/-- The value that shares a response, and whether it varies by the origin. -/
def allowOriginValue (rule : Rule) (origin : Bytes) : Bytes × Bool :=
  match rule.allowOrigin, rule.credentials with
  | .any, false => (star, false)
  | _, _ => (origin, true)

/-- The fields of every response shared with an origin. -/
def sharedFields (rule : Rule) (origin : Bytes) : List Field :=
  let (allowOrigin, varies) := rule.allowOriginValue origin
  [(allowOriginName, allowOrigin)] ++
    (if rule.credentials then [(allowCredentialsName, ascii "true")] else []) ++
    (if varies then [(varyName, ascii "Origin")] else [])

/-- The field of the headers a client may read. -/
def exposedFields (rule : Rule) : List Field :=
  let exposed := rule.exposeHeaders.filter fun name => name ≠ star ∨ rule.wildcardAllowed
  if rule.exposeHeaders ≠ [] ∧ exposed ≠ [] then [(exposeHeadersName, join exposed)] else []

def anyMethod (rule : Rule) : Bool :=
  rule.wildcardAllowed && rule.allowMethods.any fun method => method = star

def anyHeader (rule : Rule) : Bool :=
  rule.wildcardAllowed && rule.allowHeaders.any fun header => header = star

/-- The fields of the answer to a preflight. -/
def preflightFields (rule : Rule) : List Field :=
  [(allowMethodsName, if rule.anyMethod then star else join rule.allowMethods)] ++
    (if rule.anyHeader then [(allowHeadersName, star)]
      else if rule.allowHeaders ≠ [] then [(allowHeadersName, join rule.allowHeaders)] else []) ++
    (match rule.maxAge with
      | some seconds => [(maxAgeName, decimal seconds.toNat)]
      | none => [])

/-- Decide a request by its method, its origin and what a preflight asks. -/
def decide (rule : Rule) (method : Option Method)
    (origin requestMethod requestHeaders : Option Bytes) : Decision :=
  match origin with
  | none => .notCors
  | some origin =>
    let preflight := method = some .options && requestMethod.isSome
    if !rule.allows origin then .refused preflight
    else if !preflight then .allowed (rule.sharedFields origin ++ rule.exposedFields)
    else
      let askedMethod := requestMethod.getD []
      let askedHeaders := ((requestHeaders.map listElements).toList).flatten
      if !(rule.anyMethod || rule.allowMethods.any fun allowed => allowed = askedMethod) then
        .refused true
      else if !(rule.anyHeader || askedHeaders.all fun asked =>
          rule.allowHeaders.any fun allowed => eqIgnoreAsciiCase allowed asked) then
        .refused true
      else .preflight (rule.sharedFields origin ++ rule.preflightFields)

end Rule

/-! ### What a rule means -/

/-- A label that the host parser of URLs reads as a number. -/
inductive IsNumber : Bytes → Prop
  | decimal {digits : Bytes} (some_ : digits ≠ [])
    (each : ∀ byte ∈ digits, isAsciiDigit byte = true) : IsNumber digits
  | hexadecimal {digits : Bytes} (each : ∀ byte ∈ digits, isAsciiHexdigit byte = true) :
    IsNumber (ascii "0x" ++ digits)

/-- A text and the last of its parts between dots. -/
def LastLabel (text label : Bytes) : Prop :=
  dot ∉ label ∧ (text = label ∨ ∃ front, text = front ++ dot :: label)

/-- A domain whose last label is a number. -/
def EndsInNumber (domain : Bytes) : Prop := ∃ label, LastLabel domain label ∧ IsNumber label

/-- A host below a domain, by one label at least. -/
def Below (host domain : Bytes) : Prop := ∃ front, IsDomain front ∧ host = front ++ dot :: domain

/-- An entry that allows an origin: the origin itself, or a domain that the origin's host stands
below. -/
inductive EntryAllows : Bytes → Bytes → Prop
  | exact {origin scheme host : Bytes} {port : Option Bytes}
    (isOrigin : IsOrigin origin scheme host port) : EntryAllows origin origin
  | below {domain origin scheme host : Bytes} (isOrigin : IsOrigin origin scheme host none)
    (hostIs : IsDomain host) (domainIs : IsDomain domain) (named : ¬EndsInNumber domain)
    (below : Below host domain) : EntryAllows (dot :: domain) origin

/-- The origins that may share responses. -/
def AllowOrigin.Allows : AllowOrigin → Bytes → Prop
  | .any, origin => ∃ scheme host port, IsOrigin origin scheme host port
  | .list entries, origin => ∃ entry ∈ entries, EntryAllows entry origin

/-! ### Numbers at the end of a domain -/

variable {domain : Bytes}

theorem LastLabel.splitOn {text label : Bytes} (isLast : LastLabel text label) :
    (text.splitOn dot).getLast? = some label := by
  obtain ⟨plain, rfl | ⟨front, rfl⟩⟩ := isLast
  · rw [List.splitOn_eq_singleton plain]
    rfl
  · rw [List.splitOn_append_cons_self, List.splitOn_eq_singleton plain, List.getLast?_concat]

/-- A domain has a last label. -/
theorem IsDomain.lastLabel (isDomain : IsDomain domain) :
    ∃ label, IsLabel label ∧ LastLabel domain label := by
  obtain ⟨labels, some_, all, rfl⟩ := isDomain
  obtain ⟨front, label, rfl⟩ := List.eq_nil_or_concat labels |>.resolve_left some_
  rw [List.concat_eq_append] at all ⊢
  have isLabel := all label (List.mem_append_right _ (List.mem_singleton_self _))
  refine ⟨label, isLabel, isLabel.plain, ?_⟩
  by_cases first : front = []
  · subst first
    exact .inl List.intercalate_singleton
  · refine .inr ⟨[dot].intercalate front, ?_⟩
    rw [intercalate_append front label [] first, List.intercalate_singleton]

theorem isIpv4Number_label {label : Bytes} (isLabel : IsLabel label)
    (number : isIpv4Number label = true) : IsNumber label := by
  have octal : ∀ byte, isOctalDigit byte = true → isAsciiDigit byte = true := by
    intro byte
    simp only [isOctalDigit, isAsciiDigit, Bool.and_eq_true, decide_eq_true_eq]
    exact And.imp_right fun small => UInt8.le_trans small (by decide)
  cases label with
  | nil => cases number
  | cons first rest =>
    unfold isIpv4Number at number
    dsimp only at number
    split at number
    · rename_i marked
      obtain ⟨rfl, mark | mark⟩ := marked
      · obtain ⟨digits, rfl⟩ := List.head?_eq_some_iff.mp mark
        exact .hexadecimal (List.all_eq_true.mp number)
      · have held : (88 : UInt8) ∈ 48 :: rest := List.mem_cons_of_mem _ (List.mem_of_head? mark)
        rcases isLabel.bytes 88 held with alphanum | same
        · exact absurd alphanum (by decide)
        · exact absurd same (by decide)
    · split at number
      · rename_i zero
        refine .decimal (List.cons_ne_nil _ _) ?_
        rw [List.forall_mem_cons]
        refine ⟨by rw [zero.1]; rfl, fun byte member => ?_⟩
        exact octal byte (List.all_eq_true.mp number byte member)
      · exact .decimal (List.cons_ne_nil _ _) (List.all_eq_true.mp number)

/-- The check finds the domains whose last label is a number. -/
theorem endsInANumber_iff (isDomain : IsDomain domain) :
    endsInANumber domain = true ↔ EndsInNumber domain := by
  obtain ⟨label, isLabel, isLast⟩ := isDomain.lastLabel
  have open_ : domain.getLast? ≠ some dot := by
    have filled : label ≠ [] := by
      cases isLabel <;> exact List.cons_ne_nil _ _
    intro ends
    have within : label.getLast? = some dot := by
      obtain ⟨-, rfl | ⟨front, rfl⟩⟩ := isLast
      · exact ends
      · rwa [List.getLast?_append_of_ne_nil _ (List.cons_ne_nil _ _),
          List.getLast?_cons_of_ne_nil filled] at ends
    exact isLabel.plain (List.mem_of_getLast? within)
  unfold endsInANumber
  rw [if_neg open_]
  dsimp only
  rw [isLast.splitOn, Option.getD_some]
  constructor
  · intro ends
    refine ⟨label, isLast, ?_⟩
    split at ends
    · rename_i digits
      exact .decimal digits.1 (List.all_eq_true.mp digits.2)
    · exact isIpv4Number_label isLabel ends
  · rintro ⟨other, itsLast, number⟩
    have same : other = label :=
      Option.some.inj (itsLast.splitOn.symm.trans isLast.splitOn)
    subst same
    cases number with
    | decimal some_ each => rw [if_pos ⟨some_, List.all_eq_true.mpr each⟩]
    | hexadecimal each =>
      split
      · rfl
      · exact List.all_eq_true.mpr each

theorem isSuffixDomain_iff :
    isSuffixDomain domain = true ↔ IsDomain domain ∧ ¬EndsInNumber domain := by
  unfold isSuffixDomain
  rw [Bool.and_eq_true, isSerializedDomain_iff, Bool.not_eq_true', ← Bool.not_eq_true]
  exact and_congr_right fun isDomain => not_congr (endsInANumber_iff isDomain)

/-! ### Entries are what they mean -/

variable {origin : Bytes} {rule : Rule}

variable {entry : Bytes} {port : Option Bytes} {allowOrigin : AllowOrigin}

variable {host : Bytes}

variable {scheme : Bytes}

theorem below_iff (hostIs : IsDomain host) :
    Below host domain ↔ (dot :: domain).length < host.length ∧ dot :: domain <:+ host := by
  constructor
  · rintro ⟨front, frontIs, rfl⟩
    have filled := List.length_pos_iff.mpr frontIs.bytes.1
    exact ⟨by simp; omega, List.suffix_append _ _⟩
  · rintro ⟨longer, front, rfl⟩
    have filled : front ≠ [] := by
      rintro rfl
      exact lt_irrefl _ longer
    have checked := isSerializedDomain_iff.mpr hostIs
    unfold isSerializedDomain at checked
    rw [List.splitOn_append_cons_self, List.all_append, Bool.and_eq_true] at checked
    exact ⟨front, isSerializedDomain_iff.mp checked.1, rfl⟩

theorem IsHost.isDomain (isHost : IsHost host) (plain : colon ∉ host) : IsDomain host := by
  cases isHost with
  | domain isDomain => exact isDomain
  | ipv4 isIpv4 => exact isIpv4.isDomain
  | ipv6 isIpv6 =>
    exact absurd (List.mem_append_left _ (List.mem_cons_of_mem _ isIpv6.bytes.1)) plain

/-- A suffix entry allows the origins without a port whose host stands below its domain. -/
theorem suffixAllows_iff (isOrigin : IsOrigin origin scheme host port) :
    suffixAllows entry origin = true ↔
      ∃ domain, entry = dot :: domain ∧ IsDomain domain ∧ ¬EndsInNumber domain ∧ port = none ∧
        IsDomain host ∧ Below host domain := by
  obtain ⟨found, -, behind⟩ := isOrigin.behind
  unfold suffixAllows
  rw [found, Option.map_some, Option.getD_some, behind]
  constructor
  · intro allowed
    split at allowed
    · cases allowed
    · rename_i marked
      rw [Bool.not_eq_true, Bool.not_eq_false', Bool.and_eq_true, decide_eq_true_eq] at marked
      simp only [Bool.and_eq_true, decide_eq_true_eq, Bool.not_eq_true', List.contains_eq_mem,
        decide_eq_false_iff_not, List.isSuffixOf_iff_suffix] at allowed
      obtain ⟨lead, named⟩ := marked
      obtain ⟨domain, rfl⟩ := List.head?_eq_some_iff.mp lead
      obtain ⟨⟨plain, longer⟩, ends⟩ := allowed
      cases port with
      | some digits =>
        exact absurd (List.mem_append_right _ (List.mem_cons_self (a := colon))) plain
      | none =>
        rw [show portText none = [] from rfl, List.append_nil] at plain longer ends
        have hostIs := isOrigin.isHost.isDomain plain
        exact ⟨domain, rfl, (isSuffixDomain_iff.mp named).1, (isSuffixDomain_iff.mp named).2, rfl,
          hostIs, (below_iff hostIs).mpr ⟨longer, ends⟩⟩
  · rintro ⟨domain, rfl, domainIs, named, rfl, hostIs, below⟩
    obtain ⟨longer, ends⟩ := (below_iff hostIs).mp below
    rw [List.tail_cons, isSuffixDomain_iff.mpr ⟨domainIs, named⟩, List.head?_cons,
      decide_eq_true rfl, Bool.and_self, Bool.not_true, if_neg Bool.false_ne_true,
      show portText none = [] from rfl, List.append_nil]
    dsimp only
    rw [decide_eq_true longer, List.isSuffixOf_iff_suffix.mpr ends, Bool.and_true, Bool.and_true,
      List.contains_eq_mem, decide_eq_false hostIs.plain]
    rfl

theorem IsOrigin.lead (isOrigin : IsOrigin origin scheme host port) : origin.head? ≠ some dot := by
  intro lead
  rw [isOrigin.text_eq] at lead
  cases isOrigin.isScheme with
  | intro letter inside =>
    cases lead
    exact absurd letter (by decide)

/-- The entries that can allow an origin: serialized origins and domains that do not end in a
number. -/
theorem isValidEntry_iff : AllowOrigin.isValidEntry entry = true ↔
    (∃ scheme host port, IsOrigin entry scheme host port) ∨
      ∃ domain, entry = dot :: domain ∧ IsDomain domain ∧ ¬EndsInNumber domain := by
  unfold AllowOrigin.isValidEntry
  split
  · rename_i lead
    obtain ⟨domain, rfl⟩ := List.head?_eq_some_iff.mp lead
    rw [List.tail_cons, isSuffixDomain_iff]
    constructor
    · intro named
      exact .inr ⟨domain, rfl, named⟩
    · rintro (⟨scheme, host, port, isOrigin⟩ | ⟨other, same, named⟩)
      · exact absurd lead isOrigin.lead
      · cases same
        exact named
  · rename_i lead
    rw [isSerializedOrigin_iff]
    refine (or_iff_left ?_).symm
    rintro ⟨domain, rfl, -⟩
    exact lead rfl

theorem EntryAllows.isOrigin (allows : EntryAllows entry origin) :
    ∃ scheme host port, IsOrigin origin scheme host port := by
  cases allows with
  | exact isOrigin => exact ⟨_, _, _, isOrigin⟩
  | below isOrigin => exact ⟨_, _, _, isOrigin⟩

/-- An entry that allows an origin is well formed. -/
theorem EntryAllows.isValid (allows : EntryAllows entry origin) :
    AllowOrigin.isValidEntry entry = true := by
  rw [isValidEntry_iff]
  cases allows with
  | exact isOrigin => exact .inl ⟨_, _, _, isOrigin⟩
  | below isOrigin hostIs domainIs named below => exact .inr ⟨_, rfl, domainIs, named⟩

theorem entryAllows_iff (serialized : isSerializedOrigin origin = true) :
    (if entry.head? = some dot then suffixAllows entry origin else entry == origin) = true ↔
      EntryAllows entry origin := by
  constructor
  · obtain ⟨scheme, host, port, isOrigin⟩ := isSerializedOrigin_iff.mp serialized
    intro allowed
    split at allowed
    · obtain ⟨domain, rfl, domainIs, named, rfl, hostIs, below⟩ :=
        (suffixAllows_iff isOrigin).mp allowed
      exact .below isOrigin hostIs domainIs named below
    · cases beq_iff_eq.mp allowed
      exact .exact isOrigin
  · intro allows
    cases allows with
    | exact isOrigin => rw [if_neg isOrigin.lead, beq_self_eq_true]
    | below isOrigin hostIs domainIs named below =>
      rw [if_pos (show (dot :: _).head? = some dot from rfl)]
      exact (suffixAllows_iff isOrigin).mpr ⟨_, rfl, domainIs, named, rfl, hostIs, below⟩

theorem AllowOrigin.Allows.isOrigin (allows : allowOrigin.Allows origin) :
    ∃ scheme host port, IsOrigin origin scheme host port := by
  cases allowOrigin with
  | any => exact allows
  | list entries =>
    obtain ⟨entry, -, itAllows⟩ := allows
    exact itAllows.isOrigin

/-- A rule allows the origins it means. -/
theorem Rule.allows_iff : rule.allows origin = true ↔ rule.allowOrigin.Allows origin := by
  unfold Rule.allows
  by_cases serialized : isSerializedOrigin origin = true
  · rw [serialized, Bool.not_true, if_neg Bool.false_ne_true]
    cases rule.allowOrigin with
    | any => exact iff_of_true rfl (isSerializedOrigin_iff.mp serialized)
    | list entries =>
      dsimp only [AllowOrigin.Allows]
      rw [List.any_eq_true]
      exact exists_congr fun entry => and_congr_right fun _ => entryAllows_iff serialized
  · rw [Bool.not_eq_true] at serialized
    rw [serialized, Bool.not_false, if_pos rfl]
    refine iff_of_false Bool.false_ne_true fun allows => ?_
    rw [isSerializedOrigin_iff.mpr allows.isOrigin] at serialized
    cases serialized

/-! ### What a rule decides -/

variable {requestHeaders : Option Bytes}

/-- The values of the lines of a name that a decision adds. -/
def Decision.lines (decision : Decision) (name : Bytes) : List Bytes :=
  Policy.linesOf name decision.fields

/-- What a preflight asks is listed: the method by its bytes, every header in any case, or either by
a wildcard that no credentials come with. -/
structure Rule.Approves (rule : Rule) (asked : Bytes) (requestHeaders : Option Bytes) : Prop where
  method : asked ∈ rule.allowMethods ∨ star ∈ rule.allowMethods ∧ rule.credentials = false
  headers : (∀ value ∈ requestHeaders, ∀ header ∈ listElements value,
      ∃ allowed ∈ rule.allowHeaders, eqIgnoreAsciiCase allowed header = true) ∨
    star ∈ rule.allowHeaders ∧ rule.credentials = false

/-- The decisions of a rule, by what the request asks. -/
inductive Rule.Decides (rule : Rule) (method : Option Method)
    (requestMethod requestHeaders : Option Bytes) : Option Bytes → Decision → Prop
  | notCors : rule.Decides method requestMethod requestHeaders none .notCors
  | refused {origin : Bytes} (foreign : ¬rule.allowOrigin.Allows origin) (preflight : Bool) :
    rule.Decides method requestMethod requestHeaders (some origin) (.refused preflight)
  | allowed {origin : Bytes} (allows : rule.allowOrigin.Allows origin)
    (plain : method = some .options → requestMethod = none) :
    rule.Decides method requestMethod requestHeaders (some origin)
      (.allowed (rule.sharedFields origin ++ rule.exposedFields))
  | approved {origin asked : Bytes} (allows : rule.allowOrigin.Allows origin)
    (options : method = some .options) (asks : requestMethod = some asked)
    (approves : rule.Approves asked requestHeaders) :
    rule.Decides method requestMethod requestHeaders (some origin)
      (.preflight (rule.sharedFields origin ++ rule.preflightFields))
  | unlisted {origin asked : Bytes} (allows : rule.allowOrigin.Allows origin)
    (options : method = some .options) (asks : requestMethod = some asked)
    (unlisted : ¬rule.Approves asked requestHeaders) :
    rule.Decides method requestMethod requestHeaders (some origin) (.refused true)

theorem Rule.wildcard_iff {list : List Bytes} :
    (rule.wildcardAllowed && list.any fun item => item = star) = true ↔
      star ∈ list ∧ rule.credentials = false := by
  unfold Rule.wildcardAllowed
  simp [and_comm]

theorem Rule.method_iff {asked : Bytes} :
    (rule.anyMethod || rule.allowMethods.any fun allowed => allowed = asked) = true ↔
      asked ∈ rule.allowMethods ∨ star ∈ rule.allowMethods ∧ rule.credentials = false := by
  unfold Rule.anyMethod
  rw [Bool.or_eq_true, Rule.wildcard_iff, or_comm]
  simp

theorem Rule.headers_iff :
    (rule.anyHeader || ((requestHeaders.map listElements).toList).flatten.all fun asked =>
        rule.allowHeaders.any fun allowed => eqIgnoreAsciiCase allowed asked) = true ↔
      (∀ value ∈ requestHeaders, ∀ header ∈ listElements value,
        ∃ allowed ∈ rule.allowHeaders, eqIgnoreAsciiCase allowed header = true) ∨
      star ∈ rule.allowHeaders ∧ rule.credentials = false := by
  unfold Rule.anyHeader
  rw [Bool.or_eq_true, Rule.wildcard_iff, or_comm]
  cases requestHeaders with
  | none => simp
  | some value => simp

/-- A rule decides as what the request asks says. -/
theorem Rule.decide_decides (rule : Rule) (method : Option Method)
    (origin requestMethod requestHeaders : Option Bytes) :
    rule.Decides method requestMethod requestHeaders origin
      (rule.decide method origin requestMethod requestHeaders) := by
  cases origin with
  | none => exact .notCors
  | some origin =>
    unfold Rule.decide
    dsimp only
    split
    · rename_i foreign
      rw [Bool.not_eq_true', ← Bool.not_eq_true, Rule.allows_iff] at foreign
      exact .refused foreign _
    · rename_i allows
      rw [Bool.not_eq_true, Bool.not_eq_false', Rule.allows_iff] at allows
      split
      · rename_i plain
        refine .allowed allows fun options => ?_
        subst options
        cases requestMethod with
        | none => rfl
        | some asked => cases plain
      · rename_i preflight
        rw [Bool.not_eq_true, Bool.not_eq_false', Bool.and_eq_true, decide_eq_true_eq] at preflight
        obtain ⟨options, asks⟩ := preflight
        obtain ⟨asked, rfl⟩ := Option.isSome_iff_exists.mp asks
        rw [Option.getD_some]
        split
        · rename_i unlisted
          rw [Bool.not_eq_true', ← Bool.not_eq_true, Rule.method_iff] at unlisted
          exact .unlisted allows options rfl fun approves => unlisted approves.method
        · rename_i listed
          rw [Bool.not_eq_true, Bool.not_eq_false', Rule.method_iff] at listed
          split
          · rename_i unlisted
            rw [Bool.not_eq_true', ← Bool.not_eq_true, Rule.headers_iff] at unlisted
            exact .unlisted allows options rfl fun approves => unlisted approves.headers
          · rename_i headers
            rw [Bool.not_eq_true, Bool.not_eq_false', Rule.headers_iff] at headers
            exact .approved allows options rfl ⟨listed, headers⟩

/-! ### The fields of a decision -/

variable {name : Bytes}

theorem linesOf_apart {fields : List Field}
    (apart : ∀ field ∈ fields, eqIgnoreAsciiCase field.1 name = false) :
    Policy.linesOf name fields = [] := by
  unfold Policy.linesOf
  rw [List.filter_eq_nil_iff.mpr fun field member => by simp [apart field member]]
  rfl

namespace Rule

variable {rule : Rule} {origin : Bytes}

/-- The names of the fields that only some responses carry. -/
def laterNames : List Bytes := [exposeHeadersName, allowMethodsName, allowHeadersName, maxAgeName]

theorem mem_laterNames : exposeHeadersName ∈ laterNames ∧ allowMethodsName ∈ laterNames ∧
    allowHeadersName ∈ laterNames ∧ maxAgeName ∈ laterNames := by decide

theorem exposedFields_names : ∀ field ∈ rule.exposedFields, field.1 ∈ laterNames := by
  unfold exposedFields
  dsimp only
  split
  · exact List.forall_mem_singleton.mpr mem_laterNames.1
  · exact fun _ => nofun

theorem preflightFields_names : ∀ field ∈ rule.preflightFields, field.1 ∈ laterNames := by
  obtain ⟨-, methods, headers, age⟩ := mem_laterNames
  unfold preflightFields
  simp only [List.forall_mem_append]
  refine ⟨⟨List.forall_mem_singleton.mpr methods, ?_⟩, ?_⟩
  · split
    · exact List.forall_mem_singleton.mpr headers
    · split
      · exact List.forall_mem_singleton.mpr headers
      · exact fun _ => nofun
  · split
    · exact List.forall_mem_singleton.mpr age
    · exact fun _ => nofun

theorem laterNames_apart {fields : List Field} (later : ∀ field ∈ fields, field.1 ∈ laterNames) :
    Policy.linesOf allowOriginName fields = [] ∧
      Policy.linesOf allowCredentialsName fields = [] := by
  have apart : ∀ name ∈ laterNames, eqIgnoreAsciiCase name allowOriginName = false ∧
      eqIgnoreAsciiCase name allowCredentialsName = false := by
    unfold laterNames
    simp only [List.forall_mem_cons]
    decide
  exact ⟨linesOf_apart fun field member => (apart _ (later field member)).1,
    linesOf_apart fun field member => (apart _ (later field member)).2⟩

theorem linesOf_self {value : Bytes} : Policy.linesOf name [(name, value)] = [value] := by
  rw [Policy.linesOf_cons, if_pos (Policy.eqIgnoreAsciiCase_self name)]
  rfl

theorem linesOf_other {other value : Bytes} (apart : eqIgnoreAsciiCase other name = false) :
    Policy.linesOf name [(other, value)] = [] :=
  linesOf_apart (List.forall_mem_singleton.mpr apart)

theorem linesOf_ite {fields : List Field} (condition : Prop) [Decidable condition]
    (none_ : Policy.linesOf name fields = []) :
    Policy.linesOf name (if condition then fields else []) = [] := by
  split
  · exact none_
  · rfl

theorem sharedFields_allowOrigin : Policy.linesOf allowOriginName (rule.sharedFields origin) =
    [(rule.allowOriginValue origin).1] := by
  unfold sharedFields
  dsimp only
  rw [Policy.linesOf_append, Policy.linesOf_append, linesOf_self,
    linesOf_ite _ (linesOf_other (by decide)), linesOf_ite _ (linesOf_other (by decide))]
  rfl

theorem sharedFields_allowCredentials :
    Policy.linesOf allowCredentialsName (rule.sharedFields origin) =
      if rule.credentials then [ascii "true"] else [] := by
  unfold sharedFields
  dsimp only
  rw [Policy.linesOf_append, Policy.linesOf_append, linesOf_other (by decide),
    linesOf_ite _ (linesOf_other
      (show eqIgnoreAsciiCase varyName allowCredentialsName = false by decide)),
    List.nil_append, List.append_nil]
  split
  · exact linesOf_self
  · rfl

theorem allowOriginValue_wildcard (wildcard : rule.allowOrigin = .any ∧ rule.credentials = false) :
    rule.allowOriginValue origin = (star, false) := by
  unfold allowOriginValue
  rw [wildcard.1, wildcard.2]

theorem allowOriginValue_reflected
    (reflected : ¬(rule.allowOrigin = .any ∧ rule.credentials = false)) :
    rule.allowOriginValue origin = (origin, true) := by
  unfold allowOriginValue
  split
  · rename_i any plain
    exact absurd ⟨any, plain⟩ reflected
  · rfl

/-! ### Sharing never widens -/

variable {decision : Decision}

variable {later : List Field} {method : Option Method}

/-- What a decision for a request shares: the origin it is shared with, when and as what, and what a
preflight is answered. -/
structure Sharing (rule : Rule) (method : Option Method)
    (origin requestMethod requestHeaders : Option Bytes) (decision : Decision) : Prop where
  shared : decision.lines allowOriginName ≠ [] ↔ ∃ given ∈ origin, rule.allowOrigin.Allows given ∧
    (method = some .options → ∀ asked ∈ requestMethod, rule.Approves asked requestHeaders)
  value : ∀ value ∈ decision.lines allowOriginName,
    if rule.allowOrigin = .any ∧ rule.credentials = false then value = star
    else origin = some value
  apart : decision.lines allowCredentialsName ≠ [] → star ∉ decision.lines allowOriginName
  approved : (∃ fields, decision = .preflight fields) ↔ method = some .options ∧
    ∃ given ∈ origin, rule.allowOrigin.Allows given ∧
      ∃ asked ∈ requestMethod, rule.Approves asked requestHeaders

theorem not_allows_star : ¬rule.allowOrigin.Allows star := fun allows => by
  have serialized := isSerializedOrigin_iff.mpr allows.isOrigin
  exact absurd serialized (by decide)

/-- What shared fields and later ones say about the origin and the credentials. -/
theorem shared_lines (fields : decision.fields = rule.sharedFields origin ++ later)
    (names : ∀ field ∈ later, field.1 ∈ laterNames) :
    decision.lines allowOriginName = [(rule.allowOriginValue origin).1] ∧
      (decision.lines allowCredentialsName ≠ [] → rule.credentials = true) := by
  obtain ⟨noOrigin, noCredentials⟩ := laterNames_apart names
  unfold Decision.lines
  rw [fields, Policy.linesOf_append, Policy.linesOf_append, noOrigin, noCredentials,
    List.append_nil, List.append_nil, sharedFields_allowOrigin, sharedFields_allowCredentials]
  refine ⟨rfl, fun some_ => ?_⟩
  by_contra plain
  exact some_ (if_neg plain)

/-- A decision that shares does so with the origin, as the rule's value says. -/
theorem shared_value (fields : decision.fields = rule.sharedFields origin ++ later)
    (names : ∀ field ∈ later, field.1 ∈ laterNames) (allows : rule.allowOrigin.Allows origin) :
    decision.lines allowOriginName ≠ [] ∧
      (∀ value ∈ decision.lines allowOriginName,
        if rule.allowOrigin = .any ∧ rule.credentials = false then value = star
        else some origin = some value) ∧
      (decision.lines allowCredentialsName ≠ [] → star ∉ decision.lines allowOriginName) := by
  obtain ⟨lines, credentials⟩ := shared_lines fields names
  rw [lines]
  refine ⟨List.cons_ne_nil _ _, ?_, ?_⟩
  · rw [List.forall_mem_singleton]
    split
    · rename_i wildcard
      rw [allowOriginValue_wildcard wildcard]
    · rename_i reflected
      rw [allowOriginValue_reflected reflected]
  · intro some_
    have reflected : ¬(rule.allowOrigin = .any ∧ rule.credentials = false) := by
      rw [credentials some_]
      exact fun wildcard => Bool.noConfusion wildcard.2
    rw [allowOriginValue_reflected reflected, List.mem_singleton]
    rintro rfl
    exact not_allows_star allows

/-- A decision without fields shares nothing. -/
theorem Sharing.of_nothing {origin requestMethod : Option Bytes} (nothing : decision.fields = [])
    (apart : ¬∃ given ∈ origin, rule.allowOrigin.Allows given ∧
      (method = some .options → ∀ asked ∈ requestMethod, rule.Approves asked requestHeaders))
    (unanswered : ∀ fields, decision ≠ .preflight fields)
    (unapproved : ¬(method = some .options ∧ ∃ given ∈ origin, rule.allowOrigin.Allows given ∧
      ∃ asked ∈ requestMethod, rule.Approves asked requestHeaders)) :
    rule.Sharing method origin requestMethod requestHeaders decision := by
  have none_ : ∀ name, decision.lines name = [] := by
    intro name
    unfold Decision.lines
    rw [nothing]
    rfl
  refine ⟨iff_of_false (not_not_intro (none_ _)) apart, ?_, fun some_ => absurd (none_ _) some_,
    iff_of_false (fun ⟨fields, same⟩ => unanswered fields same) unapproved⟩
  rw [none_]
  exact fun _ => nofun

/-- What is decided shares as the rule means. -/
theorem Decides.sharing {origin requestMethod : Option Bytes}
    (decides : rule.Decides method requestMethod requestHeaders origin decision) :
    rule.Sharing method origin requestMethod requestHeaders decision := by
  cases decides with
  | notCors =>
    refine .of_nothing rfl ?_ (fun _ => nofun) ?_
    · rintro ⟨given, none_, -⟩
      cases none_
    · rintro ⟨-, given, none_, -⟩
      cases none_
  | refused foreign preflight =>
    refine .of_nothing rfl ?_ (fun _ => nofun) ?_
    · rintro ⟨given, ⟨⟩, allows, -⟩
      exact foreign allows
    · rintro ⟨-, given, ⟨⟩, allows, -⟩
      exact foreign allows
  | allowed allows plain =>
    obtain ⟨some_, value, apart⟩ :=
      shared_value (show (Decision.allowed _).fields = rule.sharedFields _ ++ rule.exposedFields
        from rfl) exposedFields_names allows
    refine ⟨iff_of_true some_ ⟨_, rfl, allows, fun options asked asks => ?_⟩, value, apart,
      iff_of_false nofun ?_⟩
    · rw [plain options] at asks
      cases asks
    · rintro ⟨options, -, -, -, asked, asks, -⟩
      rw [plain options] at asks
      cases asks
  | approved allows options asks approves =>
    obtain ⟨some_, value, apart⟩ :=
      shared_value (show (Decision.preflight _).fields = rule.sharedFields _ ++ rule.preflightFields
        from rfl) preflightFields_names allows
    refine ⟨iff_of_true some_ ⟨_, rfl, allows, fun _ asked same => ?_⟩, value, apart,
      iff_of_true ⟨_, rfl⟩ ⟨options, _, rfl, allows, _, asks, approves⟩⟩
    cases asks.symm.trans same
    exact approves
  | unlisted allows options asks unlisted =>
    refine .of_nothing rfl ?_ (fun _ => nofun) ?_
    · rintro ⟨given, -, -, approves⟩
      exact unlisted (approves options _ asks)
    · rintro ⟨-, given, -, -, asked, same, approves⟩
      cases asks.symm.trans same
      exact unlisted approves

end Rule

/-- The entries of a list that are well formed. -/
def AllowOrigin.valid : AllowOrigin → AllowOrigin
  | .any => .any
  | .list entries => .list (entries.filter isValidEntry)

theorem AllowOrigin.valid_allows : allowOrigin.valid.Allows origin ↔ allowOrigin.Allows origin := by
  cases allowOrigin with
  | any => rfl
  | list entries =>
    constructor
    · rintro ⟨entry, member, allows⟩
      exact ⟨entry, (List.mem_filter.mp member).1, allows⟩
    · rintro ⟨entry, member, allows⟩
      exact ⟨entry, List.mem_filter.mpr ⟨member, allows.isValid⟩, allows⟩

/-- A malformed entry decides nothing. -/
theorem Rule.decide_valid (rule : Rule) (method : Option Method)
    (origin requestMethod requestHeaders : Option Bytes) :
    { rule with allowOrigin := rule.allowOrigin.valid }.decide method origin requestMethod
        requestHeaders = rule.decide method origin requestMethod requestHeaders := by
  have allows : ∀ given,
      { rule with allowOrigin := rule.allowOrigin.valid }.allows given = rule.allows given :=
    fun given => Bool.eq_iff_iff.mpr <| by
      rw [Rule.allows_iff, Rule.allows_iff]
      exact AllowOrigin.valid_allows
  have shared : ∀ given, { rule with allowOrigin := rule.allowOrigin.valid }.sharedFields given =
      rule.sharedFields given := by
    intro given
    unfold Rule.sharedFields Rule.allowOriginValue
    cases rule.allowOrigin <;> rfl
  unfold Rule.decide
  simp only [allows, shared]
  rfl

/-- A preflight for a method a rule does not list is answered without a field that shares, though
its origin is allowed. -/
theorem unlisted_not_shared : ¬∀ (rule : Rule) (method : Option Method)
    (origin requestMethod requestHeaders : Option Bytes),
    (rule.decide method origin requestMethod requestHeaders).lines allowOriginName ≠ [] ↔
      ∃ given ∈ origin, rule.allowOrigin.Allows given := by
  intro always
  have allowed : ({} : Rule).allowOrigin.Allows (ascii "https://a.example") :=
    Rule.allows_iff.mp (by decide)
  refine (always {} (some .options) (some (ascii "https://a.example")) (some (ascii "PUT"))
    none).mpr ⟨_, rfl, allowed⟩ ?_
  decide

/-- Sharing never widens: a request is shared with the origins a rule means, as it means, a
preflight is approved for what the rule lists, and no malformed entry has a part in it. -/
theorem Rule.shares_as_meant (rule : Rule) (method : Option Method)
    (origin requestMethod requestHeaders : Option Bytes) :
    rule.Sharing method origin requestMethod requestHeaders
        (rule.decide method origin requestMethod requestHeaders) ∧
      { rule with allowOrigin := rule.allowOrigin.valid }.decide method origin requestMethod
        requestHeaders = rule.decide method origin requestMethod requestHeaders :=
  ⟨(rule.decide_decides method origin requestMethod requestHeaders).sharing,
    rule.decide_valid method origin requestMethod requestHeaders⟩

end ZeroServer.Cors

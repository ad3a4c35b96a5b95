/-
This file models the fields a server adds to share its responses with other origins, and asks when a
cache that leaves the origin out of its key is safe with them: two requests that differ in their
origin alone are shared differently only in responses that say so.
-/

import ZeroServer.Cors.Rule
import ZeroServer.Host.Rules
import ZeroServer.Http.Call

namespace ZeroServer.Host

open Http1 Http Cors

/-! ### The fields of a decision -/

def originName : Bytes := ascii "Origin"

/-- Write the fields of a decision: `Vary` is a list and gains a line, and every other field takes
the place of the lines of its name. -/
def writeFields (response : Response) (fields : List Cors.Field) : Response :=
  fields.foldl (fun response field =>
    if eqIgnoreAsciiCase field.1 (ascii "vary") then (response.header field.1 field.2).2
    else (response.setHeader field.1 field.2).2) response

/-- Add the sharing fields of the rule that covers a path. -/
def corsFields (rules : Rules Cors.Rule) (method : Option Method) (origin : Option Bytes)
    (response : Response) (path : Bytes) : Response :=
  match covering rules.cors path with
  | none => response
  | some cors =>
    match origin with
    | none =>
      if cors.allowOrigin = .any ∧ cors.credentials = false then
        (response.setHeader allowOriginName star).2
      else (response.header varyName originName).2
    | some origin =>
      match cors.decide method (some origin) none none with
      | .allowed fields => writeFields response fields
      | .refused _ | .notCors | .preflight _ => (response.header varyName originName).2

/-! ### What is written -/

/-- A rule that shares with every origin under one value. -/
abbrev IsWildcard (rule : Cors.Rule) : Prop :=
  rule.allowOrigin = .any ∧ rule.credentials = false

/-- The fields a rule has for a request, by its origin. -/
def corsWrites (rule : Cors.Rule) : Option Bytes → List Cors.Field
  | none => if IsWildcard rule then [(allowOriginName, star)] else [(varyName, originName)]
  | some origin =>
    if rule.allows origin then rule.sharedFields origin ++ rule.exposedFields
    else [(varyName, originName)]

def written (rules : Rules Cors.Rule) (path : Bytes) (origin : Option Bytes) : List Cors.Field :=
  (covering rules.cors path).elim [] fun rule => corsWrites rule origin

theorem decide_plain (rule : Cors.Rule) (method : Option Method) (origin : Bytes) :
    rule.decide method (some origin) none none =
      if rule.allows origin then .allowed (rule.sharedFields origin ++ rule.exposedFields)
      else .refused false := by
  unfold Cors.Rule.decide
  cases allowed : rule.allows origin <;> simp [allowed]

/-- The fields of the rule that covers the path are written, whatever the branch. -/
theorem corsFields_eq (rules : Rules Cors.Rule) (method : Option Method) (origin : Option Bytes)
    (response : Response) (path : Bytes) : corsFields rules method origin response path =
      writeFields response (written rules path origin) := by
  have vary : ∀ response : Response, writeFields response [(varyName, originName)] =
      (response.header varyName originName).2 := by
    intro response
    unfold writeFields
    rw [List.foldl_cons, List.foldl_nil,
      if_pos (show eqIgnoreAsciiCase varyName (ascii "vary") = true by decide)]
  unfold corsFields written
  cases covering rules.cors path with
  | none => rfl
  | some rule =>
    dsimp only [Option.elim]
    cases origin with
    | none =>
      unfold corsWrites
      by_cases wildcard : IsWildcard rule
      · rw [if_pos wildcard]
        dsimp only
        rw [if_pos wildcard]
        unfold writeFields
        rw [List.foldl_cons, List.foldl_nil,
          if_neg (show ¬eqIgnoreAsciiCase allowOriginName (ascii "vary") = true by decide)]
      · rw [if_neg wildcard]
        dsimp only
        rw [if_neg wildcard, vary]
    | some origin =>
      dsimp only [corsWrites]
      rw [decide_plain]
      cases rule.allows origin with
      | true => rfl
      | false => exact (vary response).symm

/-! ### The lines of a response -/

variable {name : Bytes}

variable {value : Bytes}

def fieldCall (field : Cors.Field) : ResponseCall :=
  if eqIgnoreAsciiCase field.1 (ascii "vary") then .header field.1 field.2
  else .setHeader field.1 field.2

theorem writeFields_after (response : Response) (fields : List Cors.Field) :
    writeFields response fields = response.after (fields.map fieldCall) := by
  unfold writeFields Response.after
  rw [List.foldl_map]
  congr 1
  funext response field
  unfold fieldCall
  split <;> rfl

/-- The values of the lines of a name. -/
def valuesOf (name : Bytes) (lines : List ResponseField) : List Bytes :=
  (lines.filter fun line => eqIgnoreAsciiCase line.name name).map ResponseField.value

/-- The fields whose names and values the checks accept. -/
def accepted (fields : List Cors.Field) : List Cors.Field :=
  fields.filter fun field => (acceptedLine field.1 field.2).isSome

theorem valuesOf_append (name : Bytes) (first second : List ResponseField) :
    valuesOf name (first ++ second) = valuesOf name first ++ valuesOf name second := by
  unfold valuesOf
  rw [List.filter_append, List.map_append]

theorem accepted_append (first second : List Cors.Field) :
    accepted (first ++ second) = accepted first ++ accepted second := List.filter_append ..

theorem eqIgnoreAsciiCase_iff {left right : Bytes} : eqIgnoreAsciiCase left right = true ↔
    left.map toAsciiLowercase = right.map toAsciiLowercase := beq_iff_eq

theorem valuesOf_line (name : Bytes) (line : ResponseField) :
    valuesOf name [line] = if eqIgnoreAsciiCase line.name name then [line.value] else [] := by
  unfold valuesOf
  rw [List.filter_cons, List.filter_nil]
  split <;> rfl

/-- Taking the lines of one name out takes those of a name it equals and leaves those of others. -/
theorem valuesOf_others (name other : Bytes) (lines : List ResponseField) :
    valuesOf name (others other lines) =
      if eqIgnoreAsciiCase other name then [] else valuesOf name lines := by
  unfold valuesOf others
  rw [List.filter_filter]
  by_cases same : eqIgnoreAsciiCase other name = true
  · rw [if_pos same, List.filter_eq_nil_iff.mpr]
    · rfl
    · intro line _ both
      rw [Bool.and_eq_true, Bool.not_eq_true', Bool.eq_false_iff] at both
      refine both.2 (eqIgnoreAsciiCase_iff.mpr ?_)
      rw [eqIgnoreAsciiCase_iff.mp both.1, eqIgnoreAsciiCase_iff.mp same]
  · rw [if_neg same]
    congr 1
    refine List.filter_congr fun line _ => ?_
    rw [Bool.and_eq_left_iff_imp]
    intro itsName
    rw [Bool.not_eq_true', Bool.eq_false_iff]
    intro removed
    refine same (eqIgnoreAsciiCase_iff.mpr ?_)
    rw [← eqIgnoreAsciiCase_iff.mp removed, eqIgnoreAsciiCase_iff.mp itsName]

theorem acceptedLine_isSome (isSome : (acceptedLine name value).isSome = true) :
    ∃ line, acceptedLine name value = some line ∧ line.name = name ∧ line.value = value := by
  unfold acceptedLine at isSome ⊢
  split at isSome
  · rename_i checks
    exact ⟨_, dif_pos checks, rfl, rfl⟩
  · cases isSome

/-- What one field does to the lines of a name. -/
theorem valuesOf_edit (name : Bytes) (field : Cors.Field) (lines : List ResponseField) :
    valuesOf name ((fieldCall field).edit lines) =
      if eqIgnoreAsciiCase field.1 name = true ∧ (acceptedLine field.1 field.2).isSome = true then
        (if eqIgnoreAsciiCase field.1 (ascii "vary") then valuesOf name lines else []) ++ [field.2]
      else valuesOf name lines := by
  unfold fieldCall
  cases line : acceptedLine field.1 field.2 with
  | none =>
    have refused : ¬(eqIgnoreAsciiCase field.1 name = true ∧
        (none : Option ResponseField).isSome = true) := fun both => Bool.false_ne_true both.2
    rw [if_neg refused]
    split
    · dsimp only [ResponseCall.edit]
      rw [line]
      exact congrArg (valuesOf name) (List.append_nil _)
    · dsimp only [ResponseCall.edit]
      rw [line]
      rfl
  | some new =>
    obtain ⟨other, same, itsName, itsValue⟩ :=
      acceptedLine_isSome (show (acceptedLine field.1 field.2).isSome = true by rw [line]; rfl)
    cases line.symm.trans same
    have added := valuesOf_line name new
    rw [itsName, itsValue] at added
    split
    · dsimp only [ResponseCall.edit]
      rw [line, Option.toList_some, valuesOf_append, added]
      by_cases named : eqIgnoreAsciiCase field.1 name = true
      · rw [if_pos named, if_pos ⟨named, rfl⟩]
      · rw [if_neg named, if_neg fun both => named both.1, List.append_nil]
    · dsimp only [ResponseCall.edit]
      rw [line]
      dsimp only [Option.elim]
      rw [valuesOf_append, valuesOf_others, added]
      by_cases named : eqIgnoreAsciiCase field.1 name = true
      · rw [if_pos named, if_pos named, if_pos ⟨named, rfl⟩, List.nil_append]
      · rw [if_neg named, if_neg named, if_neg fun both => named both.1, List.append_nil]

/-- The lines a response has after the fields of a rule were written. -/
def edited (lines : List ResponseField) (fields : List Cors.Field) : List ResponseField :=
  (fields.map fieldCall).foldl (fun lines call => call.edit lines) lines

theorem edited_concat (lines : List ResponseField) (fields : List Cors.Field) (field : Cors.Field) :
    edited lines (fields ++ [field]) = (fieldCall field).edit (edited lines fields) := by
  unfold edited
  rw [List.map_append, List.foldl_append]
  rfl

theorem linesOf_accepted (name : Bytes) (field : Cors.Field) :
    Policy.linesOf name (accepted [field]) =
      if eqIgnoreAsciiCase field.1 name = true ∧ (acceptedLine field.1 field.2).isSome = true then
        [field.2] else [] := by
  unfold accepted
  rw [List.filter_cons, List.filter_nil]
  cases (acceptedLine field.1 field.2).isSome with
  | false => exact (if_neg fun both => Bool.false_ne_true both.2).symm
  | true =>
    rw [if_pos rfl, Policy.linesOf_cons]
    by_cases named : eqIgnoreAsciiCase field.1 name = true
    · rw [if_pos named, if_pos ⟨named, rfl⟩]
      rfl
    · rw [if_neg named, if_neg fun both => named both.1]
      rfl

/-- The lines of a name other than `Vary` are the last one written, or the host's. -/
theorem valuesOf_edited (plain : eqIgnoreAsciiCase name (ascii "vary") = false)
    (lines : List ResponseField) (fields : List Cors.Field) : valuesOf name (edited lines fields) =
      ((Policy.linesOf name (accepted fields)).getLast?).elim (valuesOf name lines) ([·]) := by
  induction fields using List.reverseRecOn with
  | nil => rfl
  | append_singleton fields field inductionHypothesis =>
    rw [edited_concat, valuesOf_edit, accepted_append, Policy.linesOf_append, linesOf_accepted]
    by_cases written : eqIgnoreAsciiCase field.1 name = true ∧
        (acceptedLine field.1 field.2).isSome = true
    · have apart : eqIgnoreAsciiCase field.1 (ascii "vary") = false := by
        rw [Bool.eq_false_iff] at plain ⊢
        intro vary
        refine plain (eqIgnoreAsciiCase_iff.mpr ?_)
        rw [← eqIgnoreAsciiCase_iff.mp written.1, eqIgnoreAsciiCase_iff.mp vary]
      rw [if_pos written, if_pos written, apart, if_neg Bool.false_ne_true, List.getLast?_concat]
      rfl
    · rw [if_neg written, if_neg written, List.append_nil, inductionHypothesis]

/-- The lines of `Vary` are the host's and those written. -/
theorem valuesOf_vary (lines : List ResponseField) (fields : List Cors.Field) :
    valuesOf varyName (edited lines fields) =
      valuesOf varyName lines ++ Policy.linesOf varyName (accepted fields) := by
  induction fields using List.reverseRecOn with
  | nil => exact (List.append_nil _).symm
  | append_singleton fields field inductionHypothesis =>
    rw [edited_concat, valuesOf_edit, accepted_append, Policy.linesOf_append, linesOf_accepted]
    by_cases written : eqIgnoreAsciiCase field.1 varyName = true ∧
        (acceptedLine field.1 field.2).isSome = true
    · have vary : eqIgnoreAsciiCase field.1 (ascii "vary") = true := written.1
      rw [if_pos written, if_pos written, if_pos vary, inductionHypothesis, List.append_assoc]
    · rw [if_neg written, if_neg written, List.append_nil, inductionHypothesis]

/-! ### What a rule writes under each name -/

/-- The fields by which a response is shared. -/
def sharingNames : List Bytes := [allowOriginName, allowCredentialsName, exposeHeadersName]

/-- What a rule writes under a name, by the origin of the request. -/
def share (rule : Cors.Rule) (origin : Option Bytes) (name : Bytes) : List Bytes :=
  Policy.linesOf name (accepted (corsWrites rule origin))

/-- A rule has headers to expose, and their list is a field value. -/
def Exposes (rule : Cors.Rule) : Prop :=
  ∃ value, (exposeHeadersName, value) ∈ rule.exposedFields ∧ validateFieldValue value = true

theorem isSome_iff : (acceptedLine name value).isSome = true ↔
    validateFieldName name = true ∧ isDriverField name = false ∧
      validateFieldValue value = true := by
  unfold acceptedLine
  split
  · rename_i checks
    exact iff_of_true rfl checks
  · rename_i refused
    exact iff_of_false Bool.false_ne_true refused

theorem names_accepted : ∀ name ∈ varyName :: sharingNames,
    validateFieldName name = true ∧ isDriverField name = false := by
  unfold sharingNames
  simp only [List.forall_mem_cons]
  decide

section Written

variable {rule : Cors.Rule} {origin : Bytes}

theorem allowOriginValue_cases (rule : Cors.Rule) (origin : Bytes) :
    (rule.allowOriginValue origin).1 = star ∨ (rule.allowOriginValue origin).1 = origin := by
  unfold Cors.Rule.allowOriginValue
  split
  · exact .inl rfl
  · exact .inr rfl

/-- The fields every shared response has are accepted. -/
theorem accepted_sharedFields (allows : rule.allows origin = true) :
    accepted (rule.sharedFields origin) = rule.sharedFields origin := by
  obtain ⟨scheme, host, port, isOrigin⟩ := (Cors.Rule.allows_iff.mp allows).isOrigin
  have named : ∀ {name value : Bytes}, name ∈ varyName :: sharingNames →
      validateFieldValue value = true → (acceptedLine name value).isSome = true :=
    fun member valid => isSome_iff.mpr
      ⟨(names_accepted _ member).1, (names_accepted _ member).2, valid⟩
  refine List.filter_eq_self.mpr ?_
  unfold Cors.Rule.sharedFields
  dsimp only
  simp only [List.forall_mem_append]
  refine ⟨⟨List.forall_mem_singleton.mpr
    (named (List.mem_cons_of_mem _ List.mem_cons_self) ?_), ?_⟩, ?_⟩
  · rcases allowOriginValue_cases rule origin with same | same
    · rw [same]
      decide
    · rw [same]
      exact validateFieldValue_vchars isOrigin.vchars
  · split
    · exact List.forall_mem_singleton.mpr (named (by decide) (by decide))
    · exact fun _ => nofun
  · split
    · exact List.forall_mem_singleton.mpr (named (by decide) (by decide))
    · exact fun _ => nofun

theorem accepted_names {names : List Bytes} {fields : List Cors.Field}
    (each : ∀ field ∈ fields, field.1 ∈ names) : ∀ field ∈ accepted fields, field.1 ∈ names :=
  fun field member => each field (List.mem_filter.mp member).1

theorem sharedFields_names (rule : Cors.Rule) (origin : Bytes) :
    ∀ field ∈ rule.sharedFields origin,
      field.1 ∈ [allowOriginName, allowCredentialsName, varyName] := by
  unfold Cors.Rule.sharedFields
  dsimp only
  simp only [List.forall_mem_append]
  refine ⟨⟨List.forall_mem_singleton.mpr List.mem_cons_self, ?_⟩, ?_⟩
  · split
    · exact List.forall_mem_singleton.mpr (List.mem_cons_of_mem _ List.mem_cons_self)
    · exact fun _ => nofun
  · split
    · refine List.forall_mem_singleton.mpr ?_
      exact List.mem_cons_of_mem _ (List.mem_cons_of_mem _ List.mem_cons_self)
    · exact fun _ => nofun

theorem vary_written (rule : Cors.Rule) (origin : Bytes) :
    Policy.linesOf varyName (rule.sharedFields origin) =
      if IsWildcard rule then [] else [originName] := by
  unfold Cors.Rule.sharedFields
  dsimp only
  rw [Policy.linesOf_append, Policy.linesOf_append, Cors.Rule.linesOf_other (by decide),
    Cors.Rule.linesOf_ite _ (Cors.Rule.linesOf_other
      (show eqIgnoreAsciiCase allowCredentialsName varyName = false by decide)),
    List.nil_append, List.nil_append]
  by_cases wildcard : IsWildcard rule
  · rw [if_pos wildcard, Cors.Rule.allowOriginValue_wildcard wildcard]
    rfl
  · rw [if_neg wildcard, Cors.Rule.allowOriginValue_reflected wildcard]
    exact Cors.Rule.linesOf_self

/-- What an allowed origin is answered. -/
theorem share_allowed (allows : rule.allows origin = true) :
    share rule (some origin) allowOriginName = [(rule.allowOriginValue origin).1] ∧
      share rule (some origin) allowCredentialsName =
        (if rule.credentials then [ascii "true"] else []) ∧
      share rule (some origin) exposeHeadersName =
        Policy.linesOf exposeHeadersName (accepted rule.exposedFields) ∧
      share rule (some origin) varyName = if IsWildcard rule then [] else [originName] := by
  have later := accepted_names (@Cors.Rule.exposedFields_names rule)
  have names : ∀ name, share rule (some origin) name =
      Policy.linesOf name (rule.sharedFields origin) ++
        Policy.linesOf name (accepted rule.exposedFields) := by
    intro name
    show Policy.linesOf name (accepted (if rule.allows origin then _ else _)) = _
    rw [allows, if_pos rfl, accepted_append, Policy.linesOf_append, accepted_sharedFields allows]
  have apart : ∀ name ∈ Cors.Rule.laterNames, eqIgnoreAsciiCase name varyName = false := by
    unfold Cors.Rule.laterNames
    simp only [List.forall_mem_cons]
    decide
  have expose : ∀ name ∈ [allowOriginName, allowCredentialsName, varyName],
      eqIgnoreAsciiCase name exposeHeadersName = false := by
    simp only [List.forall_mem_cons]
    decide
  rw [names, names, names, names, (Cors.Rule.laterNames_apart later).1,
    (Cors.Rule.laterNames_apart later).2, Cors.Rule.sharedFields_allowOrigin,
    Cors.Rule.sharedFields_allowCredentials, vary_written,
    Cors.linesOf_apart fun field member => apart _ (later field member),
    Cors.linesOf_apart fun field member => expose _ (sharedFields_names rule origin field member)]
  simp only [List.append_nil, List.nil_append, and_self]

theorem share_vary_alone : ∀ name, Policy.linesOf name (accepted [(varyName, originName)]) =
    if eqIgnoreAsciiCase varyName name then [originName] else [] := by
  intro name
  have accepts : (acceptedLine varyName originName).isSome = true := by decide
  rw [linesOf_accepted]
  dsimp only
  rw [accepts]
  simp only [and_true]

theorem share_refused (refused : rule.allows origin = false) (name : Bytes) :
    share rule (some origin) name =
      if eqIgnoreAsciiCase varyName name then [originName] else [] := by
  show Policy.linesOf name (accepted (if rule.allows origin then _ else _)) = _
  rw [refused, if_neg Bool.false_ne_true, share_vary_alone]

theorem share_none (name : Bytes) : share rule none name =
    if IsWildcard rule then (if eqIgnoreAsciiCase allowOriginName name then [star] else [])
    else if eqIgnoreAsciiCase varyName name then [originName] else [] := by
  unfold share corsWrites
  dsimp only
  by_cases wildcard : IsWildcard rule
  · have accepts : (acceptedLine allowOriginName star).isSome = true := by decide
    rw [if_pos wildcard, if_pos wildcard, linesOf_accepted]
    dsimp only
    rw [accepts]
    simp only [and_true]
  · rw [if_neg wildcard, if_neg wildcard, share_vary_alone]

/-- The headers a rule exposes are written exactly if it has some. -/
theorem exposed_iff (rule : Cors.Rule) :
    Policy.linesOf exposeHeadersName (accepted rule.exposedFields) ≠ [] ↔ Exposes rule := by
  have named := names_accepted exposeHeadersName (by decide)
  unfold Exposes Cors.Rule.exposedFields
  dsimp only
  split
  · rw [linesOf_accepted]
    simp only [List.mem_singleton, Prod.mk.injEq, true_and, exists_eq_left]
    by_cases valid : validateFieldValue (join (rule.exposeHeaders.filter fun name =>
        name ≠ star ∨ rule.wildcardAllowed)) = true
    · rw [if_pos ⟨Policy.eqIgnoreAsciiCase_self _, isSome_iff.mpr ⟨named.1, named.2, valid⟩⟩]
      exact iff_of_true (List.cons_ne_nil _ _) valid
    · rw [if_neg fun both => valid (isSome_iff.mp both.2).2.2]
      exact iff_of_false (not_not_intro rfl) valid
  · refine iff_of_false (not_not_intro rfl) ?_
    rintro ⟨value, none_, -⟩
    cases none_

end Written

/-! ### What a rule writes for a request -/

section Requests

variable {rule : Cors.Rule} {origin : Option Bytes}

theorem vary_apart : eqIgnoreAsciiCase varyName allowOriginName = false ∧
    eqIgnoreAsciiCase varyName allowCredentialsName = false ∧
    eqIgnoreAsciiCase varyName exposeHeadersName = false ∧
    eqIgnoreAsciiCase varyName varyName = true := by decide

theorem allowOrigin_apart : eqIgnoreAsciiCase allowOriginName allowOriginName = true ∧
    eqIgnoreAsciiCase allowOriginName allowCredentialsName = false ∧
    eqIgnoreAsciiCase allowOriginName exposeHeadersName = false ∧
    eqIgnoreAsciiCase allowOriginName varyName = false := by decide

/-- A rule with one value for every origin tells the origins apart that it allows, those it refuses
and, if it exposes headers, the requests without one. -/
theorem share_wildcard (wildcard : IsWildcard rule) :
    share rule origin allowOriginName = (if origin.all rule.allows then [star] else []) ∧
      share rule origin allowCredentialsName = [] ∧
      share rule origin exposeHeadersName = (if origin.any rule.allows then
        Policy.linesOf exposeHeadersName (accepted rule.exposedFields) else []) ∧
      share rule origin varyName = if origin.all rule.allows then [] else [originName] := by
  obtain ⟨noOrigin, noCredentials, noHeaders, vary⟩ := vary_apart
  obtain ⟨itself, credentials, headers, other⟩ := allowOrigin_apart
  cases origin with
  | none =>
    simp only [share_none, if_pos wildcard, itself, credentials, headers, other]
    exact ⟨rfl, rfl, rfl, rfl⟩
  | some origin =>
    rw [Option.all_some, Option.any_some]
    cases allows : rule.allows origin with
    | true =>
      obtain ⟨origin_, credentials_, headers_, vary_⟩ := share_allowed allows
      rw [origin_, credentials_, headers_, vary_, Cors.Rule.allowOriginValue_wildcard wildcard,
        if_pos wildcard, wildcard.2]
      exact ⟨rfl, rfl, rfl, rfl⟩
    | false =>
      simp only [share_refused allows, noOrigin, noCredentials, noHeaders, vary]
      exact ⟨rfl, rfl, rfl, rfl⟩

/-- Any other rule says in every response that it varies. -/
theorem share_vary (apart : ¬IsWildcard rule) : share rule origin varyName = [originName] := by
  cases origin with
  | none => rw [share_none, if_neg apart, if_pos vary_apart.2.2.2]
  | some origin =>
    cases allows : rule.allows origin with
    | true => rw [(share_allowed allows).2.2.2, if_neg apart]
    | false => rw [share_refused allows, if_pos vary_apart.2.2.2]

/-- A rule writes a field for a request. -/
def Writes (rule : Cors.Rule) (origin : Option Bytes) (name : Bytes) : Prop :=
  origin.any rule.allows = true ∧ (name = allowOriginName ∨
      name = allowCredentialsName ∧ rule.credentials = true ∨
      name = exposeHeadersName ∧ Exposes rule) ∨
    origin = none ∧ IsWildcard rule ∧ name = allowOriginName

theorem names_apart : allowOriginName ≠ allowCredentialsName ∧ allowOriginName ≠ exposeHeadersName ∧
    allowCredentialsName ≠ exposeHeadersName := by decide

theorem mem_sharingNames : name ∈ sharingNames ↔
    name = allowOriginName ∨ name = allowCredentialsName ∨ name = exposeHeadersName := by
  unfold sharingNames
  rw [List.mem_cons, List.mem_cons, List.mem_singleton]

theorem unvaried (sharing : name ∈ sharingNames) : eqIgnoreAsciiCase varyName name = false := by
  obtain ⟨noOrigin, noCredentials, noHeaders, -⟩ := vary_apart
  rcases mem_sharingNames.mp sharing with rfl | rfl | rfl
  · exact noOrigin
  · exact noCredentials
  · exact noHeaders

theorem share_none_iff (sharing : name ∈ sharingNames) :
    share rule none name ≠ [] ↔ IsWildcard rule ∧ name = allowOriginName := by
  obtain ⟨itself, credentials, headers, -⟩ := allowOrigin_apart
  obtain ⟨first, second, -⟩ := names_apart
  rw [share_none, unvaried sharing, if_neg Bool.false_ne_true]
  by_cases wildcard : IsWildcard rule
  · rw [if_pos wildcard, and_iff_right wildcard]
    rcases mem_sharingNames.mp sharing with rfl | rfl | rfl
    · rw [if_pos itself]
      exact iff_of_true (List.cons_ne_nil _ _) rfl
    · rw [credentials, if_neg Bool.false_ne_true]
      exact iff_of_false (not_not_intro rfl) first.symm
    · rw [headers, if_neg Bool.false_ne_true]
      exact iff_of_false (not_not_intro rfl) second.symm
  · rw [if_neg wildcard]
    exact iff_of_false (not_not_intro rfl) fun both => wildcard both.1

theorem share_allowed_iff {given : Bytes} (allows : rule.allows given = true)
    (sharing : name ∈ sharingNames) : share rule (some given) name ≠ [] ↔
      name = allowOriginName ∨ name = allowCredentialsName ∧ rule.credentials = true ∨
        name = exposeHeadersName ∧ Exposes rule := by
  obtain ⟨origin_, credentials_, headers_, -⟩ := share_allowed allows
  obtain ⟨first, second, third⟩ := names_apart
  rcases mem_sharingNames.mp sharing with rfl | rfl | rfl
  · rw [origin_]
    exact iff_of_true (List.cons_ne_nil _ _) (.inl rfl)
  · rw [credentials_, or_iff_right first.symm, and_iff_right rfl,
      or_iff_left fun both => third both.1]
    cases rule.credentials with
    | true => exact iff_of_true (List.cons_ne_nil _ _) rfl
    | false => exact iff_of_false (not_not_intro rfl) Bool.false_ne_true
  · rw [headers_, exposed_iff, or_iff_right second.symm, or_iff_right fun both => third both.1.symm,
      and_iff_right rfl]

/-- What is written is what the rule means to write. -/
theorem share_iff (sharing : name ∈ sharingNames) :
    share rule origin name ≠ [] ↔ Writes rule origin name := by
  unfold Writes
  cases origin with
  | none =>
    rw [share_none_iff sharing, and_iff_right rfl]
    exact (or_iff_right fun both => Bool.false_ne_true both.1).symm
  | some given =>
    rw [Option.any_some, or_iff_left fun both => nomatch both.1]
    cases allows : rule.allows given with
    | true => rw [share_allowed_iff allows sharing, and_iff_right rfl]
    | false =>
      rw [share_refused allows, unvaried sharing, if_neg Bool.false_ne_true]
      exact iff_of_false (not_not_intro rfl) fun both => Bool.false_ne_true both.1

end Requests

/-! ### Safe caches -/

variable {rule : Cors.Rule}

/-- A `Vary` line among the values names the origin. -/
def Varies (lines : List ResponseField) : Prop :=
  ∃ value ∈ valuesOf varyName lines, ∃ member ∈ listElements value,
    eqIgnoreAsciiCase member originName = true

/-- Every sharing field stands on one line at most. -/
def AtMostOnce (lines : List ResponseField) : Prop :=
  ∀ name ∈ sharingNames, (valuesOf name lines).length ≤ 1

/-- The lines a response to a request has, behind those the host wrote. -/
def Responds (policies : List (Bytes × Cors.Rule)) (path : Bytes) (method : Option Method)
    (origin : Option Bytes) (calls : List ResponseCall) (lines : List ResponseField) : Prop :=
  (corsFields (Rules.new policies) method origin (Response.fresh.after calls) path).fields =
    block lines

/-- The responses to two requests that differ in their origin alone can be cached: where the sharing
fields written for them differ both name the origin, and neither has a sharing field twice. -/
def CacheSafe (policies : List (Bytes × Cors.Rule)) (path : Bytes) (method : Option Method)
    (origin other : Option Bytes) (calls : List ResponseCall) : Prop :=
  ∃ lines lines', Responds policies path method origin calls lines ∧
    Responds policies path method other calls lines' ∧
    ((∃ name ∈ sharingNames,
        Policy.linesOf name (accepted (written (Rules.new policies) path origin)) ≠
          Policy.linesOf name (accepted (written (Rules.new policies) path other))) →
      Varies lines ∧ Varies lines') ∧
    AtMostOnce lines ∧ AtMostOnce lines'

/-- Two requests are alike to a rule with one value for every origin: both are shared or neither,
and if headers are exposed both or neither have an origin. -/
def Alike (rule : Cors.Rule) (origin other : Option Bytes) : Prop :=
  origin.all rule.allows = other.all rule.allows ∧
    (Exposes rule → origin.any rule.allows = other.any rule.allows)

/-- When caching is safe: a rule with one value for every origin sees like requests, or the host
names the origin itself, and the host does not repeat a field the rule does not write. -/
def SafeWhen (policies : List (Bytes × Cors.Rule)) (path : Bytes) (origin other : Option Bytes)
    (lines : List ResponseField) : Prop :=
  match covering (Rules.new policies).cors path with
  | none => AtMostOnce lines
  | some rule =>
    (IsWildcard rule → Alike rule origin other ∨ Varies lines) ∧
      ∀ given ∈ [origin, other], ∀ name ∈ sharingNames,
        (valuesOf name lines).length ≤ 1 ∨ Writes rule given name

theorem responds_iff (policies : List (Bytes × Cors.Rule)) (path : Bytes) (method : Option Method)
    (origin : Option Bytes) (calls : List ResponseCall) (lines : List ResponseField) :
    Responds policies path method origin calls lines ↔
      lines = edited (acceptedLines calls) (written (Rules.new policies) path origin) := by
  have answered : (corsFields (Rules.new policies) method origin (Response.fresh.after calls)
      path).fields =
      block (edited (acceptedLines calls) (written (Rules.new policies) path origin)) := by
    rw [corsFields_eq, writeFields_after]
    unfold Response.after
    rw [← List.foldl_append]
    refine (fields_after _).trans ?_
    unfold acceptedLines edited
    rw [List.foldl_append]
  unfold Responds
  rw [answered]
  exact ⟨fun same => (block_injective same).symm, fun same => congrArg block same.symm⟩

theorem varies_edited (rule : Cors.Rule) (origin : Option Bytes) (lines : List ResponseField) :
    Varies (edited lines (corsWrites rule origin)) ↔
      Varies lines ∨ ¬(IsWildcard rule ∧ origin.all rule.allows = true) := by
  have named : ∃ value ∈ [originName], ∃ member ∈ listElements value,
      eqIgnoreAsciiCase member originName = true :=
    ⟨originName, List.mem_singleton_self _, originName, by decide, by decide⟩
  unfold Varies
  rw [valuesOf_vary]
  simp only [List.mem_append, or_and_right, exists_or]
  refine or_congr_right ?_
  change (∃ value ∈ share rule origin varyName, _) ↔ _
  by_cases wildcard : IsWildcard rule
  · rw [(share_wildcard wildcard).2.2.2, and_iff_right wildcard]
    cases origin.all rule.allows with
    | true =>
      rw [if_pos rfl]
      refine iff_of_false ?_ (not_not_intro rfl)
      rintro ⟨value, none_, -⟩
      cases none_
    | false =>
      rw [if_neg Bool.false_ne_true]
      exact iff_of_true named Bool.false_ne_true
  · rw [share_vary wildcard]
    exact iff_of_true named fun both => wildcard both.1

theorem atMostOnce_edited (rule : Cors.Rule) (origin : Option Bytes) (lines : List ResponseField) :
    AtMostOnce (edited lines (corsWrites rule origin)) ↔
      ∀ name ∈ sharingNames, (valuesOf name lines).length ≤ 1 ∨ Writes rule origin name := by
  refine forall₂_congr fun name sharing => ?_
  have plain : eqIgnoreAsciiCase name (ascii "vary") = false := by
    rcases mem_sharingNames.mp sharing with rfl | rfl | rfl <;> decide
  rw [valuesOf_edited plain, ← share_iff sharing]
  change List.length (Option.elim (share rule origin name).getLast? _ _) ≤ 1 ↔ _
  cases held : share rule origin name with
  | nil => exact (or_iff_left (not_not_intro rfl)).symm
  | cons value rest =>
    rw [List.getLast?_eq_some_getLast (List.cons_ne_nil _ _)]
    exact iff_of_true (Nat.le_refl 1) (.inr (List.cons_ne_nil _ _))

theorem ite_eq_ite_iff {Item : Type} {items : List Item} {first second : Bool} :
    (if first then items else []) = (if second then items else []) ↔
      (items ≠ [] → first = second) := by
  cases items with
  | nil => simp
  | cons item items => cases first <;> cases second <;> simp

theorem differ_iff (wildcard : IsWildcard rule) (origin other : Option Bytes) :
    (∃ name ∈ sharingNames, share rule origin name ≠ share rule other name) ↔
      ¬Alike rule origin other := by
  rw [← not_iff_not, not_not]
  simp only [not_exists, not_and, not_not]
  obtain ⟨origin_, credentials_, headers_, -⟩ := @share_wildcard rule origin wildcard
  obtain ⟨otherOrigin, otherCredentials, otherHeaders, -⟩ := @share_wildcard rule other wildcard
  unfold sharingNames
  rw [List.forall_mem_cons, List.forall_mem_cons, List.forall_mem_singleton, origin_, credentials_,
    headers_, otherOrigin, otherCredentials, otherHeaders, ite_eq_ite_iff, ite_eq_ite_iff,
    exposed_iff]
  unfold Alike
  exact and_congr (forall_prop_of_true (List.cons_ne_nil _ _)) (and_iff_right rfl)

/-- Where sharing differs, not both requests are refused. -/
theorem Alike.of_refused {origin other : Option Bytes} (refused : origin.all rule.allows = false)
    (refused' : other.all rule.allows = false) : Alike rule origin other := by
  have unshared : ∀ {given : Option Bytes}, given.all rule.allows = false →
      given.any rule.allows = false := by
    intro given refused
    cases given with
    | none => rfl
    | some given => exact refused
  exact ⟨refused.trans refused'.symm, fun _ => (unshared refused).trans (unshared refused').symm⟩

/-- What is written for two requests, whichever rule covers the path. -/
theorem cacheSafe_iff_lines (policies : List (Bytes × Cors.Rule)) (path : Bytes)
    (method : Option Method) (origin other : Option Bytes) (calls : List ResponseCall) :
    CacheSafe policies path method origin other calls ↔
      let lines := edited (acceptedLines calls) (written (Rules.new policies) path origin)
      let lines' := edited (acceptedLines calls) (written (Rules.new policies) path other)
      ((∃ name ∈ sharingNames,
          Policy.linesOf name (accepted (written (Rules.new policies) path origin)) ≠
            Policy.linesOf name (accepted (written (Rules.new policies) path other))) →
        Varies lines ∧ Varies lines') ∧
      AtMostOnce lines ∧ AtMostOnce lines' := by
  unfold CacheSafe
  simp only [responds_iff]
  constructor
  · rintro ⟨lines, lines', rfl, rfl, safe⟩
    exact safe
  · intro safe
    exact ⟨_, _, rfl, rfl, safe⟩

/-- Two requests that differ in their origin alone are answered so that a cache can hand the answer
of one to the other, exactly if the rule sees them alike or names the origin, and the host repeats
no field the rule leaves. -/
theorem cacheSafe_iff (policies : List (Bytes × Cors.Rule)) (path : Bytes)
    (method : Option Method) (origin other : Option Bytes) (calls : List ResponseCall) :
    CacheSafe policies path method origin other calls ↔
      SafeWhen policies path origin other (acceptedLines calls) := by
  rw [cacheSafe_iff_lines]
  unfold SafeWhen written
  cases covering (Rules.new policies).cors path with
  | none =>
    refine ⟨fun safe => safe.2.1, fun once => ⟨?_, once, once⟩⟩
    rintro ⟨name, -, differ⟩
    exact absurd rfl differ
  | some rule =>
    dsimp only [Option.elim]
    rw [atMostOnce_edited, atMostOnce_edited, varies_edited, varies_edited,
      List.forall_mem_cons, List.forall_mem_singleton]
    refine and_congr_left fun _ => ?_
    by_cases wildcard : IsWildcard rule
    · rw [forall_prop_of_true wildcard, and_iff_right wildcard, and_iff_right wildcard]
      change ((∃ name ∈ sharingNames, share rule origin name ≠ share rule other name) → _) ↔ _
      rw [differ_iff wildcard]
      constructor
      · intro safe
        by_contra unsafe_
        obtain ⟨apart, silent⟩ := not_or.mp unsafe_
        obtain ⟨first, second⟩ := safe apart
        exact apart (.of_refused (Bool.eq_false_iff.mpr (first.resolve_left silent))
          (Bool.eq_false_iff.mpr (second.resolve_left silent)))
      · intro safe apart
        have varies := safe.resolve_left apart
        exact ⟨.inl varies, .inl varies⟩
    · refine iff_of_true (fun _ => ⟨.inr ?_, .inr ?_⟩) fun held => absurd held wildcard
      · exact fun both => wildcard both.1
      · exact fun both => wildcard both.1

/-- A rule for every origin that exposes a header: a response to a request without an origin lacks
the exposed header, and neither says that it varies. -/
theorem exposing_not_cacheSafe :
    ¬CacheSafe [(ascii "/", { exposeHeaders := [ascii "X-Id"] })] (ascii "/feed") (some .get) none
      (some (ascii "https://a.example")) [] := by
  rw [cacheSafe_iff_lines]
  rintro ⟨safe, -, -⟩
  obtain ⟨varies, -⟩ := safe ⟨exposeHeadersName, by decide, by decide⟩
  exact absurd varies (by unfold Varies; decide)

end ZeroServer.Host

/-
This file models the answer of a static route to a request path: what the path selects, and what is
written of the file. A request's own path keeps its query, and no path with a query names a file, so
the same path without the query is answered otherwise.
-/

import ZeroServer.Http.Call
import ZeroServer.Http.Request
import ZeroServer.Static.Cond
import ZeroServer.Static.Headers
import ZeroServer.Static.Multipart

namespace ZeroServer.Static

open Http1 Http Lib Uri Date

/-! ### Settings -/

/-- How a root is served, with what it writes. -/
structure Settings extends Options where
  cache : CachePolicy
  ranges : Bool
  attachment : Bool
  deriving DecidableEq

/-- What serving a path came to. -/
inductive Served where
  | written
  | miss
  deriving DecidableEq

/-- Which conditional fields an answer evaluates. -/
inductive Evaluated where
  | all
  | preconditions
  | neither
  deriving DecidableEq

/-! ### Drafts -/

/-- Writing to a response, which a refused call ends. -/
abbrev Draft := ExceptT Codec (StateM Response)

namespace Draft

def status (code : StatusCode) : Draft Unit := fun response => (.ok (), response.setStatus code)

def header (name value : Bytes) : Draft Unit := fun response => response.header name value

def headerId (name : HeaderName) (value : Bytes) : Draft Unit := fun response =>
  response.headerId name value

def contentType (value : Bytes) : Draft Unit := fun response => response.contentType value

def body (bytes : Bytes) : Draft Unit := fun response => (.ok (), response.appendBody bytes)

/-- A draft that is made under a condition. -/
def provided (condition : Bool) (draft : Draft Unit) : Draft Unit :=
  if condition then draft else pure ()

/-- What a draft makes of a response. -/
def perform {Value : Type} (draft : Draft Value) (response : Response) :
    Except Codec Value × Response := draft response

end Draft

/-! ### The file -/

section Writing

variable (windows : Bool) (settings : Settings)

/-- Write `Content-Disposition: attachment` with the file's name, for a download root. A name that
is served is text. -/
def disposition (relative : Bytes) : Draft Unit :=
  let name := ((fileName windows relative).bind Utf8.decode).getD []
  Draft.provided settings.attachment
    (Draft.header (ascii "Content-Disposition") (writeAttachment [] name))

/-- What separates the parts of a file. -/
def boundaryOf (etag : Bytes) : Bytes := ascii "zero-" ++ etag.filter isAsciiAlphanumeric

/-- Write the ranges of a file. -/
def writeRanges (entry : Entry) (ranges : List (Nat × Nat)) : Draft Unit :=
  match ranges with
  | [single] => do
    Draft.headerId .contentRange (contentRange single entry.bytes.length)
    Draft.contentType entry.contentType
    Draft.body ((slice entry.bytes single).getD [])
  | _ => do
    let boundary := boundaryOf entry.etag
    Draft.contentType (ascii "multipart/byteranges; boundary=" ++ boundary)
    Draft.body (writeMultipart [] entry.bytes ranges entry.contentType boundary)

/-- Write a file, or the part of it that a range selects. -/
def writeContent (entry : Entry) (range : Option Bytes) : Draft Unit :=
  match range.map fun range => resolveRange range (UInt64.ofNat entry.bytes.length) with
  | none | some .ignore => do
    Draft.contentType entry.contentType
    Draft.body entry.bytes
  | some .unsatisfiable | some .refused => do
    Draft.status .rangeNotSatisfiable
    Draft.headerId .contentRange (unsatisfiedRange entry.bytes.length)
  | some (.satisfiable ranges) => do
    Draft.status .partialContent
    writeRanges entry ranges

/-- The precondition fields of a request. -/
def preconditionsOf (request : Request) (ranged : Bool) : Preconditions where
  ifMatch := request.headerId .ifMatch
  ifNoneMatch := request.headerId .ifNoneMatch
  ifModifiedSince := request.headerId .ifModifiedSince
  ifUnmodifiedSince := request.headerId .ifUnmodifiedSince
  ifRange := request.headerId .ifRange
  range := if ranged then request.headerId .range else none

/-- The current validators of a file. -/
def validatorsOf (entry : Entry) (now : Nat) : Validators where
  etag := EntityTag.parse entry.etag
  lastModified := some (lastModifiedFor entry.modified.seconds.toNat now)

/-- The fields that an answer with the file and one without it share. -/
def writeShared (entry : Entry) : Draft Unit := do
  Draft.headerId .eTag entry.etag
  let cacheControl := settings.cache.write []
  Draft.provided (cacheControl ≠ []) (Draft.headerId .cacheControl cacheControl)

def writeLastModified (entry : Entry) (now : Nat) : Draft Unit :=
  match imfFixdate (lastModifiedFor entry.modified.seconds.toNat now) with
  | some date => Draft.headerId .lastModified date
  | none => pure ()

/-- Write what the preconditions decided. -/
def writeOutcome (ranged : Bool) (now : Nat) (relative : Bytes) (entry : Entry) :
    Outcome → Draft Unit
  | .notModified => Draft.status .notModified
  | .preconditionFailed => Draft.status .preconditionFailed
  | .proceed range => do
    writeLastModified entry now
    Draft.provided ranged (Draft.headerId .acceptRanges (ascii "bytes"))
    disposition windows settings relative
    writeContent entry range

/-- Write the answer with a file that was found. -/
def writeFile (request : Request) (evaluated : Evaluated) (now : Nat) (relative : Bytes)
    (entry : Entry) : Draft Unit :=
  if evaluated = .neither then do
    disposition windows settings relative
    Draft.contentType entry.contentType
    Draft.body entry.bytes
  else do
    let ranged := settings.ranges && evaluated = .all
    writeShared settings entry
    writeOutcome windows settings ranged now relative entry
      (evaluate request.method (preconditionsOf request ranged) (validatorsOf entry now) now)

/-! ### The answer -/

/-- What a request selects, before anything is written. -/
inductive Selected where
  | methodNotAllowed
  | forbidden
  | miss
  | file (relative : Bytes) (entry : Entry)
  deriving DecidableEq

variable {Store : Type} (entry : Bytes → StateM Store (Option Entry))

def select (method : Option Method) (path : Bytes) : StateM Store Selected :=
  if ¬ (method = some .get ∨ method = some .head) then pure .methodNotAllowed
  else
    match resolve windows settings.toOptions path with
    | .error .forbidden => pure .forbidden
    | .error (.refused _) => pure .miss
    | .ok located => do
      match ← find windows settings.toOptions entry located with
      | some (relative, found) => pure (.file relative found)
      | none => pure .miss

/-- Write what was selected. -/
def writeSelected (request : Request) (evaluated : Evaluated) (now : Nat) :
    Selected → Draft Served
  | .methodNotAllowed => do
    Draft.status .methodNotAllowed
    Draft.headerId .allow (ascii "GET, HEAD")
    return .written
  | .forbidden => do
    Draft.status .forbidden
    return .written
  | .miss => return .miss
  | .file relative found => do
    writeFile windows settings request evaluated now relative found
    return .written

/-- The file answer, evaluating the conditional fields that apply. -/
def answer (request : Request) (path : Bytes) (evaluated : Evaluated) (now : Nat) (store : Store)
    (response : Response) : (Except Codec Served × Response) × Store :=
  let (selected, store) := select windows settings entry request.method path store
  (writeSelected windows settings request evaluated now selected response, store)

/-- Serve the request for a path under the root, or report a miss without writing anything. -/
def tryServePath (request : Request) (path : Bytes) :
    Nat → Store → Response → (Except Codec Served × Response) × Store :=
  answer windows settings entry request path .all

/-- Serve the request for a path under the root, answering a miss with 404. -/
def servePath (request : Request) (path : Bytes) (now : Nat) (store : Store)
    (response : Response) : (Except Codec Unit × Response) × Store :=
  match tryServePath windows settings entry request path now store response with
  | ((.error refused, response), store) => ((.error refused, response), store)
  | ((.ok .miss, response), store) => ((.ok (), response.setStatus .notFound), store)
  | ((.ok .written, response), store) => ((.ok (), response), store)

/-- Serve the request at its own path, or report a miss without writing. -/
def tryServe (request : Request) :
    Nat → Store → Response → (Except Codec Served × Response) × Store :=
  tryServePath windows settings entry request request.path

/-- Serve the request at its own path, answering a miss with 404. -/
def serve (request : Request) :
    Nat → Store → Response → (Except Codec Unit × Response) × Store :=
  servePath windows settings entry request request.path

end Writing

/-! ### Paths with a query -/

theorem question_notMem_text {item : Item} (valid : item.Valid) : question ∉ item.text := by
  have apart : isPchar question = false ∧ question ≠ slash ∧ question ≠ percent ∧
      hexValue question = none := by decide
  intro member
  cases item with
  | plain byte =>
    obtain rfl := List.mem_singleton.mp member
    rcases valid with slash_ | pchar
    · exact apart.2.1 slash_
    · rw [apart.1] at pchar
      cases pchar
  | triplet high low =>
    obtain ⟨highDigit, lowDigit⟩ := valid
    rcases List.mem_cons.mp member with here | later
    · exact apart.2.2.1 here
    rcases List.mem_cons.mp later with rfl | last
    · rw [apart.2.2.2] at highDigit
      cases highDigit
    · obtain rfl := List.mem_singleton.mp last
      rw [apart.2.2.2] at lowDigit
      cases lowDigit

/-- No path with the mark of a query is normalized. -/
theorem normalizePath_question {path : Bytes} (member : question ∈ path) :
    ∃ refused, normalizePath path = .error refused := by
  rcases done : normalizePath path with refused | normal
  · exact ⟨refused, rfl⟩
  · obtain ⟨items, rfl, valid, -⟩ := normalizePath_ok done
    obtain ⟨item, held, inside⟩ := List.mem_flatMap.mp member
    exact absurd inside (question_notMem_text (valid item held))

/-! ### What a draft leaves -/

variable {after : Response}

namespace Draft

variable {Value Other : Type} {draft : Draft Value} {next : Value → Draft Other}
  {response : Response} {name : HeaderName} {value : Bytes}

theorem perform_pure (value : Value) : (pure value : Draft Value).perform response =
    (.ok value, response) := rfl

theorem perform_ok {found : Value} (done : draft.perform response = (.ok found, after)) :
    (draft >>= next).perform response = (next found).perform after := by
  unfold perform at done ⊢
  simp only [Bind.bind, ExceptT.bind, ExceptT.mk, StateT.bind, done]
  rfl

theorem perform_error {refused : Codec} (done : draft.perform response = (.error refused, after)) :
    (draft >>= next).perform response = (.error refused, after) := by
  unfold perform at done ⊢
  simp only [Bind.bind, ExceptT.bind, ExceptT.mk, StateT.bind, done]
  rfl

/-- A draft that leaves the fields that were there and adds to them. -/
def Appends (draft : Draft Value) : Prop :=
  ∀ response, response.fields <+: (draft.perform response).2.fields

theorem appends_pure (value : Value) : Appends (pure value) := fun _ => List.prefix_rfl

theorem Appends.bind (first : Appends draft) (second : ∀ value, Appends (next value)) :
    Appends (draft >>= next) := by
  intro response
  have grown := first response
  rcases done : draft.perform response with ⟨refused | found, after⟩ <;> rw [done] at grown
  · rw [perform_error done]
    exact grown
  · rw [perform_ok done]
    exact grown.trans (second found after)

theorem appends_status (code : StatusCode) : Appends (status code) := fun _ => List.prefix_rfl

theorem appends_body (bytes : Bytes) : Appends (body bytes) := fun _ => List.prefix_rfl

theorem pushLine_prefix (response : Response) (name value : Bytes) :
    response.fields <+: (response.pushLine name value).2.fields := by
  unfold Response.pushLine
  split
  · exact List.prefix_rfl
  · simp only [List.append_assoc]
    exact List.prefix_append _ _

theorem appends_header (name value : Bytes) : Appends (header name value) := by
  intro response
  show _ <+: (response.header name value).2.fields
  unfold Response.header
  split
  · exact List.prefix_rfl
  · exact pushLine_prefix response name value

theorem appends_headerId (name : HeaderName) (value : Bytes) : Appends (headerId name value) := by
  intro response
  show _ <+: (response.headerId name value).2.fields
  unfold Response.headerId
  split
  · exact List.prefix_rfl
  · exact pushLine_prefix response _ value

theorem appends_contentType (value : Bytes) : Appends (contentType value) :=
  appends_headerId .contentType value

theorem Appends.provided {draft : Draft Unit} (appends : Appends draft) (condition : Bool) :
    Appends (Draft.provided condition draft) := by
  unfold Draft.provided
  split
  · exact appends
  · exact appends_pure ()

/-- A line under an interned name that the driver does not write itself is added, or refused. -/
theorem perform_headerId (free : driverFields.contains name = false) (value : Bytes) :
    (headerId name value).perform response =
      if validateFieldValue value then
        (.ok (), { response with
          fields := response.fields ++ fieldText (ascii name.canonical) value
          touched := true })
      else (.error (ascii "invalid field value"), response) := by
  show response.headerId name value = _
  unfold Response.headerId checkId
  rw [free, if_neg Bool.false_ne_true]
  dsimp only
  unfold Response.pushLine checkValue
  split
  · rename_i refused checked
    split at checked
    · cases checked
    · rename_i invalid
      rw [if_neg invalid, ← Except.error.inj checked]
  · rename_i checked
    split at checked
    · rename_i valid
      rw [if_pos valid]
      unfold fieldText
      simp only [List.append_assoc]
    · cases checked

end Draft

section Files

variable {windows : Bool} {settings : Settings} {request : Request} {entry : Entry}

theorem appends_disposition (relative : Bytes) : (disposition windows settings relative).Appends :=
  (Draft.appends_header _ _).provided _

theorem appends_writeContent (range : Option Bytes) : (writeContent entry range).Appends := by
  unfold writeContent
  split
  · exact (Draft.appends_contentType _).bind fun _ => Draft.appends_body _
  · exact (Draft.appends_contentType _).bind fun _ => Draft.appends_body _
  · exact (Draft.appends_status _).bind fun _ => Draft.appends_headerId _ _
  · exact (Draft.appends_status _).bind fun _ => Draft.appends_headerId _ _
  · refine (Draft.appends_status _).bind fun _ => ?_
    unfold writeRanges
    split
    · exact (Draft.appends_headerId _ _).bind fun _ =>
        (Draft.appends_contentType _).bind fun _ => Draft.appends_body _
    · exact (Draft.appends_contentType _).bind fun _ => Draft.appends_body _

theorem appends_writeLastModified (now : Nat) : (writeLastModified entry now).Appends := by
  unfold writeLastModified
  split
  · exact Draft.appends_headerId _ _
  · exact Draft.appends_pure ()

theorem appends_outcome (ranged : Bool) (now : Nat) (relative : Bytes) (outcome : Outcome) :
    (writeOutcome windows settings ranged now relative entry outcome).Appends := by
  cases outcome with
  | notModified => exact Draft.appends_status _
  | preconditionFailed => exact Draft.appends_status _
  | proceed range =>
    exact (appends_writeLastModified now).bind fun _ =>
      ((Draft.appends_headerId _ _).provided ranged).bind fun _ =>
        (appends_disposition relative).bind fun _ => appends_writeContent range

/-- A file whose answer is not refused is answered with its entity tag, behind the fields that were
there. -/
theorem writeFile_tag {evaluated : Evaluated} (some_ : evaluated ≠ .neither) {now : Nat}
    {relative : Bytes} {response : Response}
    (done : (writeFile windows settings request evaluated now relative entry).perform response =
      (.ok (), after)) :
    response.fields ++ fieldText (ascii "ETag") entry.etag <+: after.fields := by
  unfold writeFile at done
  rw [if_neg some_] at done
  dsimp only at done
  unfold writeShared at done
  rw [bind_assoc] at done
  have tagged := @Draft.perform_headerId response .eTag (by decide) entry.etag
  split at tagged
  · rw [Draft.perform_ok tagged] at done
    have rest := ((Draft.appends_headerId .cacheControl (settings.cache.write [])).provided
      (settings.cache.write [] ≠ [])).bind fun _ =>
        @appends_outcome windows settings entry (settings.ranges && evaluated = .all) now relative
          (evaluate request.method (preconditionsOf request (settings.ranges && evaluated = .all))
            (validatorsOf entry now) now)
    have grown := rest { response with
      fields := response.fields ++ fieldText (ascii "ETag") entry.etag, touched := true }
    exact grown.trans (congrArg (fun result => result.2.fields) done ▸ List.prefix_rfl)
  · rw [Draft.perform_error tagged] at done
    cases done

end Files

/-! ### The query of a request -/

section Queries

variable {windows : Bool} {settings : Settings} {Store : Type}
  {entry : Bytes → StateM Store (Option Entry)} {request : Request} {now : Nat} {store : Store}
  {response : Response}

theorem resolve_question {options : Options} {path : Bytes} (member : question ∈ path) :
    resolve windows options path = .error (.refused .policy) := by
  obtain ⟨refused, same⟩ := normalizePath_question member
  unfold resolve
  rw [same]

/-- A path the root serves. -/
def Serves (windows : Bool) (settings : Settings) (entry : Bytes → StateM Store (Option Entry))
    (store : Store) (path : Bytes) : Prop :=
  ∃ located found later, resolve windows settings.toOptions path = .ok located ∧
    find windows settings.toOptions entry located store = (some found, later)

theorem tryServe_question (getOrHead : request.method = some .get ∨ request.method = some .head)
    (member : question ∈ request.path) :
    tryServe windows settings entry request now store response = ((.ok .miss, response), store) := by
  unfold tryServe tryServePath answer select
  rw [if_neg (not_not_intro getOrHead), resolve_question member]
  rfl

theorem serve_question (getOrHead : request.method = some .get ∨ request.method = some .head)
    (member : question ∈ request.path) :
    serve windows settings entry request now store response =
      ((.ok (), response.setStatus .notFound), store) := by
  have missed := @tryServe_question windows settings Store entry request now store response
    getOrHead member
  unfold tryServe at missed
  unfold serve servePath
  rw [missed]

/-- A path the root serves is answered with the file, behind the fields that were there. -/
theorem tryServe_serves (getOrHead : request.method = some .get ∨ request.method = some .head)
    (serves : Serves windows settings entry store request.path) :
    (∃ refused, (tryServe windows settings entry request now store response).1.1 =
        .error refused) ∨
      ∃ after, (tryServe windows settings entry request now store response).1 =
        (.ok .written, after) ∧ response.fields.length < after.fields.length := by
  obtain ⟨located, ⟨relative, held⟩, later, resolved, found⟩ := serves
  have selected : select windows settings entry request.method request.path store =
      (.file relative held, later) := by
    unfold select
    rw [if_neg (not_not_intro getOrHead), resolved]
    simp only [Bind.bind, StateT.bind, found]
    rfl
  unfold tryServe tryServePath answer
  rw [selected]
  show (∃ refused, ((writeFile windows settings request .all now relative held >>= fun _ =>
      pure Served.written).perform response).1 = .error refused) ∨
    ∃ after, (writeFile windows settings request .all now relative held >>= fun _ =>
      pure Served.written).perform response = (.ok .written, after) ∧ _
  rcases done : (writeFile windows settings request .all now relative held).perform response with
    ⟨refused | finished, after⟩
  · refine .inl ⟨refused, ?_⟩
    rw [Draft.perform_error done]
  · refine .inr ⟨after, ?_, ?_⟩
    · rw [Draft.perform_ok done]
      rfl
    · obtain ⟨more, whole⟩ := writeFile_tag (by decide) done
      rw [← whole, List.append_assoc, List.length_append]
      refine Nat.lt_add_of_pos_right (List.length_pos_iff.mpr ?_)
      refine List.append_ne_nil_of_left_ne_nil ?_ more
      unfold fieldText
      exact List.append_ne_nil_of_right_ne_nil _ (by decide)

/-- What a way to serve answers is the same with the query and without it. -/
def QueryIgnored {Result : Type}
    (run : Request → Nat → Store → Response → (Except Codec Result × Response) × Store)
    (plain asked : Request) (now : Nat) (store : Store) (response : Response) : Prop :=
  (run plain now store response).1 = (run asked now store response).1

/-- Two requests that differ in nothing but the query of the second. -/
structure DiffersInQuery (plain asked : Request) (path query : Bytes) : Prop where
  bare : plain.Origin path
  queried : asked.Origin (path ++ question :: query)
  method : asked.method = plain.method
  fields : ∀ name, asked.headerId name = plain.headerId name

end Queries

/-- A request for a target of origin form, with no fields. -/
def bareRequest (target : Bytes) : Request where
  head := ascii "GET " ++ target
  fields := []
  parsed := some {
    method := some .get
    methodToken := ⟨0, 3⟩
    target := ⟨4, 4 + target.length⟩
    form := .origin
    path := ⟨4, 4 + target.length⟩
    authority := none
    host := none
    version := .http11
    fieldCount := 0
    body := .none
    keepAlive := true
    expect := .none
    upgrade := false
    len := 4 + target.length }

/-- A root with a page alone. -/
def pageAlone (relative : Bytes) : StateM Unit (Option Entry) :=
  pure (if relative = ascii "page" then
    some ⟨ascii "text", ⟨1, 0⟩, etagOf ⟨1, 0⟩ 4, ascii "text/plain"⟩ else none)

/-- The settings of a root that serves its files as they are. -/
def plainSettings : Settings := ⟨⟨none, .ignore, []⟩, ⟨none, false, false, false, false⟩, true, false⟩

theorem pageAlone_asked : DiffersInQuery (bareRequest (ascii "/page")) (bareRequest (ascii "/page?1"))
    (ascii "/page") (ascii "1") ∧
    Serves false plainSettings pageAlone () (ascii "/page") := by
  refine ⟨⟨⟨_, none, rfl, rfl, by decide, by decide⟩,
    ⟨_, none, rfl, rfl, by decide, by decide⟩, rfl, fun _ => rfl⟩,
    ⟨ascii "page", false⟩, (ascii "page", ⟨ascii "text", ⟨1, 0⟩, etagOf ⟨1, 0⟩ 4,
      ascii "text/plain"⟩), (), by decide +kernel, rfl⟩

/-- A page asked for with a query is not found. -/
theorem query_changes_answer :
    ¬ (∀ (windows : Bool) (settings : Settings) (entry : Bytes → StateM Unit (Option Entry))
      (plain asked : Request) (path query : Bytes) (now : Nat) (response : Response),
      DiffersInQuery plain asked path query →
      (plain.method = some .get ∨ plain.method = some .head) →
      Serves windows settings entry () path →
        QueryIgnored (tryServe windows settings entry) plain asked now () response ∧
          QueryIgnored (serve windows settings entry) plain asked now () response) := by
  intro claimed
  obtain ⟨differs, serves⟩ := pageAlone_asked
  have ignored := (claimed _ _ _ _ _ _ _ 0 Response.fresh differs (.inl rfl) serves).1
  have missed := @tryServe_question false plainSettings Unit pageAlone
    (bareRequest (ascii "/page?1")) 0 () Response.fresh (.inl rfl) (by decide)
  have written := @tryServe_serves false plainSettings Unit pageAlone
    (bareRequest (ascii "/page")) 0 () Response.fresh (.inl rfl) serves
  unfold QueryIgnored at ignored
  rw [ignored, missed] at written
  rcases written with ⟨refused, never⟩ | ⟨after, never, -⟩ <;> cases never

/-- A request with a query is missed and answered with 404, and never as the file its path names. -/
theorem query_refused {windows : Bool} {settings : Settings} {Store : Type}
    {entry : Bytes → StateM Store (Option Entry)} {now : Nat} {store : Store} {response : Response}
    {plain asked : Request} {path query : Bytes}
    (differs : DiffersInQuery plain asked path query)
    (getOrHead : plain.method = some .get ∨ plain.method = some .head)
    (serves : Serves windows settings entry store path) :
    tryServe windows settings entry asked now store response = ((.ok .miss, response), store) ∧
      serve windows settings entry asked now store response =
        ((.ok (), response.setStatus .notFound), store) ∧
      ¬ QueryIgnored (tryServe windows settings entry) plain asked now store response ∧
      ¬ QueryIgnored (serve windows settings entry) plain asked now store response := by
  have member : question ∈ asked.path := by
    rw [differs.queried.path]
    exact List.mem_append_right _ List.mem_cons_self
  have same : asked.method = some .get ∨ asked.method = some .head := by
    rw [differs.method]
    exact getOrHead
  have missed := @tryServe_question windows settings Store entry asked now store response same member
  have notFound := @serve_question windows settings Store entry asked now store response same member
  have written := @tryServe_serves windows settings Store entry plain now store response getOrHead
    (differs.bare.path.symm ▸ serves)
  refine ⟨missed, notFound, ?_, ?_⟩ <;> unfold QueryIgnored
  · rw [missed]
    intro ignored
    rw [ignored] at written
    rcases written with ⟨refused, never⟩ | ⟨after, never, -⟩ <;> cases never
  · rw [notFound]
    intro ignored
    have served : ∀ result later, tryServe windows settings entry plain now store response =
        (result, later) → (serve windows settings entry plain now store response).1 =
          (match result with
          | (.error refused, response) => (.error refused, response)
          | (.ok .miss, response) => (.ok (), response.setStatus .notFound)
          | (.ok .written, response) => (.ok (), response)) := by
      intro result later ran
      unfold tryServe at ran
      unfold serve servePath
      rw [ran]
      rcases result with ⟨refused | kind, after⟩
      · rfl
      · cases kind <;> rfl
    rcases ran : tryServe windows settings entry plain now store response with ⟨result, later⟩
    rw [served result later ran] at ignored
    rw [ran] at written
    rcases written with ⟨refused, fails⟩ | ⟨after, written, longer⟩
    · obtain ⟨first, after⟩ := result
      cases fails
      cases ignored
    · cases written
      cases ignored
      exact Nat.lt_irrefl _ longer

/-- A page is served, and missed with a query. -/
theorem query_refused_page :
    tryServe false plainSettings pageAlone (bareRequest (ascii "/page?1")) 0 () Response.fresh =
      ((.ok .miss, Response.fresh), ()) :=
  (query_refused pageAlone_asked.1 (.inl rfl) pageAlone_asked.2).1

end ZeroServer.Static

/-
This file models a request as a handler reads it: the head as it was received, the fields that were
found in it and what the parser decided. The path of an origin-form target is the target as it is,
its query included.
-/

import ZeroServer.Http.Record
import ZeroServer.Uri.Path

namespace ZeroServer.Http

open Http1

/-- The request as received. -/
structure Request where
  head : Bytes
  fields : List Field
  parsed : Option Head

namespace Request

variable (request : Request)

def method : Option Method := request.parsed.bind Head.method

/-- The path and query of the target. -/
def path : Bytes := (request.parsed.map fun head => head.path.of request.head).getD []

/-- The first field with an interned name. -/
def headerId (name : HeaderName) : Option Bytes :=
  (request.fields.find? fun field => field.id == some name).map fun field =>
    field.value.of request.head

/-- A request whose target the parser found to be of origin form. -/
structure Origin (request : Request) (target : Bytes) : Prop where
  parsed : ∃ head authority, request.parsed = some head ∧ head.form = .origin ∧
    classifyTarget head.target request.head head.method = .ok (head.form, head.path, authority) ∧
    head.target.of request.head = target

variable {request : Request} {target : Bytes}

/-- The path of an origin-form target is the whole target. -/
theorem Origin.path (origin : Origin request target) : request.path = target := by
  obtain ⟨head, authority, parsed, form, classified, rfl⟩ := origin.parsed
  have whole : head.path = head.target := by
    unfold classifyTarget at classified
    dsimp only at classified
    rw [form] at classified
    split at classified
    · split at classified
      · cases classified
      · cases classified
    · split at classified
      · split at classified
        · cases classified
        · exact (Prod.mk.inj (Prod.mk.inj (Except.ok.inj classified)).2).1.symm
      · split at classified
        · unfold classifyAbsolute at classified
          dsimp only at classified
          split at classified
          · cases classified
          · split at classified
            · cases classified
            · split at classified
              · cases classified
              · cases classified
        · split at classified
          · cases classified
          · split at classified
            · cases classified
            · split at classified
              · cases classified
              · cases classified
  unfold Request.path
  rw [parsed, Option.map_some, Option.getD_some, whole]

end Request

end ZeroServer.Http

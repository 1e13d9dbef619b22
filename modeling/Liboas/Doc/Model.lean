import Liboas.Schema.Model
import Mathlib.Data.List.ReduceOption

/-!
# The document model (`oas_doc.h`)

`α` stands for the pointers to schemas. An array and its count are a list, and what can be
null is an `Option`. `map` replaces the schemas, and `schemas` lists them.
-/

namespace Liboas

variable {α β : Type}

/-! ## Metadata -/

structure Contact where
  name : Option CStr
  url : Option CStr
  email : Option CStr

structure License where
  name : Option CStr
  url : Option CStr

structure Info where
  title : Option CStr
  summary : Option CStr
  description : Option CStr
  version : Option CStr
  termsOfService : Option CStr
  contact : Option Contact
  license : Option License

structure ServerVar where
  name : CStr
  defaultValue : Option CStr
  description : Option CStr
  enumValues : List (Option CStr)

structure Server where
  url : Option CStr
  description : Option CStr
  vars : List ServerVar

structure SecurityReq where
  name : CStr
  scopes : List (Option CStr)

structure OauthFlow where
  authorizationUrl : Option CStr
  tokenUrl : Option CStr
  refreshUrl : Option CStr
  /-- The names with their descriptions. -/
  scopes : List (CStr × Option CStr)

structure OauthFlows where
  implicit : Option OauthFlow
  password : Option OauthFlow
  clientCredentials : Option OauthFlow
  authorizationCode : Option OauthFlow

structure SecurityScheme where
  type : Option CStr
  name : Option CStr
  in_ : Option CStr
  scheme : Option CStr
  bearerFormat : Option CStr
  description : Option CStr
  openIdConnectUrl : Option CStr
  flows : Option OauthFlows

structure Tag where
  name : Option CStr
  description : Option CStr

/-! ## Operations -/

/-- `oas_media_type_entry_t` with the media type that it points to. -/
structure MediaTypeEntry (α : Type) where
  key : CStr
  schema : Option α

structure Parameter (α : Type) where
  name : Option CStr
  in_ : Option CStr
  description : Option CStr
  required : Bool
  deprecated : Bool
  schema : Option α

structure RequestBody (α : Type) where
  description : Option CStr
  required : Bool
  content : List (MediaTypeEntry α)

structure Response (α : Type) where
  description : Option CStr
  content : List (MediaTypeEntry α)

structure ResponseEntry (α : Type) where
  statusCode : CStr
  response : Response α

structure Operation (α : Type) where
  operationId : Option CStr
  summary : Option CStr
  description : Option CStr
  tags : List (Option CStr)
  parameters : List (Option (Parameter α))
  requestBody : Option (RequestBody α)
  responses : List (ResponseEntry α)
  security : List (Option SecurityReq)
  deprecated : Bool

structure PathItem (α : Type) where
  get : Option (Operation α)
  post : Option (Operation α)
  put : Option (Operation α)
  delete_ : Option (Operation α)
  patch : Option (Operation α)
  head : Option (Operation α)
  options : Option (Operation α)
  parameters : List (Option (Parameter α))

/-- `oas_path_entry_t`. The item holds the same path again. -/
structure PathEntry (α : Type) where
  path : CStr
  item : PathItem α

/-! ## Documents -/

/-- `oas_components_t`. -/
structure Components (α : Type) where
  schemas : List (Entry α)
  securitySchemes : List (CStr × Option SecurityScheme)
  responses : List (CStr × Response α)
  parameters : List (CStr × Option (Parameter α))
  requestBodies : List (CStr × RequestBody α)
  headers : List (CStr × Option (Parameter α))

/-- `oas_doc_t`. -/
structure Doc (α : Type) where
  openapi : CStr
  info : Option Info
  servers : List (Option Server)
  paths : List (PathEntry α)
  components : Option (Components α)
  security : List (Option SecurityReq)
  tags : List Tag

/-! ## Replacing and listing the schemas -/

section Map

variable (f : α → β)

def MediaTypeEntry.map (e : MediaTypeEntry α) : MediaTypeEntry β := ⟨e.key, e.schema.map f⟩

def Parameter.map (p : Parameter α) : Parameter β := { p with schema := p.schema.map f }

def RequestBody.map (b : RequestBody α) : RequestBody β :=
  { b with content := b.content.map (MediaTypeEntry.map f) }

def Response.map (r : Response α) : Response β :=
  { r with content := r.content.map (MediaTypeEntry.map f) }

def ResponseEntry.map (e : ResponseEntry α) : ResponseEntry β := ⟨e.statusCode, e.response.map f⟩

def Operation.map (op : Operation α) : Operation β :=
  { op with
    parameters := op.parameters.map (Option.map (Parameter.map f))
    requestBody := op.requestBody.map (RequestBody.map f)
    responses := op.responses.map (ResponseEntry.map f) }

def PathItem.map (item : PathItem α) : PathItem β where
  get := item.get.map (Operation.map f)
  post := item.post.map (Operation.map f)
  put := item.put.map (Operation.map f)
  delete_ := item.delete_.map (Operation.map f)
  patch := item.patch.map (Operation.map f)
  head := item.head.map (Operation.map f)
  options := item.options.map (Operation.map f)
  parameters := item.parameters.map (Option.map (Parameter.map f))

def PathEntry.map (e : PathEntry α) : PathEntry β := ⟨e.path, e.item.map f⟩

def Components.map (c : Components α) : Components β where
  schemas := c.schemas.map (Entry.map f)
  securitySchemes := c.securitySchemes
  responses := c.responses.map (fun e => (e.1, e.2.map f))
  parameters := c.parameters.map (fun e => (e.1, e.2.map (Parameter.map f)))
  requestBodies := c.requestBodies.map (fun e => (e.1, e.2.map f))
  headers := c.headers.map (fun e => (e.1, e.2.map (Parameter.map f)))

def Doc.map (d : Doc α) : Doc β :=
  { d with
    paths := d.paths.map (PathEntry.map f)
    components := d.components.map (Components.map f) }

end Map

section Schemas

def contentSchemas (content : List (MediaTypeEntry α)) : List α :=
  content.flatMap (fun e => e.schema.toList)

def parameterSchemas (parameters : List (Option (Parameter α))) : List α :=
  parameters.flatMap (fun p => p.toList.flatMap (fun p => p.schema.toList))

def Operation.schemas (op : Operation α) : List α :=
  parameterSchemas op.parameters ++ op.requestBody.toList.flatMap (fun b => contentSchemas b.content) ++
  op.responses.flatMap (fun e => contentSchemas e.response.content)

/-- The operations of a path, in the order of the code. -/
def PathItem.operations (item : PathItem α) : List (Operation α) :=
  [item.get, item.post, item.put, item.delete_, item.patch, item.head, item.options].reduceOption

def PathItem.schemas (item : PathItem α) : List α :=
  parameterSchemas item.parameters ++ item.operations.flatMap Operation.schemas

def Components.allSchemas (c : Components α) : List α :=
  c.schemas.flatMap (fun e => e.schema.toList) ++
  c.responses.flatMap (fun e => contentSchemas e.2.content) ++
  parameterSchemas (c.parameters.map (·.2)) ++
  c.requestBodies.flatMap (fun e => contentSchemas e.2.content) ++
  parameterSchemas (c.headers.map (·.2))

/-- Every schema that the document points to. -/
def Doc.schemas (d : Doc α) : List α :=
  d.components.toList.flatMap Components.allSchemas ++ d.paths.flatMap (fun e => e.item.schemas)

variable (f : α → β)

theorem contentSchemas_map (content : List (MediaTypeEntry α)) :
    contentSchemas (content.map (MediaTypeEntry.map f)) = (contentSchemas content).map f := by
  simp [contentSchemas, List.flatMap_map, List.map_flatMap, MediaTypeEntry.map, Option.toList_map]

theorem parameterSchemas_map (parameters : List (Option (Parameter α))) :
    parameterSchemas (parameters.map (Option.map (Parameter.map f))) =
      (parameterSchemas parameters).map f := by
  simp [parameterSchemas, List.flatMap_map, List.map_flatMap, Parameter.map, Option.toList_map]

theorem Operation.schemas_map (op : Operation α) : (op.map f).schemas = op.schemas.map f := by
  simp [schemas, map, parameterSchemas_map, List.flatMap_map, List.map_flatMap, Option.toList_map,
    RequestBody.map, ResponseEntry.map, Response.map, contentSchemas_map]

theorem PathItem.operations_map (item : PathItem α) :
    (item.map f).operations = item.operations.map (Operation.map f) := by
  rw [operations, operations, ← List.reduceOption_map]
  rfl

theorem PathItem.schemas_map (item : PathItem α) : (item.map f).schemas = item.schemas.map f := by
  have hparameters : (item.map f).parameters = item.parameters.map (Option.map (Parameter.map f)) :=
    rfl
  simp [schemas, operations_map, hparameters, parameterSchemas_map, List.flatMap_map,
    List.map_flatMap, Operation.schemas_map]

theorem Components.allSchemas_map (c : Components α) :
    (c.map f).allSchemas = c.allSchemas.map f := by
  have hsection : ∀ l : List (CStr × Option (Parameter α)),
      parameterSchemas ((l.map (fun e => (e.1, e.2.map (Parameter.map f)))).map (·.2)) =
        (parameterSchemas (l.map (·.2))).map f := by
    intro l
    rw [← parameterSchemas_map, List.map_map, List.map_map]
    rfl
  simp only [allSchemas, map, hsection, List.map_append]
  simp [List.flatMap_map, List.map_flatMap, Option.toList_map, Response.map, RequestBody.map,
    contentSchemas_map]

theorem Doc.schemas_map (d : Doc α) : (d.map f).schemas = d.schemas.map f := by
  simp [schemas, map, List.flatMap_map, List.map_flatMap, Option.toList_map,
    Components.allSchemas_map, PathEntry.map, PathItem.schemas_map]

end Schemas

end Liboas

import Liboas.Doc.Model
import Liboas.Emitter.Members

/-!
# Emitting documents (`oas_emitter.c`)

`emit` is what `oas_emit_build_schema` makes of the schema behind a pointer.
-/

namespace Liboas.Emitter

open Json

variable {α : Type}

/-! ## Metadata -/

def contactFields (c : Contact) : List (String × Option Json) :=
  [("name", c.name.map emitStr), ("url", c.url.map emitStr), ("email", c.email.map emitStr)]

def licenseFields (l : License) : List (String × Option Json) :=
  [("name", l.name.map emitStr), ("url", l.url.map emitStr)]

def infoFields (info : Info) : List (String × Option Json) :=
  [("title", info.title.map emitStr),
    ("summary", info.summary.map emitStr),
    ("description", info.description.map emitStr),
    ("version", info.version.map emitStr),
    ("termsOfService", info.termsOfService.map emitStr),
    ("contact", info.contact.map (fun c => ofFields (contactFields c))),
    ("license", info.license.map (fun l => ofFields (licenseFields l)))]

def emitInfo (info : Info) : Json := ofFields (infoFields info)

/-- The strings of an array that is not empty. -/
def emitNonEmpty (texts : List (Option CStr)) : Option Json := unlessEmpty texts (emitTexts texts)

def serverVarFields (v : ServerVar) : List (String × Option Json) :=
  [("default", v.defaultValue.map emitStr),
    ("description", v.description.map emitStr),
    ("enum", emitNonEmpty v.enumValues)]

def serverFields (server : Server) : List (String × Option Json) :=
  [("url", server.url.map emitStr),
    ("description", server.description.map emitStr),
    ("variables", unlessEmpty server.vars (.obj (server.vars.map (fun v =>
      (v.name.bytes, ofFields (serverVarFields v))))))]

def emitServer (server : Server) : Json := ofFields (serverFields server)

/-- A requirement that is null stands for anonymous access. -/
def emitSecurityReq : Option SecurityReq → Json
  | none => .obj []
  | some req => .obj [(req.name.bytes, emitTexts req.scopes)]

def emitSecurity (security : List (Option SecurityReq)) : Option Json :=
  unlessEmpty security (.arr (security.map emitSecurityReq))

/-- The URL of OpenID Connect and the flows are not emitted. -/
def securitySchemeFields (scheme : SecurityScheme) : List (String × Option Json) :=
  [("type", scheme.type.map emitStr),
    ("name", scheme.name.map emitStr),
    ("in", scheme.in_.map emitStr),
    ("scheme", scheme.scheme.map emitStr),
    ("bearerFormat", scheme.bearerFormat.map emitStr),
    ("description", scheme.description.map emitStr)]

def tagFields (tag : Tag) : List (String × Option Json) :=
  [("name", tag.name.map emitStr), ("description", tag.description.map emitStr)]

/-! ## Operations -/

section Operations

variable (emit : α → Json)

def parameterFields (p : Parameter α) : List (String × Option Json) :=
  [("name", p.name.map emitStr),
    ("in", p.in_.map emitStr),
    ("description", p.description.map emitStr),
    ("required", emitTrue p.required),
    ("deprecated", emitTrue p.deprecated),
    ("schema", p.schema.map emit)]

def emitParameter (p : Parameter α) : Json := ofFields (parameterFields emit p)

def emitParameters (parameters : List (Option (Parameter α))) : Option Json :=
  emitSlots (parameters.map (Option.map (emitParameter emit)))

/-- `emit_media_type_content`. -/
def emitContent (content : List (MediaTypeEntry α)) : Option Json :=
  unlessEmpty content (.obj (content.map (fun e =>
    (e.key.bytes, ofFields [("schema", e.schema.map emit)]))))

def requestBodyFields (body : RequestBody α) : List (String × Option Json) :=
  [("description", body.description.map emitStr),
    ("required", emitTrue body.required),
    ("content", emitContent emit body.content)]

def emitRequestBody (body : RequestBody α) : Json := ofFields (requestBodyFields emit body)

def responseFields (response : Response α) : List (String × Option Json) :=
  [("description", response.description.map emitStr), ("content", emitContent emit response.content)]

def emitResponse (response : Response α) : Json := ofFields (responseFields emit response)

def emitResponses (entries : List (ResponseEntry α)) : Option Json :=
  unlessEmpty entries (.obj (entries.map (fun e =>
    (e.statusCode.bytes, emitResponse emit e.response))))

def operationFields (op : Operation α) : List (String × Option Json) :=
  [("operationId", op.operationId.map emitStr),
    ("summary", op.summary.map emitStr),
    ("description", op.description.map emitStr),
    ("tags", emitNonEmpty op.tags),
    ("parameters", emitParameters emit op.parameters),
    ("requestBody", op.requestBody.map (emitRequestBody emit)),
    ("responses", emitResponses emit op.responses),
    ("security", emitSecurity op.security),
    ("deprecated", emitTrue op.deprecated)]

def emitOperation (op : Operation α) : Json := ofFields (operationFields emit op)

def pathItemFields (item : PathItem α) : List (String × Option Json) :=
  [("get", item.get.map (emitOperation emit)),
    ("post", item.post.map (emitOperation emit)),
    ("put", item.put.map (emitOperation emit)),
    ("delete", item.delete_.map (emitOperation emit)),
    ("patch", item.patch.map (emitOperation emit)),
    ("head", item.head.map (emitOperation emit)),
    ("options", item.options.map (emitOperation emit)),
    ("parameters", emitParameters emit item.parameters)]

def emitPathItem (item : PathItem α) : Json := ofFields (pathItemFields emit item)

/-! ## Whole documents -/

/-- A section of `components`. What is null is not added. -/
def emitSection {β : Type} (emitOne : β → Option Json) (entries : List (CStr × β)) : Option Json :=
  unlessEmpty entries (.obj (entries.filterMap (fun e => (emitOne e.2).map (Prod.mk e.1.bytes))))

def componentsFields (c : Components α) : List (String × Option Json) :=
  [("schemas", emitEntries (c.schemas.map (Entry.map emit))),
    ("securitySchemes", emitSection (Option.map (fun s => ofFields (securitySchemeFields s)))
      c.securitySchemes),
    ("responses", emitSection (fun r => some (emitResponse emit r)) c.responses),
    ("parameters", emitSection (Option.map (emitParameter emit)) c.parameters),
    ("requestBodies", emitSection (fun b => some (emitRequestBody emit b)) c.requestBodies),
    ("headers", emitSection (Option.map (emitParameter emit)) c.headers)]

def emitComponents (c : Components α) : Json := ofFields (componentsFields emit c)

def docFields (d : Doc α) : List (String × Option Json) :=
  [("openapi", some (emitStr d.openapi)),
    ("info", d.info.map emitInfo),
    ("servers", emitSlots (d.servers.map (Option.map emitServer))),
    ("paths", unlessEmpty d.paths (.obj (d.paths.map (fun e =>
      (e.path.bytes, emitPathItem emit e.item))))),
    ("components", d.components.map (emitComponents emit)),
    ("tags", unlessEmpty d.tags (.arr (d.tags.map (fun tag => ofFields (tagFields tag))))),
    ("security", emitSecurity d.security)]

/-- `oas_emit_build_doc`. -/
def oasEmitBuildDoc (d : Doc α) : Json := ofFields (docFields emit d)

/-- `oas_doc_emit_json`, with the library's writer. -/
def oasDocEmitJson (write : Json → Option Bytes) (d : Doc α) : Option Bytes :=
  write (oasEmitBuildDoc emit d)

/-! ## The keys are fixed -/

theorem infoFields_keys (info : Info) : KeysFixed ((infoFields info).map (·.1)) := by
  show KeysFixed ["title", "summary", "description", "version", "termsOfService", "contact", "license"]
  decide

theorem serverFields_keys (server : Server) : KeysFixed ((serverFields server).map (·.1)) := by
  show KeysFixed ["url", "description", "variables"]
  decide

theorem securitySchemeFields_keys (scheme : SecurityScheme) :
    KeysFixed ((securitySchemeFields scheme).map (·.1)) := by
  show KeysFixed ["type", "name", "in", "scheme", "bearerFormat", "description"]
  decide

theorem parameterFields_keys (p : Parameter α) :
    KeysFixed ((parameterFields emit p).map (·.1)) := by
  show KeysFixed ["name", "in", "description", "required", "deprecated", "schema"]
  decide

theorem requestBodyFields_keys (body : RequestBody α) :
    KeysFixed ((requestBodyFields emit body).map (·.1)) := by
  show KeysFixed ["description", "required", "content"]
  decide

theorem responseFields_keys (response : Response α) :
    KeysFixed ((responseFields emit response).map (·.1)) := by
  show KeysFixed ["description", "content"]
  decide

theorem operationFields_keys (op : Operation α) :
    KeysFixed ((operationFields emit op).map (·.1)) := by
  show KeysFixed ["operationId", "summary", "description", "tags", "parameters", "requestBody",
    "responses", "security", "deprecated"]
  decide

theorem pathItemFields_keys (item : PathItem α) :
    KeysFixed ((pathItemFields emit item).map (·.1)) := by
  show KeysFixed ["get", "post", "put", "delete", "patch", "head", "options", "parameters"]
  decide

theorem componentsFields_keys (c : Components α) :
    KeysFixed ((componentsFields emit c).map (·.1)) := by
  show KeysFixed ["schemas", "securitySchemes", "responses", "parameters", "requestBodies", "headers"]
  decide

theorem docFields_keys (d : Doc α) : KeysFixed ((docFields emit d).map (·.1)) := by
  show KeysFixed ["openapi", "info", "servers", "paths", "components", "tags", "security"]
  decide

end Operations

end Liboas.Emitter

import Liboas.Parser.Ref

/-!
# The document parser (`oas_doc_parser.c`)

What the parser reads from an object stays null, empty or false when it is missing or of
another type.
-/

namespace Liboas

open Json

/-- The strings of an array; a slot of another type is null. -/
def strings (items : List Json) : List (Option CStr) := items.map getStr

/-! ## Metadata -/

def parseContact (v : Json) : Contact where
  name := v.strMember "name"
  url := v.strMember "url"
  email := v.strMember "email"

def parseLicense (v : Json) : License where
  name := v.strMember "name"
  url := v.strMember "url"

/-- `parse_info`, of an object. -/
def parseInfo (obj : Json) : Info where
  title := obj.strMember "title"
  summary := obj.strMember "summary"
  description := obj.strMember "description"
  version := obj.strMember "version"
  termsOfService := obj.strMember "termsOfService"
  contact := (obj.objMember "contact").map (fun members => parseContact (.obj members))
  license := (obj.objMember "license").map (fun members => parseLicense (.obj members))

def parseServerVar (m : Bytes × Json) : ServerVar where
  name := .ofBytes m.1
  defaultValue := m.2.strMember "default"
  description := m.2.strMember "description"
  enumValues := strings ((m.2.arrMember "enum").getD [])

def parseServer : Json → Option Server
  | .obj members => some
      { url := (Json.obj members).strMember "url"
        description := (Json.obj members).strMember "description"
        vars := (((Json.obj members).objMember "variables").getD []).map parseServerVar }
  | _ => none

/-- The first member of the object is the scheme; an empty one is anonymous access. -/
def parseSecurityReq : Json → Option SecurityReq
  | .obj ((key, val) :: _) => some ⟨.ofBytes key, match val with
      | .arr scopes => strings scopes
      | _ => []⟩
  | _ => none

/-- `parse_security_array`. -/
def parseSecurityArray (val : Option Json) : List (Option SecurityReq) :=
  match val with
  | some (.arr items) => items.map parseSecurityReq
  | _ => []

def parseOauthFlow (val : Option Json) : Option OauthFlow :=
  match val with
  | some (.obj members) => some
      { authorizationUrl := (Json.obj members).strMember "authorizationUrl"
        tokenUrl := (Json.obj members).strMember "tokenUrl"
        refreshUrl := (Json.obj members).strMember "refreshUrl"
        scopes := (((Json.obj members).objMember "scopes").getD []).map
          (fun m => (.ofBytes m.1, m.2.getStr)) }
  | _ => none

def parseOauthFlows (v : Json) : OauthFlows where
  implicit := parseOauthFlow (v.member "implicit")
  password := parseOauthFlow (v.member "password")
  clientCredentials := parseOauthFlow (v.member "clientCredentials")
  authorizationCode := parseOauthFlow (v.member "authorizationCode")

def parseSecurityScheme : Json → Option SecurityScheme
  | .obj members =>
    let obj := Json.obj members
    some
      { type := obj.strMember "type"
        description := obj.strMember "description"
        name := obj.strMember "name"
        in_ := obj.strMember "in"
        scheme := obj.strMember "scheme"
        bearerFormat := obj.strMember "bearerFormat"
        openIdConnectUrl := obj.strMember "openIdConnectUrl"
        flows := (obj.objMember "flows").map (fun flows => parseOauthFlows (.obj flows)) }
  | _ => none

def parseTag (tag : Json) : Tag where
  name := tag.strMember "name"
  description := tag.strMember "description"

/-! ## Operations -/

section Operations

variable (rt : Runtime)

/-- The member `schema`, if it is an object. -/
def schemaMember (obj : Json) : Option (Tree Nat) :=
  match obj.member "schema" with
  | some (.obj members) => oasSchemaParse rt (.obj members)
  | _ => none

def parseParameter : Json → Option (Parameter (Tree Nat))
  | .obj members =>
    let obj := Json.obj members
    some
      { name := obj.strMember "name"
        in_ := obj.strMember "in"
        description := obj.strMember "description"
        required := (obj.boolMember "required").getD false
        deprecated := (obj.boolMember "deprecated").getD false
        schema := schemaMember rt obj }
  | _ => none

def parseContent (val : Option Json) : List (MediaTypeEntry (Tree Nat)) :=
  match val with
  | some (.obj members) => members.map (fun m => ⟨.ofBytes m.1, schemaMember rt m.2⟩)
  | _ => []

def parseResponse (val : Json) : Response (Tree Nat) where
  description := val.strMember "description"
  content := parseContent rt (val.member "content")

def parseResponses (val : Option Json) : List (ResponseEntry (Tree Nat)) :=
  match val with
  | some (.obj members) => members.map (fun m => ⟨.ofBytes m.1, parseResponse rt m.2⟩)
  | _ => []

def parseRequestBody (val : Json) : RequestBody (Tree Nat) where
  description := val.strMember "description"
  required := (val.boolMember "required").getD false
  content := parseContent rt (val.member "content")

/-- The member `parameters`, in an operation or in a path item. -/
def parseParameters (obj : Json) : List (Option (Parameter (Tree Nat))) :=
  ((obj.arrMember "parameters").getD []).map (parseParameter rt)

/-- `parse_operation`, of an object. -/
def parseOperation (obj : Json) : Operation (Tree Nat) where
  operationId := obj.strMember "operationId"
  summary := obj.strMember "summary"
  description := obj.strMember "description"
  deprecated := (obj.boolMember "deprecated").getD false
  tags := strings ((obj.arrMember "tags").getD [])
  parameters := parseParameters rt obj
  requestBody := (obj.objMember "requestBody").map (fun members => parseRequestBody rt (.obj members))
  responses := parseResponses rt (obj.member "responses")
  security := parseSecurityArray (obj.member "security")

/-- The operation of a path item for one method. -/
def methodMember (obj : Json) (method : String) : Option (Operation (Tree Nat)) :=
  (obj.objMember method).map (fun members => parseOperation rt (.obj members))

def parsePathItem (obj : Json) : PathItem (Tree Nat) where
  get := methodMember rt obj "get"
  post := methodMember rt obj "post"
  put := methodMember rt obj "put"
  delete_ := methodMember rt obj "delete"
  patch := methodMember rt obj "patch"
  head := methodMember rt obj "head"
  options := methodMember rt obj "options"
  parameters := parseParameters rt obj

def parsePaths (root : Json) : List (PathEntry (Tree Nat)) :=
  ((root.objMember "paths").getD []).map (fun m => ⟨.ofBytes m.1, parsePathItem rt m.2⟩)

/-- The members of a section of `components`. -/
def componentMembers {β : Type} (obj : Json) (name : String) (parse : Json → β) : List (CStr × β) :=
  ((obj.objMember name).getD []).map (fun m => (.ofBytes m.1, parse m.2))

def parseComponents (val : Option Json) : Option (Components (Tree Nat)) :=
  match val with
  | some (.obj members) =>
    let obj := Json.obj members
    some
      { schemas := ((obj.objMember "schemas").getD []).map
          (fun m => ⟨.ofBytes m.1, oasSchemaParse rt m.2⟩)
        securitySchemes := componentMembers obj "securitySchemes" parseSecurityScheme
        responses := componentMembers obj "responses" (parseResponse rt)
        parameters := componentMembers obj "parameters" (parseParameter rt)
        requestBodies := componentMembers obj "requestBodies" (parseRequestBody rt)
        headers := componentMembers obj "headers" (parseParameter rt) }
  | _ => none

/-! ## Whole documents -/

/-- `check_openapi_version`. -/
def checkOpenapiVersion (version : CStr) : Bool := (ascii "3.").isPrefixOf version.bytes

/-- `oas_json_parse`. -/
def oasJsonParse (json : Bytes) (errors : ErrorList) : Option Json × ErrorList :=
  match rt.read json with
  | some root => (some root, errors)
  | none => (none, errors.add .parse (ascii "/") (ascii "JSON parse error at byte " ++
      decimal (rt.readError json).1 ++ ascii ": " ++ (rt.readError json).2))

/-- What `oas_doc_parse` reads, before it resolves. -/
def docOfRoot (root : Json) (openapi : CStr) (info : Json) : Doc (Tree Nat) where
  openapi := openapi
  info := some (parseInfo info)
  servers := ((root.arrMember "servers").getD []).map parseServer
  paths := parsePaths rt root
  components := parseComponents rt (root.member "components")
  security := parseSecurityArray (root.member "security")
  tags := ((root.arrMember "tags").getD []).map parseTag

/-- The part of `oas_doc_parse` before the references are resolved: the root and the
document. -/
def readDoc (json : Bytes) (errors : ErrorList) : Option (Json × Doc (Tree Nat)) × ErrorList :=
  match oasJsonParse rt json errors with
  | (none, errors) => (none, errors)
  | (some root, errors) =>
    if !root.isObj then (none, errors.add .parse (ascii "/") (ascii "root must be an object"))
    else
      match root.strMember "openapi" with
      | none => (none, errors.add .required (ascii "/openapi")
          (ascii "missing required field: openapi"))
      | some version =>
        if !checkOpenapiVersion version then
          (none, errors.add .schema (ascii "/openapi")
            (ascii "unsupported OpenAPI version: " ++ version.bytes ++ ascii " (expected 3.x)"))
        else
          match root.objMember "info" with
          | none => (none, errors.add .required (ascii "/info")
              (ascii "missing required field: info"))
          | some info => (some (root, docOfRoot rt root version (.obj info)), errors)

/-- `oas_doc_parse`. It does not look at the code of `oas_ref_resolve_all`. -/
def oasDocParse (json : Bytes) (errors : ErrorList) : Option (Doc (Tree Nat)) × ErrorList :=
  match readDoc rt json errors with
  | (none, errors) => (none, errors)
  | (some (root, d), errors) =>
    let r := oasRefResolveAll rt root d errors
    (some r.2.1, r.2.2)

/-! ## What is parsed is fresh -/

theorem schemaMember_fresh {obj : Json} {t : Tree Nat} (h : schemaMember rt obj = some t) :
    t.Fresh := by
  unfold schemaMember at h
  split at h
  · exact oasSchemaParse_fresh h
  · cases h

theorem parseContent_fresh (val : Option Json) :
    ∀ t ∈ contentSchemas (parseContent rt val), t.Fresh := by
  intro t ht
  obtain ⟨e, he, ht⟩ := List.mem_flatMap.mp ht
  unfold parseContent at he
  split at he
  · obtain ⟨m, -, rfl⟩ := List.mem_map.mp he
    exact schemaMember_fresh rt (Option.mem_toList.mp ht)
  · cases he

theorem parseParameter_fresh {γ : Type} (source : γ → Json) (l : List γ) :
    ∀ t ∈ parameterSchemas (l.map (fun x => parseParameter rt (source x))), t.Fresh := by
  intro t ht
  obtain ⟨slot, hslot, ht⟩ := List.mem_flatMap.mp ht
  obtain ⟨p, hp, ht⟩ := List.mem_flatMap.mp ht
  obtain ⟨x, -, rfl⟩ := List.mem_map.mp hslot
  have hp := Option.mem_toList.mp hp
  unfold parseParameter at hp
  split at hp
  · cases hp
    exact schemaMember_fresh rt (Option.mem_toList.mp ht)
  · cases hp

theorem parseOperation_fresh (obj : Json) : ∀ t ∈ (parseOperation rt obj).schemas, t.Fresh := by
  intro t ht
  rcases List.mem_append.mp ht with ht | ht
  · rcases List.mem_append.mp ht with ht | ht
    · exact parseParameter_fresh rt id _ t ht
    · obtain ⟨b, hb, ht⟩ := List.mem_flatMap.mp ht
      obtain ⟨members, -, rfl⟩ := Option.map_eq_some_iff.mp (Option.mem_toList.mp hb)
      exact parseContent_fresh rt _ t ht
  · obtain ⟨e, he, ht⟩ := List.mem_flatMap.mp ht
    unfold parseOperation parseResponses at he
    dsimp only at he
    split at he
    · obtain ⟨m, -, rfl⟩ := List.mem_map.mp he
      exact parseContent_fresh rt _ t ht
    · cases he

theorem parsePathItem_fresh (obj : Json) : ∀ t ∈ (parsePathItem rt obj).schemas, t.Fresh := by
  have hmethod : ∀ method op, methodMember rt obj method = some op → ∀ t ∈ op.schemas, t.Fresh := by
    intro method op hop
    obtain ⟨members, -, rfl⟩ := Option.map_eq_some_iff.mp hop
    exact parseOperation_fresh rt _
  intro t ht
  rcases List.mem_append.mp ht with ht | ht
  · exact parseParameter_fresh rt id _ t ht
  · obtain ⟨op, hop, ht⟩ := List.mem_flatMap.mp ht
    rw [PathItem.operations, List.reduceOption_mem_iff] at hop
    simp only [parsePathItem, List.mem_cons, List.not_mem_nil, or_false] at hop
    rcases hop with h | h | h | h | h | h | h <;> exact hmethod _ op h.symm t ht

theorem parseComponents_fresh {val : Option Json} {c : Components (Tree Nat)}
    (h : parseComponents rt val = some c) : ∀ t ∈ c.allSchemas, t.Fresh := by
  unfold parseComponents at h
  split at h
  · cases h
    intro t ht
    simp only [Components.allSchemas, List.mem_append, componentMembers, List.map_map] at ht
    rcases ht with (((ht | ht) | ht) | ht) | ht
    · obtain ⟨e, he, ht⟩ := List.mem_flatMap.mp ht
      obtain ⟨m, -, rfl⟩ := List.mem_map.mp he
      exact oasSchemaParse_fresh (Option.mem_toList.mp ht)
    · obtain ⟨e, he, ht⟩ := List.mem_flatMap.mp ht
      obtain ⟨m, -, rfl⟩ := List.mem_map.mp he
      exact parseContent_fresh rt _ t ht
    · exact parseParameter_fresh rt _ _ t ht
    · obtain ⟨e, he, ht⟩ := List.mem_flatMap.mp ht
      obtain ⟨m, -, rfl⟩ := List.mem_map.mp he
      exact parseContent_fresh rt _ t ht
    · exact parseParameter_fresh rt _ _ t ht
  · cases h

theorem docOfRoot_fresh (root : Json) (openapi : CStr) (info : Json) :
    ∀ t ∈ (docOfRoot rt root openapi info).schemas, t.Fresh := by
  intro t ht
  rcases List.mem_append.mp ht with ht | ht
  · obtain ⟨c, hc, ht⟩ := List.mem_flatMap.mp ht
    exact parseComponents_fresh rt (Option.mem_toList.mp hc) t ht
  · obtain ⟨e, he, ht⟩ := List.mem_flatMap.mp ht
    obtain ⟨m, -, rfl⟩ := List.mem_map.mp he
    exact parsePathItem_fresh rt _ t ht

/-- The schemas that the resolver gets are as they were parsed. -/
theorem readDoc_fresh {json : Bytes} {errors errors' : ErrorList} {root : Json}
    {d : Doc (Tree Nat)} (h : readDoc rt json errors = (some (root, d), errors')) :
    ∀ t ∈ d.schemas, t.Fresh := by
  unfold readDoc at h
  split at h
  · cases h
  · split at h
    · cases h
    · split at h
      · cases h
      · split at h
        · cases h
        · split at h
          · cases h
          · cases h
            exact docOfRoot_fresh rt _ _ _

end Operations

end Liboas

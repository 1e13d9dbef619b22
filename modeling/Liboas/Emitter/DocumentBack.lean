import Liboas.Emitter.Document
import Liboas.Emitter.ReadBack
import Liboas.Parser.DocParser

/-!
# Parsing a document that was emitted

A document comes back as it was, over what comes back of its schemas, when nothing in it is
null that the emitter leaves out.
-/

namespace Liboas.Emitter

open Json

/-! ## Reading members -/

section Members

variable {fields : List (String × Option Json)} {name : String} {β γ : Type}

/-- What is made of the members of an array. -/
theorem arrMember_back (hkeys : KeysFixed (fields.map (·.1))) {l : List β} {items : List Json}
    (h : (name, unlessEmpty l (.arr items)) ∈ fields) (hempty : l = [] → items = []) :
    ((readBack fields).arrMember name).getD [] = items.map reread := by
  rw [arrMember_read hkeys h]
  cases l with
  | nil => simp [hempty rfl]
  | cons a l => rfl

theorem objMember_back (hkeys : KeysFixed (fields.map (·.1))) {l : List β}
    {members : List (Bytes × Json)} (h : (name, unlessEmpty l (.obj members)) ∈ fields)
    (hempty : l = [] → members = []) :
    ((readBack fields).objMember name).getD [] = members.map (fun m => (m.1, m.2.reread)) := by
  rw [objMember_read hkeys h]
  cases l with
  | nil => simp [hempty rfl]
  | cons a l => rfl

theorem texts_back (hkeys : KeysFixed (fields.map (·.1))) {texts : List (Option CStr)}
    (h : (name, emitNonEmpty texts) ∈ fields) (htexts : none ∉ texts) :
    strings (((readBack fields).arrMember name).getD []) = texts := by
  rw [arrMember_back hkeys h (by rintro rfl; rfl), strings, getStr_texts, filter_isSome_eq]
  exact htexts

/-- The objects of an array, each read back. -/
theorem slots_back (hkeys : KeysFixed (fields.map (·.1))) {F : β → Json} {P : Json → Option γ}
    {G : β → γ} {slots : List (Option β)} (h : (name, emitSlots (slots.map (Option.map F))) ∈ fields)
    (hslots : none ∉ slots) (hback : ∀ b, some b ∈ slots → P (F b).reread = some (G b)) :
    (((readBack fields).arrMember name).getD []).map P = slots.map (Option.map G) := by
  have hread := arrMember_back hkeys h (by intro hnil; rw [hnil]; rfl)
  rw [hread]
  clear h hread
  induction slots with
  | nil => rfl
  | cons slot slots ih =>
    have htail := ih (fun hnone => hslots (List.mem_cons_of_mem _ hnone))
      (fun b hb => hback b (List.mem_cons_of_mem _ hb))
    cases slot with
    | none => exact absurd List.mem_cons_self hslots
    | some b => simpa [List.reduceOption_cons_of_some, hback b List.mem_cons_self] using htail

/-- The members of an object, each read back under its name. -/
theorem named_back (hkeys : KeysFixed (fields.map (·.1))) {key : β → CStr} {F : β → Json}
    {l : List β} (h : (name, unlessEmpty l (.obj (l.map (fun b => ((key b).bytes, F b))))) ∈ fields)
    (P : Bytes × Json → γ) :
    (((readBack fields).objMember name).getD []).map P =
      l.map (fun b => P ((key b).bytes, (F b).reread)) := by
  rw [objMember_back hkeys h (by rintro rfl; rfl), List.map_map, List.map_map]
  rfl

/-- A member that is an object. -/
theorem record_back (hkeys : KeysFixed (fields.map (·.1))) {F : β → List (String × Option Json)}
    {x : Option β} (h : (name, x.map (fun b => ofFields (F b))) ∈ fields) (P : Json → γ) :
    ((readBack fields).objMember name).map (fun members => P (.obj members)) =
      x.map (fun b => P (readBack (F b))) := by
  rw [objMember, member_read hkeys h]
  cases x with
  | none => rfl
  | some b =>
    obtain ⟨members, hmembers⟩ : ∃ members, readBack (F b) = .obj members := by
      have hobj := isObj_readBack (F b)
      cases hv : readBack (F b) with
      | obj members => exact ⟨members, rfl⟩
      | _ =>
        rw [hv] at hobj
        cases hobj
    have hread : (ofFields (F b)).reread = .obj members := hmembers
    simp [hread, hmembers]

theorem flag_back (hkeys : KeysFixed (fields.map (·.1))) {b : Bool}
    (h : (name, emitTrue b) ∈ fields) : ((readBack fields).boolMember name).getD false = b := by
  rw [boolMember_read hkeys h]
  cases b <;> rfl

end Members

/-! ## Metadata -/

theorem parseContact_back (c : Contact) : parseContact (readBack (contactFields c)) = c := by
  have hkeys : KeysFixed ((contactFields c).map (·.1)) := by
    show KeysFixed ["name", "url", "email"]
    decide
  obtain ⟨name, url, email⟩ := c
  unfold parseContact
  congr 1
  · exact strMember_read hkeys (by simp [contactFields])
  · exact strMember_read hkeys (by simp [contactFields])
  · exact strMember_read hkeys (by simp [contactFields])

theorem parseLicense_back (l : License) : parseLicense (readBack (licenseFields l)) = l := by
  have hkeys : KeysFixed ((licenseFields l).map (·.1)) := by
    show KeysFixed ["name", "url"]
    decide
  obtain ⟨name, url⟩ := l
  unfold parseLicense
  congr 1
  · exact strMember_read hkeys (by simp [licenseFields])
  · exact strMember_read hkeys (by simp [licenseFields])

theorem parseInfo_back (info : Info) : parseInfo (readBack (infoFields info)) = info := by
  have hkeys := infoFields_keys info
  have hcontact := @record_back _ "contact" _ _ hkeys contactFields info.contact
    (by simp [infoFields]) parseContact
  have hlicense := @record_back _ "license" _ _ hkeys licenseFields info.license
    (by simp [infoFields]) parseLicense
  simp only [parseContact_back, parseLicense_back, Option.map_id'] at hcontact hlicense
  unfold parseInfo
  rw [hcontact, hlicense]
  obtain ⟨title, summary, description, version, termsOfService, contact, license⟩ := info
  congr 1
  · exact strMember_read hkeys (by simp [infoFields])
  · exact strMember_read hkeys (by simp [infoFields])
  · exact strMember_read hkeys (by simp [infoFields])
  · exact strMember_read hkeys (by simp [infoFields])
  · exact strMember_read hkeys (by simp [infoFields])

theorem parseServerVar_back {v : ServerVar} (h : none ∉ v.enumValues) :
    parseServerVar (v.name.bytes, readBack (serverVarFields v)) = v := by
  have hkeys : KeysFixed ((serverVarFields v).map (·.1)) := by
    show KeysFixed ["default", "description", "enum"]
    decide
  obtain ⟨name, defaultValue, description, enumValues⟩ := v
  unfold parseServerVar
  congr 1
  · exact CStr.ofBytes_bytes name
  · exact strMember_read hkeys (by simp [serverVarFields])
  · exact strMember_read hkeys (by simp [serverVarFields])
  · exact texts_back hkeys (by simp [serverVarFields]) h

theorem readBack_obj (fields : List (String × Option Json)) :
    ∃ members, readBack fields = .obj members := by
  have hobj := isObj_readBack fields
  cases hv : readBack fields with
  | obj members => exact ⟨members, rfl⟩
  | _ =>
    rw [hv] at hobj
    cases hobj

theorem parseServer_back {server : Server} (h : ∀ v ∈ server.vars, none ∉ v.enumValues) :
    parseServer (readBack (serverFields server)) = some server := by
  have hkeys := serverFields_keys server
  have hvars := @named_back _ "variables" _ _ hkeys ServerVar.name
    (fun v => ofFields (serverVarFields v)) server.vars (by simp [serverFields]) parseServerVar
  have hsame : server.vars.map (fun v => parseServerVar (v.name.bytes, (ofFields (serverVarFields v)).reread)) =
      server.vars := by
    refine (List.map_congr_left (fun v hv => ?_)).trans (List.map_id _)
    exact parseServerVar_back (h v hv)
  obtain ⟨members, hmembers⟩ := readBack_obj (serverFields server)
  have hurl := @strMember_read _ "url" hkeys server.url (by simp [serverFields])
  have hdescription := @strMember_read _ "description" hkeys server.description
    (by simp [serverFields])
  rw [hmembers] at hvars hurl hdescription ⊢
  simp only [parseServer, hvars, hurl, hdescription, hsame]

theorem parseSecurityReq_back {req : Option SecurityReq} (h : ∀ r, req = some r → none ∉ r.scopes) :
    parseSecurityReq (emitSecurityReq req).reread = req := by
  cases req with
  | none => rfl
  | some r =>
    obtain ⟨name, scopes⟩ := r
    have hscopes : strings ((scopes.reduceOption.map emitStr).map reread) = scopes := by
      rw [strings, getStr_texts, filter_isSome_eq]
      exact h _ rfl
    simp only [emitSecurityReq, emitTexts, reread_obj, reread_arr, List.map_cons, List.map_nil,
      parseSecurityReq, CStr.ofBytes_bytes, hscopes]

theorem parseSecurityArray_back {fields : List (String × Option Json)} {name : String}
    (hkeys : KeysFixed (fields.map (·.1))) {security : List (Option SecurityReq)}
    (h : (name, emitSecurity security) ∈ fields) (hscopes : ∀ r, some r ∈ security → none ∉ r.scopes) :
    parseSecurityArray ((readBack fields).member name) = security := by
  rw [member_read hkeys h, emitSecurity, unlessEmpty]
  cases security with
  | nil => rfl
  | cons req security =>
    simp only [List.isEmpty_cons, Bool.false_eq_true, if_false, Option.map_some, reread_arr,
      parseSecurityArray, List.map_map]
    refine (List.map_congr_left (fun r hr => ?_)).trans (List.map_id _)
    exact parseSecurityReq_back (fun r' h' => hscopes r' (h' ▸ hr))

theorem parseTag_back (tag : Tag) : parseTag (readBack (tagFields tag)) = tag := by
  have hkeys : KeysFixed ((tagFields tag).map (·.1)) := by
    show KeysFixed ["name", "description"]
    decide
  obtain ⟨name, description⟩ := tag
  unfold parseTag
  congr 1
  · exact strMember_read hkeys (by simp [tagFields])
  · exact strMember_read hkeys (by simp [tagFields])

/-- What the emitter leaves out of a security scheme is not there. -/
structure PlainSecurityScheme (scheme : SecurityScheme) : Prop where
  openIdConnectUrl : scheme.openIdConnectUrl = none
  flows : scheme.flows = none

theorem parseSecurityScheme_back {scheme : SecurityScheme} (h : PlainSecurityScheme scheme) :
    parseSecurityScheme (readBack (securitySchemeFields scheme)) = some scheme := by
  have hkeys := securitySchemeFields_keys scheme
  have hmember : ∀ (name : String) (x : Option CStr), (name, x.map emitStr) ∈ securitySchemeFields scheme →
      (readBack (securitySchemeFields scheme)).strMember name = x := fun _ _ => strMember_read hkeys
  have hleft : ∀ {name : String}, (CStr.ofString name).bytes ∉
      ["type", "name", "in", "scheme", "bearerFormat", "description"].map ascii →
      (readBack (securitySchemeFields scheme)).member name = none := by
    intro name h
    exact member_read_none h
  have hurl : (readBack (securitySchemeFields scheme)).strMember "openIdConnectUrl" = none := by
    rw [strMember, hleft (by decide)]
    rfl
  have hflows : (readBack (securitySchemeFields scheme)).objMember "flows" = none := by
    rw [objMember, hleft (by decide)]
  obtain ⟨members, hmembers⟩ := readBack_obj (securitySchemeFields scheme)
  have htype := hmember "type" scheme.type (by simp [securitySchemeFields])
  have hname := hmember "name" scheme.name (by simp [securitySchemeFields])
  have hin := hmember "in" scheme.in_ (by simp [securitySchemeFields])
  have hscheme := hmember "scheme" scheme.scheme (by simp [securitySchemeFields])
  have hbearer := hmember "bearerFormat" scheme.bearerFormat (by simp [securitySchemeFields])
  have hdescription := hmember "description" scheme.description
    (by simp [securitySchemeFields])
  obtain ⟨type, name, in_, scheme, bearerFormat, description, openIdConnectUrl, flows⟩ := scheme
  obtain rfl : openIdConnectUrl = none := h.openIdConnectUrl
  obtain rfl : flows = none := h.flows
  rw [hmembers] at hurl hflows htype hname hin hscheme hbearer hdescription ⊢
  simp only [parseSecurityScheme, htype, hname, hin, hscheme, hbearer, hdescription, hurl, hflows,
    Option.map_none]

/-! ## Operations -/

section Operations

variable {α : Type} {emit : α → Json} {G : α → Tree Nat} {rt : Runtime}

/-- What is emitted for these schemas is parsed to what `G` says. -/
abbrev Back (rt : Runtime) (emit : α → Json) (G : α → Tree Nat) (schemas : List α) : Prop :=
  ∀ a ∈ schemas, Returns (oasSchemaParse rt) emit G a

theorem schemaMember_back {fields : List (String × Option Json)} (hkeys : KeysFixed (fields.map (·.1)))
    {schema : Option α} (h : ("schema", schema.map emit) ∈ fields) (hback : Back rt emit G schema.toList) :
    schemaMember rt (readBack fields) = schema.map G := by
  unfold schemaMember
  rw [member_read hkeys h]
  cases schema with
  | none => rfl
  | some a =>
    obtain ⟨hobj, hparse⟩ := hback a (Option.mem_toList.mpr rfl)
    rw [← isObj_reread] at hobj
    simp only [Option.map_some]
    cases hv : (emit a).reread with
    | obj members => rw [← hparse, hv]
    | _ => simp [hv, isObj] at hobj

theorem parseParameter_back {p : Parameter α} (hback : Back rt emit G p.schema.toList) :
    parseParameter rt (readBack (parameterFields emit p)) = some (p.map G) := by
  have hkeys := parameterFields_keys emit p
  have hname := @strMember_read _ "name" hkeys p.name (by simp [parameterFields])
  have hin := @strMember_read _ "in" hkeys p.in_ (by simp [parameterFields])
  have hdescription := @strMember_read _ "description" hkeys p.description
    (by simp [parameterFields])
  have hrequired := @flag_back _ "required" hkeys p.required (by simp [parameterFields])
  have hdeprecated := @flag_back _ "deprecated" hkeys p.deprecated
    (by simp [parameterFields])
  have hmem : ("schema", p.schema.map emit) ∈ parameterFields emit p := by simp [parameterFields]
  have hschema := schemaMember_back hkeys hmem hback
  obtain ⟨members, hmembers⟩ := readBack_obj (parameterFields emit p)
  rw [hmembers] at hname hin hdescription hrequired hdeprecated hschema ⊢
  simp only [parseParameter, hname, hin, hdescription, hrequired, hdeprecated, hschema]
  rfl

theorem parseParameters_back {fields : List (String × Option Json)} (hkeys : KeysFixed (fields.map (·.1)))
    {parameters : List (Option (Parameter α))} (h : ("parameters", emitParameters emit parameters) ∈ fields)
    (hnone : none ∉ parameters) (hback : Back rt emit G (parameterSchemas parameters)) :
    parseParameters rt (readBack fields) = parameters.map (Option.map (Parameter.map G)) := by
  refine slots_back hkeys h hnone (fun p hp => parseParameter_back (fun a ha => hback a ?_))
  exact List.mem_flatMap.mpr ⟨some p, hp, by simpa using ha⟩

theorem parseContent_back {fields : List (String × Option Json)} (hkeys : KeysFixed (fields.map (·.1)))
    {content : List (MediaTypeEntry α)} (h : ("content", emitContent emit content) ∈ fields)
    (hback : Back rt emit G (contentSchemas content)) :
    parseContent rt ((readBack fields).member "content") = content.map (MediaTypeEntry.map G) := by
  have hentry : ∀ e ∈ content, schemaMember rt (readBack [("schema", e.schema.map emit)]) =
      e.schema.map G := by
    intro e he
    refine schemaMember_back (by show KeysFixed ["schema"]; decide) (by simp) (fun a ha => hback a ?_)
    exact List.mem_flatMap.mpr ⟨e, he, ha⟩
  rw [member_read hkeys h, emitContent, unlessEmpty]
  cases content with
  | nil => rfl
  | cons e content =>
    simp only [List.isEmpty_cons, Bool.false_eq_true, if_false, Option.map_some, reread_obj,
      parseContent, List.map_map]
    refine List.map_congr_left (fun e he => ?_)
    simp only [Function.comp_apply, CStr.ofBytes_bytes]
    exact congrArg (MediaTypeEntry.mk e.key) (hentry e he)

theorem parseResponse_back {r : Response α} (hback : Back rt emit G (contentSchemas r.content)) :
    parseResponse rt (readBack (responseFields emit r)) = r.map G := by
  have hkeys := responseFields_keys emit r
  unfold parseResponse
  rw [parseContent_back hkeys (by simp [responseFields]) hback,
    strMember_read hkeys (x := r.description) (by simp [responseFields])]
  rfl

theorem parseResponses_back {fields : List (String × Option Json)} (hkeys : KeysFixed (fields.map (·.1)))
    {responses : List (ResponseEntry α)} (h : ("responses", emitResponses emit responses) ∈ fields)
    (hback : Back rt emit G (responses.flatMap (fun e => contentSchemas e.response.content))) :
    parseResponses rt ((readBack fields).member "responses") = responses.map (ResponseEntry.map G) := by
  rw [member_read hkeys h, emitResponses, unlessEmpty]
  cases responses with
  | nil => rfl
  | cons e responses =>
    simp only [List.isEmpty_cons, Bool.false_eq_true, if_false, Option.map_some, reread_obj,
      parseResponses, List.map_map]
    refine List.map_congr_left (fun e he => ?_)
    simp only [Function.comp_apply, CStr.ofBytes_bytes]
    exact congrArg (ResponseEntry.mk e.statusCode) (parseResponse_back (fun a ha => hback a
      (List.mem_flatMap.mpr ⟨e, he, ha⟩)))

theorem parseRequestBody_back {b : RequestBody α} (hback : Back rt emit G (contentSchemas b.content)) :
    parseRequestBody rt (readBack (requestBodyFields emit b)) = b.map G := by
  have hkeys := requestBodyFields_keys emit b
  unfold parseRequestBody
  rw [parseContent_back hkeys (by simp [requestBodyFields]) hback,
    flag_back hkeys (b := b.required) (by simp [requestBodyFields]),
    strMember_read hkeys (x := b.description) (by simp [requestBodyFields])]
  rfl

/-- Nothing is null in an operation that the emitter leaves out. -/
structure WholeOperation (op : Operation α) : Prop where
  tags : none ∉ op.tags
  parameters : none ∉ op.parameters
  scopes : ∀ r, some r ∈ op.security → none ∉ r.scopes

theorem parseOperation_back {op : Operation α} (h : WholeOperation op)
    (hback : Back rt emit G op.schemas) :
    parseOperation rt (readBack (operationFields emit op)) = op.map G := by
  have hkeys := operationFields_keys emit op
  unfold Operation.schemas at hback
  have hmem : ("requestBody", op.requestBody.map (fun b => ofFields (requestBodyFields emit b))) ∈
      operationFields emit op := by
    show ("requestBody", op.requestBody.map (emitRequestBody emit)) ∈ _
    simp [operationFields]
  have hbody := record_back hkeys hmem (parseRequestBody rt)
  have hbody' : op.requestBody.map (fun b => parseRequestBody rt (readBack (requestBodyFields emit b))) =
      op.requestBody.map (RequestBody.map G) := by
    refine Option.map_congr (fun b hb => parseRequestBody_back (fun a ha => hback a ?_))
    exact List.mem_append_left _ (List.mem_append_right _ (List.mem_flatMap.mpr ⟨b, by simpa using hb, ha⟩))
  unfold parseOperation
  rw [hbody, hbody', strMember_read hkeys (x := op.operationId) (by simp [operationFields]),
    strMember_read hkeys (x := op.summary) (by simp [operationFields]),
    strMember_read hkeys (x := op.description) (by simp [operationFields]),
    flag_back hkeys (b := op.deprecated) (by simp [operationFields]),
    texts_back hkeys (by simp [operationFields]) h.tags,
    parseParameters_back hkeys (by simp [operationFields]) h.parameters
      (fun a ha => hback a (List.mem_append_left _ (List.mem_append_left _ ha))),
    parseResponses_back hkeys (by simp [operationFields])
      (fun a ha => hback a (List.mem_append_right _ ha)),
    parseSecurityArray_back hkeys (by simp [operationFields]) h.scopes]
  rfl

/-- Nothing is null in a path item that the emitter leaves out. -/
structure WholePath (item : PathItem α) : Prop where
  operations : ∀ op ∈ item.operations, WholeOperation op
  parameters : none ∉ item.parameters

theorem methodMember_back {fields : List (String × Option Json)} (hkeys : KeysFixed (fields.map (·.1)))
    {method : String} {slot : Option (Operation α)}
    (h : (method, slot.map (emitOperation emit)) ∈ fields) (hwhole : ∀ op, slot = some op → WholeOperation op)
    (hback : ∀ op, slot = some op → Back rt emit G op.schemas) :
    methodMember rt (readBack fields) method = slot.map (Operation.map G) := by
  have hmem : (method, slot.map (fun op => ofFields (operationFields emit op))) ∈ fields := h
  unfold methodMember
  rw [record_back hkeys hmem (parseOperation rt)]
  exact Option.map_congr (fun op hop => parseOperation_back (hwhole op hop) (hback op hop))

theorem parsePathItem_back {item : PathItem α} (h : WholePath item) (hback : Back rt emit G item.schemas) :
    parsePathItem rt (readBack (pathItemFields emit item)) = item.map G := by
  have hkeys := pathItemFields_keys emit item
  unfold PathItem.schemas at hback
  have hmethod : ∀ (method : String) (slot : Option (Operation α)),
      slot ∈ [item.get, item.post, item.put, item.delete_, item.patch, item.head, item.options] →
      (method, slot.map (emitOperation emit)) ∈ pathItemFields emit item →
      methodMember rt (readBack (pathItemFields emit item)) method = slot.map (Operation.map G) := by
    intro method slot hslot hmem
    have hop : ∀ op, slot = some op → op ∈ item.operations := by
      rintro op rfl
      exact List.reduceOption_mem_iff.mpr hslot
    refine methodMember_back hkeys hmem (fun op h' => h.operations op (hop op h')) ?_
    exact fun op h' a ha => hback a (List.mem_append_right _ (List.mem_flatMap.mpr ⟨op, hop op h', ha⟩))
  unfold parsePathItem
  rw [hmethod "get" item.get (by simp) (by simp [pathItemFields]),
    hmethod "post" item.post (by simp) (by simp [pathItemFields]),
    hmethod "put" item.put (by simp) (by simp [pathItemFields]),
    hmethod "delete" item.delete_ (by simp) (by simp [pathItemFields]),
    hmethod "patch" item.patch (by simp) (by simp [pathItemFields]),
    hmethod "head" item.head (by simp) (by simp [pathItemFields]),
    hmethod "options" item.options (by simp) (by simp [pathItemFields]),
    parseParameters_back hkeys (by simp [pathItemFields]) h.parameters
      (fun a ha => hback a (List.mem_append_left _ ha))]
  rfl

/-! ## Components -/

/-- Nothing is null in a section that the emitter leaves out. -/
structure WholeComponents (c : Components α) : Prop where
  schemas : ∀ e ∈ c.schemas, e.schema.isSome = true
  securitySchemes : ∀ e ∈ c.securitySchemes, ∃ scheme, e.2 = some scheme ∧ PlainSecurityScheme scheme
  parameters : ∀ e ∈ c.parameters, e.2.isSome = true
  headers : ∀ e ∈ c.headers, e.2.isSome = true

/-- A section in which nothing is null. -/
theorem section_back {β γ : Type} {fields : List (String × Option Json)} (hkeys : KeysFixed (fields.map (·.1)))
    {name : String} {emitOne : β → Option Json} {l : List (CStr × β)} {parse : Json → γ} {g : β → γ}
    (h : (name, emitSection emitOne l) ∈ fields)
    (hone : ∀ e ∈ l, ∃ v, emitOne e.2 = some v ∧ parse v.reread = g e.2) :
    componentMembers (readBack fields) name parse = l.map (fun e => (e.1, g e.2)) := by
  unfold componentMembers
  rw [objMember_back hkeys h (by rintro rfl; rfl), List.map_map]
  clear h
  induction l with
  | nil => rfl
  | cons e l ih =>
    obtain ⟨v, hv, hparse⟩ := hone e List.mem_cons_self
    rw [List.filterMap_cons, hv]
    simp only [Option.map_some, List.map_cons, Function.comp_apply, CStr.ofBytes_bytes, hparse,
      ih (fun e he => hone e (List.mem_cons_of_mem _ he))]

theorem schemas_back {fields : List (String × Option Json)} (hkeys : KeysFixed (fields.map (·.1)))
    {l : List (Entry α)} (h : ("schemas", emitEntries (l.map (Entry.map emit))) ∈ fields)
    (hl : ∀ e ∈ l, e.schema.isSome = true) (hback : Back rt emit G (l.flatMap (fun e => e.schema.toList))) :
    (((readBack fields).objMember "schemas").getD []).map
      (fun m => (⟨.ofBytes m.1, oasSchemaParse rt m.2⟩ : Entry (Tree Nat))) = l.map (Entry.map G) := by
  rw [objMember_back hkeys h (by intro hnil; rw [hnil]; rfl), List.map_map]
  clear h
  induction l with
  | nil => rfl
  | cons e l ih =>
    obtain ⟨a, ha⟩ := Option.isSome_iff_exists.mp (hl e List.mem_cons_self)
    have hparse := (hback a (List.mem_flatMap.mpr ⟨e, List.mem_cons_self, by simp [ha]⟩)).2
    have htail := ih (fun e he => hl e (List.mem_cons_of_mem _ he)) (fun b hb => hback b (by
      rw [List.flatMap_cons]
      exact List.mem_append_right _ hb))
    rw [List.map_cons, List.filterMap_cons]
    simp only [Entry.map_schema, Entry.map_name, ha, Option.map_some, List.map_cons,
      Function.comp_apply, CStr.ofBytes_bytes, hparse, htail]
    rw [Entry.map, ha]
    rfl

/-- The parameters, or the headers, of `components`. -/
theorem parameterSection_back {fields : List (String × Option Json)} (hkeys : KeysFixed (fields.map (·.1)))
    {name : String} {l : List (CStr × Option (Parameter α))}
    (h : (name, emitSection (Option.map (emitParameter emit)) l) ∈ fields)
    (hl : ∀ e ∈ l, e.2.isSome = true) (hback : Back rt emit G (parameterSchemas (l.map (·.2)))) :
    componentMembers (readBack fields) name (parseParameter rt) =
      l.map (fun e => (e.1, e.2.map (Parameter.map G))) := by
  refine section_back hkeys h (fun e he => ?_)
  obtain ⟨p, hp⟩ := Option.isSome_iff_exists.mp (hl e he)
  refine ⟨emitParameter emit p, by rw [hp]; rfl, ?_⟩
  rw [hp]
  refine parseParameter_back (fun a ha => hback a ?_)
  exact List.mem_flatMap.mpr ⟨some p, List.mem_map.mpr ⟨e, he, hp⟩, by simpa using ha⟩

theorem parseComponents_back {c : Components α} (h : WholeComponents c)
    (hback : Back rt emit G c.allSchemas) :
    parseComponents rt (some (readBack (componentsFields emit c))) = some (c.map G) := by
  have hkeys := componentsFields_keys emit c
  unfold Components.allSchemas at hback
  have hschemas := schemas_back hkeys (l := c.schemas) (by simp [componentsFields]) h.schemas
    (fun a ha => hback a (by simp [ha]))
  have hsecurity : componentMembers (readBack (componentsFields emit c)) "securitySchemes"
      parseSecurityScheme = c.securitySchemes := by
    refine (section_back hkeys (g := id) (by simp [componentsFields]; rfl) (fun e he => ?_)).trans
      (List.map_id _)
    obtain ⟨scheme, hscheme, hplain⟩ := h.securitySchemes e he
    exact ⟨_, by rw [hscheme]; rfl, (parseSecurityScheme_back hplain).trans hscheme.symm⟩
  have hresponses : componentMembers (readBack (componentsFields emit c)) "responses" (parseResponse rt) =
      c.responses.map (fun e => (e.1, e.2.map G)) := by
    refine @section_back _ _ _ hkeys _ (fun r => some (emitResponse emit r)) _ _ _ (by simp [componentsFields])
      (fun e he => ⟨_, rfl, parseResponse_back (fun a ha => hback a ?_)⟩)
    simp only [List.mem_append, List.mem_flatMap]
    exact .inl (.inl (.inl (.inr ⟨e, he, ha⟩)))
  have hbodies : componentMembers (readBack (componentsFields emit c)) "requestBodies"
      (parseRequestBody rt) = c.requestBodies.map (fun e => (e.1, e.2.map G)) := by
    refine @section_back _ _ _ hkeys _ (fun b => some (emitRequestBody emit b)) _ _ _ (by simp [componentsFields])
      (fun e he => ⟨_, rfl, parseRequestBody_back (fun a ha => hback a ?_)⟩)
    simp only [List.mem_append, List.mem_flatMap]
    exact .inl (.inr ⟨e, he, ha⟩)
  have hparameters := @parameterSection_back _ _ _ _ _ hkeys "parameters" c.parameters
    (by simp [componentsFields]) h.parameters (fun a ha => hback a (by simp [ha]))
  have hheaders := @parameterSection_back _ _ _ _ _ hkeys "headers" c.headers
    (by simp [componentsFields]) h.headers (fun a ha => hback a (by simp [ha]))
  obtain ⟨members, hmembers⟩ := readBack_obj (componentsFields emit c)
  rw [hmembers] at hschemas hsecurity hresponses hbodies hparameters hheaders ⊢
  simp only [parseComponents, hschemas, hsecurity, hresponses, hbodies, hparameters, hheaders]
  rfl

/-! ## Whole documents -/

/-- Nothing is null in a document that the emitter leaves out. -/
structure WholeDoc (d : Doc α) : Prop where
  info : d.info.isSome = true
  servers : ∀ slot ∈ d.servers, ∃ server, slot = some server ∧ ∀ v ∈ server.vars, none ∉ v.enumValues
  paths : ∀ e ∈ d.paths, WholePath e.item
  components : ∀ c, d.components = some c → WholeComponents c
  scopes : ∀ r, some r ∈ d.security → none ∉ r.scopes

/-- A document that is emitted is read back as it was, over what comes back of its schemas. -/
theorem docOfRoot_back {d : Doc α} {info : Info} (hinfo : d.info = some info) (h : WholeDoc d)
    (hback : Back rt emit G d.schemas) :
    docOfRoot rt (readBack (docFields emit d)) d.openapi (readBack (infoFields info)) = d.map G := by
  have hkeys := docFields_keys emit d
  unfold Doc.schemas at hback
  have hservers : (((readBack (docFields emit d)).arrMember "servers").getD []).map parseServer =
      d.servers := by
    have hmem : ("servers", emitSlots (d.servers.map (Option.map emitServer))) ∈ docFields emit d := by
      simp [docFields]
    refine (slots_back hkeys (F := emitServer) (G := id) hmem ?_ ?_).trans ?_
    · intro hnone
      obtain ⟨server, hserver, -⟩ := h.servers none hnone
      cases hserver
    · intro server hmem
      obtain ⟨server', hserver, hvars⟩ := h.servers (some server) hmem
      cases hserver
      exact parseServer_back hvars
    · simp
  have hpaths : parsePaths rt (readBack (docFields emit d)) = d.paths.map (PathEntry.map G) := by
    have hnamed := @named_back _ "paths" _ _ hkeys PathEntry.path
      (fun e : PathEntry α => emitPathItem emit e.item) d.paths (by simp [docFields])
      (fun m => (⟨.ofBytes m.1, parsePathItem rt m.2⟩ : PathEntry (Tree Nat)))
    refine hnamed.trans (List.map_congr_left (fun e he => ?_))
    rw [CStr.ofBytes_bytes]
    refine congrArg (PathEntry.mk e.path) (parsePathItem_back (h.paths e he) (fun a ha => hback a ?_))
    exact List.mem_append_right _ (List.mem_flatMap.mpr ⟨e, he, ha⟩)
  have hcomponents : parseComponents rt ((readBack (docFields emit d)).member "components") =
      d.components.map (Components.map G) := by
    rw [member_read hkeys (v := d.components.map (emitComponents emit)) (by simp [docFields])]
    cases hc : d.components with
    | none => rfl
    | some c =>
      refine parseComponents_back (h.components c hc) (fun a ha => hback a ?_)
      exact List.mem_append_left _ (List.mem_flatMap.mpr ⟨c, by simp [hc], ha⟩)
  have htags : (((readBack (docFields emit d)).arrMember "tags").getD []).map parseTag = d.tags := by
    rw [arrMember_back hkeys (l := d.tags) (by simp [docFields]; rfl) (by intro hnil; rw [hnil]; rfl),
      List.map_map, List.map_map]
    exact (List.map_congr_left (fun tag _ => parseTag_back tag)).trans (List.map_id _)
  unfold docOfRoot
  rw [parseInfo_back, hservers, hpaths, hcomponents, htags,
    parseSecurityArray_back hkeys (by simp [docFields]) h.scopes]
  rw [Doc.map, hinfo]

/-- What is read from the text of such a document. -/
theorem readDoc_back {d : Doc α} (h : WholeDoc d) (hversion : checkOpenapiVersion d.openapi = true)
    (hback : Back rt emit G d.schemas) {text : Bytes}
    (hread : rt.read text = some (oasEmitBuildDoc emit d).reread) (errors : ErrorList) :
    readDoc rt text errors = (some (readBack (docFields emit d), d.map G), errors) := by
  have hkeys := docFields_keys emit d
  obtain ⟨info, hinfo⟩ := Option.isSome_iff_exists.mp h.info
  have hopenapi := @strMember_read _ "openapi" hkeys (some d.openapi) (by simp [docFields])
  have hmember : (readBack (docFields emit d)).member "info" = some (readBack (infoFields info)) := by
    rw [member_read hkeys (v := d.info.map emitInfo) (by simp [docFields]), hinfo]
    rfl
  obtain ⟨members, hmembers⟩ := readBack_obj (infoFields info)
  have hobj : (readBack (docFields emit d)).objMember "info" = some members := by
    rw [objMember, hmember, hmembers]
  have hparse : oasJsonParse rt text errors = (some (readBack (docFields emit d)), errors) := by
    rw [oasJsonParse, hread]
    rfl
  unfold readDoc
  simp only [hparse, isObj_readBack, hopenapi, hversion, hobj, Bool.not_true, Bool.false_eq_true,
    if_false]
  rw [← hmembers, docOfRoot_back hinfo h hback]

end Operations

end Liboas.Emitter
